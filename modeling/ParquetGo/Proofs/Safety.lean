import ParquetGo.Proofs.Cardinalities

/-!
# A value of the schema's type never makes `Schema.Traverse` panic

`Schema.Traverse` calls `reflect` on the value it is given: `Elem` under an Optional node,
`Len`, `IsNil` and `Index` under a Repeated one, `FieldByIndex` in a group, each of which
panics on a value of the wrong kind.  For a value of the Go type the schema was built from,
every such call is on the right kind, unless the schema is one of the shapes
`traverseFuncOf` compiles wrongly: a decoration it hides under `Required` (an Optional or
Repeated node directly under another, or a `LIST` element that is one), or two fields of a
struct under one name, where `ChildByName` finds the first for both.  Outside those, a run
returns, with the sink's first error or nil, whatever the sink (`traverseValue_no_panic`).
Each leaf then receives the zero `Value` or a Go value of a type that fits its physical kind
(`LeafFits`), which is what `makeValue` reads it as (`traverseValue_leaf_values`).

## Strategy

`Takes env f t` says that the plan `f` goes through the zero `Value` and every value of type `t`
without a panic, and hands each leaf a value that fits it, on the paths of `Paths.lean`.  One lemma per closure says what it needs of its
child (`Takes.optional`, `Takes.repeated`, `Takes.group`).  On the compiler's side,
`traverseFuncOf` only asks a node the questions of the `Node` interface (`Node.Same`,
`traverseFuncOf_same`), so `Encoded`, `Compressed` and a `Required` over a node without
cardinality change nothing.  `Node.WellShaped` is the shape the compiler follows: at most one
Optional or Repeated decoration at the top of any node (`Node.decorations`), none at the top
of a `LIST` element, distinct names in every struct.  `CompilesFor env n t` says that every plan
of `n` takes `t`; it holds of each shape the builder makes (`CompilesFor.optionalNode`,
`.repeatedNode`, `.list`, `.structNode`, `.leaf`), of a field's node through the options of
its tag (`structFieldNode_compilesFor`), and, by induction on the fuel, of every well-shaped
node `nodeOf` builds for its type (`nodeOf_compilesFor`).  The run then matches its paths
(`traverseValue_refines`), which end without a panic.
-/

namespace ParquetGo

open Reflect (TypeEnv TypeId StructField HasType)

/-! ## Plans that take a type -/

section Plans

variable (env : TypeEnv)

/-- The Go types whose values `nodeOf` and the options of a tag give a leaf of physical kind
`kind`: booleans, the integers by width, floats, strings (also for `ENUM`, and for a `UUID` on
a string), `[16]byte` for `UUID`, and `deprecated.Int96`, or what an Optional node dereferences
it to when the program's `Int96` is a pointer type (Go's is an array). -/
def LeafFits (kind : Kind) (u : TypeId) : Prop :=
  match kind with
  | .boolean => env.kind u = .bool
  | .int32 => env.kind u ∈ [.int8, .int16, .int32, .uint8, .uint16, .uint32]
  | .int64 => env.kind u ∈ [.int, .int64, .uint, .uintptr, .uint64]
  | .int96 => u = env.int96 ∨ env.kind env.int96 = .ptr ∧ u = env.elem env.int96
  | .float => env.kind u = .float32
  | .double => env.kind u = .float64
  | .byteArray => env.kind u = .string
  | .fixedLenByteArray => env.kind u = .string ∨
      env.kind u = .array ∧ env.kind (env.elem u) = .uint8 ∧ (env.desc u).len = 16

/-- A value that may reach a closure compiled for `t`: the zero `Value`, or a value of `t`. -/
def Typed (t : TypeId) (v : Reflect.Value) : Prop :=
  v = .invalid ∨ ∃ d, v = .valid t d ∧ HasType env d t

/-- What a run over a value should give: no panic, and at each leaf the zero `Value` or a value
of a type that fits the leaf. -/
structure Paths.Good (ps : Paths) : Prop where
  no_panic : ps.2 = none
  fits : ∀ p ∈ ps.1, p.value = .invalid ∨
    ∃ u d, p.value = .valid u d ∧ HasType env d u ∧ LeafFits env p.kind u

/-- The plan `f` takes `t`: from the zero `Value` and from every value of `t` it goes to good
paths. -/
def Takes (f : TraverseFunc) (t : TypeId) : Prop :=
  ∀ v, Typed env t v → Paths.Good env (shred env f v)

/-- The type of the value an Optional closure goes on with: the element type of a pointer, the
type itself otherwise. -/
def derefType (t : TypeId) : TypeId := if env.kind t = .ptr then env.elem t else t

variable {env}

theorem derefType_of_ptr {t : TypeId} (h : env.kind t = .ptr) : derefType env t = env.elem t :=
  if_pos h

theorem derefType_of_not_ptr {t : TypeId} (h : env.kind t ≠ .ptr) : derefType env t = t :=
  if_neg h

theorem Reflect.HasType.ptr_inv {d : Reflect.Data} {t : TypeId} (hd : HasType env d t)
    (h : env.kind t = .ptr) :
    ∃ target, d = .ptr target ∧ ∀ d', target = some d' → HasType env d' (env.elem t) := by
  cases hd with
  | ptr _ htarget => exact ⟨_, rfl, htarget⟩
  | _ => simp_all

theorem Reflect.HasType.slice_inv {d : Reflect.Data} {t : TypeId} (hd : HasType env d t)
    (h : env.kind t = .slice) :
    ∃ elems, d = .slice elems ∧ ∀ d' ∈ elems.getD [], HasType env d' (env.elem t) := by
  cases hd with
  | slice _ helems => exact ⟨_, rfl, helems⟩
  | _ => simp_all

theorem Paths.good_nil : Paths.Good env ([], none) := ⟨rfl, fun _ hp => absurd hp (List.not_mem_nil _)⟩

theorem Paths.Good.within {ps : Paths} (h : Paths.Good env ps) (s : Step) :
    Paths.Good env (ps.within s) :=
  ⟨h.no_panic, fun p hp => by
    obtain ⟨q, hq, rfl⟩ := Paths.mem_within.1 hp
    exact h.fits q hq⟩

theorem Paths.Good.andThen {a b : Paths} (ha : Paths.Good env a) (hb : Paths.Good env b) :
    Paths.Good env (a.andThen b) := by
  rcases a with ⟨ps, _ | _⟩
  · rcases b with ⟨qs, panic⟩
    exact ⟨hb.no_panic, fun p hp => (Paths.mem_andThen hp).elim (ha.fits p) (hb.fits p)⟩
  · cases ha.no_panic

theorem Takes.leaf (column : Nat) {kind : Kind} {t : TypeId} (h : LeafFits env kind t) :
    Takes env (.leaf column kind) t := fun v hv => ⟨rfl, fun p hp => by
  rcases List.mem_singleton.1 hp with rfl
  rcases hv with rfl | ⟨d, rfl, hd⟩
  · exact .inl rfl
  · exact .inr ⟨t, d, rfl, hd, h⟩⟩

theorem Takes.noop (t : TypeId) : Takes env .noop t := fun _ _ => Paths.good_nil

/-- An Optional closure takes a type when its child takes what it goes on with. -/
theorem Takes.optional {f : TraverseFunc} {t : TypeId} (h : Takes env f (derefType env t)) :
    Takes env (.optional f) t := by
  have hinvalid := (h _ (.inl rfl)).within (.optional false)
  rintro v (rfl | ⟨d, rfl, hd⟩)
  · exact hinvalid
  · simp only [shred, shredOptional]
    split
    · exact hinvalid
    · rename_i hzero
      by_cases hptr : env.kind t = .ptr
      · obtain ⟨target, rfl, htarget⟩ := hd.ptr_inv hptr
        rw [derefType_of_ptr hptr] at h
        cases target with
        | none => simp [Reflect.Data.isZero] at hzero
        | some d' =>
          simp only [hptr, if_true, Reflect.Value.elem]
          exact (h _ (.inr ⟨d', rfl, htarget d' rfl⟩)).within _
      · rw [derefType_of_not_ptr hptr] at h
        simp only [hptr, if_false]
        exact (h _ (.inr ⟨d, rfl, hd⟩)).within _

theorem shredElements_good {f : TraverseFunc} {t : TypeId} (h : Takes env f (env.elem t))
    {elems : List Reflect.Data} (helems : ∀ d ∈ elems, HasType env d (env.elem t))
    (nonNil : Bool) :
    ∀ remaining i, i + remaining ≤ elems.length → Paths.Good env
      (shredElements env (shred env f) nonNil (.valid t (.slice (some elems))) remaining i)
  | 0, _, _ => Paths.good_nil
  | remaining + 1, i, hi => by
      have hget : elems[i]? = some elems[i] := List.getElem?_eq_getElem (by omega)
      simp only [shredElements, Reflect.Value.index, Option.getD_some, hget]
      exact ((h _ (.inr ⟨_, rfl, helems _ (List.getElem_mem _)⟩)).within _).andThen
        (shredElements_good h helems nonNil remaining (i + 1) (by omega))

/-- A Repeated closure takes a slice type when its child takes the element type. -/
theorem Takes.repeated {f : TraverseFunc} {t : TypeId} (hslice : env.kind t = .slice)
    (h : Takes env f (env.elem t)) : Takes env (.repeated f) t := by
  rintro v (rfl | ⟨d, rfl, hd⟩)
  · exact (h _ (.inl rfl)).within _
  · obtain ⟨elems, rfl, helems⟩ := hd.slice_inv hslice
    simp only [shred, shredRepeated, Reflect.Value.len, Reflect.Value.isNil]
    split
    · exact (h _ (.inl rfl)).within _
    · cases elems with
      | none => simp at *
      | some elems => exact shredElements_good h helems _ _ 0 (by simp)

theorem shredGroup_good {funcs : List TraverseFunc}
    {valueAt : Nat → Except String Reflect.Value} :
    ∀ {i}, (∀ j (hj : j < funcs.length), ∃ w, valueAt (i + j) = .ok w ∧
      Paths.Good env (shred env funcs[j] w)) → Paths.Good env (shred.shredGroup env funcs i valueAt) := by
  induction funcs with
  | nil => exact fun _ => Paths.good_nil
  | cons f funcs ih =>
    intro i h
    obtain ⟨w, hw, hf⟩ := h 0 (Nat.succ_pos _)
    simp only [shred.shredGroup, Nat.add_zero] at hw ⊢
    rw [hw]
    exact hf.andThen (ih fun j hj => by
      simpa [Nat.add_assoc, Nat.add_comm 1] using h (j + 1) (by simpa using hj))

/-- A group closure over a struct's fields takes the struct type when each child takes the type
of the field `ValueByIndex` reads for it. -/
theorem Takes.group {funcs : List TraverseFunc} {t : TypeId} {fields : List (Node × List Nat)}
    {names : List String}
    (h : ∀ j (hj : j < funcs.length), ∃ u, Takes env funcs[j] u ∧ ∀ d, HasType env d t →
      ∃ d', HasType env d' u ∧ valueByIndex env fields names (.valid t d) j = .ok (.valid u d')) :
    Takes env (.group (.byIndex fields names) funcs) t := by
  rintro v (rfl | ⟨d, rfl, hd⟩) <;> refine shredGroup_good fun j hj => ?_ <;>
    obtain ⟨u, hu, hread⟩ := h j hj
  · exact ⟨_, rfl, hu _ (.inl rfl)⟩
  · obtain ⟨d', hd', hj'⟩ := hread d hd
    exact ⟨_, by simpa [ChildValue.apply] using hj', hu _ (.inr ⟨d', rfl, hd'⟩)⟩

end Plans

/-! ## What the compiler asks a node -/

namespace Node

/-- Two nodes that answer alike every question `traverseFuncOf` asks. -/
structure Same (n m : Node) : Prop where
  optional : n.optional = m.optional
  repeated : n.repeated = m.repeated
  type : n.type = m.type
  numChildren : n.numChildren = m.numChildren
  childNames : n.childNames = m.childNames
  childByName : ∀ name, n.childByName name = m.childByName name
  unwrap : n.unwrap = m.unwrap

theorem Same.trans {n m k : Node} (h : n.Same m) (h' : m.Same k) : n.Same k :=
  ⟨h.optional.trans h'.optional, h.repeated.trans h'.repeated, h.type.trans h'.type,
    h.numChildren.trans h'.numChildren, h.childNames.trans h'.childNames,
    fun name => (h.childByName name).trans (h'.childByName name), h.unwrap.trans h'.unwrap⟩

/-- `Encoded` and `Compressed` answer every question as the node they wrap. -/
theorem same_encoded (n : Node) (encodings : List Encoding) : (encoded n encodings).Same n :=
  ⟨rfl, rfl, rfl, rfl, rfl, fun _ => rfl, rfl⟩

theorem same_compressed (n : Node) (codecs : List Codec) : (compressed n codecs).Same n :=
  ⟨rfl, rfl, rfl, rfl, rfl, fun _ => rfl, rfl⟩

/-- `Required` over a node that reports no cardinality hides nothing. -/
theorem same_required {n : Node} (ho : n.optional = false) (hr : n.repeated = false) :
    (ParquetGo.required n).Same n :=
  ⟨ho.symm, hr.symm, rfl, rfl, rfl, fun _ => rfl, rfl⟩

/-- `Required` hides the cardinality of the node it wraps, and nothing else. -/
theorem same_required_optionalNode (n : Node) :
    (ParquetGo.required (.optionalNode n)).Same (ParquetGo.required n) :=
  ⟨rfl, rfl, rfl, rfl, rfl, fun _ => rfl, rfl⟩

theorem same_required_repeatedNode (n : Node) :
    (ParquetGo.required (.repeatedNode n)).Same (ParquetGo.required n) :=
  ⟨rfl, rfl, rfl, rfl, rfl, fun _ => rfl, rfl⟩

end Node

theorem compileChildren_same (F : Nat → Node → Build (Nat × TraverseFunc)) {n m : Node}
    (h : ∀ name, n.childByName name = m.childByName name) :
    ∀ names c, compileChildren F n names c = compileChildren F m names c
  | [], _ => rfl
  | name :: names, c => by simp only [compileChildren, h name, compileChildren_same F h names]

/-- Under its decorations a node is a leaf, a group, a struct or a `LIST`. -/
theorem Node.unwrap_cases : ∀ n : Node, (∃ kind logicalType, n.unwrap = .leaf kind logicalType) ∨
    (∃ children, n.unwrap = .group children) ∨ (∃ fields names, n.unwrap = .structNode fields names) ∨
    ∃ g, n.unwrap = .listNode g
  | .optionalNode n | .repeatedNode n | .requiredNode n | .encodedNode n _ | .compressedNode n _ =>
      unwrap_cases n
  | .leaf _ _ => .inl ⟨_, _, rfl⟩
  | .group _ => .inr (.inl ⟨_, rfl⟩)
  | .structNode _ _ => .inr (.inr (.inl ⟨_, _, rfl⟩))
  | .listNode _ => .inr (.inr (.inr ⟨_, rfl⟩))

/-- `traverseFuncOf` compiles two nodes that answer alike to the same plan, unless they are
groups: the plan of a group keeps the node, for `ValueByName`. -/
theorem traverseFuncOf_same : ∀ (fuel c : Nat) {n m : Node}, n.Same m →
    (∀ children, m.unwrap ≠ .group children) → traverseFuncOf fuel c n = traverseFuncOf fuel c m
  | 0, _, _, _, _, _ => rfl
  | fuel + 1, c, n, m, h, hg => by
    have hreq : ∀ c, traverseFuncOf fuel c (required n) = traverseFuncOf fuel c (required m) :=
      fun c => traverseFuncOf_same fuel c
        ⟨rfl, rfl, h.type, h.numChildren, h.childNames, h.childByName, h.unwrap⟩ hg
    simp only [traverseFuncOf, traverseFuncOfOptional, traverseFuncOfRepeated,
      traverseFuncOfRequired, traverseFuncOfGroup, traverseFuncOfLeaf, isLeaf, h.optional,
      h.repeated, h.type, h.numChildren, h.childNames, h.childByName, h.unwrap, hreq,
      compileChildren_same _ h.childByName]
    rcases Node.unwrap_cases m with ⟨_, _, hu⟩ | ⟨children, hu⟩ | ⟨_, _, hu⟩ | ⟨_, hu⟩
    · have hleaf : (m.numChildren == 0) = true := by rw [← Node.numChildren_unwrap, hu]; rfl
      simp only [if_pos hleaf]
    · exact absurd hu (hg children)
    · simp only [hu]
    · have hlist : m.type.logicalType = some .list := by rw [← Node.type_unwrap, hu]; rfl
      simp only [if_pos hlist]

/-! ## The shapes the compiler follows -/

namespace Node

/-- The Optional and Repeated decorations at the top of a node, outermost first, through
`Encoded` and `Compressed`: `Optional()` and `Repeated()` report the first of them only. -/
def decorations : Node → List Cardinality
  | optionalNode node => .optional :: node.decorations
  | repeatedNode node => .repeated :: node.decorations
  | encodedNode node _ | compressedNode node _ => node.decorations
  | _ => []

/-- A node without decorations at its top reports no cardinality. -/
theorem flat_of_decorations : ∀ {n : Node}, n.decorations = [] →
    n.optional = false ∧ n.repeated = false
  | encodedNode n _, h | compressedNode n _, h => flat_of_decorations (n := n) h
  | leaf _ _, _ | group _, _ | structNode _ _, _ | listNode _, _ | requiredNode _, _ => ⟨rfl, rfl⟩
  | optionalNode _, h | repeatedNode _, h => nomatch h

/-- What `traverseFuncOf` needs of a node to follow the type it was built from: at most one
Optional or Repeated decoration at its top, none at the top of a `LIST`'s element, and distinct
names when it is a struct. -/
structure Plain (m : Node) : Prop where
  decorations : m.decorations.length ≤ 1
  element : m.type.logicalType = some .list → ∀ elem,
    (m.childByName "list" >>= Node.childByName "element") = .ok elem → elem.decorations = []
  names : ∀ fields names, m.unwrap = .structNode fields names → names.Nodup

/-- Every node reachable from `n` is plain: no decoration hides another from `traverseFuncOf`,
and no struct has two fields of one name. -/
def WellShaped (n : Node) : Prop := n.Everywhere Plain

/-- A node with the children, type and unwrapping of a well-shaped one is well shaped when its
own decorations fit. -/
theorem WellShaped.of_alike {n k : Node} (hk : k.WellShaped) (hdec : n.decorations.length ≤ 1)
    (hnames : n.childNames = k.childNames) (hby : ∀ name, n.childByName name = k.childByName name)
    (htype : n.type = k.type) (hunwrap : n.unwrap = k.unwrap) : n.WellShaped := by
  obtain ⟨⟨-, helem, hstruct⟩, hchildren⟩ := everywhere_iff.1 hk
  refine everywhere_iff.2 ⟨⟨hdec, fun hl elem he => helem (htype ▸ hl) elem (by rwa [← hby]),
    fun fields names hu => hstruct fields names (hunwrap ▸ hu)⟩,
    fun name hname c hc => hchildren name (hnames ▸ hname) c (hby name ▸ hc)⟩

theorem wellShaped_leaf (kind : Kind) (logicalType : Option LogicalType) :
    (Node.leaf kind logicalType).WellShaped :=
  everywhere_iff.2 ⟨⟨Nat.zero_le 1, fun _ _ h => (by cases h), fun _ _ h => (by cases h)⟩,
    fun _ h => (by cases h)⟩

/-- Two nodes with the same decorations, children, type and unwrapping are well shaped
together. -/
theorem wellShaped_alike_iff {n k : Node} (hdec : n.decorations = k.decorations)
    (hnames : n.childNames = k.childNames) (hby : ∀ name, n.childByName name = k.childByName name)
    (htype : n.type = k.type) (hunwrap : n.unwrap = k.unwrap) : n.WellShaped ↔ k.WellShaped :=
  ⟨fun h => h.of_alike (hdec ▸ (everywhere_iff.1 h).1.decorations) hnames.symm
      (fun name => (hby name).symm) htype.symm hunwrap.symm,
    fun h => h.of_alike (hdec ▸ (everywhere_iff.1 h).1.decorations) hnames hby htype hunwrap⟩

@[simp] theorem wellShaped_encoded_iff {n : Node} {encodings : List Encoding} :
    (encoded n encodings).WellShaped ↔ n.WellShaped :=
  wellShaped_alike_iff rfl rfl (fun _ => rfl) rfl rfl

@[simp] theorem wellShaped_compressed_iff {n : Node} {codecs : List Codec} :
    (compressed n codecs).WellShaped ↔ n.WellShaped :=
  wellShaped_alike_iff rfl rfl (fun _ => rfl) rfl rfl

/-- A node that adds one decoration to the top of another, and answers the rest as it does, is
well shaped exactly when the other is and has no decoration at its top. -/
theorem wellShaped_decorated_iff {n k : Node}
    (hdec : n.decorations.length = k.decorations.length + 1)
    (hnames : n.childNames = k.childNames) (hby : ∀ name, n.childByName name = k.childByName name)
    (htype : n.type = k.type) (hunwrap : n.unwrap = k.unwrap) :
    n.WellShaped ↔ k.WellShaped ∧ k.decorations = [] := by
  refine ⟨fun h => ?_, fun ⟨h, hk⟩ =>
    h.of_alike (by rw [hdec, List.length_eq_zero.2 hk]) hnames hby htype hunwrap⟩
  have hk : k.decorations = [] :=
    List.length_eq_zero.1 (by have := (everywhere_iff.1 h).1.decorations; omega)
  exact ⟨h.of_alike (by simp [hk]) hnames.symm (fun name => (hby name).symm) htype.symm
    hunwrap.symm, hk⟩

theorem wellShaped_optionalNode_iff {n : Node} :
    (Node.optionalNode n).WellShaped ↔ n.WellShaped ∧ n.decorations = [] :=
  wellShaped_decorated_iff rfl rfl (fun _ => rfl) rfl rfl

theorem wellShaped_repeatedNode_iff {n : Node} :
    (Node.repeatedNode n).WellShaped ↔ n.WellShaped ∧ n.decorations = [] :=
  wellShaped_decorated_iff rfl rfl (fun _ => rfl) rfl rfl

/-- A `LIST` is well shaped exactly when its element is and has no decoration at its top. -/
theorem wellShaped_list_iff {e : Node} : (list e).WellShaped ↔ e.WellShaped ∧ e.decorations = [] := by
  have helem : ((list e).childByName "list" >>= Node.childByName "element") = .ok e :=
    listElement_of_unwrap rfl
  refine ⟨fun h => ⟨Everywhere.element h rfl, (everywhere_iff.1 h).1.element rfl e helem⟩,
    fun ⟨he, hdec⟩ => everywhere_iff.2 ⟨⟨Nat.zero_le 1, fun _ elem h => ?_, nofun⟩,
      fun name hname c hc => ?_⟩⟩
  · rw [helem] at h
    cases h
    exact hdec
  · simp only [list, childNames, List.map, List.mem_singleton] at hname
    subst hname
    simp [list, childByName] at hc
    subst hc
    refine everywhere_iff.2 ⟨⟨Nat.le_refl 1, nofun, nofun⟩, fun name hname c hc => ?_⟩
    simp only [childNames, List.map, List.mem_singleton] at hname
    subst hname
    simp [childByName] at hc
    exact hc ▸ he

theorem exists_mem_of_childByIndex {fields : List (Node × List Nat)} {i : Int} {c : Node}
    (h : childByIndex fields i = .ok c) : ∃ p ∈ fields, p.1 = c := by
  unfold childByIndex sliceAt at h
  split at h
  · rename_i x hx
    split_ifs at hx
    exact ⟨x, List.getElem?_mem hx, by cases h; rfl⟩
  · cases h

/-- A struct node is well shaped when its names differ and its field nodes are well shaped. -/
theorem WellShaped.structNode {fields : List (Node × List Nat)} {names : List String}
    (hnames : names.Nodup) (hfields : ∀ p ∈ fields, p.1.WellShaped) :
    (Node.structNode fields names).WellShaped :=
  everywhere_iff.2 ⟨⟨Nat.zero_le 1, nofun, fun _ _ h => by cases h; exact hnames⟩,
    fun _ _ c hc => by
      obtain ⟨p, hp, rfl⟩ := exists_mem_of_childByIndex hc
      exact hfields p hp⟩

end Node

/-! ## Nodes that compile to plans of their type -/

/-- Under its decorations the node is a leaf without the `LIST` type, or a struct: what
`nodeOf` returns, and what an option of a tag declares. -/
def Node.Basic (n : Node) : Prop :=
  (∃ kind logicalType, n.unwrap = .leaf kind logicalType ∧ logicalType ≠ some .list) ∨
    ∃ fields names, n.unwrap = .structNode fields names

theorem Node.Basic.of_unwrap {n m : Node} (hm : m.Basic) (h : n.unwrap = m.unwrap) : n.Basic := by
  unfold Node.Basic
  rw [h]
  exact hm

theorem Node.Basic.not_group {n : Node} (h : n.Basic) (children : List (String × Node)) :
    n.unwrap ≠ .group children := by
  rcases h with ⟨_, _, hu, -⟩ | ⟨_, _, hu⟩ <;> rw [hu] <;> nofun

theorem Node.Basic.not_list {n : Node} (h : n.Basic) : n.type.logicalType ≠ some .list := by
  rw [← Node.type_unwrap]
  rcases h with ⟨_, _, hu, hlt⟩ | ⟨_, _, hu⟩ <;> rw [hu]
  · exact hlt
  · nofun

section Compiled

variable (env : TypeEnv)

/-- Every plan `traverseFuncOf` compiles `n` to, with whatever fuel and from whatever column,
takes `t`. -/
def CompilesFor (n : Node) (t : TypeId) : Prop :=
  ∀ fuel c r, traverseFuncOf fuel c n = .ok r → Takes env r.2 t

variable {env}

theorem CompilesFor.of_same {n m : Node} {t : TypeId} (h : n.Same m) (hm : m.Basic)
    (hcompiles : CompilesFor env m t) : CompilesFor env n t :=
  fun fuel c r hr => hcompiles fuel c r ((traverseFuncOf_same fuel c h hm.not_group).symm.trans hr)

/-- A leaf compiles to a leaf closure, which reads nothing of its value. -/
theorem CompilesFor.leaf {kind : Kind} {logicalType : Option LogicalType} {t : TypeId}
    (hlist : logicalType ≠ some .list) (hfits : LeafFits env kind t) :
    CompilesFor env (.leaf kind logicalType) t := by
  rintro (_ | fuel) c r h
  · cases h
  · simp only [traverseFuncOf, Node.optional, Node.repeated, Node.type, ParquetType.logicalType,
      hlist, traverseFuncOfRequired, isLeaf, Node.numChildren, traverseFuncOfLeaf] at h
    obtain ⟨_, hkind, h⟩ := bind_eq_ok.1 h
    cases orPanic_eq_ok.1 hkind
    cases h
    exact Takes.leaf _ hfits

/-- An Optional node over a node that is no group and reports no cardinality compiles to an
Optional closure over a plan of the node it wraps. -/
theorem CompilesFor.optionalNode {k : Node} {t : TypeId} (ho : k.optional = false)
    (hr : k.repeated = false) (hk : ∀ children, k.unwrap ≠ .group children)
    (h : CompilesFor env k (derefType env t)) :
    CompilesFor env (.optionalNode k) t := by
  rintro (_ | fuel) c r hr'
  · cases hr'
  · simp only [traverseFuncOf, Node.optional, if_true, traverseFuncOfOptional,
      traverseFuncOf_same fuel c ((Node.same_required_optionalNode k).trans
        (Node.same_required ho hr)) hk] at hr'
    obtain ⟨⟨c', f⟩, hf, hr'⟩ := bind_eq_ok.1 hr'
    cases hr'
    exact Takes.optional (h _ _ _ hf)

/-- A Repeated node over a basic node without cardinality compiles to a Repeated closure over a
plan of the node it wraps. -/
theorem CompilesFor.repeatedNode {k : Node} {t : TypeId} (ho : k.optional = false)
    (hr : k.repeated = false) (hk : k.Basic) (hslice : env.kind t = .slice)
    (h : CompilesFor env k (env.elem t)) : CompilesFor env (.repeatedNode k) t := by
  rintro (_ | fuel) c r hr'
  · cases hr'
  · simp only [traverseFuncOf, Node.optional, Node.repeated, Node.type, hk.not_list, if_true,
      if_false, traverseFuncOfRepeated, traverseFuncOf_same fuel c
        ((Node.same_required_repeatedNode k).trans (Node.same_required ho hr)) hk.not_group] at hr'
    obtain ⟨⟨c', f⟩, hf, hr'⟩ := bind_eq_ok.1 hr'
    cases hr'
    exact Takes.repeated hslice (h _ _ _ hf)

/-- A `LIST` compiles, through the rewrite to `Repeated(list.element)`, to a Repeated closure
over a plan of its element. -/
theorem CompilesFor.list {e : Node} {t : TypeId} (ho : e.optional = false)
    (hr : e.repeated = false) (he : e.Basic) (hslice : env.kind t = .slice)
    (h : CompilesFor env e (env.elem t)) : CompilesFor env (list e) t := by
  rintro (_ | fuel) c r hr'
  · cases hr'
  · rw [traverseFuncOf, if_neg (show ¬ (ParquetGo.list e).optional = true from nofun),
      if_pos (show (ParquetGo.list e).type.logicalType = some .list from rfl),
      Node.listElement_of_unwrap (n := ParquetGo.list e) rfl] at hr'
    exact CompilesFor.repeatedNode ho hr he hslice h fuel c r hr'

/-- The plan `compileChildren` returns has one closure per name, each compiled from the child
of that name. -/
theorem compileChildren_forall₂ {F : Nat → Node → Build (Nat × TraverseFunc)} {node : Node} :
    ∀ {names c c' funcs}, compileChildren F node names c = .ok (c', funcs) →
      List.Forall₂ (fun name f => ∃ child c₁ c₂, node.childByName name = .ok child ∧
        F c₁ child = .ok (c₂, f)) names funcs
  | [], _, _, _, h => by cases h; exact .nil
  | name :: names, c, _, _, h => by
    simp only [compileChildren] at h
    obtain ⟨child, hchild, h⟩ := bind_eq_ok.1 h
    obtain ⟨⟨c₁, f⟩, hf, h⟩ := bind_eq_ok.1 h
    obtain ⟨⟨c₂, fs⟩, hfs, h⟩ := bind_eq_ok.1 h
    cases h
    exact .cons ⟨child, c, c₁, orPanic_eq_ok.1 hchild, hf⟩ (compileChildren_forall₂ hfs)

theorem sliceAt_natCast {α : Type} {xs : List α} {j : Nat} (hj : j < xs.length) :
    sliceAt xs j = .ok xs[j] := by
  rw [sliceAt, if_pos (Int.natCast_nonneg j)]
  simp [hj]

/-- With sorted, distinct names, one per field, the child of the `j`-th name is the `j`-th
field. -/
theorem structNode_childByName {fields : List (Node × List Nat)} {names : List String}
    (hsorted : names.Sorted (·.data ≤ ·.data)) (hnodup : names.Nodup)
    (hlen : names.length = fields.length) {j : Nat} (hj : j < names.length) :
    (Node.structNode fields names).childByName names[j] = .ok (fields.get ⟨j, hlen ▸ hj⟩).1 := by
  rw [Node.childByName, indexOf_of_sorted hsorted, if_pos (List.getElem_mem _),
    List.indexOf_getElem hnodup, childByIndex, sliceAt_natCast]
  rfl

/-- A struct node with sorted, distinct names, one per field, compiles to a group closure that
takes the struct type when each field node compiles to plans that take the type of the field
`ValueByIndex` reads for it. -/
theorem CompilesFor.structNode {fields : List (Node × List Nat)} {names : List String}
    {t : TypeId} (hsorted : names.Sorted (·.data ≤ ·.data)) (hnodup : names.Nodup)
    (hlen : names.length = fields.length)
    (hfields : ∀ j (hj : j < fields.length), ∃ u, CompilesFor env fields[j].1 u ∧
      ∀ d, HasType env d t → ∃ d', HasType env d' u ∧
        valueByIndex env fields names (.valid t d) j = .ok (.valid u d')) :
    CompilesFor env (.structNode fields names) t := by
  rintro (_ | fuel) c r h
  · cases h
  · simp only [traverseFuncOf, Node.optional, Node.repeated, Node.type, ParquetType.logicalType,
      Bool.false_eq_true, reduceCtorEq, if_false, traverseFuncOfRequired, traverseFuncOfGroup,
      Node.childNames, Node.unwrap] at h
    split at h
    · obtain ⟨_, hkind, -⟩ := bind_eq_ok.1 h
      cases hkind
    · obtain ⟨⟨c', funcs⟩, hfuncs, h⟩ := bind_eq_ok.1 h
      cases h
      have hall := compileChildren_forall₂ hfuncs
      refine Takes.group fun j hj => ?_
      have hjn : j < names.length := hall.length_eq ▸ hj
      obtain ⟨child, c₁, c₂, hchild, hf⟩ := hall.get hjn hj
      rw [List.get_eq_getElem, structNode_childByName hsorted hnodup hlen hjn] at hchild
      cases hchild
      obtain ⟨u, hu, hread⟩ := hfields j (hlen ▸ hjn)
      exact ⟨u, hu _ _ _ hf, hread⟩

end Compiled

/-! ## The node of a field -/

theorem eq_of_countP_le_one {α : Type} {p : α → Bool} :
    ∀ {l : List α}, l.countP p ≤ 1 → ∀ {x y : α}, x ∈ l → y ∈ l → p x → p y → x = y
  | a :: l, h, x, y, hx, hy, hpx, hpy => by
    have hnone : p a → ∀ z ∈ l, p z → False := fun hpa z hz hpz => by
      have := List.countP_pos_iff.2 ⟨z, hz, hpz⟩
      rw [List.countP_cons, if_pos hpa] at h
      omega
    have hl : l.countP p ≤ 1 := by
      rw [List.countP_cons] at h
      split at h <;> omega
    rcases List.mem_cons.1 hx with rfl | hx' <;> rcases List.mem_cons.1 hy with rfl | hy'
    · rfl
    · exact (hnone hpx y hy' hpy).elim
    · exact (hnone hpy x hx' hpx).elim
    · exact eq_of_countP_le_one hl hx' hy' hpx hpy

theorem optionRole_eq_list {option : String} (h : optionRole option = .list) : option = "list" := by
  unfold optionRole at h
  split at h
  case h_10 => rfl
  all_goals exact nomatch h

section FieldBase

variable {env : TypeEnv} {nodeOf : TypeId → Build Node} {f : StructField}
  {options : List (String × String)} {base : Node}

theorem LoopState.fieldBase {s : FieldOptions} (hs : LoopState env nodeOf f options s)
    (hbase : s.node.elim (nodeOf f.type) .ok = .ok base) : FieldBase env nodeOf f options base := by
  cases hnode : s.node with
  | none =>
    rw [hnode] at hbase
    exact FieldBase.of_none (hs.node_eq_none.1 hnode) hbase
  | some b =>
    rw [hnode] at hbase
    cases hbase
    exact hs.node_base _ hnode

/-- Under `list`, the node beneath is the node of the element type of a slice: `list` declares
the node, and no other option can. -/
theorem FieldBase.of_list (hacc : LoopAccepted env nodeOf f options)
    (h : FieldBase env nodeOf f options base) (hlist : options.any (·.1 = "list") = true) :
    env.kind f.type = .slice ∧ nodeOf (env.elem f.type) = .ok base := by
  obtain ⟨o, ho, ho1⟩ := List.any_eq_true.1 hlist
  have ho1 : o.1 = "list" := of_decide_eq_true ho1
  have hdecl : declaresNode env f o.1 = true := by simp [declaresNode, ho1]
  refine ⟨by simpa [KindAllows, ho1] using hacc.allowed o ho, ?_⟩
  unfold FieldBase at h
  cases hfind : options.find? (declaresNode env f ·.1) with
  | none => exact absurd hdecl (by simpa using List.find?_eq_none.1 hfind o ho)
  | some o' =>
    rw [hfind] at h
    have : o' = o :=
      eq_of_countP_le_one hacc.node_once (List.mem_of_find?_eq_some hfind) ho
        (by simpa using List.find?_some hfind) hdecl
    subst this
    obtain ⟨option, args⟩ := o'
    simp only at ho1
    subst ho1
    exact h

/-- The node beneath the decorations is a leaf an option declares, which fits the field's type,
the node of the field's type, or, under `list`, the node of its element type. -/
theorem FieldBase.cases (hacc : LoopAccepted env nodeOf f options)
    (h : FieldBase env nodeOf f options base) :
    (∃ kind logicalType, base = .leaf kind logicalType ∧ logicalType ≠ some .list ∧
        LeafFits env kind f.type ∧ env.kind f.type ≠ .ptr) ∨
      nodeOf f.type = .ok base ∨
      ((∃ o ∈ options, o.1 = "list") ∧ nodeOf (env.elem f.type) = .ok base) := by
  unfold FieldBase at h
  split at h
  · exact .inr (.inl h)
  · rename_i option args hfind
    have hallowed := hacc.allowed _ (List.mem_of_find?_eq_some hfind)
    split at h
    · rename_i hrole
      exact .inr (.inr ⟨⟨_, List.mem_of_find?_eq_some hfind, optionRole_eq_list hrole⟩, h⟩)
    · rename_i hrole
      have hkind : env.kind f.type = .string := by simpa [KindAllows, hrole] using hallowed
      exact .inl ⟨_, _, h, nofun, hkind, by rw [hkind]; nofun⟩
    · rename_i hrole
      have hkind := by simpa [KindAllows, hrole] using hallowed
      refine .inl ⟨_, _, h, nofun, hkind, ?_⟩
      rcases hkind with hkind | ⟨hkind, -⟩ <;> rw [hkind] <;> nofun
    · rename_i hrole
      obtain ⟨_, _, -, rfl⟩ := h
      have hkind : env.kind f.type ∈ [.int32, .int64] := by
        simp only [KindAllows, hrole] at hallowed
        exact hallowed.2
      refine .inl ⟨_, _, rfl, nofun, ?_, ?_⟩
      · split_ifs with hint32 <;> simp_all [LeafFits]
      · simp only [List.mem_cons, List.mem_singleton, List.not_mem_nil, or_false] at hkind
        rcases hkind with hkind | hkind <;> rw [hkind] <;> nofun
    · exact h.elim

end FieldBase

/-! ## The nodes of `nodeOf` -/

section Nodes

variable {env : TypeEnv}

theorem exists_of_mem_mapM {α β ε : Type} {g : α → Except ε β} :
    ∀ {xs : List α} {ys : List β}, xs.mapM g = .ok ys → ∀ {y}, y ∈ ys → ∃ x ∈ xs, g x = .ok y
  | [], ys, h, _, hy => by
    cases mapM_nil_eq_ok.1 h
    cases hy
  | x :: xs, ys, h, y, hy => by
    obtain ⟨y', ys', hy', hys', rfl⟩ := mapM_cons_eq_ok.1 h
    rcases List.mem_cons.1 hy with rfl | hy
    · exact ⟨x, .head _, hy'⟩
    · obtain ⟨x', hx', hx'y⟩ := exists_of_mem_mapM hys' hy
      exact ⟨x', .tail _ hx', hx'y⟩

/-- Every field node `structNodeOf` builds for `t` is the node `makeStructField` makes for a field
that `t` promotes at the node's path; the names are sorted, one per field. -/
theorem structNodeOf_fields {nodeOf : TypeId → Build Node} {t : TypeId} {n : Node}
    (h : structNodeOf env nodeOf t = .ok n) : ∃ fields names, n = .structNode fields names ∧
      names.Sorted (·.data ≤ ·.data) ∧ names.length = fields.length ∧
      ∀ y ∈ fields, ∃ g f, Promotes env t y.2 f ∧ g.type = f.type ∧
        makeStructField env nodeOf g = .ok y := by
  obtain ⟨sfs, hsfs, h⟩ := bind_eq_ok.1 h
  obtain ⟨ys, hys, h⟩ := bind_eq_ok.1 h
  cases h
  refine ⟨ys, _, rfl, List.pairwise_map.2 (structFieldsOf_sorted hsfs),
    by simp [mapM_length hys], fun y hy => ?_⟩
  obtain ⟨g, hg, hgy⟩ := exists_of_mem_mapM hys hy
  obtain ⟨raw, hraw, hsorted⟩ := bind_eq_ok.1 hsfs
  cases hsorted
  obtain ⟨g₀, hg₀, rfl⟩ := List.mem_map.1 ((List.perm_insertionSort _ _).mem_iff.1 hg)
  obtain ⟨q, f, hq, rfl⟩ :=
    (((@flattensAt env _ t [] (Nat.lt_succ_self _)).2 raw hraw).mem_iff _).1 hg₀
  refine ⟨_, f, ?_, ?_, hgy⟩
  · rw [makeStructField_snd hgy]
    exact hq
  · rfl

/-- One step of `nodeOf`: a leaf that fits the type, an Optional node over the node of a
pointer's element type, a Repeated node over the node of a slice's element type, or the node of
a struct. -/
theorem nodeOf_succ_cases {fuel : Nat} {t : TypeId} {n : Node}
    (h : nodeOf env (fuel + 1) t = .ok n) :
    (∃ kind logicalType, n = .leaf kind logicalType ∧ logicalType ≠ some .list ∧
        LeafFits env kind t) ∨
      (env.kind t = .ptr ∧ ∃ m, nodeOf env fuel (env.elem t) = .ok m ∧ n = .optionalNode m) ∨
      (env.kind t = .slice ∧ ∃ m, nodeOf env fuel (env.elem t) = .ok m ∧ n = .repeatedNode m) ∨
      (env.kind t = .struct ∧ structNodeOf env (nodeOf env fuel) t = .ok n) := by
  rw [nodeOf] at h
  split at h
  · cases h
    exact .inl ⟨_, _, rfl, nofun, .inl ‹_›⟩
  · split at h
    all_goals first
      | (cases h
         exact .inl ⟨_, _, rfl, nofun, by simp_all [LeafFits, int, uint, Reflect.Kind.bits]⟩)
      | exact .inr (.inr (.inr ⟨‹_›, h⟩))
      | (obtain ⟨m, hm, rfl⟩ := map_eq_ok.1 h
         first
           | exact .inr (.inl ⟨‹_›, m, hm, rfl⟩)
           | exact .inr (.inr (.inl ⟨‹_›, m, hm, rfl⟩)))
      | (split at h
         · cases h
           exact .inl ⟨_, _, rfl, nofun, .inr ⟨‹_›, ‹_ ∧ _›⟩⟩
         · cases h)
      | cases h

/-- `nodeOf` returns a leaf without the `LIST` type or a struct, under its decorations. -/
theorem nodeOf_basic : ∀ {fuel t n}, nodeOf env fuel t = .ok n → n.Basic
  | 0, _, _, h => by cases h
  | _ + 1, _, _, h => by
    rcases nodeOf_succ_cases h with ⟨_, _, rfl, hlt, -⟩ | ⟨-, m, hm, rfl⟩ | ⟨-, m, hm, rfl⟩ | ⟨-, h⟩
    · exact .inl ⟨_, _, rfl, hlt⟩
    · exact (nodeOf_basic hm).of_unwrap rfl
    · exact (nodeOf_basic hm).of_unwrap rfl
    · obtain ⟨_, _, rfl, -⟩ := structNodeOf_fields h
      exact .inr ⟨_, _, rfl⟩

/-- On a pointer type, `nodeOf` returns an Optional node, or the leaf of `deprecated.Int96`. -/
theorem nodeOf_ptr {fuel : Nat} {t : TypeId} {n : Node} (h : nodeOf env fuel t = .ok n)
    (hptr : env.kind t = .ptr) : n.decorations ≠ [] ∨ (t = env.int96 ∧ n = leaf .int96) := by
  cases fuel with
  | zero => cases h
  | succ fuel =>
    rw [nodeOf] at h
    split at h
    · cases h
      exact .inr ⟨‹_›, rfl⟩
    · simp only [hptr] at h
      obtain ⟨m, -, rfl⟩ := map_eq_ok.1 h
      exact .inl (List.cons_ne_nil _ _)

/-- The node an option of a tag declares, or else the node of the field's type, is basic. -/
theorem FieldBase.basic {fuel : Nat} {f : StructField} {options : List (String × String)}
    {base : Node} (hacc : LoopAccepted env (nodeOf env fuel) f options)
    (h : FieldBase env (nodeOf env fuel) f options base) : base.Basic := by
  rcases h.cases hacc with ⟨_, _, rfl, hlt, -⟩ | hnode | ⟨-, hnode⟩
  · exact .inl ⟨_, _, rfl, hlt⟩
  · exact nodeOf_basic hnode
  · exact nodeOf_basic hnode

end Nodes

/-! ## Every node `nodeOf` builds compiles to plans of its type -/

section Compiles

variable {env : TypeEnv} {fuel : Nat}
  (ih : ∀ u m, nodeOf env fuel u = .ok m → m.WellShaped → CompilesFor env m u)
include ih

/-- The node of a field compiles to plans that take the field's type: an Optional closure when
the tag says `optional`, the `LIST` rewrite when it says `list`, and beneath them a plan of the
node of the field's type, of its element type, or of a leaf an option declares. -/
theorem structFieldNode_compilesFor {f : StructField} {options : List (String × String)}
    {node : Node} (h : structFieldNode env (nodeOf env fuel) f options = .ok node)
    (hshape : node.WellShaped) : CompilesFor env node f.type := by
  obtain ⟨s, hs, -⟩ := bind_eq_ok.1 h
  have hstate := (foldlM_applyOption options).2 s hs
  obtain ⟨base, hbase, rfl⟩ := (structFieldNode_eq_ok hs).1 h
  have hacc := (foldlM_applyOption options).1.1 ⟨s, hs⟩
  have hfb := hstate.fieldBase hbase
  have hbasic : base.Basic := hfb.basic hacc
  have hsame : (encoded (compressed base s.codecs) s.encodings).Same base :=
    (Node.same_encoded _ _).trans (Node.same_compressed _ _)
  have hlist : s.list = true →
      (list (encoded (compressed base s.codecs) s.encodings)).WellShaped →
      env.kind f.type = .slice ∧
        CompilesFor env (list (encoded (compressed base s.codecs) s.encodings)) f.type := by
    intro hl hW
    obtain ⟨hslice, hnode⟩ := hfb.of_list hacc (hstate.list_eq ▸ hl)
    obtain ⟨hE, hdec⟩ := Node.wellShaped_list_iff.1 hW
    have hflat := Node.flat_of_decorations hdec
    exact ⟨hslice, CompilesFor.list hflat.1 hflat.2 (hbasic.of_unwrap rfl) hslice
      ((ih _ _ hnode (by simpa using hE)).of_same hsame hbasic)⟩
  have hplain : s.list = false → (encoded (compressed base s.codecs) s.encodings).WellShaped →
      CompilesFor env (encoded (compressed base s.codecs) s.encodings) f.type ∧
        (base.decorations = [] → CompilesFor env (encoded (compressed base s.codecs) s.encodings)
          (derefType env f.type)) := by
    intro hl hW
    rcases hfb.cases hacc with ⟨kind, lt, rfl, hlt, hfits, hnptr⟩ | hnode | ⟨⟨o, ho, ho1⟩, -⟩
    · have hcompiles := (CompilesFor.leaf hlt hfits).of_same hsame hbasic
      exact ⟨hcompiles, fun _ => by rwa [derefType_of_not_ptr hnptr]⟩
    · have hcompiles := (ih _ _ hnode (by simpa using hW)).of_same hsame hbasic
      refine ⟨hcompiles, fun hdec => ?_⟩
      by_cases hptr : env.kind f.type = .ptr
      · rcases nodeOf_ptr hnode hptr with hne | ⟨hint96, rfl⟩
        · exact absurd hdec hne
        · rw [derefType_of_ptr hptr]
          have hfits : LeafFits env .int96 (env.elem f.type) := .inr ⟨hint96 ▸ hptr, hint96 ▸ rfl⟩
          exact (CompilesFor.leaf (by simp) hfits).of_same hsame hbasic
      · rwa [derefType_of_not_ptr hptr]
    · have hnone := List.any_eq_false.1 (hstate.list_eq ▸ hl) o ho
      simp [ho1] at hnone
  cases hopt : s.optional <;> cases hl : s.list <;>
    simp only [hopt, hl, Bool.false_eq_true, if_true, if_false, id] at hshape ⊢
  · exact (hplain hl hshape).1
  · exact (hlist hl hshape).2
  · obtain ⟨hW, hdec⟩ := Node.wellShaped_optionalNode_iff.1 hshape
    have hflat := Node.flat_of_decorations hdec
    exact CompilesFor.optionalNode hflat.1 hflat.2 hbasic.not_group ((hplain hl hW).2 hdec)
  · obtain ⟨hW, -⟩ := Node.wellShaped_optionalNode_iff.1 hshape
    obtain ⟨hslice, hcompiles⟩ := hlist hl hW
    refine CompilesFor.optionalNode rfl rfl (fun _ => nofun) ?_
    rwa [derefType_of_not_ptr (by rw [hslice]; nofun)]

theorem makeStructField_compilesFor {g : StructField} {y : Node × List Nat}
    (h : makeStructField env (nodeOf env fuel) g = .ok y) (hshape : y.1.WellShaped) :
    CompilesFor env y.1 g.type := by
  obtain ⟨node, hnode, hy⟩ := bind_eq_ok.1 h
  cases hy
  exact structFieldNode_compilesFor ih hnode hshape

/-- The struct node of `t` compiles to plans that take `t`: each field's plan takes the type of
the field that `ValueByIndex` reads at its position. -/
theorem structNodeOf_compilesFor {t : TypeId} {n : Node}
    (h : structNodeOf env (nodeOf env fuel) t = .ok n) (hshape : n.WellShaped) :
    CompilesFor env n t := by
  obtain ⟨fields, names, rfl, hsorted, hlen, hmem⟩ := structNodeOf_fields h
  have hnodup := (Node.everywhere_iff.1 hshape).1.names fields names rfl
  refine CompilesFor.structNode hsorted hnodup hlen fun j hj => ?_
  have hjn : j < names.length := hlen ▸ hj
  obtain ⟨g, f, hp, htype, hg⟩ := hmem _ (List.getElem_mem hj)
  have hchild := structNode_childByName hsorted hnodup hlen hjn
  refine ⟨g.type, makeStructField_compilesFor ih hg
    (Node.Everywhere.child hshape (List.getElem_mem hjn) hchild), fun d hd => ?_⟩
  obtain ⟨d', -, hd', hread⟩ := fieldByIndex_of_fieldPath hp.1 hd
  have hkind : (Reflect.Value.valid t d).kind env = .struct := hp.1.struct
  refine ⟨d', htype ▸ hd', ?_⟩
  simp only [valueByIndex, hkind, sliceAt_natCast hj]
  rw [htype]
  exact hread

end Compiles

section Schema

variable {env : TypeEnv}

/-- Every node `nodeOf` builds for `t` that is well shaped compiles to plans that take `t`, by
induction on the fuel: a pointer to an Optional closure, a slice to a Repeated one, a struct to
a group closure over its fields, the rest to leaf closures. -/
theorem nodeOf_compilesFor : ∀ {fuel t n}, nodeOf env fuel t = .ok n → n.WellShaped →
    CompilesFor env n t
  | 0, _, _, h, _ => by cases h
  | fuel + 1, t, n, h, hshape => by
    rcases nodeOf_succ_cases h with
      ⟨_, _, rfl, hlt, hfits⟩ | ⟨hptr, m, hm, rfl⟩ | ⟨hslice, m, hm, rfl⟩ | ⟨-, h⟩
    · exact CompilesFor.leaf hlt hfits
    · obtain ⟨hW, hdec⟩ := Node.wellShaped_optionalNode_iff.1 hshape
      have hflat := Node.flat_of_decorations hdec
      refine CompilesFor.optionalNode hflat.1 hflat.2 (nodeOf_basic hm).not_group ?_
      rw [derefType_of_ptr hptr]
      exact nodeOf_compilesFor hm hW
    · obtain ⟨hW, hdec⟩ := Node.wellShaped_repeatedNode_iff.1 hshape
      have hflat := Node.flat_of_decorations hdec
      exact CompilesFor.repeatedNode hflat.1 hflat.2 (nodeOf_basic hm) hslice
        (nodeOf_compilesFor hm hW)
    · exact structNodeOf_compilesFor (fun _ _ => nodeOf_compilesFor) h hshape

/-- The root of every schema `SchemaOf` returns is the node of the struct `t` is or points to. -/
theorem schemaOf_root {fuel : Nat} {t : TypeId} {s : Schema} (h : schemaOf env fuel t = .ok s) :
    structNodeOf env (nodeOf env fuel) (derefType env t) = .ok s.root := by
  simp only [schemaOf, namedSchemaOf] at h
  split at h
  · rw [derefType_of_not_ptr (by rw [‹env.kind t = .struct›]; nofun)]
    obtain ⟨root, hroot, h⟩ := bind_eq_ok.1 h
    obtain ⟨_, -, h⟩ := bind_eq_ok.1 h
    cases h
    exact hroot
  · split at h
    · rw [derefType_of_ptr ‹env.kind t = .ptr ∧ _›.1]
      obtain ⟨root, hroot, h⟩ := bind_eq_ok.1 h
      obtain ⟨_, -, h⟩ := bind_eq_ok.1 h
      cases h
      exact hroot
    · cases h

theorem makeTraverseFunc_takes {root : Node} {f : TraverseFunc} {t : TypeId}
    (h : makeTraverseFunc root = .ok f) (hroot : CompilesFor env root t) : Takes env f t := by
  unfold makeTraverseFunc at h
  split at h
  · cases h
    exact Takes.noop t
  · obtain ⟨r, hr, rfl⟩ := map_eq_ok.1 h
    exact hroot _ _ _ hr

/-- `Schema.Traverse` goes on from the zero `Value`, or from a value of the type it dereferences
to. -/
theorem rootValue_typed {t : TypeId} {d : Reflect.Data} (hd : HasType env d t) :
    ∃ w, Typed env (derefType env t) w ∧ rootValue env (.valid t d) = .ok w := by
  by_cases hptr : env.kind t = .ptr
  · obtain ⟨target, rfl, htarget⟩ := hd.ptr_inv hptr
    rw [derefType_of_ptr hptr]
    cases target with
    | none => exact ⟨_, .inl rfl, by simp [rootValue, Reflect.Value.kind, hptr, Reflect.Value.isNil]⟩
    | some d' => exact ⟨_, .inr ⟨d', rfl, htarget d' rfl⟩, by
        simp [rootValue, Reflect.Value.kind, hptr, Reflect.Value.isNil, Reflect.Value.elem]⟩
  · rw [derefType_of_not_ptr hptr]
    exact ⟨_, .inr ⟨d, rfl, hd⟩, by simp [rootValue, Reflect.Value.kind, hptr]⟩

/-- The paths of a value of a well-shaped schema's type are good. -/
theorem Schema.shred_good {fuel : Nat} {t : TypeId} {s : Schema}
    (hs : schemaOf env fuel t = .ok s) (hshape : s.root.WellShaped) {d : Reflect.Data}
    (hd : HasType env d t) : Paths.Good env (s.shred env (.valid t d)) := by
  have htakes : Takes env s.traverse (derefType env t) :=
    makeTraverseFunc_takes (schemaOf_traverse hs)
      (structNodeOf_compilesFor (fun _ _ => nodeOf_compilesFor) (schemaOf_root hs) hshape)
  obtain ⟨w, hw, h⟩ := rootValue_typed hd
  rw [Schema.shred, h]
  exact htakes w hw

theorem feed_ok (traversal : Traversal) :
    ∀ made calls, ∃ r, (feed traversal made calls none).1 = .ok r
  | _, [] => ⟨none, rfl⟩
  | made, call :: calls => by
    simp only [feed]
    split
    · exact ⟨_, rfl⟩
    · exact feed_ok traversal _ calls

/-- A value of the Go type a schema was built from never makes `Schema.Traverse` panic, when
no decoration of the schema hides another and no struct of it has two fields of one name:
whatever the sink, the run hands it the calls of the value's paths, stops at its first error,
and returns that error or nil. -/
theorem traverseValue_no_panic {fuel : Nat} {t : TypeId} {s : Schema}
    (hs : schemaOf env fuel t = .ok s) (hshape : s.root.WellShaped) {d : Reflect.Data}
    (hd : HasType env d t) (traversal : Traversal) (made : List Call) :
    (s.traverseValue env (.valid t d) traversal).run made =
        feed traversal made ((s.shred env (.valid t d)).1.map (Path.toCall {})) none ∧
      ∃ r, ((s.traverseValue env (.valid t d) traversal).run made).1 = .ok r := by
  have hrun := traverseValue_refines env traversal s (.valid t d) made
  rw [(Schema.shred_good hs hshape hd).no_panic] at hrun
  exact ⟨hrun, hrun ▸ feed_ok traversal made _⟩

theorem record_root_wellShaped : recordSchema.root.WellShaped :=
  Node.WellShaped.structNode (by decide) fun p hp => by
    rcases List.mem_singleton.1 hp with rfl
    exact Node.wellShaped_optionalNode_iff.2
      ⟨Node.wellShaped_list_iff.2 ⟨by simpa using Node.wellShaped_leaf .double none, rfl⟩, rfl⟩

theorem firstRecord_hasType : HasType recordEnv (.struct [.slice (some [.float 0x3FF0000000000000,
    .float 0x4000000000000000, .float 0x4008000000000000])]) 0 :=
  .struct rfl rfl fun p hp => by
    rcases List.mem_singleton.1 hp with rfl
    refine .slice rfl fun d hd => ?_
    simp only [Option.getD_some, List.mem_cons, List.mem_singleton, List.not_mem_nil,
      or_false] at hd
    rcases hd with rfl | rfl | rfl <;> exact .float (by decide)

/-- The first record of `TestWriteAndReadOptionalList` goes through the schema of `record`
without a panic, with a sink that stops at the second call. -/
theorem first_record_never_panics :
    recordSchema.root.WellShaped ∧
      HasType recordEnv (.struct [.slice (some [.float 0x3FF0000000000000,
        .float 0x4000000000000000, .float 0x4008000000000000])]) 0 ∧
      ∃ r, ((recordSchema.traverseValue recordEnv firstRecord
        (fun made _ => if made.length = 1 then some "full" else none)).run []).1 = .ok r :=
  ⟨record_root_wellShaped, firstRecord_hasType,
    (traverseValue_no_panic schemaOf_record record_root_wellShaped firstRecord_hasType _ []).2⟩

/-- Every call a run of `Schema.Traverse` makes on a value of the type of a well-shaped schema
is the call of a path whose leaf receives the zero `Value` or a Go value of a type that fits the
leaf's physical kind: `makeValue` is only asked to read a value of a kind the leaf was built
for. -/
theorem traverseValue_leaf_values {fuel : Nat} {t : TypeId} {s : Schema}
    (hs : schemaOf env fuel t = .ok s) (hshape : s.root.WellShaped) {d : Reflect.Data}
    (hd : HasType env d t) (traversal : Traversal) {call : Call}
    (hcall : call ∈ ((s.traverseValue env (.valid t d) traversal).run []).2) :
    ∃ p ∈ (s.shred env (.valid t d)).1, call = p.toCall {} ∧ (p.value = .invalid ∨
      ∃ u d', p.value = .valid u d' ∧ HasType env d' u ∧ LeafFits env p.kind u) := by
  obtain ⟨p, hp, rfl⟩ := mem_traverseValue_run env traversal hcall
  exact ⟨p, hp, rfl, (Schema.shred_good hs hshape hd).fits p hp⟩

/-- The run over the first record of `TestWriteAndReadOptionalList` makes three calls, each at a
`DOUBLE` leaf with a `float64`. -/
theorem first_record_leaf_values :
    ∃ call ∈ ((recordSchema.traverseValue recordEnv firstRecord (fun _ _ => none)).run []).2,
      ∃ p ∈ (recordSchema.shred recordEnv firstRecord).1, call = p.toCall {} ∧
        (p.value = .invalid ∨ ∃ u d', p.value = .valid u d' ∧ HasType recordEnv d' u ∧
          LeafFits recordEnv p.kind u) := by
  have hlen : ((recordSchema.traverseValue recordEnv firstRecord (fun _ _ => none)).run []).2.length
      = 3 := rfl
  obtain ⟨call, hcall⟩ := List.exists_mem_of_length_pos (by rw [hlen]; decide)
  exact ⟨call, hcall, traverseValue_leaf_values schemaOf_record record_root_wellShaped
    firstRecord_hasType _ hcall⟩

end Schema

end ParquetGo
