import ParquetGo.Proofs.Termination
import ParquetGo.Proofs.Options
import ParquetGo.Proofs.Embedded
import ParquetGo.Proofs.Columns

/-!
# Which built schemas compile

`newSchema` compiles the traversal of the node `structNodeOf` built, and `traverseFuncOf` can
fail in three places: looking a child up by one of its names, the `list.element` lookup of the
`LIST` rewrite, and `Type().Kind()` on a node without children.  On the nodes the builder
makes, only the last one can fail, and it fails exactly on a group without children, such as
the node of a field of type `struct{}`:

* `nodeOf_built`: every node `nodeOf` returns is `Built`, one of the shapes the builder makes:
  leaves, the struct nodes of `structNodeOf` (one name per field, sorted), the three-level
  `LIST` node with its groups, and the decorations.
* `traverseFuncOf_built`: with enough fuel, a `Built` node compiles exactly when no node the
  compiler can reach through `ChildNames`/`ChildByName` is a group without children; otherwise
  it panics with `cannot call Kind on parquet group`.
* `newSchema_structNodeOf`: for every root `structNodeOf` builds, `newSchema` succeeds exactly
  when the root has no fields or no such group is reachable from it, and it can fail only with
  that panic.
* `traverseFuncOf_numbers_leaves`: what the compiler then returns, from every start index `c`:
  `c + k` and a plan whose `j`-th leaf closure emits under `c + j`, `k` the number of leaves;
  so a run of a schema calls only the columns `0, 1, …, k - 1` and, when it does not panic,
  calls each of them, the first time in that order.  The root of `message{}` is the one root
  `SchemaOf` leaves uncompiled, and it panics (`message_root_panics`).

## Strategy

The compiler does not run on the node it is given but on `Required(node)` and
`Repeated(elem)`, and a group compiles one child per name, which on a struct with a repeated
name is the first field of that name, twice.  So the condition is stated through the interface,
as a property of every reachable node (`Node.Reaches`, `Node.Everywhere`), which
`Node.everywhere_iff` unfolds by one level; a decoration has the interface of the node it wraps
(`Node.unwrap`), so it changes nothing.  `CompileOutcome P x` says what the build `x` may end
in when it should succeed exactly under `P`: it passes through `bind`, the fuel induction of
`traverseFuncOf_outcome` follows the recursion of `traverseFuncOf`, and
`traverseFuncOf_settled` rules out the end of the fuel.
-/

namespace ParquetGo

open Reflect (TypeEnv TypeId StructField)

/-! ## The shapes the builder makes -/

/-- The nodes the builder makes: leaves (none of logical type `LIST`), struct nodes with one
name per field in Go's byte order, the groups of the `List` shape, the `LIST` node, and the
decorations. -/
inductive Node.Built : Node → Prop
  | leaf (kind : Kind) (logicalType : Option LogicalType) : logicalType ≠ some .list →
      Built (.leaf kind logicalType)
  | group {children : List (String × Node)} : (∀ x ∈ children, Built x.2) → Built (.group children)
  | struct {fields : List (Node × List Nat)} {names : List String} :
      names.length = fields.length → names.Sorted (·.data ≤ ·.data) → (∀ x ∈ fields, Built x.1) →
      Built (.structNode fields names)
  | list {node : Node} : Built node →
      Built (.listNode (.group [("list", .repeatedNode (.group [("element", node)]))]))
  | optional {node : Node} : Built node → Built (.optionalNode node)
  | repeated {node : Node} : Built node → Built (.repeatedNode node)
  | required {node : Node} : Built node → Built (.requiredNode node)
  | encoded {node : Node} (encodings : List Encoding) : Built node →
      Built (.encodedNode node encodings)
  | compressed {node : Node} (codecs : List Codec) : Built node →
      Built (.compressedNode node codecs)

theorem forall_mem_of_mapM {α β ε : Type} {g : α → Except ε β} {P : β → Prop}
    (hg : ∀ x y, g x = .ok y → P y) :
    ∀ {xs : List α} {ys : List β}, xs.mapM g = .ok ys → ∀ y ∈ ys, P y
  | [], ys, h => by simp [mapM_nil_eq_ok.1 h]
  | x :: xs, ys, h => by
    obtain ⟨y, ys', hy, hys', rfl⟩ := mapM_cons_eq_ok.1 h
    exact List.forall_mem_cons.2 ⟨hg x y hy, forall_mem_of_mapM hg hys'⟩

section Builder
variable {env : TypeEnv} {nodeOf : TypeId → Build Node}
  (hnodeOf : ∀ t n, nodeOf t = .ok n → n.Built)
include hnodeOf

/-- The node an option declares is a leaf, or the node of the element type for `list`. -/
theorem FieldBase.built {f : StructField} {options : List (String × String)} {base : Node}
    (h : FieldBase env nodeOf f options base) : base.Built := by
  unfold FieldBase at h
  split at h
  · exact hnodeOf _ _ h
  · split at h
    all_goals first
      | exact hnodeOf _ _ h
      | (subst h; exact .leaf _ _ nofun)
      | (obtain ⟨_, _, -, rfl⟩ := h; exact .leaf _ _ nofun)
      | exact h.elim

theorem structFieldNode_built {f : StructField} {options : List (String × String)} {node : Node}
    (h : structFieldNode env nodeOf f options = .ok node) : node.Built := by
  obtain ⟨s, hs, -⟩ := bind_eq_ok.1 h
  obtain ⟨base, hbase, rfl⟩ := (structFieldNode_eq_ok hs).1 h
  have hb : base.Built := by
    cases hnode : s.node with
    | none => exact hnodeOf _ _ (by rwa [hnode] at hbase)
    | some b =>
      rw [hnode] at hbase
      cases hbase
      exact (((foldlM_applyOption options).2 s hs).node_base _ hnode).built hnodeOf
  have hdecorated := Node.Built.encoded s.encodings (.compressed s.codecs hb)
  cases s.optional <;> cases s.list <;> first
    | exact hdecorated
    | exact .list hdecorated
    | exact .optional hdecorated
    | exact .optional (.list hdecorated)

/-- The struct node of `structNodeOf` has one name per field, sorted, and built fields. -/
theorem structNodeOf_built {t : TypeId} {node : Node} (h : structNodeOf env nodeOf t = .ok node) :
    node.Built := by
  obtain ⟨sfs, hsfs, h⟩ := bind_eq_ok.1 h
  obtain ⟨nodes, hnodes, h⟩ := bind_eq_ok.1 h
  cases h
  refine .struct (by simp [mapM_length hnodes]) (List.pairwise_map.2 (structFieldsOf_sorted hsfs))
    (forall_mem_of_mapM (fun f x hx => ?_) hnodes)
  obtain ⟨node, hnode, hx⟩ := bind_eq_ok.1 hx
  cases hx
  exact structFieldNode_built hnodeOf hnode

end Builder

/-- Every node `nodeOf` returns is one of the builder's shapes. -/
theorem nodeOf_built {env : TypeEnv} : ∀ {fuel : Nat} {t : TypeId} {n : Node},
    nodeOf env fuel t = .ok n → n.Built
  | 0, _, _, h => by cases h
  | fuel + 1, t, n, h => by
    rw [nodeOf] at h
    split at h
    · cases h
      exact .leaf _ _ nofun
    · split at h
      all_goals first
        | exact structNodeOf_built (fun _ _ => nodeOf_built) h
        | (obtain ⟨m, hm, rfl⟩ := map_eq_ok.1 h
           exact .optional (nodeOf_built hm))
        | (obtain ⟨m, hm, rfl⟩ := map_eq_ok.1 h
           exact .repeated (nodeOf_built hm))
        | (cases h; exact .leaf _ _ nofun)
        | (split at h
           · cases h
             exact .leaf _ _ nofun
           · cases h)
        | cases h

/-- The root of every schema `SchemaOf` returns is one of the builder's shapes. -/
theorem schemaOf_built {env : TypeEnv} {fuel : Nat} {t : TypeId} {s : Schema}
    (h : schemaOf env fuel t = .ok s) : s.root.Built := by
  simp only [schemaOf, namedSchemaOf] at h
  split at h
  · obtain ⟨root, hroot, h⟩ := bind_eq_ok.1 h
    obtain ⟨f, -, h⟩ := bind_eq_ok.1 h
    cases h
    exact structNodeOf_built (fun _ _ => nodeOf_built) hroot
  · split at h
    · obtain ⟨root, hroot, h⟩ := bind_eq_ok.1 h
      obtain ⟨f, -, h⟩ := bind_eq_ok.1 h
      cases h
      exact structNodeOf_built (fun _ _ => nodeOf_built) hroot
    · cases h

/-! ## The interface of a node -/

namespace Node

@[simp] theorem type_unwrap : ∀ n : Node, n.unwrap.type = n.type
  | .optionalNode n | .repeatedNode n | .requiredNode n | .encodedNode n _ | .compressedNode n _ =>
      type_unwrap n
  | .leaf _ _ | .group _ | .structNode _ _ | .listNode _ => rfl

@[simp] theorem numChildren_unwrap : ∀ n : Node, n.unwrap.numChildren = n.numChildren
  | .optionalNode n | .repeatedNode n | .requiredNode n | .encodedNode n _ | .compressedNode n _ =>
      numChildren_unwrap n
  | .leaf _ _ | .group _ | .structNode _ _ | .listNode _ => rfl

@[simp] theorem childNames_unwrap : ∀ n : Node, n.unwrap.childNames = n.childNames
  | .optionalNode n | .repeatedNode n | .requiredNode n | .encodedNode n _ | .compressedNode n _ =>
      childNames_unwrap n
  | .leaf _ _ | .group _ | .structNode _ _ | .listNode _ => rfl

@[simp] theorem childByName_unwrap (name : String) :
    ∀ n : Node, n.unwrap.childByName name = n.childByName name
  | .optionalNode n | .repeatedNode n | .requiredNode n | .encodedNode n _ | .compressedNode n _ =>
      childByName_unwrap name n
  | .leaf _ _ | .group _ | .structNode _ _ | .listNode _ => rfl

/-- The nodes the compiler can reach from a node through its interface: the node itself, and
whatever a child, looked up by one of the node's names, reaches. -/
inductive Reaches : Node → Node → Prop
  | refl (n : Node) : Reaches n n
  | child {n c m : Node} {name : String} : name ∈ n.childNames → n.childByName name = .ok c →
      Reaches c m → Reaches n m

/-- `P` holds at every node reachable from `n`. -/
def Everywhere (P : Node → Prop) (n : Node) : Prop := ∀ m, n.Reaches m → P m

/-- `Everywhere`, one level down. -/
theorem everywhere_iff {P : Node → Prop} {n : Node} : n.Everywhere P ↔ P n ∧
    ∀ name ∈ n.childNames, ∀ c, n.childByName name = .ok c → c.Everywhere P :=
  ⟨fun h => ⟨h n (.refl n), fun _ hname _ hc m hm => h m (.child hname hc hm)⟩,
    fun ⟨hn, hc⟩ m hm => by
      cases hm with
      | refl => exact hn
      | child hname hchild hm => exact hc _ hname _ hchild m hm⟩

theorem Everywhere.child {P : Node → Prop} {n c : Node} {name : String} (h : n.Everywhere P)
    (hname : name ∈ n.childNames) (hc : n.childByName name = .ok c) : c.Everywhere P :=
  (everywhere_iff.1 h).2 name hname c hc

/-- No node reachable from `n` is a group without children: the compiler takes such a node for
a leaf and asks for its `Kind`. -/
def NoEmptyGroup (n : Node) : Prop := n.Everywhere fun m => isLeaf m = true → m.type ≠ .group

theorem noEmptyGroup_iff {n : Node} : n.NoEmptyGroup ↔ (isLeaf n = true → n.type ≠ .group) ∧
    ∀ name ∈ n.childNames, ∀ c, n.childByName name = .ok c → c.NoEmptyGroup :=
  everywhere_iff

/-- A decoration reaches what the node it wraps reaches. -/
theorem noEmptyGroup_unwrap (n : Node) : n.unwrap.NoEmptyGroup ↔ n.NoEmptyGroup := by
  rw [noEmptyGroup_iff, noEmptyGroup_iff (n := n), isLeaf, isLeaf]
  simp only [type_unwrap, numChildren_unwrap, childNames_unwrap, childByName_unwrap]

theorem noEmptyGroup_of_unwrap_eq {a b : Node} (h : a.unwrap = b.unwrap) :
    a.NoEmptyGroup ↔ b.NoEmptyGroup := by
  rw [← noEmptyGroup_unwrap a, h, noEmptyGroup_unwrap]

/-- The `LIST` shape reaches what its element reaches, and two groups with one child each. -/
theorem noEmptyGroup_list (elem : Node) :
    (Node.listNode (.group [("list", .repeatedNode (.group [("element", elem)]))])).NoEmptyGroup ↔
      elem.NoEmptyGroup := by
  rw [noEmptyGroup_iff]
  simp [isLeaf, numChildren, childNames, childByName]
  rw [noEmptyGroup_iff]
  simp [isLeaf, numChildren, childNames, childByName]

end Node

/-! ## Built nodes through the interface -/

namespace Node.Built

theorem length_childNames {n : Node} (h : n.Built) : n.childNames.length = n.numChildren := by
  induction h with
  | leaf | list => rfl
  | group => simp [childNames, numChildren]
  | struct hlen => exact hlen
  | optional _ ih | repeated _ ih | required _ ih | encoded _ _ ih | compressed _ _ ih => exact ih

/-- Each name of a built node finds a built child. -/
theorem childByName {n : Node} (h : n.Built) :
    ∀ {name : String}, name ∈ n.childNames → ∃ c, n.childByName name = .ok c ∧ c.Built := by
  induction h with
  | leaf => nofun
  | @group children h _ =>
    intro name hname
    obtain ⟨⟨name, c⟩, hmem, rfl⟩ := List.mem_map.1 hname
    cases hfind : children.find? (·.1 == name) with
    | none => exact absurd (List.find?_eq_none.1 hfind _ hmem) (by simp)
    | some x =>
      obtain ⟨name', c'⟩ := x
      exact ⟨c', by simp [Node.childByName, hfind], h _ (List.mem_of_find?_eq_some hfind)⟩
  | @struct fields names hlen hsorted hfields _ =>
    intro name hname
    change name ∈ names at hname
    have hi : names.indexOf name < fields.length := hlen ▸ List.indexOf_lt_length.2 hname
    refine ⟨fields[names.indexOf name].1, ?_, hfields _ (List.getElem_mem _)⟩
    simp [Node.childByName, childByIndex, sliceAt, indexOf_of_sorted hsorted, hname, hi,
      Int.natCast_nonneg, Except.map]
  | @list node h _ =>
    intro name hname
    simp only [childNames, List.map_cons, List.map_nil, List.mem_singleton] at hname
    subst hname
    exact ⟨.repeatedNode (.group [("element", node)]), by simp [Node.childByName],
      .repeated (.group (by simpa using h))⟩
  | optional _ ih | repeated _ ih | required _ ih | encoded _ _ ih | compressed _ _ ih => exact ih

/-- A built node of logical type `LIST` is the `LIST` shape under its decorations. -/
theorem unwrap_of_list {n : Node} (h : n.Built) (hlist : n.type.logicalType = some .list) :
    ∃ elem, elem.Built ∧
      n.unwrap = .listNode (.group [("list", .repeatedNode (.group [("element", elem)]))]) := by
  induction h with
  | leaf _ _ hlt => exact absurd hlist hlt
  | group | struct => cases hlist
  | list h => exact ⟨_, h, rfl⟩
  | optional _ ih | repeated _ ih | required _ ih | encoded _ _ ih | compressed _ _ ih =>
    exact ih hlist

end Node.Built

/-- The `list.element` lookup of the `LIST` rewrite finds the element of the `LIST` shape. -/
theorem Node.listElement_of_unwrap {n elem : Node}
    (hu : n.unwrap = .listNode (.group [("list", .repeatedNode (.group [("element", elem)]))])) :
    (n.childByName "list" >>= Node.childByName "element") = .ok elem := by
  rw [← Node.childByName_unwrap, hu]
  simp [Node.childByName, bind, Except.bind]

/-- What holds everywhere below a `LIST` holds everywhere below its element. -/
theorem Node.Everywhere.element {P : Node → Prop} {n elem : Node} (h : n.Everywhere P)
    (hu : n.unwrap = .listNode (.group [("list", .repeatedNode (.group [("element", elem)]))])) :
    elem.Everywhere P := by
  have hlist : n.childByName "list" = .ok (.repeatedNode (.group [("element", elem)])) := by
    rw [← Node.childByName_unwrap, hu]
    simp [Node.childByName]
  exact @Node.Everywhere.child P _ elem "element"
    (h.child (by rw [← Node.childNames_unwrap, hu]; simp [Node.childNames]) hlist)
    (by simp [Node.childNames]) (by simp [Node.childByName])

/-! ## What a compilation ends in -/

/-- What a compilation may end in when it should succeed exactly under `P`: a result when `P`
holds, the panic of `Kind` on a group when it does not, or the end of its fuel. -/
def CompileOutcome {α : Type} (P : Prop) : Build α → Prop
  | .ok _ => P
  | .error (.panic message) => message = "cannot call Kind on parquet group" ∧ ¬P
  | .error .outOfFuel => True

section CompileOutcome
variable {α β : Type} {P Q : Prop}

theorem CompileOutcome.congr {x : Build α} (h : P ↔ Q) (hx : CompileOutcome P x) :
    CompileOutcome Q x :=
  match x, hx with
  | .ok _, hx => h.1 hx
  | .error (.panic _), hx => ⟨hx.1, fun hq => hx.2 (h.2 hq)⟩
  | .error .outOfFuel, _ => trivial

/-- Two compilations in a row succeed when both conditions hold. -/
theorem CompileOutcome.bind {x : Build α} {f : α → Build β} (hx : CompileOutcome P x)
    (hf : ∀ a, x = .ok a → CompileOutcome Q (f a)) : CompileOutcome (P ∧ Q) (x >>= f) :=
  match x, hx, hf with
  | .ok a, hx, hf => (hf a rfl).congr (and_iff_right hx).symm
  | .error (.panic _), hx, _ => ⟨hx.1, fun h => hx.2 h.1⟩
  | .error .outOfFuel, _, _ => trivial

theorem CompileOutcome.bind_ok {x : Build α} {f : α → Build β} (hx : CompileOutcome P x)
    (hf : ∀ a, ∃ b, f a = .ok b) : CompileOutcome P (x >>= f) :=
  CompileOutcome.congr (and_iff_left trivial) <| hx.bind fun a _ => by
    obtain ⟨b, hb⟩ := hf a
    rw [hb]
    exact True.intro

theorem CompileOutcome.map {x : Build α} {f : α → β} (hx : CompileOutcome P x) :
    CompileOutcome P (f <$> x) :=
  match x, hx with
  | .ok _, hx | .error (.panic _), hx => hx
  | .error .outOfFuel, _ => trivial

/-- With the end of the fuel ruled out, the condition decides the result. -/
theorem CompileOutcome.of_settled {x : Build α} (hx : CompileOutcome P x) (hs : Settled x) :
    ((∃ a, x = .ok a) ↔ P) ∧ ∀ e, x = .error e → e = .panic "cannot call Kind on parquet group" :=
  match x, hx, hs with
  | .ok a, hx, _ => ⟨iff_of_true ⟨a, rfl⟩ hx, fun _ h => by cases h⟩
  | .error (.panic _), hx, _ => ⟨iff_of_false (fun ⟨_, h⟩ => by cases h) hx.2,
      fun _ h => by cases h; rw [hx.1]⟩
  | .error .outOfFuel, _, hs => absurd rfl hs

end CompileOutcome

/-! ## The compiler on built nodes -/

theorem compileChildren_outcome {F : Nat → Node → Build (Nat × TraverseFunc)} {node : Node} :
    ∀ {names : List String}, (∀ name ∈ names, ∃ child, node.childByName name = .ok child ∧
      ∀ c, CompileOutcome child.NoEmptyGroup (F c child)) → ∀ c,
    CompileOutcome (∀ name ∈ names, ∀ child, node.childByName name = .ok child → child.NoEmptyGroup)
      (compileChildren F node names c)
  | [], _, _ => fun _ h => absurd h (List.not_mem_nil _)
  | name :: names, h, c => by
    obtain ⟨child, hchild, hF⟩ := h name (.head _)
    simp only [compileChildren, hchild, orPanic, ok_bind]
    refine CompileOutcome.congr ?_ <| (hF c).bind fun ⟨c', _⟩ _ => CompileOutcome.bind_ok
      (compileChildren_outcome (fun name' h' => h name' (.tail _ h')) c') fun ⟨_, _⟩ => ⟨_, rfl⟩
    simp [hchild]

/-- A built node compiles when no empty group is reachable from it, and otherwise panics on
`Kind`, unless the fuel runs out first. -/
theorem traverseFuncOf_outcome : ∀ (fuel c : Nat) {n : Node}, n.Built →
    CompileOutcome n.NoEmptyGroup (traverseFuncOf fuel c n)
  | 0, _, _, _ => trivial
  | fuel + 1, c, n, hn => by
    rw [traverseFuncOf]
    split
    · exact CompileOutcome.congr (@Node.noEmptyGroup_of_unwrap_eq (required n) n rfl) <|
        (traverseFuncOf_outcome fuel c hn.required).bind_ok fun ⟨_, _⟩ => ⟨_, rfl⟩
    · split
      · rename_i hlist
        obtain ⟨elem, helem, hu⟩ := hn.unwrap_of_list hlist
        rw [Node.listElement_of_unwrap hu]
        exact (traverseFuncOf_outcome fuel c helem.repeated).congr (by
          rw [← Node.noEmptyGroup_unwrap n, hu, Node.noEmptyGroup_list]
          exact Node.noEmptyGroup_of_unwrap_eq rfl)
      · split
        · exact CompileOutcome.congr (@Node.noEmptyGroup_of_unwrap_eq (required n) n rfl) <|
            (traverseFuncOf_outcome fuel c hn.required).bind_ok fun ⟨_, _⟩ => ⟨_, rfl⟩
        · unfold traverseFuncOfRequired traverseFuncOfLeaf traverseFuncOfGroup
          split
          · rename_i hleaf
            have hnames : n.childNames = [] := List.length_eq_zero.1 (by
              rw [hn.length_childNames]
              simpa [isLeaf] using hleaf)
            cases htype : n.type with
            | leaf =>
              exact Node.noEmptyGroup_iff.2 ⟨fun _ => by rw [htype]; nofun, by simp [hnames]⟩
            | group => exact ⟨rfl, fun h => (Node.noEmptyGroup_iff.1 h).1 hleaf htype⟩
            | list =>
              obtain ⟨elem, -, hu⟩ := hn.unwrap_of_list (by rw [htype]; rfl)
              have := Node.numChildren_unwrap n
              rw [hu] at this
              simp [isLeaf, ← this, Node.numChildren] at hleaf
          · rename_i hleaf
            refine CompileOutcome.congr ?_ <| CompileOutcome.bind_ok (compileChildren_outcome
              (fun name hname => ?_) c) fun ⟨_, _⟩ => ⟨_, rfl⟩
            · rw [Node.noEmptyGroup_iff]
              simp [hleaf]
            · obtain ⟨child, hchild, hbuilt⟩ := hn.childByName hname
              exact ⟨child, hchild, fun c => traverseFuncOf_outcome fuel c hbuilt⟩

/-- With the fuel `makeTraverseFunc` gives it, the compiler on a built node succeeds exactly
when no empty group is reachable, and otherwise panics on `Kind`. -/
theorem traverseFuncOf_built {n : Node} (hn : n.Built) {fuel : Nat} (hfuel : n.weight < fuel)
    (c : Nat) :
    ((∃ r, traverseFuncOf fuel c n = .ok r) ↔ n.NoEmptyGroup) ∧
      ∀ e, traverseFuncOf fuel c n = .error e → e = .panic "cannot call Kind on parquet group" :=
  (traverseFuncOf_outcome fuel c hn).of_settled (traverseFuncOf_settled fuel c n hfuel)

theorem makeTraverseFunc_outcome {n : Node} (hn : n.Built) :
    CompileOutcome (n.numChildren = 0 ∨ n.NoEmptyGroup) (makeTraverseFunc n) := by
  unfold makeTraverseFunc
  split
  · exact .inl ‹_›
  · exact (traverseFuncOf_outcome _ 0 hn).map.congr (or_iff_right ‹_›).symm

/-- Once `structNodeOf` has built the root of a schema, `newSchema` compiles it exactly when the
root has no fields or no group without children is reachable from it; the one way it fails is
the panic of `Kind` on such a group. -/
theorem newSchema_structNodeOf {env : TypeEnv} {fuel : Nat} {t : TypeId} {root : Node}
    (h : structNodeOf env (nodeOf env fuel) t = .ok root) (name : String) :
    ((∃ s, newSchema name root = .ok s) ↔ root.numChildren = 0 ∨ root.NoEmptyGroup) ∧
      ∀ e, newSchema name root = .error e → e = .panic "cannot call Kind on parquet group" :=
  CompileOutcome.of_settled
    ((makeTraverseFunc_outcome (structNodeOf_built (fun _ _ => nodeOf_built) h)).bind_ok
      fun _ => ⟨_, rfl⟩)
    (newSchema_settled name root)

/-! ## A field of an empty struct type -/

/-- The types of `type Empty struct{}` and `type Event struct { ID int64; Meta Empty }`. -/
def eventDesc : TypeId → Reflect.TypeDesc
  | 0 => { kind := .struct, name := "Event", string := "main.Event",
           fields := [plainField "ID" 1 0, plainField "Meta" 2 1] }
  | 1 => { kind := .int64, name := "int64", string := "int64" }
  | 2 => { kind := .struct, name := "Empty", string := "main.Empty" }
  | _ => { kind := .invalid, name := "", string := "" }

/-- The program of `Event`. -/
def eventEnv : TypeEnv where
  desc := eventDesc
  int96 := 3
  depth t := if t = 0 then 1 else 0
  depth_field := by
    intro t f hf
    rcases t with _ | _ | _ | t <;> simp_all [eventDesc]
    rcases hf with rfl | rfl <;> simp [plainField]

/-- The root of `Event`: its `Meta` field is a group without children. -/
def eventRoot : Node :=
  .structNode [(int64Field, [0]), (encoded (compressed (.structNode [] []) []) [], [1])]
    ["ID", "Meta"]

/-- `SchemaOf(Event{})` builds its root, and compiling the root panics on the `Meta` group. -/
theorem event_schema_panics :
    structNodeOf eventEnv (nodeOf eventEnv 2) 0 = .ok eventRoot ∧
      newSchema "Event" eventRoot = .error (.panic "cannot call Kind on parquet group") ∧
      (((∃ s, newSchema "Event" eventRoot = .ok s) ↔
          eventRoot.numChildren = 0 ∨ eventRoot.NoEmptyGroup) ∧
        ∀ e, newSchema "Event" eventRoot = .error e →
          e = .panic "cannot call Kind on parquet group") :=
  have h : structNodeOf eventEnv (nodeOf eventEnv 2) 0 = .ok eventRoot := rfl
  ⟨h, rfl, newSchema_structNodeOf h "Event"⟩

/-! ## The columns of a compiled node -/

/-- Compiling a built node without an empty group succeeds once the fuel exceeds its weight,
and numbers the node's leaves: from every start index `c` it returns `c + k`, `k` the number of
leaves, and the `j`-th leaf closure emits under `c + j` with the kind of the `j`-th leaf.  For
every schema `SchemaOf` returns with a root that has fields, a run calls only the columns
`0, 1, …, k - 1`, whatever the sink, and a run that returns nil with a sink that accepts every
call makes its first calls of them in that order. -/
theorem traverseFuncOf_numbers_leaves :
    (∀ {n : Node}, n.Built → n.NoEmptyGroup → ∀ {fuel : Nat}, n.weight < fuel → ∀ c, ∃ f,
      traverseFuncOf fuel c n = .ok (c + n.leaves.length, f) ∧
      f.leaves.map Prod.fst = List.range' c n.leaves.length ∧
      f.leaves.map (fun l => .ok l.2) = n.leaves.map ParquetType.kind) ∧
    (∀ env fuel t s, schemaOf env fuel t = .ok s → s.root.numChildren ≠ 0 →
      ∀ value traversal,
        (∀ call ∈ ((s.traverseValue env value traversal).run []).2,
          call.1 < s.root.leaves.length) ∧
        ((∀ made call, traversal made call = none) →
          ((s.traverseValue env value traversal).run []).1 = .ok none →
          firstOccurrences (((s.traverseValue env value traversal).run []).2.map Prod.fst) =
            List.range s.root.leaves.length)) :=
  ⟨fun {_} hn hne {_} hfuel c =>
      have ⟨_, hr⟩ := (traverseFuncOf_built hn hfuel c).1.2 hne
      traverseFuncOf_ok_numbers hr c,
    fun _ _ _ _ hs hroot value traversal =>
      ⟨schemaOf_call_lt hs hroot value traversal,
        schemaOf_firstOccurrences hs hroot value traversal⟩⟩

theorem record_columns_numbered :
    recordSchema.root.Built ∧ recordSchema.root.NoEmptyGroup ∧ recordSchema.root.weight < 20 ∧
      (∃ f, traverseFuncOf 20 5 recordSchema.root =
          .ok (5 + recordSchema.root.leaves.length, f) ∧
        f.leaves.map Prod.fst = List.range' 5 recordSchema.root.leaves.length ∧
        f.leaves.map (fun l => .ok l.2) = recordSchema.root.leaves.map ParquetType.kind) ∧
      (∀ call ∈ ((recordSchema.traverseValue recordEnv firstRecord fun _ _ => none).run []).2,
        call.1 < recordSchema.root.leaves.length) ∧
      firstOccurrences
        (((recordSchema.traverseValue recordEnv firstRecord fun _ _ => none).run []).2.map
          Prod.fst) = List.range recordSchema.root.leaves.length :=
  have hbuilt := schemaOf_built schemaOf_record
  have hfuel : recordSchema.root.weight < 20 := by decide
  have hne := (traverseFuncOf_built hbuilt hfuel 0).1.1 ⟨_, rfl⟩
  have hrun := traverseFuncOf_numbers_leaves.2 recordEnv 3 0 recordSchema schemaOf_record
    (by decide) firstRecord _
  ⟨hbuilt, hne, hfuel, traverseFuncOf_numbers_leaves.1 hbuilt hne hfuel 5, hrun.1,
    hrun.2 (fun _ _ => rfl) rfl⟩

/-- A program whose only type is `type message struct{}`. -/
def messageEnv : TypeEnv where
  desc _ := { kind := .struct, name := "message", string := "parquet.message" }
  int96 := 1
  depth _ := 0
  depth_field _ _ h := by simp at h

/-- `SchemaOf` accepts `message{}` without compiling its root, on which `traverseFuncOf`
panics whatever the start index. -/
theorem message_root_panics :
    ∃ s, schemaOf messageEnv 1 0 = .ok s ∧
      ∀ fuel c, traverseFuncOf (fuel + 1) c s.root =
        .error (.panic "cannot call Kind on parquet group") :=
  ⟨⟨"message", .structNode [] [], .noop⟩, rfl, fun _ _ => rfl⟩

end ParquetGo
