import ParquetGo.Proofs.Names

/-!
# When `SchemaOf` terminates

`nodeOf` recurses through pointers, slices and the fields of structs, and `schema.go` keeps
no record of the types it is already inside: on `type List struct { Next *List }` Go recurses
until its stack overflows.  The model bounds that recursion by `fuel` and returns
`Abort.outOfFuel` when the bound is hit, so the question "does `SchemaOf` terminate" becomes
"does some fuel settle it, and does more fuel then change nothing":

* `next_pointer_runs_out`: on `List`, every fuel runs out.
* `schemaOf_settles`: when no infinite chain of references starts at the type — through the
  element of a pointer or of a slice, and the (flattened) fields of a struct, `Refers` — some
  fuel settles `schemaOf`: it returns a schema or panics, and every larger fuel gives the
  same.

## Strategy

Two predicates on builds carry the argument.  `Settled x`: `x` did not run out of fuel.
`Extends x y`: `y` gives what `x` gives unless `x` ran out of fuel.  Both pass through `bind`,
`mapM` and `foldlM`, so each function of the builder keeps them when the `nodeOf` it is given
does (`structNodeOf_extends`, `structNodeOf_settled`).  Induction on the fuel then gives
monotonicity (`nodeOf_extends`); induction on `Refers`, through its transitive closure
because a `list` field calls `nodeOf` on the element of its slice, gives a fuel that settles
`nodeOf`.  The compiler of the traversal has its own fuel, which `Node.weight` bounds
(`traverseFuncOf_settled`).
-/

namespace ParquetGo

open Reflect (TypeEnv TypeId TypeDesc StructField)

/-! ## Settled builds -/

/-- A build that did not run out of fuel: it returned, or it panicked. -/
def Settled {α : Type} (x : Build α) : Prop := x ≠ .error .outOfFuel

/-- `y` gives what `x` gives, unless `x` ran out of fuel. -/
def Extends {α : Type} (x y : Build α) : Prop := Settled x → y = x

section Combinators
variable {α β : Type}

@[simp] theorem ok_bind (a : α) (f : α → Build β) : (.ok a >>= f : Build β) = f a := rfl

@[simp] theorem error_bind (e : Abort) (f : α → Build β) : (.error e >>= f : Build β) = .error e :=
  rfl

@[simp] theorem settled_ok (a : α) : Settled (.ok a : Build α) := nofun

@[simp] theorem settled_panic (msg : String) : Settled (.error (.panic msg) : Build α) := nofun

@[simp] theorem settled_orPanic (x : Except String α) : Settled (orPanic x) := by
  cases x <;> simp [orPanic]

theorem Settled.bind {x : Build α} {f : α → Build β} (hx : Settled x)
    (hf : ∀ a, x = .ok a → Settled (f a)) : Settled (x >>= f) := by
  cases x with
  | error e => exact fun h => hx (by cases h; rfl)
  | ok a => exact hf a rfl

theorem Settled.of_bind {x : Build α} {f : α → Build β} (h : Settled (x >>= f)) : Settled x := by
  cases x with
  | error e => exact fun h' => h (by cases h'; rfl)
  | ok a => exact settled_ok a

theorem Settled.map {x : Build α} {f : α → β} (hx : Settled x) : Settled (f <$> x) := by
  cases x with
  | error e => exact fun h => hx (by cases h; rfl)
  | ok a => exact settled_ok _

theorem Settled.mapM {f : α → Build β} :
    ∀ {l : List α}, (∀ a ∈ l, Settled (f a)) → Settled (l.mapM f)
  | [], _ => settled_ok _
  | a :: l, h => by
    rw [List.mapM_cons]
    exact (h a (.head _)).bind fun _ _ =>
      (Settled.mapM fun b hb => h b (.tail _ hb)).bind fun _ _ => settled_ok _

theorem Settled.foldlM {f : β → α → Build β} :
    ∀ {l : List α} {b : β}, (∀ b, ∀ a ∈ l, Settled (f b a)) → Settled (l.foldlM f b)
  | [], _, _ => settled_ok _
  | a :: l, b, h => by
    rw [List.foldlM_cons]
    exact (h b a (.head _)).bind fun b' _ => Settled.foldlM fun b'' c hc => h b'' c (.tail _ hc)

theorem Extends.refl (x : Build α) : Extends x x := fun _ => rfl

theorem Extends.trans {x y z : Build α} (hxy : Extends x y) (hyz : Extends y z) :
    Extends x z := fun hx => (hyz (hxy hx ▸ hx)).trans (hxy hx)

theorem Extends.settled {x y : Build α} (hxy : Extends x y) (hx : Settled x) : Settled y :=
  hxy hx ▸ hx

theorem Extends.bind {x y : Build α} {f g : α → Build β} (hxy : Extends x y)
    (hfg : ∀ a, Extends (f a) (g a)) : Extends (x >>= f) (y >>= g) := fun h => by
  rw [hxy h.of_bind]
  cases x with
  | error e => rfl
  | ok a => exact hfg a h

theorem Extends.map {x y : Build α} (f : α → β) (hxy : Extends x y) :
    Extends (f <$> x) (f <$> y) := fun h => by
  rw [hxy (by cases x <;> simp_all [Settled])]

theorem Extends.mapM {f g : α → Build β} (hfg : ∀ a, Extends (f a) (g a)) :
    ∀ l : List α, Extends (l.mapM f) (l.mapM g)
  | [] => Extends.refl _
  | a :: l => by
    simp only [List.mapM_cons]
    exact (hfg a).bind fun _ => (Extends.mapM hfg l).bind fun _ => Extends.refl _

theorem Extends.foldlM {f g : β → α → Build β} (hfg : ∀ b a, Extends (f b a) (g b a)) :
    ∀ (l : List α) (b : β), Extends (l.foldlM f b) (l.foldlM g b)
  | [], _ => Extends.refl _
  | a :: l, b => by
    simp only [List.foldlM_cons]
    exact (hfg b a).bind fun b' => Extends.foldlM hfg l b'

end Combinators

/-! ## The builder keeps both -/

section Builder
variable {env : TypeEnv} {g g' : TypeId → Build Node}

theorem settled_declareOnce {f : StructField} {declared : Bool} {msg : String}
    {update : FieldOptions} : Settled (declareOnce env f declared msg update) := by
  cases declared
  · exact settled_ok _
  · exact nofun

/-- An option calls `nodeOf` only for `list`, on the element of the field's slice type. -/
theorem applyOption_settled {f : StructField} {s : FieldOptions} {option args : String}
    (hg : env.kind f.type = .slice → Settled (g (env.elem f.type))) :
    Settled (applyOption env g f s option args) := by
  unfold applyOption
  split <;> (try split) <;> (try split) <;>
    first
    | exact settled_panic _
    | exact settled_declareOnce
    | exact settled_ok _
    | exact (hg ‹_›).bind fun _ _ => settled_declareOnce.bind fun _ _ => settled_declareOnce

theorem applyOption_extends (hg : ∀ u, Extends (g u) (g' u)) {f : StructField}
    {s : FieldOptions} {option args : String} :
    Extends (applyOption env g f s option args) (applyOption env g' f s option args) := by
  unfold applyOption
  split <;> (try split) <;>
    first
    | exact Extends.refl _
    | exact (hg _).bind fun _ => Extends.refl _

theorem structFieldNode_settled {f : StructField} {options : List (String × String)}
    (htype : Settled (g f.type)) (helem : env.kind f.type = .slice → Settled (g (env.elem f.type))) :
    Settled (structFieldNode env g f options) := by
  unfold structFieldNode
  refine (Settled.foldlM fun _ _ _ => applyOption_settled helem).bind fun s _ => ?_
  dsimp only
  split
  · exact settled_ok _
  · exact htype.bind fun _ _ => settled_ok _

theorem structFieldNode_extends (hg : ∀ u, Extends (g u) (g' u)) {f : StructField}
    {options : List (String × String)} :
    Extends (structFieldNode env g f options) (structFieldNode env g' f options) := by
  unfold structFieldNode
  refine (Extends.foldlM (fun _ _ => applyOption_extends hg) _ _).bind fun s => ?_
  dsimp only
  split
  · exact Extends.refl _
  · exact (hg _).bind fun _ => Extends.refl _

/-- `appendStructFields` recurses only into embedded structs, which are shallower. -/
theorem appendStructFields_settled : ∀ {fuel : Nat} {t : TypeId} {fields : List StructField}
    {index : List Nat}, env.depth t < fuel → Settled (appendStructFields env fuel t fields index)
  | 0, _, _, _, h => absurd h (Nat.not_lt_zero _)
  | fuel + 1, t, _, _, h => by
    rw [appendStructFields]
    split
    · refine Settled.foldlM fun _ ⟨_, f⟩ hf => ?_
      dsimp only
      split
      · exact appendStructFields_settled <| lt_of_lt_of_le
          (env.depth_field t f (List.snd_mem_of_mem_enum hf)) (Nat.lt_succ_iff.1 h)
      · split <;> exact settled_ok _
    · exact nofun

theorem structFieldsOf_settled {t : TypeId} : Settled (structFieldsOf env t) :=
  (appendStructFields_settled (Nat.lt_succ_self _)).bind fun _ _ => settled_ok _

/-- `structNodeOf` settles when `nodeOf` settles on the types of the fields, and on the element
of each field of slice type, which a `list` option asks for. -/
theorem structNodeOf_settled {t : TypeId}
    (hg : ∀ fields, structFieldsOf env t = .ok fields → ∀ f ∈ fields,
      Settled (g f.type) ∧ (env.kind f.type = .slice → Settled (g (env.elem f.type)))) :
    Settled (structNodeOf env g t) :=
  structFieldsOf_settled.bind fun fields hfields =>
    (Settled.mapM fun f hf => (structFieldNode_settled (hg fields hfields f hf).1
      (hg fields hfields f hf).2).bind fun _ _ => settled_ok _).bind fun _ _ => settled_ok _

theorem structNodeOf_extends (hg : ∀ u, Extends (g u) (g' u)) {t : TypeId} :
    Extends (structNodeOf env g t) (structNodeOf env g' t) :=
  (Extends.refl _).bind fun fields =>
    (Extends.mapM (fun _ => (structFieldNode_extends hg).bind fun _ => Extends.refl _)
      fields).bind fun _ => Extends.refl _

end Builder

/-! ## Fuel beyond settling is inert -/

section Fuel
variable {env : TypeEnv}

theorem nodeOf_extends_succ : ∀ (fuel : Nat) (t : TypeId),
    Extends (nodeOf env fuel t) (nodeOf env (fuel + 1) t)
  | 0, _ => fun h => absurd rfl h
  | fuel + 1, t => by
    rw [nodeOf, nodeOf]
    split
    · exact Extends.refl _
    · split <;> first
        | exact Extends.refl _
        | exact (nodeOf_extends_succ fuel _).map _
        | exact structNodeOf_extends (nodeOf_extends_succ fuel)

/-- More fuel changes nothing in a result of `nodeOf` that did not run out of fuel. -/
theorem nodeOf_extends {fuel fuel' : Nat} (h : fuel ≤ fuel') (t : TypeId) :
    Extends (nodeOf env fuel t) (nodeOf env fuel' t) := by
  induction h with
  | refl => exact Extends.refl _
  | step _ ih => exact ih.trans (nodeOf_extends_succ _ _)

theorem schemaOf_extends {fuel fuel' : Nat} (h : fuel ≤ fuel') (t : TypeId) :
    Extends (schemaOf env fuel t) (schemaOf env fuel' t) := by
  unfold schemaOf namedSchemaOf
  split
  · exact (structNodeOf_extends (nodeOf_extends h)).bind fun _ => Extends.refl _
  · split
    · exact (structNodeOf_extends (nodeOf_extends h)).bind fun _ => Extends.refl _
    · exact Extends.refl _

end Fuel

/-! ## The compiler of the traversal settles -/

/-- What bounds the recursion of `traverseFuncOf`: twice the size, and one more for an optional
or repeated node, which the compiler visits again as `required`. -/
def Node.weight (n : Node) : Nat := 2 * n.size + if n.optional || n.repeated then 1 else 0

theorem Node.weight_le (n : Node) : n.weight ≤ 2 * n.size + 1 := by
  unfold Node.weight
  split <;> omega

theorem weight_required {n : Node} (h : n.optional || n.repeated) :
    (required n).weight + 1 = n.weight := by
  simp [Node.weight, required, Node.size, Node.optional, Node.repeated, h]

theorem compileChildren_settled {F : Nat → Node → Build (Nat × TraverseFunc)} {node : Node}
    (hF : ∀ c child, child.size < node.size → Settled (F c child)) :
    ∀ (names : List String) (c : Nat), Settled (compileChildren F node names c)
  | [], _ => settled_ok _
  | _ :: names, _ => (settled_orPanic _).bind fun _ hchild =>
      (hF _ _ (Node.size_lt_of_childByName (orPanic_eq_ok.1 hchild))).bind fun ⟨c', _⟩ _ =>
        (compileChildren_settled hF names c').bind fun ⟨_, _⟩ _ => settled_ok _

/-- `traverseFuncOf` settles with more fuel than the weight of its node. -/
theorem traverseFuncOf_settled : ∀ (fuel c : Nat) (n : Node), n.weight < fuel →
    Settled (traverseFuncOf fuel c n)
  | 0, _, _, h => absurd h (Nat.not_lt_zero _)
  | fuel + 1, c, n, h => by
    rw [traverseFuncOf]
    split
    · rename_i hoptional
      have := weight_required (n := n) (by simp [hoptional])
      exact (traverseFuncOf_settled fuel c _ (by omega)).bind fun ⟨_, _⟩ _ => settled_ok _
    · split
      · refine (settled_orPanic _).bind fun elem helem => traverseFuncOf_settled fuel c _ ?_
        obtain ⟨l, hl, helem⟩ := bind_eq_ok.1 (orPanic_eq_ok.1 helem)
        have h₁ := Node.size_lt_of_childByName hl
        have h₂ := Node.size_lt_of_childByName helem
        have h₃ := n.weight_le
        simp only [Node.weight, repeated, Node.size, Node.repeated, Bool.or_true, if_true]
        simp only [Node.weight] at h
        split at h <;> omega
      · split
        · rename_i hrepeated
          have := weight_required (n := n) (by simp [hrepeated])
          exact (traverseFuncOf_settled fuel c _ (by omega)).bind fun ⟨_, _⟩ _ => settled_ok _
        · unfold traverseFuncOfRequired traverseFuncOfLeaf traverseFuncOfGroup
          split
          · exact (settled_orPanic _).bind fun _ _ => settled_ok _
          · refine (compileChildren_settled (fun c child hchild => ?_) _ _).bind
              fun ⟨_, _⟩ _ => settled_ok _
            have := child.weight_le
            have : 2 * n.size ≤ n.weight := by unfold Node.weight; omega
            exact traverseFuncOf_settled fuel c child (by omega)

theorem makeTraverseFunc_settled (node : Node) : Settled (makeTraverseFunc node) := by
  unfold makeTraverseFunc
  split
  · exact settled_ok _
  · exact (traverseFuncOf_settled _ _ _ (by have := node.weight_le; omega)).map

theorem newSchema_settled (name : String) (root : Node) : Settled (newSchema name root) :=
  (makeTraverseFunc_settled root).bind fun _ _ => settled_ok _

/-! ## Types that settle -/

/-- The types `nodeOf` maps when it maps `t`: the element of a pointer or of a slice, and the
type of each field `structFieldsOf` gives a struct. -/
inductive Refers (env : TypeEnv) : TypeId → TypeId → Prop
  | ptr {t : TypeId} : env.kind t = .ptr → Refers env (env.elem t) t
  | slice {t : TypeId} : env.kind t = .slice → Refers env (env.elem t) t
  | field {t : TypeId} {fields : List StructField} {f : StructField} :
      env.kind t = .struct → structFieldsOf env t = .ok fields → f ∈ fields →
        Refers env f.type t

section Settles
variable {env : TypeEnv}

theorem settled_cannotCreate {α : Type} {t : TypeId} : Settled (cannotCreate env t : Build α) :=
  nofun

/-- Finitely many types that each settle at some fuel all settle at one. -/
theorem exists_fuel_settled : ∀ {types : List TypeId},
    (∀ u ∈ types, ∃ fuel, Settled (nodeOf env fuel u)) →
      ∃ fuel, ∀ u ∈ types, Settled (nodeOf env fuel u)
  | [], _ => ⟨0, nofun⟩
  | u :: types, h => by
    obtain ⟨n, hn⟩ := h u (.head _)
    obtain ⟨m, hm⟩ := exists_fuel_settled fun v hv => h v (.tail _ hv)
    refine ⟨max n m, fun v hv => ?_⟩
    rcases List.mem_cons.1 hv with rfl | hv
    · exact (nodeOf_extends (le_max_left n m) v).settled hn
    · exact (nodeOf_extends (le_max_right n m) v).settled (hm v hv)

/-- A struct settles once every type it leads `nodeOf` to settles: the types of its fields,
and the elements of those of slice type, two references away. -/
theorem structNodeOf_settles {t : TypeId} (hkind : env.kind t = .struct)
    (ih : ∀ u, Relation.TransGen (Refers env) u t → ∃ fuel, Settled (nodeOf env fuel u)) :
    ∃ fuel, Settled (structNodeOf env (nodeOf env fuel) t) := by
  cases hfields : structFieldsOf env t with
  | error e => exact ⟨0, structNodeOf_settled fun _ h => by simp [hfields] at h⟩
  | ok fields =>
    obtain ⟨fuel, hfuel⟩ := @exists_fuel_settled env (fields.flatMap fun f =>
      f.type :: if env.kind f.type = .slice then [env.elem f.type] else []) (by
        simp only [List.mem_flatMap, List.mem_cons]
        rintro u ⟨f, hf, rfl | hu⟩
        · exact ih _ (.single (.field hkind hfields hf))
        · split at hu
          · rw [List.mem_singleton.1 hu]
            exact ih _ (.tail (.single (.slice ‹_›)) (.field hkind hfields hf))
          · cases hu)
    refine ⟨fuel, structNodeOf_settled fun fields' hfields' f hf => ?_⟩
    rw [hfields, Except.ok.injEq] at hfields'
    subst hfields'
    exact ⟨hfuel _ (List.mem_flatMap.2 ⟨f, hf, .head _⟩), fun hslice =>
      hfuel _ (List.mem_flatMap.2 ⟨f, hf, by simp [hslice]⟩)⟩

/-- `nodeOf` settles on a type from which no infinite chain of references starts. -/
theorem nodeOf_settles {t : TypeId} (hacc : Acc (Refers env) t) :
    ∃ fuel, Settled (nodeOf env fuel t) := by
  replace hacc := hacc.transGen
  induction hacc with
  | intro t _ ih =>
    by_cases hint96 : t = env.int96
    · exact ⟨1, by rw [nodeOf, if_pos hint96]; exact settled_ok _⟩
    by_cases hptr : env.kind t = .ptr
    · obtain ⟨fuel, h⟩ := ih _ (.single (.ptr hptr))
      exact ⟨fuel + 1, by rw [nodeOf, if_neg hint96]; simp only [hptr]; exact h.map⟩
    by_cases hslice : env.kind t = .slice
    · obtain ⟨fuel, h⟩ := ih _ (.single (.slice hslice))
      exact ⟨fuel + 1, by rw [nodeOf, if_neg hint96]; simp only [hslice]; exact h.map⟩
    by_cases hstruct : env.kind t = .struct
    · obtain ⟨fuel, h⟩ := structNodeOf_settles hstruct ih
      exact ⟨fuel + 1, by rw [nodeOf, if_neg hint96]; simp only [hstruct]; exact h⟩
    · exact ⟨1, by
        rw [nodeOf, if_neg hint96]
        split <;> first
          | exact settled_ok _
          | exact settled_cannotCreate
          | contradiction
          | split <;> first | exact settled_ok _ | exact settled_cannotCreate⟩

theorem structNodeOf_settles_of_acc {t : TypeId} (hacc : Acc (Refers env) t)
    (hkind : env.kind t = .struct) : ∃ fuel, Settled (structNodeOf env (nodeOf env fuel) t) :=
  structNodeOf_settles hkind fun _ hu => nodeOf_settles (acc_transGen_iff.1 (hacc.transGen.inv hu))

end Settles

/-- `SchemaOf` terminates on every type from which no infinite chain of references starts —
through the element of a pointer or of a slice, and the fields of a struct: some fuel
settles it, on a schema or a panic, and every larger fuel gives the same. -/
theorem schemaOf_settles (env : TypeEnv) (t : TypeId) (hacc : Acc (Refers env) t) :
    ∃ fuel, Settled (schemaOf env fuel t) ∧
      ∀ fuel' ≥ fuel, schemaOf env fuel' t = schemaOf env fuel t := by
  suffices h : ∃ fuel, Settled (schemaOf env fuel t) by
    obtain ⟨fuel, h⟩ := h
    exact ⟨fuel, h, fun _ hle => schemaOf_extends hle t h⟩
  by_cases hstruct : env.kind t = .struct
  · obtain ⟨fuel, h⟩ := structNodeOf_settles_of_acc hacc hstruct
    exact ⟨fuel, by
      simp only [schemaOf, namedSchemaOf, if_pos hstruct]
      exact h.bind fun _ _ => newSchema_settled _ _⟩
  by_cases hptr : env.kind t = .ptr ∧ env.kind (env.elem t) = .struct
  · obtain ⟨fuel, h⟩ := structNodeOf_settles_of_acc (hacc.inv (.ptr hptr.1)) hptr.2
    exact ⟨fuel, by
      simp only [schemaOf, namedSchemaOf, if_neg hstruct, if_pos hptr]
      exact h.bind fun _ _ => newSchema_settled _ _⟩
  · exact ⟨0, by simp only [schemaOf, namedSchemaOf, if_neg hstruct, if_neg hptr]; exact nofun⟩

/-- A rank on types that every reference lowers rules out infinite chains of references. -/
theorem Refers.acc_of_rank {env : TypeEnv} (rank : TypeId → Nat)
    (hrank : ∀ {u t}, Refers env u t → rank u < rank t) (t : TypeId) : Acc (Refers env) t :=
  Subrelation.accessible hrank ((measure rank).wf.apply t)

/-! ## Two programs -/

/-- The types of `type List struct { Next *List }`. -/
def listDesc : TypeId → TypeDesc
  | 0 => { kind := .struct, name := "List", string := "main.List",
           fields := [plainField "Next" 1 0] }
  | 1 => { kind := .ptr, name := "", string := "*main.List", elem := 0 }
  | _ => { kind := .invalid, name := "", string := "" }

/-- The program of `List`. -/
def listEnv : TypeEnv where
  desc := listDesc
  int96 := 2
  depth t := if t = 0 then 1 else 0
  depth_field := by
    intro t f hf
    rcases t with _ | _ | t <;> simp_all [listDesc, plainField]

theorem structNodeOf_list {g : TypeId → Build Node} (hg : g 1 = .error .outOfFuel) :
    structNodeOf listEnv g 0 = .error .outOfFuel := by
  have hnode : structFieldNode listEnv g (plainField "Next" 1 0) [] = .error .outOfFuel := by
    simp [structFieldNode, plainField, hg]
  have hmake : makeStructField listEnv g (plainField "Next" 1 0) = .error .outOfFuel := by
    show structFieldNode listEnv g (plainField "Next" 1 0) [] >>= _ = _
    rw [hnode, error_bind]
  show structFieldsOf listEnv 0 >>= _ = _
  rw [show structFieldsOf listEnv 0 = .ok [plainField "Next" 1 0] from rfl, ok_bind,
    List.mapM_cons, hmake, error_bind, error_bind]

theorem nodeOf_list : ∀ fuel,
    nodeOf listEnv fuel 0 = .error .outOfFuel ∧ nodeOf listEnv fuel 1 = .error .outOfFuel
  | 0 => ⟨rfl, rfl⟩
  | fuel + 1 => by
    have ⟨h₀, h₁⟩ := nodeOf_list fuel
    refine ⟨?_, ?_⟩ <;> rw [nodeOf, if_neg (by decide)]
    · exact structNodeOf_list h₁
    · show optional <$> nodeOf listEnv fuel 0 = _
      rw [h₀]
      rfl

theorem schemaOf_list (fuel : Nat) : schemaOf listEnv fuel 0 = .error .outOfFuel := by
  show structNodeOf listEnv (nodeOf listEnv fuel) 0 >>= _ = _
  rw [structNodeOf_list (nodeOf_list fuel).2, error_bind]

/-- On `type List struct { Next *List }` every fuel runs out: `nodeOf` goes from `List` to
`*List` and back for ever. -/
theorem next_pointer_runs_out : (schemaOf listEnv · 0) = fun _ => .error .outOfFuel :=
  funext schemaOf_list

/-- The types of `type Leaf struct { X int64 }` and
`type Tree struct { Left *Leaf; Rest []Leaf }`. -/
def treeDesc : TypeId → TypeDesc
  | 0 => { kind := .struct, name := "Leaf", string := "main.Leaf", fields := [plainField "X" 1 0] }
  | 1 => { kind := .int64, name := "int64", string := "int64" }
  | 2 => { kind := .struct, name := "Tree", string := "main.Tree",
           fields := [plainField "Left" 3 0, plainField "Rest" 4 1] }
  | 3 => { kind := .ptr, name := "", string := "*main.Leaf", elem := 0 }
  | 4 => { kind := .slice, name := "", string := "[]main.Leaf", elem := 0 }
  | _ => { kind := .invalid, name := "", string := "" }

/-- The program of `Leaf` and `Tree`. -/
def treeEnv : TypeEnv where
  desc := treeDesc
  int96 := 5
  depth t := if t = 0 ∨ t = 2 then 1 else 0
  depth_field := by
    intro t f hf
    rcases t with _ | _ | _ | _ | _ | t <;> simp_all [treeDesc, plainField]
    rcases hf with rfl | rfl <;> simp

/-- How far a type of `treeEnv` is from the leaves of the reference graph. -/
def treeRank : TypeId → Nat
  | 2 => 3
  | 3 | 4 => 2
  | 0 => 1
  | _ => 0

theorem treeRank_lt {u t : TypeId} (h : Refers treeEnv u t) : treeRank u < treeRank t := by
  cases h with
  | ptr hk | slice hk =>
    rcases t with _ | _ | _ | _ | _ | t <;> simp_all [treeEnv, treeDesc, TypeEnv.kind, TypeEnv.elem,
      treeRank]
  | field hk hfields hf =>
    rcases t with _ | _ | _ | _ | _ | t <;> simp [treeEnv, treeDesc, TypeEnv.kind] at hk
    · rw [show structFieldsOf treeEnv 0 = .ok [plainField "X" 1 0] from rfl] at hfields
      cases hfields
      simp_all [plainField, treeRank]
    · rw [show structFieldsOf treeEnv 2 = .ok [plainField "Left" 3 0, plainField "Rest" 4 1]
        from rfl] at hfields
      cases hfields
      rcases List.mem_pair.1 hf with rfl | rfl <;> decide

/-- `Tree` settles: no chain of references from it is infinite. -/
theorem tree_schema_settles :
    Acc (Refers treeEnv) 2 ∧ ∃ fuel, Settled (schemaOf treeEnv fuel 2) ∧
      ∀ fuel' ≥ fuel, schemaOf treeEnv fuel' 2 = schemaOf treeEnv fuel 2 :=
  ⟨Refers.acc_of_rank treeRank treeRank_lt 2,
    schemaOf_settles treeEnv 2 (Refers.acc_of_rank treeRank treeRank_lt 2)⟩

end ParquetGo
