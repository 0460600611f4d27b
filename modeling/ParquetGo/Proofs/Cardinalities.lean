import ParquetGo.Proofs.Shapes
import ParquetGo.Proofs.Pipeline

/-!
# The cardinalities the plan keeps

For each leaf, the schema tree has the Optional and Repeated nodes on the way to it, as
`ChildNames`/`ChildByName` and `Optional()`/`Repeated()` show them (`Node.cardinalities`); the
compiled plan has its Optional and Repeated closures (`TraverseFunc.cardinalities`), and those
decide the levels a run emits.  The two differ at a `LIST`: `traverseFuncOf` compiles it as
`Repeated(list.element)`, and that decoration answers `Optional()` and `Repeated()` for the
element, so the element's own cardinality is never compiled; a `LIST` that is repeated itself,
and a `LIST` of `LIST`s, lose one more.  Nothing else is lost, and nothing is added:

* `traverseFuncOf_cardinalities`: whenever the compiler compiles a built node, the plan's
  cardinalities for each leaf are a subsequence of the tree's, and all of them exactly when
  the node's `LIST`s are plain (`Node.PlainLists`).
* `schemaOf_cardinalities`: the same for the schemas `SchemaOf` returns.

## Strategy

`Node.innerCardinalities` is what the tree has under a node's own cardinality; a decoration
does not change it, and the tree's cardinalities are `innerCardinalities` behind the node's own
(`cardinalities_eq_inner`).  The fuel induction follows `traverseFuncOf_leaves`, with one lemma
per case of the compiler; the Optional and Repeated cases share
`keepsCardinalities_of_required`.  That nothing is lost when the `LIST`s are plain, and
something is when they are not, is counted with `totalLength`: entry-by-entry sublists with as
many cardinalities in all are equal.
-/

namespace ParquetGo

open Reflect (TypeEnv TypeId)

/-! ## Below a node -/

namespace Node

/-- The cardinalities of the leaves under one child of a node, counted from the child. -/
def cardinalitiesAt (n : Node) (name : String) : List (List Cardinality) :=
  match n.childByName name with
  | .ok child => child.cardinalities
  | .error _ => []

/-- The cardinalities of the leaves of a node, counted from below the node itself. -/
def innerCardinalities (n : Node) : List (List Cardinality) :=
  if n.numChildren = 0 then [[]] else n.childNames.flatMap n.cardinalitiesAt

theorem cardinalities_eq_inner (n : Node) :
    n.cardinalities = n.innerCardinalities.map (n.ownCardinality ++ ·) := by
  rw [cardinalities_eq, innerCardinalities]
  split
  · simp
  · rw [List.map_flatMap]
    refine congrArg _ (funext fun name => ?_)
    simp only [childCardinalities, cardinalitiesAt]
    cases childByName name n <;> rfl

@[simp] theorem innerCardinalities_unwrap (n : Node) :
    n.unwrap.innerCardinalities = n.innerCardinalities := by
  have hat : n.unwrap.cardinalitiesAt = n.cardinalitiesAt :=
    funext fun name => by simp only [cardinalitiesAt, childByName_unwrap]
  simp only [innerCardinalities, numChildren_unwrap, childNames_unwrap, hat]

@[simp] theorem innerCardinalities_requiredNode (n : Node) :
    (Node.requiredNode n).innerCardinalities = n.innerCardinalities := rfl

@[simp] theorem innerCardinalities_repeatedNode (n : Node) :
    (Node.repeatedNode n).innerCardinalities = n.innerCardinalities := rfl

theorem ownCardinality_eq_nil_iff {n : Node} :
    n.ownCardinality = [] ↔ n.optional = false ∧ n.repeated = false := by
  unfold ownCardinality
  split_ifs <;> simp_all

/-- A node reports at most one cardinality: the one of its outermost Optional or Repeated
decoration. -/
theorem repeated_eq_false_of_optional : ∀ {n : Node}, n.optional = true → n.repeated = false
  | .encodedNode n _, h | .compressedNode n _, h => repeated_eq_false_of_optional (n := n) h
  | .optionalNode _, _ | .requiredNode _, _ => rfl
  | .leaf _ _, h | .group _, h | .structNode _ _, h | .listNode _, h | .repeatedNode _, h =>
    Bool.noConfusion h

/-- Under the `LIST` shape: the Repeated group `list`, then the element. -/
theorem innerCardinalities_list (elem : Node) :
    (Node.listNode
        (.group [("list", .repeatedNode (.group [("element", elem)]))])).innerCardinalities =
      elem.innerCardinalities.map fun b => .repeated :: (elem.ownCardinality ++ b) := by
  have hR : (Node.repeatedNode (.group [("element", elem)])).cardinalities =
      elem.cardinalities.map (.repeated :: ·) := by
    rw [cardinalities_eq_inner]
    simp [innerCardinalities, cardinalitiesAt, numChildren, childNames, childByName,
      ownCardinality, optional, repeated]
  simp [innerCardinalities, cardinalitiesAt, numChildren, childNames, childByName, hR,
    cardinalities_eq_inner elem]

/-- No `LIST` reachable from `n` is repeated, and none has an element that is optional,
repeated, or a `LIST` itself: the cardinalities that the `LIST` rewrite hides. -/
def PlainLists (n : Node) : Prop := n.Everywhere fun m => m.type.logicalType = some .list →
  m.repeated = false ∧
    ∀ elem, (m.childByName "list" >>= Node.childByName "element") = .ok elem →
      elem.ownCardinality = [] ∧ elem.type.logicalType ≠ some .list

end Node

/-- `Required(node)` has the `LIST`s of the node, unless the node is a repeated `LIST`. -/
theorem Node.plainLists_required_iff {n : Node}
    (hlist : n.type.logicalType = some .list → n.repeated = false) :
    (Node.requiredNode n).PlainLists ↔ n.PlainLists := by
  simp only [Node.PlainLists]
  rw [Node.everywhere_iff, Node.everywhere_iff (n := n)]
  exact and_congr_left' ⟨fun h hl => ⟨hlist hl, (h hl).2⟩, fun h hl => ⟨rfl, (h hl).2⟩⟩

/-- The `LIST`s under a `LIST` node are plain exactly when the node is not repeated, its
element has no cardinality of its own, and the `LIST`s of `Repeated(element)` are plain: the
element is then no `LIST` either. -/
theorem Node.plainLists_list_iff {n elem : Node}
    (hu : n.unwrap = .listNode (.group [("list", .repeatedNode (.group [("element", elem)]))])) :
    n.PlainLists ↔ n.repeated = false ∧ elem.ownCardinality = [] ∧
      (Node.repeatedNode elem).PlainLists := by
  have hlist : n.type.logicalType = some .list := by rw [← Node.type_unwrap, hu]; rfl
  constructor
  · intro h
    obtain ⟨hrep, helem⟩ := (Node.everywhere_iff.1 h).1 hlist
    obtain ⟨hown, hnot⟩ := helem elem (Node.listElement_of_unwrap hu)
    exact ⟨hrep, hown, Node.everywhere_iff.2
      ⟨fun hl => absurd hl hnot, (Node.everywhere_iff.1 (h.element hu)).2⟩⟩
  · rintro ⟨hrep, hown, hR⟩
    have hnot : elem.type.logicalType ≠ some .list := fun hl =>
      Bool.noConfusion ((Node.everywhere_iff.1 hR).1 hl).1
    have helem : elem.PlainLists :=
      Node.everywhere_iff.2 ⟨fun hl => absurd hl hnot, (Node.everywhere_iff.1 hR).2⟩
    refine Node.everywhere_iff.2
      ⟨fun _ => ⟨hrep, fun e he => ?_⟩, fun name hname c hc => ?_⟩
    · rw [Node.listElement_of_unwrap hu] at he
      cases he
      exact ⟨hown, hnot⟩
    · rw [← Node.childNames_unwrap, hu] at hname
      rw [← Node.childByName_unwrap, hu] at hc
      simp only [Node.childNames, List.map_cons, List.map_nil, List.mem_singleton] at hname
      subst hname
      simp only [Node.childByName, List.find?, beq_self_eq_true, Except.ok.injEq] at hc
      subst hc
      refine Node.everywhere_iff.2 ⟨nofun, fun name hname c hc => ?_⟩
      simp only [Node.childNames, List.map_cons, List.map_nil, List.mem_singleton] at hname
      subst hname
      simp only [Node.childByName, List.find?, beq_self_eq_true, Except.ok.injEq] at hc
      exact hc ▸ helem

/-! ## Sublists entry by entry -/

/-- The number of cardinalities over all leaves. -/
def totalLength : List (List Cardinality) → Nat
  | [] => 0
  | l :: ls => l.length + totalLength ls

@[simp] theorem totalLength_append (a b : List (List Cardinality)) :
    totalLength (a ++ b) = totalLength a + totalLength b := by
  induction a with
  | nil => simp [totalLength]
  | cons l a ih => rw [List.cons_append, totalLength, totalLength, ih, Nat.add_assoc]

theorem totalLength_le {a b : List (List Cardinality)} (h : List.Forall₂ List.Sublist a b) :
    totalLength a ≤ totalLength b := by
  induction h with
  | nil => exact le_rfl
  | cons hx _ ih => exact Nat.add_le_add hx.length_le ih

/-- Entry by entry sublists with as many cardinalities in all are equal. -/
theorem eq_of_totalLength_le {a b : List (List Cardinality)} (h : List.Forall₂ List.Sublist a b)
    (hlen : totalLength b ≤ totalLength a) : a = b := by
  induction h with
  | nil => rfl
  | cons hx hab ih =>
    have := totalLength_le hab
    have := hx.length_le
    simp only [totalLength] at hlen
    rw [hx.eq_of_length (by omega), ih (by omega)]

theorem forall₂_sublist_trans {a b c : List (List Cardinality)}
    (hab : List.Forall₂ List.Sublist a b) (hbc : List.Forall₂ List.Sublist b c) :
    List.Forall₂ List.Sublist a c := by
  induction hab generalizing c with
  | nil => exact hbc
  | cons hx _ ih =>
    cases hbc with
    | cons hy hbc => exact .cons (hx.trans hy) (ih hbc)

theorem forall₂_sublist_map_append {p q : List Cardinality} (hpq : List.Sublist p q)
    {a b : List (List Cardinality)} (h : List.Forall₂ List.Sublist a b) :
    List.Forall₂ List.Sublist (a.map (p ++ ·)) (b.map (q ++ ·)) :=
  List.forall₂_map_left_iff.2 (List.forall₂_map_right_iff.2 (h.imp fun _ _ h => hpq.append h))

/-! ## What the plan keeps -/

/-- What a plan `f` keeps of the cardinalities of the tree of `n`: it has a leaf, for each
leaf a subsequence of the tree's cardinalities, and all of them exactly when the `LIST`s of
`n` are plain. -/
structure Keeps (f : TraverseFunc) (n : Node) : Prop where
  ne_nil : f.cardinalities ≠ []
  sublist : List.Forall₂ List.Sublist f.cardinalities n.cardinalities
  eq_iff : f.cardinalities = n.cardinalities ↔ n.PlainLists

/-- A compiler whose results keep what the tree has. -/
def KeepsCardinalities (F : Nat → Node → Build (Nat × TraverseFunc)) : Prop :=
  ∀ c n c' f, n.Built → F c n = .ok (c', f) → Keeps f n

section Keeps

variable {F : Nat → Node → Build (Nat × TraverseFunc)} (hF : KeepsCardinalities F)
include hF

theorem compileChildren_cardinalities {node : Node} (hnode : node.Built) :
    ∀ {names c c' funcs}, (∀ name ∈ names, name ∈ node.childNames) →
      compileChildren F node names c = .ok (c', funcs) →
      (names ≠ [] → TraverseFunc.cardinalities.cardinalitiesList funcs ≠ []) ∧
      List.Forall₂ List.Sublist (TraverseFunc.cardinalities.cardinalitiesList funcs)
          (names.flatMap node.cardinalitiesAt) ∧
        (TraverseFunc.cardinalities.cardinalitiesList funcs = names.flatMap node.cardinalitiesAt ↔
          ∀ name ∈ names, ∀ child, node.childByName name = .ok child → child.PlainLists)
  | [], c, c', funcs, _, h => by
    cases h
    exact ⟨fun h => absurd rfl h, .nil, by simp [TraverseFunc.cardinalities.cardinalitiesList]⟩
  | name :: names, c, c', funcs, hnames, h => by
    obtain ⟨child, hchild, h⟩ := bind_eq_ok.1 h
    obtain ⟨⟨c₁, f⟩, hf, h⟩ := bind_eq_ok.1 h
    obtain ⟨⟨_, fs⟩, hrest, h⟩ := bind_eq_ok.1 h
    cases h
    have hchild := orPanic_eq_ok.1 hchild
    obtain ⟨child', hchild', hbuilt⟩ := hnode.childByName (hnames name (.head _))
    obtain rfl : child = child' := Except.ok.inj (hchild.symm.trans hchild')
    have hk := hF _ _ _ _ hbuilt hf
    obtain ⟨-, hsub, heq⟩ :=
      compileChildren_cardinalities hnode (fun n hn => hnames n (.tail _ hn)) hrest
    have hat : node.cardinalitiesAt name = child.cardinalities := by
      simp [Node.cardinalitiesAt, hchild]
    simp only [TraverseFunc.cardinalities.cardinalitiesList, List.flatMap_cons, hat,
      List.forall_mem_cons, hchild, Except.ok.injEq, forall_eq']
    refine ⟨fun _ => by simp [hk.ne_nil], List.rel_append hk.sublist hsub, ⟨fun h => ?_,
      fun ⟨hc, hr⟩ => by rw [hk.eq_iff.2 hc, heq.2 hr]⟩⟩
    have hlen := congrArg totalLength h
    have h₁ := totalLength_le hk.sublist
    have h₂ := totalLength_le hsub
    simp only [totalLength_append] at hlen
    exact ⟨hk.eq_iff.1 (eq_of_totalLength_le hk.sublist (by omega)),
      heq.1 (eq_of_totalLength_le hsub (by omega))⟩

/-- The Optional and Repeated cases: the node's own cardinality goes in front of what the
compiler keeps of `Required(node)`. -/
theorem keepsCardinalities_of_required {x : Cardinality} {c c' : Nat} {n : Node}
    {f g : TraverseFunc} (hn : n.Built) (hown : n.ownCardinality = [x])
    (hlist : n.type.logicalType = some .list → n.repeated = false)
    (hg : F c (required n) = .ok (c', g)) (hf : f.cardinalities = g.cardinalities.map (x :: ·)) :
    Keeps f n := by
  obtain ⟨hne, hsub, heq⟩ := hF _ _ _ _ hn.required hg
  have hrequired : (Node.requiredNode n).cardinalities = n.innerCardinalities := by
    rw [Node.cardinalities_eq_inner]
    simp [Node.ownCardinality, Node.optional, Node.repeated]
  rw [hrequired] at hsub heq
  refine ⟨by simpa [hf] using hne, ?_, ?_⟩
  · rw [hf, Node.cardinalities_eq_inner n, hown]
    exact forall₂_sublist_map_append (List.Sublist.refl [x]) hsub
  · rw [hf, Node.cardinalities_eq_inner n, hown, ← Node.plainLists_required_iff hlist, ← heq]
    exact (List.map_injective_iff.2 List.cons_injective).eq_iff

/-- The `LIST` case: the plan of `Repeated(list.element)` keeps what the tree has, less the
cardinalities of the `LIST` node itself and of its element. -/
theorem keepsCardinalities_list {c c' : Nat} {n elem : Node} {f : TraverseFunc}
    (hoptional : n.optional = false)
    (hu : n.unwrap = .listNode (.group [("list", .repeatedNode (.group [("element", elem)]))]))
    (helem : elem.Built) (hf : F c (repeated elem) = .ok (c', f)) : Keeps f n := by
  have hk := hF _ _ _ _ helem.repeated hf
  have hrepeated : (Node.repeatedNode elem).cardinalities =
      elem.innerCardinalities.map (.repeated :: ·) := by
    rw [Node.cardinalities_eq_inner]
    simp [Node.ownCardinality, Node.optional, Node.repeated]
  have htree : n.cardinalities = elem.innerCardinalities.map
      fun b => n.ownCardinality ++ .repeated :: (elem.ownCardinality ++ b) := by
    rw [Node.cardinalities_eq_inner, ← Node.innerCardinalities_unwrap, hu,
      Node.innerCardinalities_list, List.map_map]
    rfl
  -- the tree of `Repeated(element)` is, entry by entry, a sublist of the tree of the `LIST`
  have hRn :
      List.Forall₂ List.Sublist (Node.repeatedNode elem).cardinalities n.cardinalities := by
    rw [hrepeated, htree]
    exact List.forall₂_map_left_iff.2 (List.forall₂_map_right_iff.2 (List.forall₂_same.2
      fun b _ => ((List.sublist_append_right _ b).cons₂ _).trans (List.sublist_append_right _ _)))
  refine ⟨hk.ne_nil, forall₂_sublist_trans hk.sublist hRn, ?_⟩
  rw [Node.plainLists_list_iff hu, ← hk.eq_iff]
  constructor
  · intro h
    have hfR : f.cardinalities = (Node.repeatedNode elem).cardinalities :=
      eq_of_totalLength_le hk.sublist (h ▸ totalLength_le hRn)
    obtain ⟨b, hb⟩ : ∃ b, b ∈ elem.innerCardinalities := by
      have := hk.ne_nil
      rw [hfR, hrepeated] at this
      exact List.exists_mem_of_ne_nil _ (by simpa using this)
    have hentry := List.map_inj_left.1 (hrepeated ▸ htree ▸ hfR.symm.trans h) b hb
    have hlen := congrArg List.length hentry
    simp only [List.length_cons, List.length_append] at hlen
    have hown_n : n.ownCardinality = [] := List.length_eq_zero.1 (by omega)
    exact ⟨(Node.ownCardinality_eq_nil_iff.1 hown_n).2, List.length_eq_zero.1 (by omega), hfR⟩
  · rintro ⟨hrep, hown, hfR⟩
    rw [hfR, hrepeated, htree, Node.ownCardinality_eq_nil_iff.2 ⟨hoptional, hrep⟩, hown]
    rfl

/-- The case of a node with no cardinality of its own: a leaf, or a group whose children are
compiled in the order of their names. -/
theorem keepsCardinalities_required {c c' : Nat} {n : Node} {f : TraverseFunc} (hn : n.Built)
    (hoptional : n.optional = false) (hrepeated : n.repeated = false)
    (hlist : n.type.logicalType ≠ some .list) (h : traverseFuncOfRequired F c n = .ok (c', f)) :
    Keeps f n := by
  have hcards : n.cardinalities = n.innerCardinalities := by
    rw [Node.cardinalities_eq_inner, Node.ownCardinality_eq_nil_iff.2 ⟨hoptional, hrepeated⟩]
    simp
  have hplain : n.PlainLists ↔
      ∀ name ∈ n.childNames, ∀ c, n.childByName name = .ok c → c.PlainLists := by
    rw [Node.PlainLists, Node.everywhere_iff]
    exact and_iff_right fun h => absurd h hlist
  simp only [traverseFuncOfRequired] at h
  split at h
  · rename_i hleaf
    obtain ⟨kind, -, h⟩ := bind_eq_ok.1 h
    cases h
    have hzero : n.numChildren = 0 := by simpa [isLeaf] using hleaf
    have hnames : n.childNames = [] := List.length_eq_zero.1 (hn.length_childNames.trans hzero)
    refine ⟨by simp [TraverseFunc.cardinalities], ?_, ?_⟩ <;> rw [hcards]
    · simp [TraverseFunc.cardinalities, Node.innerCardinalities, hzero]
    · rw [hplain, hnames]
      simp [TraverseFunc.cardinalities, Node.innerCardinalities, hzero]
  · rename_i hleaf
    obtain ⟨⟨c₁, funcs⟩, hc, h⟩ := bind_eq_ok.1 h
    cases h
    have hzero : n.numChildren ≠ 0 := by simpa [isLeaf] using hleaf
    obtain ⟨hne, hsub, heq⟩ := compileChildren_cardinalities hF hn (fun _ h => h) hc
    have hnames : n.childNames ≠ [] := fun h => hzero (by rw [← hn.length_childNames, h]; rfl)
    refine ⟨hne hnames, ?_, ?_⟩ <;> rw [hcards]
    · simpa [Node.innerCardinalities, hzero] using hsub
    · rw [hplain, ← heq]
      simp [TraverseFunc.cardinalities, Node.innerCardinalities, hzero]

end Keeps

/-- Whenever `traverseFuncOf` compiles a built node, the plan has, for each leaf, a
subsequence of the Optional and Repeated nodes the tree has on the way to it, and all of them
exactly when no `LIST` hides one. -/
theorem traverseFuncOf_cardinalities : ∀ fuel, KeepsCardinalities (traverseFuncOf fuel)
  | 0 => fun _ _ _ _ _ h => by cases h
  | fuel + 1 => by
    intro c n c' f hn h
    have ih := traverseFuncOf_cardinalities fuel
    rw [traverseFuncOf] at h
    split at h
    · rename_i hoptional
      obtain ⟨⟨c₁, g⟩, hg, h⟩ := bind_eq_ok.1 h
      cases h
      exact keepsCardinalities_of_required ih hn (by simp [Node.ownCardinality, hoptional])
        (fun _ => Node.repeated_eq_false_of_optional hoptional) hg rfl
    · rename_i hoptional
      split at h
      · rename_i hlist
        obtain ⟨elem, helem, hu⟩ := hn.unwrap_of_list hlist
        rw [Node.listElement_of_unwrap hu] at h
        exact keepsCardinalities_list ih (by simpa using hoptional) hu helem h
      · rename_i hlist
        split at h
        · rename_i hrepeated
          obtain ⟨⟨c₁, g⟩, hg, h⟩ := bind_eq_ok.1 h
          cases h
          exact keepsCardinalities_of_required ih hn
            (by simp [Node.ownCardinality, hoptional, hrepeated]) (fun h => absurd h hlist) hg rfl
        · rename_i hrepeated
          exact keepsCardinalities_required ih hn (by simpa using hoptional)
            (by simpa using hrepeated) hlist h

/-- For every schema `SchemaOf` returns with a root that has fields, the plan has, for each
column, a subsequence of the Optional and Repeated nodes of the schema tree on the way to it,
in order, and exactly those when no `LIST` hides one. -/
theorem schemaOf_cardinalities {env : TypeEnv} {fuel : Nat} {t : TypeId} {s : Schema}
    (h : schemaOf env fuel t = .ok s) (hroot : s.root.numChildren ≠ 0) :
    List.Forall₂ List.Sublist s.traverse.cardinalities s.root.cardinalities ∧
      (s.traverse.cardinalities = s.root.cardinalities ↔ s.root.PlainLists) := by
  have htraverse := schemaOf_traverse h
  simp only [makeTraverseFunc, hroot, if_false] at htraverse
  obtain ⟨⟨c', f⟩, hf, hs⟩ := map_eq_ok.1 htraverse
  rw [← hs]
  have hk := traverseFuncOf_cardinalities _ _ _ _ _ (schemaOf_built h) hf
  exact ⟨hk.sublist, hk.eq_iff⟩

/-- On ``Tags { Values []*int64 `parquet:"values,list"` }`` the plan keeps the Repeated node
of the `LIST` and drops the Optional node of its element. -/
theorem tags_plan_keeps_a_sublist :
    schemaOf shapesEnv 4 8 = .ok tagsSchema ∧ tagsSchema.root.numChildren ≠ 0 ∧
      List.Forall₂ List.Sublist tagsSchema.traverse.cardinalities
        tagsSchema.root.cardinalities ∧
      (tagsSchema.traverse.cardinalities = tagsSchema.root.cardinalities ↔
        tagsSchema.root.PlainLists) :=
  have h : schemaOf shapesEnv 4 8 = .ok tagsSchema := rfl
  ⟨h, by decide, schemaOf_cardinalities h (by decide)⟩

end ParquetGo
