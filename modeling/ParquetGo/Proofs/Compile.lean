import ParquetGo.Build

/-!
# What the compiler builds

`traverseFuncOf` numbers the leaves it compiles with a counter threaded through the whole
node.  This file shows what that numbering is.

* `traverseFuncOf_shift`: compiling from column `c` is compiling from column 0 with every
  column moved up by `c`; in particular whether it panics does not depend on `c`.
* `traverseFuncOf_leaves`: a compiled closure's leaf closures take consecutive columns from
  the start, and have the kinds of the node's leaves, taken depth first through `ChildNames`
  and `ChildByName` with a `LIST` node standing for its `list.element` child (`Node.leaves`).

## Strategy

Both are properties of a compiler `F` (`ShiftInvariant`, `CompilesLeaves`) that each builder
of `Traverse.lean` keeps when the compiler it is given has it; `traverseFuncOf` has them by
induction on its fuel.  Successful builds are taken apart with `bind_eq_ok`.
-/

namespace ParquetGo

/-! ## Taking a successful build apart -/

theorem bind_eq_ok {ε α β : Type} {x : Except ε α} {f : α → Except ε β} {b : β} :
    x >>= f = .ok b ↔ ∃ a, x = .ok a ∧ f a = .ok b := by
  cases x <;> simp [bind, Except.bind]

theorem orPanic_eq_ok {α : Type} {x : Except String α} {a : α} :
    orPanic x = .ok a ↔ x = .ok a := by
  cases x <;> simp [orPanic]

/-! ## Leaf closures -/

namespace TraverseFunc

/-- The leaf closures of a compiled traversal, depth first: their columns and kinds. -/
def leaves : TraverseFunc → List (Nat × Kind)
  | noop => []
  | optional f | repeated f => f.leaves
  | group _ funcs => leavesList funcs
  | leaf column kind => [(column, kind)]
where
  /-- The leaf closures of the children of a group. -/
  leavesList : List TraverseFunc → List (Nat × Kind)
    | [] => []
    | f :: funcs => f.leaves ++ leavesList funcs

/-- The same traversal with every column moved up by `d`. -/
def shift (d : Nat) : TraverseFunc → TraverseFunc
  | noop => noop
  | optional f => optional (f.shift d)
  | repeated f => repeated (f.shift d)
  | group c funcs => group c (shiftList funcs)
  | leaf column kind => leaf (d + column) kind
where
  /-- The children of a group, moved up by `d`. -/
  shiftList : List TraverseFunc → List TraverseFunc
    | [] => []
    | f :: funcs => f.shift d :: shiftList funcs

theorem shiftList_eq_map (d : Nat) : ∀ funcs : List TraverseFunc,
    shift.shiftList d funcs = funcs.map (·.shift d)
  | [] => rfl
  | f :: funcs => by simp [shift.shiftList, shiftList_eq_map d funcs]

theorem shift_shift (c d : Nat) : ∀ f : TraverseFunc, (f.shift d).shift c = f.shift (c + d)
  | noop => rfl
  | optional f | repeated f => by simp [shift, shift_shift c d f]
  | group _ funcs => by simp [shift, shiftList_shift funcs]
  | leaf _ _ => by simp [shift, Nat.add_assoc]
where
  shiftList_shift : ∀ funcs : List TraverseFunc,
      shift.shiftList c (shift.shiftList d funcs) = shift.shiftList (c + d) funcs
    | [] => rfl
    | f :: funcs => by simp [shift.shiftList, shift_shift c d f, shiftList_shift funcs]

theorem leaves_shift (d : Nat) : ∀ f : TraverseFunc,
    (f.shift d).leaves = f.leaves.map fun l => (d + l.1, l.2)
  | noop => rfl
  | optional f | repeated f => leaves_shift d f
  | group _ funcs => by simp only [shift, leaves, shiftList_eq_map]; exact leavesList_shift funcs
  | leaf _ _ => rfl
where
  leavesList_shift : ∀ funcs : List TraverseFunc, leaves.leavesList (funcs.map (·.shift d)) =
      (leaves.leavesList funcs).map fun l => (d + l.1, l.2)
    | [] => rfl
    | f :: funcs => by
        simp [leaves.leavesList, leaves_shift d f, leavesList_shift funcs]

end TraverseFunc

/-! ## The leaves of a node -/

theorem Node.size_le_sizeChildren {name : String} {child : Node} :
    ∀ {children : List (String × Node)}, (name, child) ∈ children →
      child.size ≤ Node.size.sizeChildren children
  | _ :: _, .head _ => Nat.le_add_right _ _
  | _ :: _, .tail _ h => (Node.size_le_sizeChildren h).trans (Nat.le_add_left _ _)

theorem Node.size_le_sizeFields {child : Node} {index : List Nat} :
    ∀ {fields : List (Node × List Nat)}, (child, index) ∈ fields →
      child.size ≤ Node.size.sizeFields fields
  | _ :: _, .head _ => Nat.le_add_right _ _
  | _ :: _, .tail _ h => (Node.size_le_sizeFields h).trans (Nat.le_add_left _ _)

/-- A child found by name is smaller than its node: the measure of every recursion through
`ChildByName`, of `Node.leaves` below and of the compiler (`Proofs/Termination.lean`). -/
theorem Node.size_lt_of_childByName {name : String} :
    ∀ {n child : Node}, n.childByName name = .ok child → child.size < n.size
  | .leaf _ _, _, h => by simp [Node.childByName] at h
  | .group children, child, h => by
      simp only [Node.childByName] at h
      split at h
      · rename_i c hc
        cases h
        have := Node.size_le_sizeChildren (List.mem_of_find?_eq_some hc)
        simp only [Node.size]
        omega
      · cases h
  | .structNode fields names, child, h => by
      simp only [Node.childByName, childByIndex, sliceAt] at h
      split at h
      · rename_i x hx
        simp only [Except.map, Except.ok.injEq] at h
        subst h
        split at hx
        · have := Node.size_le_sizeFields (List.getElem?_mem hx)
          simp only [Node.size]
          omega
        · cases hx
      · cases h
  | .listNode n, _, h | .optionalNode n, _, h | .repeatedNode n, _, h | .encodedNode n _, _, h
  | .compressedNode n _, _, h => by
      have := @Node.size_lt_of_childByName _ n _ h
      simp only [Node.size]
      omega
  | .requiredNode n, _, h => @Node.size_lt_of_childByName _ n _ h

/-- The leaves of a node, depth first through `ChildNames` and `ChildByName`; a `LIST` node
contributes the leaves of its `list.element` child, and a node without children is a
leaf. -/
def Node.leaves (n : Node) : List ParquetType :=
  if n.type.logicalType = some .list then
    match _h : n.childByName "list" >>= Node.childByName "element" with
    | .ok element => element.leaves
    | .error _ => []
  else if n.numChildren = 0 then [n.type]
  else n.childNames.flatMap fun name =>
    match _h : n.childByName name with
    | .ok child => child.leaves
    | .error _ => []
termination_by n.size
decreasing_by
  · obtain ⟨list, hlist, helement⟩ := bind_eq_ok.1 _h
    exact (Node.size_lt_of_childByName helement).trans (Node.size_lt_of_childByName hlist)
  · exact Node.size_lt_of_childByName _h

/-- The leaves under one child of a node. -/
def Node.childLeaves (n : Node) (name : String) : List ParquetType :=
  match n.childByName name with
  | .ok child => child.leaves
  | .error _ => []

theorem Node.leaves_eq (n : Node) : n.leaves =
    if n.type.logicalType = some .list then
      match n.childByName "list" >>= Node.childByName "element" with
      | .ok element => element.leaves
      | .error _ => []
    else if n.numChildren = 0 then [n.type]
    else n.childNames.flatMap n.childLeaves := by
  rw [Node.leaves]
  congr 1
  · split <;> simp_all
  · congr 1
    refine congrArg _ (funext fun name => ?_)
    simp only [Node.childLeaves]
    split <;> simp_all

theorem Node.leaves_requiredNode (n : Node) : (Node.requiredNode n).leaves = n.leaves := by
  rw [Node.leaves_eq, Node.leaves_eq n]
  rfl

theorem Node.leaves_repeatedNode (n : Node) : (Node.repeatedNode n).leaves = n.leaves := by
  rw [Node.leaves_eq, Node.leaves_eq n]
  rfl

/-! ## Column numbering does not depend on the start -/

/-- The result of compiling from column `c`, given the result from column 0. -/
def shiftResult (c : Nat) (r : Nat × TraverseFunc) : Nat × TraverseFunc :=
  (c + r.1, r.2.shift c)

/-- Compiling from column `c` is compiling from 0 and moving every column up by `c`. -/
def ShiftInvariant (F : Nat → Node → Build (Nat × TraverseFunc)) : Prop :=
  ∀ c n, F c n = (F 0 n).map (shiftResult c)

section Shift

variable {F : Nat → Node → Build (Nat × TraverseFunc)} (hF : ShiftInvariant F)
include hF

theorem compileChildren_shift (node : Node) : ∀ names c, compileChildren F node names c =
    (compileChildren F node names 0).map fun r => (c + r.1, r.2.map (·.shift c))
  | [], _ => rfl
  | name :: names, c => by
      simp only [compileChildren]
      cases orPanic (node.childByName name) with
      | error e => rfl
      | ok child =>
          simp only [bind, Except.bind, pure, Except.pure, Except.map]
          rw [hF c child]
          cases F 0 child with
          | error e => rfl
          | ok r =>
              rcases r with ⟨k, f⟩
              simp only [Except.map, shiftResult]
              rw [compileChildren_shift node names (c + k), compileChildren_shift node names k]
              cases compileChildren F node names 0 with
              | error e => rfl
              | ok r => simp [Except.map, TraverseFunc.shift_shift, Nat.add_assoc]

theorem traverseFuncOfOptional_shift : ShiftInvariant (traverseFuncOfOptional F) := by
  intro c n
  simp only [traverseFuncOfOptional, bind, Except.bind, pure, Except.pure]
  rw [hF c]
  cases F 0 (required n) <;> rfl

theorem traverseFuncOfRepeated_shift : ShiftInvariant (traverseFuncOfRepeated F) := by
  intro c n
  simp only [traverseFuncOfRepeated, bind, Except.bind, pure, Except.pure]
  rw [hF c]
  cases F 0 (required n) <;> rfl

theorem traverseFuncOfRequired_shift : ShiftInvariant (traverseFuncOfRequired F) := by
  intro c n
  simp only [traverseFuncOfRequired]
  split
  · simp only [traverseFuncOfLeaf, bind, Except.bind, pure, Except.pure]
    cases orPanic n.type.kind with
    | error e => rfl
    | ok kind => simp [Except.map, shiftResult, TraverseFunc.shift, Nat.add_right_comm]
  · simp only [traverseFuncOfGroup, bind, Except.bind, pure, Except.pure]
    rw [compileChildren_shift hF]
    cases compileChildren F n n.childNames 0 with
    | error e => rfl
    | ok r => simp [Except.map, shiftResult, TraverseFunc.shift, TraverseFunc.shiftList_eq_map]

end Shift

theorem traverseFuncOf_shift : ∀ fuel, ShiftInvariant (traverseFuncOf fuel)
  | 0 => fun _ _ => rfl
  | fuel + 1 => fun c n => by
      have ih := traverseFuncOf_shift fuel
      simp only [traverseFuncOf]
      split
      · exact traverseFuncOfOptional_shift ih c n
      · split
        · cases orPanic (n.childByName "list" >>= Node.childByName "element") with
          | error e => rfl
          | ok elem => exact ih c _
        · split
          · exact traverseFuncOfRepeated_shift ih c n
          · exact traverseFuncOfRequired_shift ih c n

/-! ## The leaf closures are the node's leaves -/

/-- A compiler whose results have the leaf closures of the node compiled: consecutive
columns from the start, with the kinds of the node's leaves. -/
def CompilesLeaves (F : Nat → Node → Build (Nat × TraverseFunc)) : Prop :=
  ∀ c n c' f, F c n = .ok (c', f) →
    c ≤ c' ∧ f.leaves.map Prod.fst = List.range' c (c' - c) ∧
      f.leaves.map (fun l => .ok l.2) = n.leaves.map ParquetType.kind

section Leaves

variable {F : Nat → Node → Build (Nat × TraverseFunc)} (hF : CompilesLeaves F)
include hF

theorem compileChildren_leaves (node : Node) : ∀ {names c c' funcs},
    compileChildren F node names c = .ok (c', funcs) →
      c ≤ c' ∧ (TraverseFunc.leaves.leavesList funcs).map Prod.fst = List.range' c (c' - c) ∧
        (TraverseFunc.leaves.leavesList funcs).map (fun l => .ok l.2) =
          (names.flatMap node.childLeaves).map ParquetType.kind
  | [], c, c', funcs, h => by
      cases h
      simp [TraverseFunc.leaves.leavesList]
  | name :: names, c, c', funcs, h => by
      obtain ⟨child, hchild, h⟩ := bind_eq_ok.1 h
      obtain ⟨⟨c₁, f⟩, hf, h⟩ := bind_eq_ok.1 h
      obtain ⟨⟨_, fs⟩, hrest, h⟩ := bind_eq_ok.1 h
      cases h
      obtain ⟨h₁, hcols₁, hkinds₁⟩ := hF _ _ _ _ hf
      obtain ⟨h₂, hcols₂, hkinds₂⟩ := compileChildren_leaves node hrest
      refine ⟨h₁.trans h₂, ?_, ?_⟩
      · have hsplit := List.range'_append_1 c (c₁ - c) (c' - c₁)
        rw [show c + (c₁ - c) = c₁ by omega, show c' - c₁ + (c₁ - c) = c' - c by omega] at hsplit
        simp only [TraverseFunc.leaves.leavesList, List.map_append, hcols₁, hcols₂, hsplit]
      · simp [TraverseFunc.leaves.leavesList, hkinds₁, hkinds₂, Node.childLeaves,
          orPanic_eq_ok.1 hchild]

theorem traverseFuncOfOptional_leaves : CompilesLeaves (traverseFuncOfOptional F) := by
  intro c n c' f h
  obtain ⟨⟨c₁, f₁⟩, hf, h⟩ := bind_eq_ok.1 h
  cases h
  simpa [TraverseFunc.leaves, required, Node.leaves_requiredNode] using hF _ _ _ _ hf

theorem traverseFuncOfRepeated_leaves : CompilesLeaves (traverseFuncOfRepeated F) := by
  intro c n c' f h
  obtain ⟨⟨c₁, f₁⟩, hf, h⟩ := bind_eq_ok.1 h
  cases h
  simpa [TraverseFunc.leaves, required, Node.leaves_requiredNode] using hF _ _ _ _ hf

theorem traverseFuncOfRequired_leaves {c n c' f} (hlist : n.type.logicalType ≠ some .list)
    (h : traverseFuncOfRequired F c n = .ok (c', f)) :
    c ≤ c' ∧ f.leaves.map Prod.fst = List.range' c (c' - c) ∧
      f.leaves.map (fun l => .ok l.2) = n.leaves.map ParquetType.kind := by
  simp only [traverseFuncOfRequired] at h
  split at h
  · rename_i hleaf
    obtain ⟨kind, hkind, h⟩ := bind_eq_ok.1 h
    cases h
    have hzero : n.numChildren = 0 := by simpa [isLeaf] using hleaf
    simp [TraverseFunc.leaves, Node.leaves_eq n, hlist, hzero, orPanic_eq_ok.1 hkind]
  · rename_i hleaf
    obtain ⟨⟨c₁, funcs⟩, hc, h⟩ := bind_eq_ok.1 h
    cases h
    have hzero : n.numChildren ≠ 0 := by simpa [isLeaf] using hleaf
    simpa [TraverseFunc.leaves, Node.leaves_eq n, hlist, hzero] using
      compileChildren_leaves hF n hc

end Leaves

theorem traverseFuncOf_leaves : ∀ fuel, CompilesLeaves (traverseFuncOf fuel)
  | 0 => fun _ _ _ _ h => by cases h
  | fuel + 1 => by
      intro c n c' f h
      have ih := traverseFuncOf_leaves fuel
      simp only [traverseFuncOf] at h
      split at h
      · exact traverseFuncOfOptional_leaves ih _ _ _ _ h
      · split at h
        · rename_i hlist
          obtain ⟨elem, helem, h⟩ := bind_eq_ok.1 h
          simpa [Node.leaves_eq n, hlist, orPanic_eq_ok.1 helem, repeated,
            Node.leaves_repeatedNode] using ih _ _ _ _ h
        · split at h
          · exact traverseFuncOfRepeated_leaves ih _ _ _ _ h
          · rename_i hlist _
            exact traverseFuncOfRequired_leaves ih hlist h

end ParquetGo
