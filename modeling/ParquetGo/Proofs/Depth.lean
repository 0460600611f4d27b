import ParquetGo.Proofs.Levels
import ParquetGo.Proofs.Names

/-!
# Schemas deeper than an `int8`

The traversal keeps its levels in `int8`s, which wrap at 128.  This file builds, for every
`n`, the program

  `type S0 struct { A []S1 }`, …, `type S(n-1) struct { A []Sn }`, `type Sn struct { V int64 }`

whose one column lies under `n` Repeated nodes, and runs the traversal over the record that
has one element in every slice but the innermost, which has two.  The second value repeats
at the `n`-th Repeated node, so its repetition level is `n`, and both values are defined at
level `n`: as `int8`s.  At `n = 128` the sink receives `-128` for both.

## Strategy

Everything is by induction on the depth of the chain: the node `SchemaOf` builds
(`nodeOf_chain`), the closure `traverseFuncOf` compiles from it (`traverseFuncOf_chainField`)
and the paths of the record (`shred_chain`).  The run is then read off the paths
(`traverseValue_accepting`), and its levels off the steps (`Levels.after_replicate_first`).
-/

namespace ParquetGo

open Reflect (TypeEnv TypeId)

/-! ## The program -/

/-- The only field of `S_k`: `A []S_{k+1}` for `k < n`, and `V int64` for `k = n`. -/
def chainField (n k : Nat) : Reflect.StructField where
  name := if k < n then "A" else "V"
  type := 2 * k + 1
  tag := ⟨[]⟩
  index := [0]
  anonymous := false
  exported := true

/-- The types of the chain of depth `n`: `S_k` is type `2k`, and the type of its field
(`[]S_{k+1}`, or `int64` for `S_n`) is type `2k + 1`. -/
def chainDesc (n t : Nat) : Reflect.TypeDesc :=
  if t % 2 = 0 then
    { kind := .struct, name := "S" ++ toString (t / 2), string := "S" ++ toString (t / 2),
      fields := [chainField n (t / 2)] }
  else if t / 2 < n then { kind := .slice, name := "", string := "[]S", elem := t + 1 }
  else { kind := .int64, name := "int64", string := "int64" }

/-- The program of the chain of depth `n`; `deprecated.Int96` is a type it never reaches. -/
def chainEnv (n : Nat) : TypeEnv where
  desc := chainDesc n
  int96 := 2 * n + 2
  depth t := if t % 2 = 0 then 1 else 0
  depth_field t f hf := by
    unfold chainDesc at hf
    split at hf
    next h =>
      simp only [List.mem_singleton] at hf
      subst hf
      simp [chainField, h, Nat.mul_add_mod]
    next => split at hf <;> simp at hf

@[simp] theorem chainEnv_int96 (n : Nat) : (chainEnv n).int96 = 2 * n + 2 := rfl

@[simp] theorem chainEnv_desc_struct (n k : Nat) : (chainEnv n).desc (2 * k) =
    { kind := .struct, name := "S" ++ toString k, string := "S" ++ toString k,
      fields := [chainField n k] } := by
  simp [chainEnv, chainDesc]

@[simp] theorem chainEnv_kind_struct (n k : Nat) : (chainEnv n).kind (2 * k) = .struct := by
  simp [TypeEnv.kind]

@[simp] theorem chainEnv_kind_field (n k : Nat) :
    (chainEnv n).kind (2 * k + 1) = if k < n then .slice else .int64 := by
  simp only [TypeEnv.kind, chainEnv, chainDesc]
  split_ifs <;> first | omega | rfl

@[simp] theorem chainEnv_elem_field {n k : Nat} (h : k < n) :
    (chainEnv n).elem (2 * k + 1) = 2 * (k + 1) := by
  simp only [TypeEnv.elem, chainEnv, chainDesc]
  split_ifs <;> first | omega | rfl

/-! ## The schema -/

/-- The name of the field of the struct `j` levels above `S_n`. -/
def chainName (j : Nat) : String := if j = 0 then "V" else "A"

/-- The node of the field of the struct `j` levels above `S_n`. -/
def chainFieldNode : Nat → Node
  | 0 => encoded (compressed (int 64) []) []
  | j + 1 =>
      encoded (compressed (repeated (.structNode [(chainFieldNode j, [0])] [chainName j])) []) []

/-- The node of the struct `j` levels above `S_n`. -/
def chainNode (j : Nat) : Node := .structNode [(chainFieldNode j, [0])] [chainName j]

/-- The closure compiled from `chainFieldNode j`. -/
def chainFieldFunc : Nat → TraverseFunc
  | 0 => .leaf 0 .int64
  | j + 1 =>
      .repeated (.group (.byIndex [(chainFieldNode j, [0])] [chainName j]) [chainFieldFunc j])

/-- The closure compiled from `chainNode j`. -/
def chainFunc (j : Nat) : TraverseFunc :=
  .group (.byIndex [(chainFieldNode j, [0])] [chainName j]) [chainFieldFunc j]

@[simp] theorem chainFieldFunc_succ (j : Nat) :
    chainFieldFunc (j + 1) = .repeated (chainFunc j) := rfl

/-- The schema of `S0`. -/
def chainSchema (n : Nat) : Schema := ⟨"S0", chainNode n, chainFunc n⟩

theorem structNodeOf_chain (n k : Nat) (nodeOf : TypeId → Build Node) :
    structNodeOf (chainEnv n) nodeOf (2 * k) = (nodeOf (2 * k + 1)).map fun node =>
      .structNode [(encoded (compressed node []) [], [0])] [(chainField n k).name] := by
  cases h : nodeOf (2 * k + 1) <;>
    simp [structNodeOf, structFieldsOf, appendStructFields, TypeEnv.kind, chainField,
      makeStructField, structFieldNode, resolvedName, Reflect.StructTag.get, List.mapM.loop, h,
      Except.map]

theorem nodeOf_chain_struct (n k fuel : Nat) (hk : k ≤ n) :
    nodeOf (chainEnv n) (fuel + 1) (2 * k) =
      structNodeOf (chainEnv n) (nodeOf (chainEnv n) fuel) (2 * k) := by
  rw [nodeOf, chainEnv_int96, if_neg (show 2 * k ≠ 2 * n + 2 by omega), chainEnv_kind_struct]

theorem nodeOf_chain_field (n k fuel : Nat) :
    nodeOf (chainEnv n) (fuel + 1) (2 * k + 1) =
      if k < n then repeated <$> nodeOf (chainEnv n) fuel (2 * (k + 1)) else pure (int 64) := by
  rw [nodeOf, chainEnv_int96, if_neg (show 2 * k + 1 ≠ 2 * n + 2 by omega), chainEnv_kind_field]
  split_ifs with h <;> simp [h]

/-- `nodeOf` maps `S_k`, `j` levels above `S_n`, to `chainNode j`, given fuel for the
`2j + 2` calls on the way down. -/
theorem nodeOf_chain (n : Nat) : ∀ j k fuel, k + j = n →
    nodeOf (chainEnv n) (fuel + 2 * j + 2) (2 * k) = .ok (chainNode j)
  | 0, k, fuel, hk => by
      obtain rfl : k = n := hk
      rw [nodeOf_chain_struct k k _ le_rfl, structNodeOf_chain, nodeOf_chain_field,
        if_neg (lt_irrefl k)]
      simp [chainNode, chainName, chainFieldNode, chainField, Except.map, pure, Except.pure]
  | j + 1, k, fuel, hk => by
      rw [nodeOf_chain_struct n k _ (by omega), structNodeOf_chain,
        show fuel + 2 * (j + 1) + 1 = fuel + 2 * j + 2 + 1 by omega, nodeOf_chain_field,
        if_pos (by omega), nodeOf_chain n j (k + 1) fuel (by omega)]
      simp [chainNode, chainName, chainFieldNode, chainField, Except.map, show k < n by omega]

/-- `traverseFuncOf` compiles the field `j` levels above `S_n` to `chainFieldFunc j`: the
Repeated node of each slice, then the group of its struct. -/
theorem traverseFuncOf_chainField : ∀ j fuel,
    traverseFuncOf (fuel + 2 * j + 1) 0 (chainFieldNode j) = .ok (1, chainFieldFunc j)
  | 0, fuel => by
      simp [traverseFuncOf, chainFieldNode, traverseFuncOfRequired, traverseFuncOfLeaf, isLeaf,
        encoded, compressed, int, Node.optional, Node.repeated, Node.type, Node.numChildren,
        ParquetType.logicalType, ParquetType.kind, orPanic, chainFieldFunc]
  | j + 1, fuel => by
      rw [show fuel + 2 * (j + 1) + 1 = fuel + 2 * j + 1 + 1 + 1 by omega, traverseFuncOf]
      simp [chainFieldNode, traverseFuncOfRepeated, encoded, compressed, repeated, Node.optional,
        Node.repeated, Node.type, ParquetType.logicalType]
      rw [traverseFuncOf]
      simp [required, traverseFuncOfRequired, traverseFuncOfGroup, compileChildren, isLeaf,
        Node.optional, Node.repeated, Node.type, ParquetType.logicalType, Node.numChildren,
        Node.childNames, Node.childByName, indexOf_singleton, childByIndex, sliceAt, orPanic,
        Node.unwrap, Except.map, bind, Except.bind, pure, Except.pure,
        traverseFuncOf_chainField j fuel, chainFunc]

theorem traverseFuncOf_chain (j fuel : Nat) :
    traverseFuncOf (fuel + 2 * j + 2) 0 (chainNode j) = .ok (1, chainFunc j) := by
  rw [traverseFuncOf]
  simp [chainNode, traverseFuncOfRequired, traverseFuncOfGroup, compileChildren, isLeaf,
    Node.optional, Node.repeated, Node.type, ParquetType.logicalType, Node.numChildren,
    Node.childNames, Node.childByName, indexOf_singleton, childByIndex, sliceAt, orPanic,
    Node.unwrap, Except.map, bind, Except.bind, pure, Except.pure,
    traverseFuncOf_chainField j fuel, chainFunc]

theorem size_chainFieldNode : ∀ j, (chainFieldNode j).size = 4 * j + 3
  | 0 => rfl
  | j + 1 => by
      simp [chainFieldNode, encoded, compressed, repeated, Node.size, Node.size.sizeFields,
        size_chainFieldNode j]
      omega

theorem makeTraverseFunc_chain (n : Nat) : makeTraverseFunc (chainNode n) = .ok (chainFunc n) := by
  have hsize : 2 * (chainNode n).size + 2 = 6 * n + 8 + 2 * n + 2 := by
    simp [chainNode, Node.size, Node.size.sizeFields, size_chainFieldNode]
    omega
  rw [makeTraverseFunc, if_neg (by simp [chainNode, Node.numChildren]), hsize,
    traverseFuncOf_chain]
  rfl

/-- `SchemaOf(S0{})` returns the schema of the chain. -/
theorem schemaOf_chain (n : Nat) : schemaOf (chainEnv n) (2 * n + 1) 0 = .ok (chainSchema n) := by
  have hroot := nodeOf_chain n n 0 0 (by omega)
  rw [show 0 + 2 * n + 2 = 2 * n + 1 + 1 by omega, nodeOf_chain_struct n 0 _ (Nat.zero_le n),
    Nat.mul_zero] at hroot
  have hkind : (chainEnv n).kind 0 = .struct := chainEnv_kind_struct n 0
  simp only [schemaOf, namedSchemaOf, hkind, if_true]
  rw [hroot]
  simp [newSchema, makeTraverseFunc_chain, bind, Except.bind]
  rfl

/-! ## The record -/

/-- A value of the struct `j` levels above `S_n`: one element in every slice but the
innermost, which holds two `S_n`s, with `V` equal to 1 and to 2. -/
def chainData : Nat → Reflect.Data
  | 0 => .struct [.int 1]
  | 1 => .struct [.slice (some [.struct [.int 1], .struct [.int 2]])]
  | j + 2 => .struct [.slice (some [chainData (j + 1)])]

/-- The record: an `S0`. -/
def chainValue (n : Nat) : Reflect.Value := .valid 0 (chainData n)

/-- The step into element `i` of a valid non-nil slice. -/
def elementStep (i : Nat) : Step := .repeated true true (some i)

theorem shred_chainFunc (n k j : Nat) (d : Reflect.Data) :
    shred (chainEnv n) (chainFunc j) (.valid (2 * k) (.struct [d])) =
      shred (chainEnv n) (chainFieldFunc j) (.valid (2 * k + 1) d) := by
  simp [chainFunc, shred, shred.shredGroup, ChildValue.apply, valueByIndex, Reflect.Value.kind,
    sliceAt, Reflect.Value.fieldByIndex, Reflect.Value.field, TypeEnv.field, chainField, bind,
    Except.bind]

theorem shred_chainFieldFunc_zero (n : Nat) (v : Reflect.Value) :
    shred (chainEnv n) (chainFieldFunc 0) v = ([⟨0, .int64, [], v⟩], none) := rfl

theorem shred_chainFieldFunc_succ (n k j : Nat) (ds : List Reflect.Data) (hds : ds ≠ []) :
    shred (chainEnv n) (chainFieldFunc (j + 1)) (.valid (2 * k + 1) (.slice (some ds))) =
      shredElements (chainEnv n) (shred (chainEnv n) (chainFunc j)) true
        (.valid (2 * k + 1) (.slice (some ds))) ds.length 0 := by
  simp [shred, shredRepeated, Reflect.Value.len, Reflect.Value.isNil, hds]

/-- The record has two paths to the column: through element 0 of every slice, and through
element 0 of every slice but the innermost, where it takes element 1. -/
theorem shred_chain (n : Nat) : ∀ j k, k + j + 1 = n →
    shred (chainEnv n) (chainFunc (j + 1)) (.valid (2 * k) (chainData (j + 1))) =
      ([⟨0, .int64, List.replicate (j + 1) (elementStep 0), .valid (2 * n + 1) (.int 1)⟩,
        ⟨0, .int64, List.replicate j (elementStep 0) ++ [elementStep 1],
          .valid (2 * n + 1) (.int 2)⟩], none)
  | 0, k, hk => by
      obtain rfl : n = k + 1 := hk.symm
      rw [chainData, shred_chainFunc, shred_chainFieldFunc_succ _ _ _ _ (List.cons_ne_nil _ _)]
      simp [shredElements, Reflect.Value.index, shred_chainFunc, shred_chainFieldFunc_zero,
        Paths.within, Paths.andThen, elementStep]
  | j + 1, k, hk => by
      rw [chainData, shred_chainFunc, shred_chainFieldFunc_succ _ _ _ _ (List.cons_ne_nil _ _)]
      simp [shredElements, Reflect.Value.index, show k < n by omega, Paths.within,
        Paths.andThen, elementStep, shred_chain n j (k + 1) (by omega), List.replicate_succ]

theorem Schema.shred_chainValue (j : Nat) :
    (chainSchema (j + 1)).shred (chainEnv (j + 1)) (chainValue (j + 1)) =
      ([⟨0, .int64, List.replicate (j + 1) (elementStep 0), .valid (2 * (j + 1) + 1) (.int 1)⟩,
        ⟨0, .int64, List.replicate j (elementStep 0) ++ [elementStep 1],
          .valid (2 * (j + 1) + 1) (.int 2)⟩], none) := by
  have h := shred_chain (j + 1) j 0 (by omega)
  rw [Nat.mul_zero] at h
  simp only [Schema.shred, rootValue, chainValue, Reflect.Value.kind]
  rw [if_neg (by simp [chainEnv_kind_struct (j + 1) 0])]
  exact h

/-! ## The levels of the run -/

theorem Int8.ofNat_add_one (m : Nat) : Int8.ofNat m + 1 = Int8.ofNat (m + 1) := by
  show (⟨⟨BitVec.ofNat 8 m + BitVec.ofNat 8 1⟩⟩ : Int8) = ⟨⟨BitVec.ofNat 8 (m + 1)⟩⟩
  rw [BitVec.ofNat_add_ofNat]

theorem Levels.after_append (levels : Levels) (a b : List Step) :
    levels.after (a ++ b) = (levels.after a).after b :=
  List.foldl_append _ _ _ _

/-- Through `m` first elements the repetition deepens by `m`, and so does the definition
level, while the repetition level stays. -/
theorem Levels.after_replicate_first (levels : Levels) : ∀ m : Nat,
    levels.after (List.replicate m (elementStep 0)) =
      { repetitionDepth := levels.repetitionDepth + Int8.ofNat m,
        repetitionLevel := levels.repetitionLevel,
        definitionLevel := levels.definitionLevel + Int8.ofNat m }
  | 0 => by simp [Int8.add_ofNat_zero]
  | m + 1 => by
      rw [List.replicate_succ, Levels.after_cons, Levels.after_replicate_first _ m]
      simp only [Levels.step, elementStep, if_true, Option.getD_some]
      rw [show (1 : Int8) = Int8.ofNat 1 from rfl, Int8.add_ofNat_add, Int8.add_ofNat_add,
        Nat.add_comm 1 m]

/-- With a sink that accepts everything, the traversal of the chain of depth `j + 1` makes
two calls: the first at repetition level 0, the second at repetition level `j + 1`, both at
definition level `j + 1`, all as `int8`s. -/
theorem traverseValue_chain (j : Nat) :
    ((chainSchema (j + 1)).traverseValue (chainEnv (j + 1)) (chainValue (j + 1))
      fun _ _ => none).run [] =
      (.ok none,
        [(0, ⟨some .int64, .valid (2 * (j + 1) + 1) (.int 1), 0, Int8.ofNat (j + 1)⟩),
         (0, ⟨some .int64, .valid (2 * (j + 1) + 1) (.int 2), Int8.ofNat (j + 1),
           Int8.ofNat (j + 1)⟩)]) := by
  rw [traverseValue_accepting _ _ _ _ (fun _ _ => rfl), Schema.shred_chainValue]
  simp only [List.map, Path.toCall, Levels.after_append, Levels.after_replicate_first]
  simp [Paths.ending, makeValue, Levels.step, Int8.zero_add_ofNat, Int8.ofNat_add_one, elementStep]

/-- At depth 128 the column lies under 128 Repeated nodes, and the second value of the record
repeats at the 128th: the sink receives it at repetition level `-128`, outside `[1, 128]`. -/
theorem deep_chain_repetitionLevel_wraps :
    schemaOf (chainEnv 128) 257 0 = .ok (chainSchema 128) ∧
    ((chainSchema 128).shred (chainEnv 128) (chainValue 128)).1.map
        (fun p => (p.indices, p.repeatedCount)) =
      [(List.replicate 128 0, 128), (List.replicate 127 0 ++ [1], 128)] ∧
    ((chainSchema 128).traverseValue (chainEnv 128) (chainValue 128) fun _ _ => none).run [] =
      (.ok none, [(0, ⟨some .int64, .valid 257 (.int 1), 0, -128⟩),
        (0, ⟨some .int64, .valid 257 (.int 2), -128, -128⟩)]) := by
  refine ⟨schemaOf_chain 128, ?_, traverseValue_chain 127⟩
  rw [Schema.shred_chainValue 127]
  simp only [List.map_cons, List.map_nil, Path.indices, Path.repeatedCount, List.filterMap_append,
    List.filterMap_replicate, List.countP_append, List.countP_replicate, elementStep, Step.index,
    Step.isRepeated, List.filterMap_cons, List.filterMap_nil, List.countP_cons, List.countP_nil,
    if_true]

end ParquetGo
