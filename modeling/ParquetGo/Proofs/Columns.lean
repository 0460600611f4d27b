import ParquetGo.Proofs.Refinement
import ParquetGo.Proofs.Compile

/-!
# Which columns a run reaches, and in what order

A compiled traversal's leaf closures have consecutive columns (`Proofs/Compile.lean`).  Here
that is carried to runs: every path of a value ends at one of the leaf closures
(`shred_column_mem`), and a run that does not panic reaches every column, the first time in
the order of the leaf closures (`shred_firstOccurrences`).  So the sink sees the indices
`0, 1, …, k - 1` for the first time in that order, `k` the number of leaves of the root
(`schemaOf_firstOccurrences`), and no other index, whatever the sink
(`schemaOf_call_lt`).  That the compiler returns on the nodes the builder makes is
`Proofs/Pipeline.lean`.

## Strategy

`firstOccurrences` lists the distinct elements of a list in the order they first occur.  It
goes through the two ways paths are put together: the elements of a sequence repeat the
columns of the first (`firstOccurrences_append_of_subset`), and the children of a group
have disjoint columns (`firstOccurrences_append_of_disjoint`).
-/

namespace ParquetGo

/-! ## First occurrences -/

/-- The distinct elements of a list, in the order of their first occurrences. -/
def firstOccurrences : List Nat → List Nat
  | [] => []
  | c :: cs => c :: (firstOccurrences cs).filter (· ≠ c)

example : firstOccurrences [1, 0, 1, 2, 0] = [1, 0, 2] := rfl

@[simp] theorem mem_firstOccurrences {x : Nat} : ∀ {l : List Nat}, x ∈ firstOccurrences l ↔ x ∈ l
  | [] => by simp [firstOccurrences]
  | c :: cs => by
      by_cases h : x = c <;> simp [firstOccurrences, h, @mem_firstOccurrences x cs]

theorem firstOccurrences_append (xs ys : List Nat) :
    firstOccurrences (xs ++ ys) = firstOccurrences xs ++ (firstOccurrences ys).filter (· ∉ xs) := by
  induction xs with
  | nil => simp [firstOccurrences]
  | cons x xs ih =>
      rw [List.cons_append, firstOccurrences, ih, firstOccurrences, List.filter_append,
        List.filter_filter, List.cons_append]
      congr 2
      apply List.filter_congr
      intro y _
      simp [and_comm]

theorem firstOccurrences_append_of_subset {xs ys : List Nat} (h : ∀ y ∈ ys, y ∈ xs) :
    firstOccurrences (xs ++ ys) = firstOccurrences xs := by
  rw [firstOccurrences_append, List.filter_eq_nil_iff.2, List.append_nil]
  intro y hy
  simpa using h y (mem_firstOccurrences.1 hy)

theorem firstOccurrences_append_of_disjoint {xs ys : List Nat} (h : ∀ y ∈ ys, y ∉ xs) :
    firstOccurrences (xs ++ ys) = firstOccurrences xs ++ firstOccurrences ys := by
  rw [firstOccurrences_append, List.filter_eq_self.2]
  intro y hy
  simpa using h y (mem_firstOccurrences.1 hy)

/-! ## The columns of the paths -/

section
variable (env : Reflect.TypeEnv)

section Generic

variable {L : List (Nat × Kind)} {sh : Reflect.Value → Paths}
  (hmem : ∀ v, ∀ p ∈ (sh v).1, (p.column, p.kind) ∈ L)
include hmem

theorem shredOptional_column_mem : ∀ v, ∀ p ∈ (shredOptional env sh v).1, (p.column, p.kind) ∈ L := by
  intro v p hp
  rcases v with _ | ⟨t, d⟩
  · obtain ⟨q, hq, rfl⟩ := Paths.mem_within.1 hp
    exact hmem _ q hq
  · simp only [shredOptional] at hp
    split at hp
    · obtain ⟨q, hq, rfl⟩ := Paths.mem_within.1 hp
      exact hmem _ q hq
    · split at hp
      · simp at hp
      · obtain ⟨q, hq, rfl⟩ := Paths.mem_within.1 hp
        exact hmem _ q hq

theorem shredElements_column_mem (nonNil : Bool) (value : Reflect.Value) :
    ∀ remaining i, ∀ p ∈ (shredElements env sh nonNil value remaining i).1, (p.column, p.kind) ∈ L
  | 0, _ => by simp [shredElements]
  | remaining + 1, i => by
      intro p hp
      simp only [shredElements] at hp
      split at hp
      · simp at hp
      · rcases Paths.mem_andThen hp with hp | hp
        · obtain ⟨q, hq, rfl⟩ := Paths.mem_within.1 hp
          exact hmem _ q hq
        · exact shredElements_column_mem nonNil value remaining (i + 1) p hp

theorem shredRepeated_column_mem : ∀ v, ∀ p ∈ (shredRepeated env sh v).1, (p.column, p.kind) ∈ L := by
  intro v p hp
  rcases v with _ | ⟨t, d⟩
  · obtain ⟨q, hq, rfl⟩ := Paths.mem_within.1 hp
    exact hmem _ q hq
  · simp only [shredRepeated] at hp
    split at hp
    · simp at hp
    · split at hp
      · simp at hp
      · split at hp
        · obtain ⟨q, hq, rfl⟩ := Paths.mem_within.1 hp
          exact hmem _ q hq
        · exact shredElements_column_mem env hmem _ _ _ _ p hp

variable (hcover : ∀ v, (sh v).2 = none → firstOccurrences ((sh v).1.map (·.column)) = L.map Prod.fst)
include hcover

omit hmem in
theorem shredOptional_firstOccurrences : ∀ v, (shredOptional env sh v).2 = none →
    firstOccurrences ((shredOptional env sh v).1.map (·.column)) = L.map Prod.fst := by
  intro v hv
  rcases v with _ | ⟨t, d⟩
  · simp only [shredOptional] at hv ⊢
    simpa using hcover _ hv
  · simp only [shredOptional] at hv ⊢
    split
    · simpa using hcover _ (by simpa [*] using hv)
    · split
      · simp_all
      · simpa using hcover _ (by simpa [*] using hv)

theorem shredElements_firstOccurrences (nonNil : Bool) (value : Reflect.Value) :
    ∀ remaining i, (shredElements env sh nonNil value (remaining + 1) i).2 = none →
      firstOccurrences ((shredElements env sh nonNil value (remaining + 1) i).1.map (·.column)) =
        L.map Prod.fst := by
  intro remaining i h
  simp only [shredElements] at h ⊢
  cases hindex : value.index env i with
  | error e => simp [hindex] at h
  | ok elem =>
      simp only [hindex] at h ⊢
      obtain ⟨h₁, -, hcat⟩ := Paths.andThen_of_no_panic h
      rw [hcat, List.map_append, firstOccurrences_append_of_subset, Paths.columns_within]
      · exact hcover elem h₁
      · intro c hc
        obtain ⟨p, hp, rfl⟩ := List.mem_map.1 hc
        have hL := List.mem_map_of_mem Prod.fst
          (shredElements_column_mem env hmem nonNil value remaining (i + 1) p hp)
        rw [← hcover elem h₁, mem_firstOccurrences] at hL
        simpa using hL

theorem shredRepeated_firstOccurrences : ∀ v, (shredRepeated env sh v).2 = none →
    firstOccurrences ((shredRepeated env sh v).1.map (·.column)) = L.map Prod.fst := by
  intro v hv
  rcases v with _ | ⟨t, d⟩
  · simp only [shredRepeated] at hv ⊢
    simpa using hcover _ hv
  · simp only [shredRepeated] at hv ⊢
    split
    · simp_all
    · split
      · simp_all
      · split
        · simpa using hcover _ (by simpa [*] using hv)
        · rename_i n _ _ _ hn
          obtain ⟨remaining, rfl⟩ := Nat.exists_eq_succ_of_ne_zero hn
          exact shredElements_firstOccurrences env hmem hcover _ _ remaining 0 (by simpa [*] using hv)

end Generic

/-- Every path ends at a leaf closure of the traversal. -/
theorem shred_column_mem : ∀ (f : TraverseFunc) v, ∀ p ∈ (shred env f v).1,
    (p.column, p.kind) ∈ f.leaves
  | .noop, _ => by simp [shred]
  | .optional f, v => shredOptional_column_mem env (shred_column_mem f) v
  | .repeated f, v => shredRepeated_column_mem env (shred_column_mem f) v
  | .group _ funcs, _ => groupMem funcs 0 _
  | .leaf _ _, _ => by simp [shred, TraverseFunc.leaves]
where
  groupMem : ∀ funcs i valueAt, ∀ p ∈ (shred.shredGroup env funcs i valueAt).1,
      (p.column, p.kind) ∈ TraverseFunc.leaves.leavesList funcs
    | [], _, _ => by simp [shred.shredGroup]
    | f :: funcs, i, valueAt => by
        intro p hp
        simp only [shred.shredGroup] at hp
        split at hp
        · simp at hp
        · simp only [TraverseFunc.leaves.leavesList, List.mem_append]
          rcases Paths.mem_andThen hp with hp | hp
          · exact .inl (shred_column_mem f _ p hp)
          · exact .inr (groupMem funcs (i + 1) valueAt p hp)

/-- A traversal whose leaf closures have distinct columns reaches, unless it panics, every
column, and reaches them first in the order of its leaf closures. -/
theorem shred_firstOccurrences : ∀ (f : TraverseFunc), (f.leaves.map Prod.fst).Nodup →
    ∀ v, (shred env f v).2 = none →
      firstOccurrences ((shred env f v).1.map (·.column)) = f.leaves.map Prod.fst
  | .noop, _, _, _ => rfl
  | .optional f, hnodup, v, h =>
      shredOptional_firstOccurrences env (fun v => shred_firstOccurrences f hnodup v) v h
  | .repeated f, hnodup, v, h => shredRepeated_firstOccurrences env (shred_column_mem env f)
      (fun v => shred_firstOccurrences f hnodup v) v h
  | .group _ funcs, hnodup, _, h => groupFirst funcs hnodup 0 _ h
  | .leaf _ _, _, _, _ => rfl
where
  groupFirst : ∀ funcs, ((TraverseFunc.leaves.leavesList funcs).map Prod.fst).Nodup →
      ∀ i valueAt, (shred.shredGroup env funcs i valueAt).2 = none →
        firstOccurrences ((shred.shredGroup env funcs i valueAt).1.map (·.column)) =
          (TraverseFunc.leaves.leavesList funcs).map Prod.fst
    | [], _, _, _, _ => rfl
    | f :: funcs, hnodup, i, valueAt, h => by
        simp only [shred.shredGroup] at h ⊢
        cases hv : valueAt i with
        | error e => simp [hv] at h
        | ok v =>
            simp only [hv] at h ⊢
            simp only [TraverseFunc.leaves.leavesList, List.map_append, List.nodup_append] at hnodup
            obtain ⟨hnodup₁, hnodup₂, hdisjoint⟩ := hnodup
            obtain ⟨h₁, h₂, hcat⟩ := Paths.andThen_of_no_panic h
            rw [hcat, List.map_append, firstOccurrences_append_of_disjoint,
              shred_firstOccurrences f hnodup₁ v h₁, groupFirst funcs hnodup₂ (i + 1) valueAt h₂,
              TraverseFunc.leaves.leavesList, List.map_append]
            intro c hc hc'
            obtain ⟨p, hp, rfl⟩ := List.mem_map.1 hc
            obtain ⟨q, hq, hcol⟩ := List.mem_map.1 hc'
            have hfirst := List.mem_map_of_mem Prod.fst (shred_column_mem env f v q hq)
            have hrest := List.mem_map_of_mem Prod.fst
              (shred_column_mem.groupMem env funcs _ _ p hp)
            simp only [hcol] at hfirst
            exact hdisjoint hfirst hrest

end

/-! ## Schemas -/

theorem schemaOf_traverse {env : Reflect.TypeEnv} {fuel : Nat} {t : Reflect.TypeId} {s : Schema}
    (h : schemaOf env fuel t = .ok s) : makeTraverseFunc s.root = .ok s.traverse := by
  simp only [schemaOf, namedSchemaOf] at h
  split at h
  · obtain ⟨root, -, h⟩ := bind_eq_ok.1 h
    obtain ⟨f, hf, h⟩ := bind_eq_ok.1 h
    cases h
    exact hf
  · split at h
    · obtain ⟨root, -, h⟩ := bind_eq_ok.1 h
      obtain ⟨f, hf, h⟩ := bind_eq_ok.1 h
      cases h
      exact hf
    · cases h

/-- The traversal of a root with children has one leaf closure per leaf of the root, with
columns `0, 1, …` in order. -/
theorem makeTraverseFunc_leaves {root : Node} {f : TraverseFunc}
    (h : makeTraverseFunc root = .ok f) (hroot : root.numChildren ≠ 0) :
    f.leaves.map Prod.fst = List.range root.leaves.length := by
  simp only [makeTraverseFunc, hroot, if_false] at h
  obtain ⟨⟨k, f'⟩, hf, h⟩ := bind_eq_ok.1 h
  cases h
  obtain ⟨-, hcols, hkinds⟩ := traverseFuncOf_leaves _ _ _ _ _ hf
  have hlength := congrArg List.length hkinds
  have hk := congrArg List.length hcols
  simp only [List.length_map, List.length_range'] at hlength hk
  rw [hcols, List.range_eq_range', ← hk, hlength]

theorem Schema.shred_of_no_panic {env : Reflect.TypeEnv} {s : Schema} {value : Reflect.Value}
    (h : (s.shred env value).2 = none) :
    ∃ v, s.shred env value = ParquetGo.shred env s.traverse v := by
  simp only [Schema.shred] at h ⊢
  split
  · simp_all
  · exact ⟨_, rfl⟩

/-! ## Two programs -/

/-- The field `Values []float64` of `record`, tagged `values,list,optional`. -/
def valuesField : Reflect.StructField where
  name := "Values"
  type := 1
  tag := ⟨[("parquet", "values,list,optional")]⟩
  index := [0]
  anonymous := false
  exported := true

/-- The types of `TestWriteAndReadOptionalList`: `record` (0), whose only field is
`Values []float64` tagged `values,list,optional`, then `[]float64` (1) and `float64` (2). -/
def recordDesc : Reflect.TypeId → Reflect.TypeDesc
  | 0 => { kind := .struct, name := "record", string := "parquet.record", fields := [valuesField] }
  | 1 => { kind := .slice, name := "", string := "[]float64", elem := 2 }
  | 2 => { kind := .float64, name := "float64", string := "float64" }
  | _ => { kind := .invalid, name := "", string := "" }

/-- The program of `TestWriteAndReadOptionalList`. -/
def recordEnv : Reflect.TypeEnv where
  desc := recordDesc
  int96 := 3
  depth t := if t = 0 then 1 else 0
  depth_field := by
    intro t f hf
    rcases t with _ | _ | _ | t <;> simp_all [recordDesc, valuesField]

/-- The node `SchemaOf` builds for the field `Values`. -/
def valuesNode : Node := optional (list (encoded (compressed (leaf .double) []) []))

/-- The schema `SchemaOf` builds for `record`. -/
def recordSchema : Schema where
  name := "record"
  root := .structNode [(valuesNode, [0])] ["values"]
  traverse :=
    .group (.byIndex [(valuesNode, [0])] ["values"]) [.optional (.repeated (.leaf 0 .double))]

theorem schemaOf_record : schemaOf recordEnv 3 0 = .ok recordSchema := rfl

/-- The first record of the test, `{Values: []float64{1.0, 2.0, 3.0}}`; a float is its
IEEE 754 bits. -/
def firstRecord : Reflect.Value :=
  .valid 0 (.struct [.slice (some [.float 0x3FF0000000000000, .float 0x4000000000000000,
    .float 0x4008000000000000])])

/-- Compiling a node numbers its leaves: from every start index `c` it returns `c + k`, `k`
the number of the node's leaves, and the `j`-th leaf closure emits under `c + j`, with the
kind of the `j`-th leaf; this for every node it compiles from some start index. -/
theorem traverseFuncOf_ok_numbers {fuel c₀ : Nat} {n : Node} {r : Nat × TraverseFunc}
    (h : traverseFuncOf fuel c₀ n = .ok r) (c : Nat) : ∃ f,
      traverseFuncOf fuel c n = .ok (c + n.leaves.length, f) ∧
      f.leaves.map Prod.fst = List.range' c n.leaves.length ∧
      f.leaves.map (fun l => .ok l.2) = n.leaves.map ParquetType.kind := by
  rw [traverseFuncOf_shift fuel c₀ n] at h
  cases h₀ : traverseFuncOf fuel 0 n with
  | error e => simp [h₀, Except.map] at h
  | ok r₀ =>
      rcases r₀ with ⟨k, f⟩
      obtain ⟨-, hcols, hkinds⟩ := traverseFuncOf_leaves _ _ _ _ _ h₀
      have hk : k = n.leaves.length := by
        have h₁ := congrArg List.length hcols
        have h₂ := congrArg List.length hkinds
        simp only [List.length_map, List.length_range'] at h₁ h₂
        omega
      subst hk
      refine ⟨f.shift c, by simp [traverseFuncOf_shift fuel c n, h₀, Except.map, shiftResult],
        ?_, ?_⟩
      · have hshift := congrArg (List.map (c + ·)) hcols
        simp only [List.map_map, List.map_add_range', Nat.sub_zero, Nat.add_zero] at hshift
        simpa [TraverseFunc.leaves_shift, Function.comp_def] using hshift
      · simpa [TraverseFunc.leaves_shift, Function.comp_def] using hkinds

/-- Whatever the sink, every call a run of a schema's traversal makes is for one of the columns
`0, 1, …, k - 1`, `k` the number of leaves of the root. -/
theorem schemaOf_call_lt {env : Reflect.TypeEnv} {fuel : Nat} {t : Reflect.TypeId} {s : Schema}
    (hs : schemaOf env fuel t = .ok s) (hroot : s.root.numChildren ≠ 0) (value : Reflect.Value)
    (traversal : Traversal) :
    ∀ call ∈ ((s.traverseValue env value traversal).run []).2, call.1 < s.root.leaves.length := by
  intro call hcall
  obtain ⟨p, hp, rfl⟩ := mem_traverseValue_run env traversal hcall
  simp only [Schema.shred] at hp
  split at hp
  · cases hp
  · have hmem := List.mem_map_of_mem Prod.fst (shred_column_mem env s.traverse _ p hp)
    rw [makeTraverseFunc_leaves (schemaOf_traverse hs) hroot] at hmem
    simpa using hmem

/-- With a sink that accepts every call, a run that returns nil makes its first call of each
column in the order `0, 1, …, k - 1`. -/
theorem schemaOf_firstOccurrences {env : Reflect.TypeEnv} {fuel : Nat} {t : Reflect.TypeId}
    {s : Schema} (hs : schemaOf env fuel t = .ok s) (hroot : s.root.numChildren ≠ 0)
    (value : Reflect.Value) (traversal : Traversal) (haccept : ∀ made call, traversal made call = none)
    (hrun : ((s.traverseValue env value traversal).run []).1 = .ok none) :
    firstOccurrences (((s.traverseValue env value traversal).run []).2.map Prod.fst) =
      List.range s.root.leaves.length := by
  rw [traverseValue_accepting env traversal s value haccept] at hrun ⊢
  have hpanic : (s.shred env value).2 = none := by
    cases h : (s.shred env value).2 <;> simp_all [Paths.ending]
  obtain ⟨v, hv⟩ := Schema.shred_of_no_panic hpanic
  have hcols := makeTraverseFunc_leaves (schemaOf_traverse hs) hroot
  rw [hv] at hpanic ⊢
  rw [List.map_map, show Prod.fst ∘ Path.toCall {} = (·.column) from rfl,
    shred_firstOccurrences env s.traverse (hcols ▸ List.nodup_range _) v hpanic, hcols]

end ParquetGo
