import Mathlib.Data.List.Chain
import ParquetGo.Proofs.Levels

/-!
# No element is skipped

A reader rebuilds a record from each column's calls by their repetition levels alone: a call
at level `r` starts a new element of the list `r` deep and continues the lists above it.  That
works because `Schema.Traverse` gives every column a call for every element of every list on
its way, a null through the blank path of an element that has no value for the column.  This
file proves it on the index paths: the first index path of a column is all zeros, and each
next one is the one before advanced by one element at the depth of its repetition level, the
deeper lists starting again at their first element (`index_paths_advance`).

## Strategy

`NextIndex x y` says that `y` comes right after `x`; `Dense` says it of a whole column.  It is
built as `RecordOrder` in `Levels.lean` is: a sequence's elements are blocks, each block's
paths prefixed by the element's position (`NextIndex.cons`), and a block's first path follows
the last path of the block before (`nextIndex_element`).  A block is empty only when every
block is (`shred_uniform`), so no element is skipped.
-/

namespace ParquetGo

/-! ## Advancing an index path -/

/-- `y` comes right after `x` among a column's index paths: the list `t + 1` deep has
advanced by one element, and `y` takes the first element of every list below it. -/
def NextIndex (x y : List Nat) : Prop :=
  ∃ t k, t < x.length ∧ y = x.take t ++ (x.getD t 0 + 1) :: List.replicate k 0

theorem NextIndex.cons {x y : List Nat} (i : Nat) (h : NextIndex x y) :
    NextIndex (i :: x) (i :: y) := by
  obtain ⟨t, k, ht, rfl⟩ := h
  exact ⟨t + 1, k, by simpa using ht, by simp⟩

theorem nextIndex_element (i : Nat) (x : List Nat) (k : Nat) :
    NextIndex (i :: x) ((i + 1) :: List.replicate k 0) :=
  ⟨0, k, by simp, by simp⟩

theorem lastRepetition_advance (a k : Nat) :
    ∀ l : List Nat, lastRepetition (l ++ (a + 1) :: List.replicate k 0) = l.length + 1
  | [] => by
      have : lastRepetition (List.replicate k 0) = 0 :=
        lastRepetition_eq_zero.2 fun i hi => List.eq_of_mem_replicate hi
      simp [lastRepetition, this]
  | i :: l => by
      simp [lastRepetition, lastRepetition_advance a k l]

/-- The depth at which `y` advances is its repetition level. -/
theorem NextIndex.lastRepetition {x y : List Nat} (h : NextIndex x y) :
    1 ≤ lastRepetition y ∧ lastRepetition y ≤ x.length ∧ ∃ k,
      y = x.take (lastRepetition y - 1) ++
        (x.getD (lastRepetition y - 1) 0 + 1) :: List.replicate k 0 := by
  obtain ⟨t, k, ht, rfl⟩ := h
  have hlast := lastRepetition_advance (x.getD t 0) k (x.take t)
  rw [List.length_take, Nat.min_eq_left ht.le] at hlast
  rw [hlast, Nat.add_sub_cancel]
  exact ⟨by omega, by omega, k, rfl⟩

/-! ## Dense columns -/

/-- A column's index paths in one record: the first all zeros, each next one right after the
one before. -/
structure Dense (xs : List (List Nat)) : Prop where
  first : ∀ x ∈ xs.head?, ∀ i ∈ x, i = 0
  next : xs.Chain' NextIndex

/-- The index paths of a sequence's elements from position `i` on: the first starts element
`i` at its first element all the way down, each next one right after the one before. -/
structure DenseFrom (i : Nat) (xs : List (List Nat)) : Prop where
  first : ∀ x ∈ xs.head?, ∃ k, x = i :: List.replicate k 0
  next : xs.Chain' NextIndex

theorem Dense.nil : Dense [] := ⟨by simp, List.chain'_nil⟩

theorem DenseFrom.nil (i : Nat) : DenseFrom i [] := ⟨by simp, List.chain'_nil⟩

theorem DenseFrom.dense {xs : List (List Nat)} (h : DenseFrom 0 xs) : Dense xs := by
  refine ⟨fun x hx i hi => ?_, h.next⟩
  obtain ⟨k, rfl⟩ := h.first x hx
  rcases List.mem_cons.1 hi with rfl | hi
  · rfl
  · exact List.eq_of_mem_replicate hi

/-- Element `i`'s block of index paths, then those of the elements after it. -/
theorem DenseFrom.cons_block {i : Nat} {xs rest : List (List Nat)} (hxs : Dense xs)
    (hrest : DenseFrom (i + 1) rest) (hempty : xs = [] → rest = []) :
    DenseFrom i (xs.map (i :: ·) ++ rest) := by
  refine ⟨?_, List.chain'_append.2 ⟨?_, hrest.next, ?_⟩⟩
  · cases xs with
    | nil => simp [hempty rfl]
    | cons x xs =>
      rintro _ ⟨⟩
      exact ⟨x.length, congrArg (i :: ·) (List.eq_replicate_iff.2 ⟨rfl, hxs.first x rfl⟩)⟩
  · exact (List.chain'_map _).2 (hxs.next.imp fun _ _ h => h.cons i)
  · intro x hx y hy
    obtain ⟨k, rfl⟩ := hrest.first y hy
    obtain ⟨x, -, rfl⟩ := List.mem_map.1 (List.mem_of_mem_getLast? hx)
    exact nextIndex_element i x k

section Dense

variable (env : Reflect.TypeEnv) (c : Nat)

section Generic

variable {sh : Reflect.Value → Paths} (hdense : ∀ v, Dense (columnIndices c (sh v).1))
  (huniform : ∀ v, (sh v).2 = none → columnIndices c (sh v).1 = [] →
    ∀ v', columnIndices c (sh v').1 = [])
include hdense huniform

theorem shredElements_denseFrom (nonNil : Bool) (value : Reflect.Value) :
    ∀ remaining i, DenseFrom i (columnIndices c (shredElements env sh nonNil value remaining i).1)
  | 0, i => DenseFrom.nil i
  | remaining + 1, i => by
      simp only [shredElements]
      split
      · exact DenseFrom.nil i
      · rename_i elem _
        rw [Paths.andThen_fst, columnIndices_append, columnIndices_within]
        refine DenseFrom.cons_block (hdense elem) ?_ fun hempty => ?_
        · split
          · exact shredElements_denseFrom nonNil value remaining (i + 1)
          · exact DenseFrom.nil _
        · split
          · exact shredElements_columnIndices_nil env c (huniform elem ‹_› hempty) _ _ _ _
          · rfl

omit huniform in
theorem shredOptional_dense : ∀ v, Dense (columnIndices c (shredOptional env sh v).1)
  | .invalid => by simpa [shredOptional, columnIndices_within, Step.index] using hdense .invalid
  | .valid t d => by
      simp only [shredOptional]
      split
      · simpa [columnIndices_within, Step.index] using hdense .invalid
      · split
        · exact Dense.nil
        · simpa [columnIndices_within, Step.index] using hdense _

theorem shredRepeated_dense : ∀ v, Dense (columnIndices c (shredRepeated env sh v).1)
  | .invalid => by simpa [shredRepeated, columnIndices_within, Step.index] using hdense .invalid
  | .valid t d => by
      simp only [shredRepeated]
      split
      · exact Dense.nil
      · split
        · exact Dense.nil
        · split
          · simpa [columnIndices_within, Step.index] using hdense .invalid
          · exact (shredElements_denseFrom env c hdense huniform _ _ _ 0).dense

end Generic

/-- A group's paths to a column are those of the one child that holds the column: the first
child's, or else those of the children after it, or none after a panic. -/
theorem columnIndices_shredGroup_cons {f : TraverseFunc} {funcs : List TraverseFunc}
    (h : ((TraverseFunc.leaves.leavesList (f :: funcs)).map Prod.fst).Nodup) (i : Nat)
    (valueAt : Nat → Except String Reflect.Value) :
    columnIndices c (shred.shredGroup env (f :: funcs) i valueAt).1 = [] ∨
      (∃ v, columnIndices c (shred.shredGroup env (f :: funcs) i valueAt).1 =
        columnIndices c (shred env f v).1) ∨
      columnIndices c (shred.shredGroup env (f :: funcs) i valueAt).1 =
        columnIndices c (shred.shredGroup env funcs (i + 1) valueAt).1 := by
  simp only [shred.shredGroup]
  split
  · exact .inl rfl
  · rename_i v _
    simp only [TraverseFunc.leaves.leavesList, List.map_append, List.nodup_append] at h
    rw [Paths.andThen_fst, columnIndices_append]
    by_cases hc : c ∈ f.leaves.map Prod.fst
    · have hnone : columnIndices c (if (shred env f v).2 = none then
          (shred.shredGroup env funcs (i + 1) valueAt).1 else []) = [] := by
        rw [columnIndices_eq_nil]
        intro p hp hcol
        split at hp
        · exact h.2.2 hc
            (hcol ▸ List.mem_map_of_mem Prod.fst (shred_column_mem.groupMem env funcs _ _ p hp))
        · simp at hp
      rw [hnone, List.append_nil]
      exact .inr (.inl ⟨v, rfl⟩)
    · have hfirst : columnIndices c (shred env f v).1 = [] := by
        rw [columnIndices_eq_nil]
        intro p hp hcol
        exact hc (hcol ▸ List.mem_map_of_mem Prod.fst (shred_column_mem env f v p hp))
      rw [hfirst, List.nil_append]
      split
      · exact .inr (.inr rfl)
      · exact .inl rfl

/-- In one record, every column's index paths are dense: the first all zeros, each next one
right after the one before. -/
theorem shred_dense : ∀ f : TraverseFunc, (f.leaves.map Prod.fst).Nodup →
    ∀ v, Dense (columnIndices c (shred env f v).1)
  | .noop, _, _ => Dense.nil
  | .optional f, h, v => shredOptional_dense env c (shred_dense f h) v
  | .repeated f, h, v => shredRepeated_dense env c (shred_dense f h) (shred_uniform env c f h) v
  | .group _ funcs, h, _ => groupDense funcs h 0 _
  | .leaf column kind, _, v => by
      by_cases hc : column = c
      · have hleaf : columnIndices c (shred env (.leaf column kind) v).1 = [[]] := by
          simp [shred, columnIndices, hc, Path.indices]
        rw [hleaf]
        exact ⟨by simp, List.chain'_singleton _⟩
      · simpa [shred, columnIndices, hc] using Dense.nil
where
  groupDense : ∀ funcs, ((TraverseFunc.leaves.leavesList funcs).map Prod.fst).Nodup →
      ∀ i valueAt, Dense (columnIndices c (shred.shredGroup env funcs i valueAt).1)
    | [], _, _, _ => Dense.nil
    | f :: funcs, h, i, valueAt => by
        have hnodup := h
        simp only [TraverseFunc.leaves.leavesList, List.map_append, List.nodup_append] at hnodup
        rcases columnIndices_shredGroup_cons env c h i valueAt with hnil | ⟨v, hv⟩ | hrest
        · rw [hnil]
          exact Dense.nil
        · rw [hv]
          exact shred_dense f hnodup.1 v
        · rw [hrest]
          exact groupDense funcs hnodup.2.1 (i + 1) valueAt

end Dense

/-- For every schema `SchemaOf` builds, every value and a sink that accepts every call, the
calls for a column `c` are those of the value's paths that end at `c`, and no element of a list
on the way is skipped: the first path's index path is all zeros, and each next one is the one
before advanced by one element at depth `r`, its repetition level (`1 ≤ r`), with the first
element of every list below.  So the repetition levels, read in order, give every call's
position in the record. -/
theorem index_paths_advance (env : Reflect.TypeEnv) (fuel : Nat) (t : Reflect.TypeId)
    (s : Schema) (hs : schemaOf env fuel t = .ok s) (value : Reflect.Value)
    (traversal : Traversal) (haccept : ∀ made call, traversal made call = none) (c : Nat) :
    ((s.traverseValue env value traversal).run []).2.filter (·.1 == c) =
        (s.columnPaths env value c).map (Path.toCall {}) ∧
      (∀ p ∈ (s.columnPaths env value c).head?, ∀ i ∈ p.indices, i = 0) ∧
      (s.columnPaths env value c).Chain' fun p q =>
        1 ≤ lastRepetition q.indices ∧ lastRepetition q.indices ≤ p.indices.length ∧ ∃ k,
          q.indices = p.indices.take (lastRepetition q.indices - 1) ++
            (p.indices.getD (lastRepetition q.indices - 1) 0 + 1) :: List.replicate k 0 := by
  have hdense : Dense ((s.columnPaths env value c).map Path.indices) := by
    show Dense (columnIndices c (s.shred env value).1)
    simp only [Schema.shred]
    split
    · exact Dense.nil
    · exact shred_dense env c s.traverse (schemaOf_columns_nodup hs) _
  refine ⟨?_, fun p hp => hdense.first p.indices
    (by rw [List.head?_map]; exact Option.mem_map_of_mem _ hp), ?_⟩
  · rw [traverseValue_accepting env traversal s value haccept, List.filter_map]
    rfl
  · exact (List.chain'_map _).1 hdense.next |>.imp fun _ _ h => h.lastRepetition

/-- The first record, `{Values: []float64{1.0, 2.0, 3.0}}`: its column's index paths `[0]`,
`[1]`, `[2]` advance one element at a time. -/
theorem first_record_index_paths_advance :
    (∀ p ∈ (recordSchema.columnPaths recordEnv firstRecord 0).head?, ∀ i ∈ p.indices, i = 0) ∧
      (recordSchema.columnPaths recordEnv firstRecord 0).Chain' fun p q =>
        1 ≤ lastRepetition q.indices ∧ lastRepetition q.indices ≤ p.indices.length ∧ ∃ k,
          q.indices = p.indices.take (lastRepetition q.indices - 1) ++
            (p.indices.getD (lastRepetition q.indices - 1) 0 + 1) :: List.replicate k 0 :=
  (index_paths_advance recordEnv 3 0 recordSchema rfl firstRecord (fun _ _ => none)
    (fun _ _ => rfl) 0).2

end ParquetGo
