import ParquetGo.Proofs.PathShape
import ParquetGo.Proofs.Columns

/-!
# Definition and repetition levels

What the levels of a sink call say about the value, proved from the paths (`Paths.lean`):

* `definitionLevel_counts_present`: a call's definition level is the number of nodes on its
  path that are present, as an `int8`.  An Optional node is present when its value is valid
  and not zero, a Repeated node when its sequence is valid and not nil, an empty one
  included; so an empty sequence yields a null whose level is the column's maximum.
* `repetitionLevel_of_index_path`: with a sink that accepts every call, a column's calls in a
  record follow the index paths of its values in strictly increasing lexicographic order, and
  each call's repetition level is, as an `int8`, the largest `t` with `i_t ≥ 1`.

## Strategy

Both levels are folds over the steps of a path (`Levels.after`).  The definition level adds
one per present step (`Levels.definitionLevel_after`); the repetition level, on a
well-formed path, is the depth of the last element taken at an index `≥ 1`
(`Levels.repetitionLevel_after`).  The order of a column's calls is `RecordOrder`, kept by
each `shred` helper: the elements of a sequence are blocks ordered by their first index, and
a group's children have disjoint columns.
-/

namespace ParquetGo

/-! ## `int8` arithmetic -/

theorem Int8.add_ofNat_add (x : Int8) (a b : Nat) :
    x + Int8.ofNat a + Int8.ofNat b = x + Int8.ofNat (a + b) := by
  show (⟨⟨x.toBitVec + BitVec.ofNat 8 a + BitVec.ofNat 8 b⟩⟩ : Int8) =
    ⟨⟨x.toBitVec + BitVec.ofNat 8 (a + b)⟩⟩
  rw [BitVec.add_assoc, BitVec.ofNat_add_ofNat]

theorem Int8.zero_add_ofNat (a : Nat) : 0 + Int8.ofNat a = Int8.ofNat a := by
  show (⟨⟨BitVec.ofNat 8 0 + BitVec.ofNat 8 a⟩⟩ : Int8) = ⟨⟨BitVec.ofNat 8 a⟩⟩
  rw [BitVec.ofNat_add_ofNat, Nat.zero_add]

theorem Int8.add_ofNat_zero (x : Int8) : x + Int8.ofNat 0 = x := by
  show (⟨⟨x.toBitVec + BitVec.ofNat 8 0⟩⟩ : Int8) = x
  rw [BitVec.add_zero]
  rfl

/-! ## Definition levels -/

theorem Levels.definitionLevel_step (levels : Levels) (s : Step) :
    (levels.step s).definitionLevel =
      levels.definitionLevel + Int8.ofNat (if s.present then 1 else 0) := by
  rcases s with (_ | _) | ⟨_, _ | _, _⟩ <;>
    simp [Levels.step, Step.present, Int8.add_ofNat_zero] <;> rfl

theorem Levels.definitionLevel_after (levels : Levels) (steps : List Step) :
    (levels.after steps).definitionLevel =
      levels.definitionLevel + Int8.ofNat (steps.countP Step.present) := by
  induction steps generalizing levels with
  | nil => simp [Int8.add_ofNat_zero]
  | cons s steps ih =>
      rw [Levels.after_cons, ih, Levels.definitionLevel_step, Int8.add_ofNat_add,
        List.countP_cons, Nat.add_comm]

/-- Every call a run of `Schema.Traverse` makes stands for a path of the value; its
definition level is the number of present nodes on the path, as an `int8`.  A path cut at
an absent Optional node or at a Repeated node without elements ends in a null; a value that
is not null had every node of its path present. -/
theorem definitionLevel_counts_present (env : Reflect.TypeEnv) (s : Schema)
    (value : Reflect.Value) (traversal : Traversal) :
    ∀ call ∈ ((s.traverseValue env value traversal).run []).2,
      ∃ path ∈ (s.shred env value).1, call = path.toCall {} ∧
        call.2.definitionLevel = Int8.ofNat (path.steps.countP Step.present) ∧
        ((∃ step ∈ path.steps, step.cut) → call.2.isNull) ∧
        (call.2.isNull = false → ∀ step ∈ path.steps, step.present) := by
  intro call hcall
  rw [traverseValue_refines] at hcall
  obtain ⟨path, hpath, rfl⟩ := List.mem_map.1 ((mem_feed _ hcall).resolve_left (List.not_mem_nil _))
  have hwf := Schema.shred_wellFormed env s value path hpath
  refine ⟨path, hpath, rfl, ?_, fun ⟨step, hstep, hcut⟩ => ?_, fun hnull => ?_⟩
  · simp [Path.toCall, Levels.definitionLevel_after, Int8.zero_add_ofNat]
  · simp [hwf.null_of_cut step hstep hcut]
  · have hvalid : path.value.isValid = true := by simpa using hnull
    have hnocut : ∀ s ∈ path.steps, s.cut = false := fun s hs => by
      by_contra hcut
      simp [hwf.null_of_cut s hs (by simpa using hcut)] at hvalid
    exact fun s hs => Step.present_of_passes (hwf.shaped.passes_of_not_cut hnocut s hs)

/-- The second record of `TestWriteAndReadOptionalList`, `{Values: []float64{}}`. -/
def secondRecord : Reflect.Value := .valid 0 (.struct [.slice (some [])])

/-- The one call the sink gets for `secondRecord`: a null at definition level 2. -/
def emptyValuesCall : Call := (0, { Value.null with definitionLevel := 2 })

theorem secondRecord_definitionLevel :
    ∃ path ∈ (recordSchema.shred recordEnv secondRecord).1,
      emptyValuesCall = path.toCall {} ∧
      emptyValuesCall.2.definitionLevel = Int8.ofNat (path.steps.countP Step.present) ∧
      ((∃ step ∈ path.steps, step.cut) → emptyValuesCall.2.isNull) ∧
      (emptyValuesCall.2.isNull = false → ∀ step ∈ path.steps, step.present) :=
  definitionLevel_counts_present recordEnv recordSchema secondRecord (fun _ _ => none)
    emptyValuesCall (List.Mem.head _)

/-- The position of the element a Repeated node's step takes. -/
def Step.index : Step → Option Nat
  | .optional _ => none
  | .repeated _ _ index => index

/-- The step is at a Repeated node. -/
def Step.isRepeated : Step → Bool
  | .optional _ => false
  | .repeated _ _ _ => true

/-- The index path of a path: the positions of the elements it takes, outermost first. -/
def Path.indices (p : Path) : List Nat := p.steps.filterMap Step.index

/-- The number of Repeated nodes on a path. -/
def Path.repeatedCount (p : Path) : Nat := p.steps.countP Step.isRepeated

/-- The largest `t`, counting from 1, with `i_t ≥ 1`; 0 when there is none. -/
def lastRepetition : List Nat → Nat
  | [] => 0
  | i :: is => if lastRepetition is = 0 then (if i = 0 then 0 else 1) else lastRepetition is + 1

theorem lastRepetition_eq_zero : ∀ {is : List Nat}, lastRepetition is = 0 ↔ ∀ i ∈ is, i = 0
  | [] => by simp [lastRepetition]
  | i :: is => by
      simp only [lastRepetition, List.mem_cons, forall_eq_or_imp, ← lastRepetition_eq_zero]
      split_ifs <;> simp_all

theorem lastRepetition_le_length : ∀ is : List Nat, lastRepetition is ≤ is.length
  | [] => le_refl 0
  | i :: is => by
      have := lastRepetition_le_length is
      simp only [lastRepetition, List.length_cons]
      split_ifs <;> omega

theorem Path.lastRepetition_le_repeatedCount (p : Path) :
    lastRepetition p.indices ≤ p.repeatedCount := by
  refine (lastRepetition_le_length _).trans ?_
  simp only [Path.indices, Path.repeatedCount]
  induction p.steps with
  | nil => simp
  | cons s steps ih =>
      rcases s with _ | ⟨_, _, _ | _⟩ <;>
        simp [List.filterMap_cons, Step.index, Step.isRepeated, List.countP_cons] <;> omega

theorem Levels.after_blank (levels : Levels) :
    ∀ {steps : List Step}, (∀ s ∈ steps, s.blank) →
      (levels.after steps).repetitionLevel = levels.repetitionLevel ∧
        steps.filterMap Step.index = []
  | [], _ => ⟨rfl, rfl⟩
  | s :: steps, hblank => by
      have hs := hblank s (List.mem_cons_self _ _)
      obtain ⟨hrep, hindex⟩ := (levels.step s).after_blank
        (fun s' hs' => hblank s' (List.mem_cons_of_mem _ hs'))
      rcases s with (_ | _) | ⟨(_ | _), (_ | _), (_ | _)⟩ <;>
        simp_all [Step.blank, Levels.step, Step.index]

/-- On a well-formed path the repetition level is that of the last element taken at an
index `≥ 1`: the depth of its Repeated node. -/
theorem Levels.repetitionLevel_after {steps : List Step} (h : Shaped steps) :
    ∀ levels : Levels, (levels.after steps).repetitionLevel =
      if lastRepetition (steps.filterMap Step.index) = 0 then levels.repetitionLevel
      else levels.repetitionDepth + Int8.ofNat (lastRepetition (steps.filterMap Step.index)) := by
  induction h with
  | nil => intro levels; simp [lastRepetition]
  | @pass s rest hs _ ih =>
      intro levels
      rcases s with (_ | _) | ⟨(_ | _), (_ | _), (_ | i)⟩ <;> simp [Step.passes] at hs
      · simpa [Levels.step, Step.index] using ih _
      · rw [Levels.after_cons, ih]
        simp only [List.filterMap_cons, Step.index, lastRepetition, Levels.step, if_true,
          Option.getD_some]
        by_cases hlast : lastRepetition (rest.filterMap Step.index) = 0
        · by_cases hi : i = 0 <;> simp [hlast, hi]; rfl
        · simp only [hlast, if_false, Nat.add_eq_zero, Nat.one_ne_zero, and_false]
          rw [show (1 : Int8) = Int8.ofNat 1 from rfl, Int8.add_ofNat_add, Nat.add_comm]
  | @cut s rest hs hblank =>
      intro levels
      obtain ⟨hrep, hindex⟩ := (levels.step s).after_blank hblank
      have hstep : (levels.step s).repetitionLevel = levels.repetitionLevel ∧ s.index = none := by
        rcases s with (_ | _) | ⟨_, _, (_ | _)⟩ <;> simp_all [Step.cut, Levels.step, Step.index]
      rw [Levels.after_cons, hrep, hstep.1]
      simp [List.filterMap_cons, hstep.2, hindex, lastRepetition]

/-! ## The order of a column's values -/

/-- The index paths of the paths that end at column `c`, in order. -/
def columnIndices (c : Nat) (ps : List Path) : List (List Nat) :=
  (ps.filter (·.column == c)).map Path.indices

@[simp] theorem columnIndices_nil (c : Nat) : columnIndices c [] = [] := rfl

@[simp] theorem columnIndices_append (c : Nat) (ps qs : List Path) :
    columnIndices c (ps ++ qs) = columnIndices c ps ++ columnIndices c qs := by
  simp [columnIndices]

theorem columnIndices_within (c : Nat) (s : Step) (ps : Paths) :
    columnIndices c (ps.within s).1 = (columnIndices c ps.1).map (s.index.toList ++ ·) := by
  simp only [columnIndices, Paths.within, List.filter_map, List.map_map]
  congr 1
  funext p
  simp only [Function.comp_apply, Path.indices, List.filterMap_cons]
  cases s.index <;> rfl

/-- The index paths of one column's values in a record, in the order the sink gets them:
strictly increasing, the first all zeros, and every later one with an index `≥ 1`. -/
structure RecordOrder (xs : List (List Nat)) : Prop where
  sorted : xs.Sorted (List.Lex (· < ·))
  first : ∀ x ∈ xs.head?, ∀ i ∈ x, i = 0
  later : ∀ x ∈ xs.tail, ∃ i ∈ x, i ≠ 0

theorem RecordOrder.nil : RecordOrder [] := ⟨List.sorted_nil, by simp, by simp⟩

theorem sorted_map_cons {xs : List (List Nat)} (i : Nat) :
    (xs.map (i :: ·)).Sorted (List.Lex (· < ·)) ↔ xs.Sorted (List.Lex (· < ·)) := by
  simp [List.Sorted, List.pairwise_map, List.Lex.cons_iff]

/-- The elements of a sequence from position `i` on: strictly increasing, each index path
starting at a position `≥ i`. -/
def ElementsFrom (i : Nat) (xs : List (List Nat)) : Prop :=
  xs.Sorted (List.Lex (· < ·)) ∧ ∀ x ∈ xs, ∃ j y, x = j :: y ∧ i ≤ j

theorem ElementsFrom.cons_block {i : Nat} {xs rest : List (List Nat)}
    (hxs : xs.Sorted (List.Lex (· < ·))) (hrest : ElementsFrom (i + 1) rest) :
    ElementsFrom i (xs.map (i :: ·) ++ rest) := by
  refine ⟨List.pairwise_append.2 ⟨(sorted_map_cons i).2 hxs, hrest.1, ?_⟩, ?_⟩
  · intro x hx y hy
    obtain ⟨x, -, rfl⟩ := List.mem_map.1 hx
    obtain ⟨j, y, rfl, hj⟩ := hrest.2 y hy
    exact List.Lex.rel (by omega)
  · intro x hx
    rcases List.mem_append.1 hx with hx | hx
    · obtain ⟨x, -, rfl⟩ := List.mem_map.1 hx
      exact ⟨i, x, rfl, le_refl i⟩
    · obtain ⟨j, y, rfl, hj⟩ := hrest.2 x hx
      exact ⟨j, y, rfl, by omega⟩

theorem RecordOrder.cons_first {xs rest : List (List Nat)} (hxs : RecordOrder xs)
    (hrest : ElementsFrom 1 rest) (hempty : xs = [] → rest = []) :
    RecordOrder (xs.map (0 :: ·) ++ rest) := by
  refine ⟨(ElementsFrom.cons_block hxs.sorted hrest).1, ?_, ?_⟩
  · cases xs with
    | nil => simp [hempty rfl]
    | cons x xs => simpa using hxs.first x rfl
  · cases xs with
    | nil => simp [hempty rfl]
    | cons x xs =>
        intro y hy
        simp only [List.map_cons, List.cons_append, List.tail_cons, List.mem_append] at hy
        rcases hy with hy | hy
        · obtain ⟨z, hz, rfl⟩ := List.mem_map.1 hy
          obtain ⟨i, hi, hne⟩ := hxs.later z hz
          exact ⟨i, List.mem_cons_of_mem _ hi, hne⟩
        · obtain ⟨j, z, rfl, hj⟩ := hrest.2 y hy
          exact ⟨j, List.mem_cons_self _ _, by omega⟩

section Order

variable (env : Reflect.TypeEnv) (c : Nat)

section Generic

variable {sh : Reflect.Value → Paths}

theorem shredElements_from (hsorted : ∀ v, (columnIndices c (sh v).1).Sorted (List.Lex (· < ·)))
    (nonNil : Bool) (value : Reflect.Value) :
    ∀ remaining i, ElementsFrom i (columnIndices c (shredElements env sh nonNil value remaining i).1)
  | 0, _ => ⟨List.sorted_nil, by simp [shredElements]⟩
  | remaining + 1, i => by
      simp only [shredElements]
      split
      · exact ⟨List.sorted_nil, by simp⟩
      · rw [Paths.andThen_fst, columnIndices_append, columnIndices_within]
        refine ElementsFrom.cons_block (hsorted _) ?_
        split
        · exact shredElements_from hsorted nonNil value remaining (i + 1)
        · exact ⟨List.sorted_nil, by simp⟩

theorem shredElements_columnIndices_nil (hnil : ∀ v, columnIndices c (sh v).1 = [])
    (nonNil : Bool) (value : Reflect.Value) :
    ∀ remaining i, columnIndices c (shredElements env sh nonNil value remaining i).1 = []
  | 0, _ => rfl
  | remaining + 1, i => by
      simp only [shredElements]
      split
      · rfl
      · rw [Paths.andThen_fst, columnIndices_append, columnIndices_within, hnil]
        split
        · exact shredElements_columnIndices_nil hnil nonNil value remaining (i + 1)
        · rfl

variable (horder : ∀ v, RecordOrder (columnIndices c (sh v).1))
  (huniform : ∀ v, (sh v).2 = none → columnIndices c (sh v).1 = [] →
    ∀ v', columnIndices c (sh v').1 = [])
include horder huniform

theorem shredElements_recordOrder (nonNil : Bool) (value : Reflect.Value) (remaining : Nat) :
    RecordOrder (columnIndices c (shredElements env sh nonNil value (remaining + 1) 0).1) := by
  simp only [shredElements]
  split
  · exact RecordOrder.nil
  · rename_i elem _
    rw [Paths.andThen_fst, columnIndices_append, columnIndices_within]
    refine RecordOrder.cons_first (horder elem) ?_ ?_
    · split
      · exact shredElements_from env c (fun v => (horder v).sorted) nonNil value remaining 1
      · exact ⟨List.sorted_nil, by simp⟩
    · intro hempty
      split
      · exact shredElements_columnIndices_nil env c (huniform elem ‹_› hempty) _ _ _ _
      · rfl

omit huniform in
theorem shredOptional_recordOrder : ∀ v, RecordOrder (columnIndices c (shredOptional env sh v).1)
  | .invalid => by simpa [shredOptional, columnIndices_within, Step.index] using horder .invalid
  | .valid t d => by
      simp only [shredOptional]
      split
      · simpa [columnIndices_within, Step.index] using horder .invalid
      · split
        · exact RecordOrder.nil
        · simpa [columnIndices_within, Step.index] using horder _

theorem shredRepeated_recordOrder : ∀ v, RecordOrder (columnIndices c (shredRepeated env sh v).1)
  | .invalid => by simpa [shredRepeated, columnIndices_within, Step.index] using horder .invalid
  | .valid t d => by
      simp only [shredRepeated]
      split
      · exact RecordOrder.nil
      · split
        · exact RecordOrder.nil
        · split
          · simpa [columnIndices_within, Step.index] using horder .invalid
          · rename_i n _ _ _ hn
            obtain ⟨remaining, rfl⟩ := Nat.exists_eq_succ_of_ne_zero hn
            exact shredElements_recordOrder env c horder huniform _ _ remaining

end Generic

theorem columnIndices_eq_nil {ps : List Path} :
    columnIndices c ps = [] ↔ ∀ p ∈ ps, p.column ≠ c := by
  simp [columnIndices, List.filter_eq_nil_iff]

/-- A run that leaves out a column without panicking never reaches it. -/
theorem shred_uniform (f : TraverseFunc) (hnodup : (f.leaves.map Prod.fst).Nodup) (v : Reflect.Value)
    (hpanic : (shred env f v).2 = none) (hnil : columnIndices c (shred env f v).1 = [])
    (v' : Reflect.Value) : columnIndices c (shred env f v').1 = [] := by
  rw [columnIndices_eq_nil] at hnil ⊢
  intro p hp hcol
  have hmem := List.mem_map_of_mem Prod.fst (shred_column_mem env f v' p hp)
  rw [← shred_firstOccurrences env f hnodup v hpanic, mem_firstOccurrences] at hmem
  obtain ⟨q, hq, hqcol⟩ := List.mem_map.1 hmem
  exact hnil q hq (hqcol.trans hcol)

/-- In one record, the index paths of every column's values come in strictly increasing
order, the first all zeros and every later one with an index `≥ 1`. -/
theorem shred_recordOrder : ∀ f : TraverseFunc, (f.leaves.map Prod.fst).Nodup →
    ∀ v, RecordOrder (columnIndices c (shred env f v).1)
  | .noop, _, _ => RecordOrder.nil
  | .optional f, h, v => shredOptional_recordOrder env c (shred_recordOrder f h) v
  | .repeated f, h, v =>
      shredRepeated_recordOrder env c (shred_recordOrder f h) (shred_uniform env c f h) v
  | .group _ funcs, h, _ => groupOrder funcs h 0 _
  | .leaf column kind, _, v => by
      by_cases hc : column = c
      · have hleaf : columnIndices c (shred env (.leaf column kind) v).1 = [[]] := by
          simp [shred, columnIndices, hc, Path.indices]
        rw [hleaf]
        exact ⟨List.sorted_singleton _, by simp, by simp⟩
      · simpa [shred, columnIndices, hc] using RecordOrder.nil
where
  groupOrder : ∀ funcs, ((TraverseFunc.leaves.leavesList funcs).map Prod.fst).Nodup →
      ∀ i valueAt, RecordOrder (columnIndices c (shred.shredGroup env funcs i valueAt).1)
    | [], _, _, _ => RecordOrder.nil
    | f :: funcs, h, i, valueAt => by
        simp only [shred.shredGroup]
        split
        · exact RecordOrder.nil
        · rename_i v _
          simp only [TraverseFunc.leaves.leavesList, List.map_append, List.nodup_append] at h
          obtain ⟨h₁, h₂, hdisjoint⟩ := h
          rw [Paths.andThen_fst, columnIndices_append]
          by_cases hc : c ∈ f.leaves.map Prod.fst
          · have hrest : ∀ ps : List Path,
                (∀ p ∈ ps, (p.column, p.kind) ∈ TraverseFunc.leaves.leavesList funcs) →
                columnIndices c ps = [] := by
              intro ps hps
              rw [columnIndices_eq_nil]
              intro p hp hcol
              exact hdisjoint hc (hcol ▸ List.mem_map_of_mem Prod.fst (hps p hp))
            have hnone : columnIndices c (if (shred env f v).2 = none then
                (shred.shredGroup env funcs (i + 1) valueAt).1 else []) = [] := by
              apply hrest
              split
              · exact shred_column_mem.groupMem env funcs _ _
              · simp
            rw [hnone, List.append_nil]
            exact shred_recordOrder f h₁ v
          · have hfirst : columnIndices c (shred env f v).1 = [] := by
              rw [columnIndices_eq_nil]
              intro p hp hcol
              exact hc (hcol ▸ List.mem_map_of_mem Prod.fst (shred_column_mem env f v p hp))
            rw [hfirst, List.nil_append]
            split
            · exact groupOrder funcs h₂ (i + 1) valueAt
            · exact RecordOrder.nil

end Order

/-- The leaf closures of a schema's traversal have distinct columns. -/
theorem schemaOf_columns_nodup {env : Reflect.TypeEnv} {fuel : Nat} {t : Reflect.TypeId}
    {s : Schema} (hs : schemaOf env fuel t = .ok s) : (s.traverse.leaves.map Prod.fst).Nodup := by
  have h := schemaOf_traverse hs
  by_cases hroot : s.root.numChildren = 0
  · simp only [makeTraverseFunc, hroot, if_true, pure, Except.pure, Except.ok.injEq] at h
    simp [← h, TraverseFunc.leaves]
  · rw [makeTraverseFunc_leaves h hroot]
    exact List.nodup_range _

/-- The paths of a value that end at column `c`, in order. -/
def Schema.columnPaths (env : Reflect.TypeEnv) (s : Schema) (value : Reflect.Value) (c : Nat) :
    List Path :=
  (s.shred env value).1.filter (·.column == c)

theorem Schema.recordOrder {env : Reflect.TypeEnv} {s : Schema}
    (hnodup : (s.traverse.leaves.map Prod.fst).Nodup) (value : Reflect.Value) (c : Nat) :
    RecordOrder ((s.columnPaths env value c).map Path.indices) := by
  show RecordOrder (columnIndices c (s.shred env value).1)
  simp only [Schema.shred]
  split
  · exact RecordOrder.nil
  · exact shred_recordOrder env c s.traverse hnodup _

/-- With a sink that accepts every call, the calls for a column `c` are those of the paths
of the value that end at `c`: their index paths come in strictly increasing lexicographic
order, and each call's repetition level is, as an `int8`, the largest `t` with `i_t ≥ 1`.
That is 0 for the first call of the column in the record, and between 1 and the number of
Repeated nodes on the path for every later one. -/
theorem repetitionLevel_of_index_path (env : Reflect.TypeEnv) (fuel : Nat) (t : Reflect.TypeId)
    (s : Schema) (hs : schemaOf env fuel t = .ok s) (value : Reflect.Value)
    (traversal : Traversal) (haccept : ∀ made call, traversal made call = none) (c : Nat) :
    ((s.traverseValue env value traversal).run []).2.filter (·.1 == c) =
        (s.columnPaths env value c).map (Path.toCall {}) ∧
      ((s.columnPaths env value c).map Path.indices).Sorted (List.Lex (· < ·)) ∧
      (∀ p ∈ s.columnPaths env value c,
        (p.toCall {}).2.repetitionLevel = Int8.ofNat (lastRepetition p.indices)) ∧
      (∀ p ∈ (s.columnPaths env value c).head?, lastRepetition p.indices = 0) ∧
      (∀ p ∈ (s.columnPaths env value c).tail,
        1 ≤ lastRepetition p.indices ∧ lastRepetition p.indices ≤ p.repeatedCount) := by
  have horder := @Schema.recordOrder env s (schemaOf_columns_nodup hs) value c
  refine ⟨?_, horder.sorted, fun p hp => ?_, fun p hp => ?_, fun p hp => ?_⟩
  · rw [traverseValue_accepting env traversal s value haccept, List.filter_map]
    rfl
  · have hwf := Schema.shred_wellFormed env s value p (List.mem_of_mem_filter hp)
    have hrep : (p.toCall {}).2.repetitionLevel = (({} : Levels).after p.steps).repetitionLevel := by
      simp only [Path.toCall]
    rw [hrep, Levels.repetitionLevel_after hwf.shaped]
    split
    · rename_i h
      rw [Path.indices, h]
      rfl
    · exact Int8.zero_add_ofNat _
  · have := horder.first p.indices (by simpa [List.head?_map] using ⟨p, hp, rfl⟩)
    exact lastRepetition_eq_zero.2 this
  · obtain ⟨i, hi, hne⟩ := horder.later p.indices (by rw [← List.map_tail]; exact List.mem_map_of_mem _ hp)
    refine ⟨Nat.one_le_iff_ne_zero.2 fun h => hne (lastRepetition_eq_zero.1 h i hi),
      p.lastRepetition_le_repeatedCount⟩

theorem firstRecord_repetitionLevels :
    ((recordSchema.traverseValue recordEnv firstRecord fun _ _ => none).run []).2.filter
        (·.1 == 0) = (recordSchema.columnPaths recordEnv firstRecord 0).map (Path.toCall {}) ∧
      ((recordSchema.columnPaths recordEnv firstRecord 0).map Path.indices).Sorted
        (List.Lex (· < ·)) ∧
      (∀ p ∈ recordSchema.columnPaths recordEnv firstRecord 0,
        (p.toCall {}).2.repetitionLevel = Int8.ofNat (lastRepetition p.indices)) ∧
      (∀ p ∈ (recordSchema.columnPaths recordEnv firstRecord 0).head?,
        lastRepetition p.indices = 0) ∧
      (∀ p ∈ (recordSchema.columnPaths recordEnv firstRecord 0).tail,
        1 ≤ lastRepetition p.indices ∧ lastRepetition p.indices ≤ p.repeatedCount) :=
  repetitionLevel_of_index_path recordEnv 3 0 recordSchema rfl firstRecord _ (fun _ _ => rfl) 0

end ParquetGo
