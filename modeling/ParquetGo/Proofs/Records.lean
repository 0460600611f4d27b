import ParquetGo.Proofs.Shapes

/-!
# A nil record, and the order of the two levels

Two properties of every run of `Schema.Traverse`, read off the paths of the value:

* `schemaOf_traverse_nil`: a nil pointer, or the zero `Value`, is traversed without a panic.
  For a schema `SchemaOf` returns, the sink gets `(0, null)`, `(1, null)`, …, `(k - 1, null)`,
  one call per column at levels zero, and the run returns the first error the sink gives, or
  nil.
* `repetitionLevel_le_definitionLevel`: no call is repeated at a level higher than the level it
  is defined at, the invariant of Dremel's encoding, as long as the `int8` levels do not wrap.

## Strategy

The zero `Value` goes down every path as the zero `Value` (`shred_invalid`), and each closure
passes it on unchanged, so its paths are the plan's leaves (`shred_invalid_columns`), every
step is blank and leaves the levels as they are (`Levels.after_of_blank`).  For the levels, a
step that takes an element of a sequence lets the value pass, so it is present: a well-formed
path has at most as many indices as present steps (`Shaped.length_indices_le`).
-/

namespace ParquetGo

open Reflect (TypeEnv TypeId)

/-! ## The zero `Value` -/

theorem Levels.step_of_blank (levels : Levels) {s : Step} (h : s.blank) :
    levels.step s = levels := by
  rcases s with (_ | _) | ⟨(_ | _), (_ | _), (_ | _)⟩ <;> simp_all [Step.blank, Levels.step]

/-- Blank steps leave the levels as they are. -/
theorem Levels.after_of_blank (levels : Levels) :
    ∀ {steps : List Step}, (∀ s ∈ steps, s.blank) → levels.after steps = levels
  | [], _ => rfl
  | s :: steps, h => by
    rw [Levels.after_cons, levels.step_of_blank (h s (List.mem_cons_self _ _)),
      levels.after_of_blank fun s' hs' => h s' (List.mem_cons_of_mem _ hs')]

/-- The zero `Value` reaches a leaf as a null at the levels it started from. -/
theorem Path.toCall_of_blank {p : Path} (hp : p.Blank) :
    p.toCall {} = (p.column, Value.null) := by
  simp only [Path.toCall, Levels.after_of_blank _ hp.1, hp.2]
  rfl

section
variable (env : TypeEnv)

/-- The zero `Value` reaches every leaf closure of the plan once, in order, and never panics. -/
theorem shred_invalid_columns : ∀ f : TraverseFunc,
    (shred env f .invalid).1.map (fun p => (p.column, p.kind)) = f.leaves ∧
      (shred env f .invalid).2 = none
  | .noop => ⟨rfl, rfl⟩
  | .optional f | .repeated f => by
    simpa [shred, shredOptional, shredRepeated, Paths.within, TraverseFunc.leaves] using
      shred_invalid_columns f
  | .group _ funcs => groupColumns funcs 0 _ fun _ => rfl
  | .leaf _ _ => ⟨rfl, rfl⟩
where
  groupColumns : ∀ funcs i valueAt, (∀ j, valueAt j = .ok .invalid) →
      (shred.shredGroup env funcs i valueAt).1.map (fun p => (p.column, p.kind)) =
        TraverseFunc.leaves.leavesList funcs ∧ (shred.shredGroup env funcs i valueAt).2 = none
    | [], _, _, _ => ⟨rfl, rfl⟩
    | f :: funcs, i, valueAt, hvalueAt => by
      obtain ⟨hf, hfp⟩ := shred_invalid_columns f
      obtain ⟨hrest, hrestp⟩ := groupColumns funcs (i + 1) valueAt hvalueAt
      simp only [shred.shredGroup, hvalueAt, TraverseFunc.leaves.leavesList]
      generalize shred env f .invalid = a at hf hfp ⊢
      generalize shred.shredGroup env funcs (i + 1) valueAt = b at hrest hrestp ⊢
      obtain ⟨ps, p⟩ := a
      obtain ⟨qs, q⟩ := b
      simp only at hfp hrestp
      subst hfp hrestp
      exact ⟨by simp [Paths.andThen, hf, hrest], rfl⟩

/-- `Schema.Traverse` on a nil pointer, or on the zero `Value`, hands the sink a null for each
leaf closure of the plan, in order, at levels zero, and returns the first error the sink
gives; it never panics. -/
theorem traverseValue_nil (s : Schema) {value : Reflect.Value}
    (hnil : value = .invalid ∨ (value.kind env = .ptr ∧ value.isNil env = .ok true))
    (traversal : Traversal) (made : List Call) :
    (s.traverseValue env value traversal).run made =
      feed traversal made (s.traverse.leaves.map fun l => (l.1, Value.null)) none := by
  have hroot : rootValue env value = .ok .invalid := by
    rcases hnil with rfl | ⟨hptr, hisnil⟩
    · rfl
    · simp [rootValue, hptr, hisnil]
  obtain ⟨hcolumns, hpanic⟩ := shred_invalid_columns env s.traverse
  rw [traverseValue_refines]
  simp only [Schema.shred, hroot, hpanic]
  rw [← hcolumns, List.map_map]
  exact congrArg (feed traversal made · none) (List.map_congr_left fun p hp =>
    Path.toCall_of_blank (shred_invalid env s.traverse p hp))

end

/-- The leaf closures of a schema `SchemaOf` returns emit under `0, 1, …, k - 1`. -/
theorem schemaOf_columns {env : TypeEnv} {fuel : Nat} {t : TypeId} {s : Schema}
    (hs : schemaOf env fuel t = .ok s) :
    s.traverse.leaves.map Prod.fst = List.range s.traverse.leaves.length := by
  have h := schemaOf_traverse hs
  by_cases hroot : s.root.numChildren = 0
  · simp only [makeTraverseFunc, hroot, if_true, pure, Except.pure, Except.ok.injEq] at h
    simp [← h, TraverseFunc.leaves]
  · have hcols := makeTraverseFunc_leaves h hroot
    rw [hcols, ← List.length_map s.traverse.leaves Prod.fst, hcols, List.length_range]

/-- For every schema `SchemaOf` returns, `Schema.Traverse` on a nil pointer, or on the zero
`Value`, calls the sink with a null for each column `0, 1, …, k - 1` in turn, at levels zero,
and returns the first error the sink gives, or nil; it never panics. -/
theorem schemaOf_traverse_nil {env : TypeEnv} {fuel : Nat} {t : TypeId} {s : Schema}
    (hs : schemaOf env fuel t = .ok s) {value : Reflect.Value}
    (hnil : value = .invalid ∨ (value.kind env = .ptr ∧ value.isNil env = .ok true))
    (traversal : Traversal) (made : List Call) :
    (s.traverseValue env value traversal).run made =
      feed traversal made ((List.range s.traverse.leaves.length).map fun c => (c, Value.null))
        none := by
  rw [traverseValue_nil env s hnil, ← schemaOf_columns hs, List.map_map]
  rfl

/-- `record` (of `TestWriteAndReadOptionalList`) has one column: a nil `*record` gives one
null. -/
theorem nil_record_one_null :
    schemaOf recordEnv 3 0 = .ok recordSchema ∧
      ((recordSchema.traverseValue recordEnv .invalid fun _ _ => none).run [] =
        feed (fun _ _ => none) [] ((List.range recordSchema.traverse.leaves.length).map
          fun c => (c, Value.null)) none) ∧
      feed (fun _ _ => none) [] ((List.range recordSchema.traverse.leaves.length).map
          fun c => (c, Value.null)) none = (.ok none, [(0, Value.null)]) :=
  ⟨schemaOf_record, schemaOf_traverse_nil schemaOf_record (.inl rfl) _ [], rfl⟩

/-! ## Repetition never exceeds definition -/

theorem Int8.ofNat_le_ofNat {a b : Nat} (hab : a ≤ b) (hb : b < 128) :
    Int8.ofNat a ≤ Int8.ofNat b := by
  show BitVec.sle (BitVec.ofNat 8 a) (BitVec.ofNat 8 b) = true
  simp only [BitVec.sle, BitVec.toInt_eq_toNat_cond, BitVec.toNat_ofNat, decide_eq_true_eq]
  split_ifs <;> omega

/-- A step that takes an element lets the value pass, so it is present: a well-formed path has
at most as many indices as present steps. -/
theorem Shaped.length_indices_le {steps : List Step} (h : Shaped steps) :
    (steps.filterMap Step.index).length ≤ steps.countP Step.present := by
  induction h with
  | nil => simp
  | @pass s rest hs _ ih =>
    rcases s with (_ | _) | ⟨_, _, (_ | _)⟩ <;>
      simp_all [Step.passes, Step.present, Step.index, List.filterMap_cons, List.countP_cons]
    all_goals omega
  | @cut s rest hs hblank =>
    have hindex : rest.filterMap Step.index = [] := (Levels.after_blank {} hblank).2
    have hs' : s.index = none := by
      rcases s with (_ | _) | ⟨_, _, (_ | _)⟩ <;> simp_all [Step.cut, Step.index]
    simp [List.filterMap_cons, hs', hindex]

/-- Every call a run of `Schema.Traverse` makes is repeated at a level no higher than the
level it is defined at, both counted before the `int8` store; as `int8`s too, when no column
has 128 Optional and Repeated closures on its way. -/
theorem repetitionLevel_le_definitionLevel (env : TypeEnv) (s : Schema) (value : Reflect.Value)
    (traversal : Traversal) (hdepth : ∀ cs ∈ s.traverse.cardinalities, cs.length < 128) :
    ∀ call ∈ ((s.traverseValue env value traversal).run []).2,
      call.2.repetitionLevel ≤ call.2.definitionLevel := by
  intro call hcall
  obtain ⟨path, hpath, rfl⟩ := mem_traverseValue_run env traversal hcall
  have hwf := Schema.shred_wellFormed env s value path hpath
  have hcards : path.steps.map Step.cardinality ∈ s.traverse.cardinalities := by
    simp only [Schema.shred] at hpath
    split at hpath
    · simp at hpath
    · exact shred_cardinalities env s.traverse _ path hpath
  have hlen : path.steps.countP Step.present < 128 :=
    lt_of_le_of_lt (List.countP_le_length _) (by simpa using hdepth _ hcards)
  have hrep : lastRepetition path.indices ≤ path.steps.countP Step.present :=
    (lastRepetition_le_length _).trans hwf.shaped.length_indices_le
  have hlevel : (({} : Levels).after path.steps).repetitionLevel =
      Int8.ofNat (lastRepetition path.indices) := by
    rw [Levels.repetitionLevel_after hwf.shaped]
    split
    · rename_i h
      simp only [Path.indices] at *
      rw [h]
      rfl
    · exact Int8.zero_add_ofNat _
  simp only [Path.toCall, hlevel, Levels.definitionLevel_after, Int8.zero_add_ofNat]
  exact Int8.ofNat_le_ofNat hrep hlen

/-- The first record of `TestWriteAndReadOptionalList`, `{Values: []float64{1, 2, 3}}`: its
three calls are defined at level 2 and repeated at levels 0, 1 and 1. -/
theorem first_record_levels_ordered :
    (∀ cs ∈ recordSchema.traverse.cardinalities, cs.length < 128) ∧
      ∀ call ∈ ((recordSchema.traverseValue recordEnv firstRecord fun _ _ => none).run []).2,
        call.2.repetitionLevel ≤ call.2.definitionLevel :=
  ⟨by decide, repetitionLevel_le_definitionLevel recordEnv recordSchema firstRecord _ (by decide)⟩

end ParquetGo
