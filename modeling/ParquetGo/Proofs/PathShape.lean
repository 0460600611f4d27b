import ParquetGo.Proofs.Refinement

/-!
# The shape of a path

How a value goes down a path of a compiled traversal: it passes every Optional and Repeated
node up to the first one that stops it, an absent Optional node or a Repeated node without
an element; after that every node meets the zero `Value`, and so does the leaf
(`Path.WellFormed`).  A Repeated node that hands an element on has a valid, non-nil sequence.
Every path of every traversal has that shape (`shred_wellFormed`).

## Strategy

The zero `Value` goes down every path as the zero `Value` (`shred_invalid`).  From that, each
`shred` helper keeps well-formedness: a step that lets the value pass is put in front of a
well-formed path, a step that stops it in front of a path of the zero `Value`.
-/

namespace ParquetGo

/-! ## Steps -/

namespace Step

/-- The node counts for the definition level: an Optional node with a valid non-zero value, a
Repeated node with a valid non-nil sequence, an empty one included. -/
def present : Step → Bool
  | optional present => present
  | repeated _ nonNil _ => nonNil

/-- The value goes no further than this node: an absent Optional node, or a Repeated node
without an element. -/
def cut : Step → Bool
  | optional present => !present
  | repeated _ _ index => index.isNone

/-- The value goes on through this node: a present Optional node, or an element of a valid
non-nil sequence. -/
def passes : Step → Bool
  | optional present => present
  | repeated valid nonNil index => valid && nonNil && index.isSome

/-- The node met the zero `Value`. -/
def blank : Step → Bool
  | optional present => !present
  | repeated valid nonNil index => !valid && !nonNil && index.isNone

theorem present_of_passes {s : Step} (h : s.passes) : s.present := by
  cases s <;> simp_all [passes, present]

theorem not_cut_of_passes {s : Step} (h : s.passes) : s.cut = false := by
  rcases s with _ | ⟨_, _, _ | _⟩ <;> simp_all [passes, cut]

end Step

/-! ## Well-formed paths -/

/-- The steps of a path as a value goes down it: it passes every step up to the first cut,
and after that every node meets the zero `Value`. -/
inductive Shaped : List Step → Prop
  | nil : Shaped []
  | pass {s rest} : s.passes → Shaped rest → Shaped (s :: rest)
  | cut {s rest} : s.cut → (∀ s' ∈ rest, s'.blank) → Shaped (s :: rest)

/-- What every path of a traversal satisfies. -/
structure Path.WellFormed (p : Path) : Prop where
  shaped : Shaped p.steps
  null_of_cut : ∀ s ∈ p.steps, s.cut → p.value = .invalid

/-- A value with elements is not nil. -/
theorem Reflect.Value.isNil_false_of_len_pos {env : Reflect.TypeEnv} {v : Reflect.Value} {n : Nat}
    {nil : Bool} (hlen : v.len env = .ok n) (hn : 0 < n) (hnil : v.isNil env = .ok nil) :
    nil = false := by
  rcases v with _ | ⟨t, _ | _ | _ | _ | _ | _ | _ | (_ | _) | _ | _ | (_ | _) | _⟩ <;>
    simp_all [Reflect.Value.len, Reflect.Value.isNil]


/-- A path the zero `Value` went down: every node met it, and so did the leaf. -/
def Path.Blank (p : Path) : Prop := (∀ s ∈ p.steps, s.blank) ∧ p.value = .invalid

theorem Path.wellFormed_cut {p : Path} {s : Step} (hs : s.cut) (hp : p.Blank) :
    ({ p with steps := s :: p.steps } : Path).WellFormed :=
  ⟨.cut hs hp.1, fun _ _ _ => hp.2⟩

theorem Path.wellFormed_pass {p : Path} {s : Step} (hs : s.passes) (hp : p.WellFormed) :
    ({ p with steps := s :: p.steps } : Path).WellFormed := by
  refine ⟨.pass hs hp.shaped, fun s' hs' hcut => ?_⟩
  rcases List.mem_cons.1 hs' with rfl | hs'
  · simp [Step.not_cut_of_passes hs] at hcut
  · exact hp.null_of_cut s' hs' hcut

theorem Path.blank_within {p : Path} {s : Step} (hs : s.blank) (hp : p.Blank) :
    ({ p with steps := s :: p.steps } : Path).Blank := by
  refine ⟨fun s' hs' => ?_, hp.2⟩
  rcases List.mem_cons.1 hs' with rfl | hs'
  · exact hs
  · exact hp.1 s' hs'

section
variable (env : Reflect.TypeEnv)

/-- The zero `Value` goes down every path as the zero `Value`. -/
theorem shred_invalid : ∀ f : TraverseFunc, ∀ p ∈ (shred env f .invalid).1, p.Blank
  | .noop => by simp [shred]
  | .optional f => by
      intro p hp
      obtain ⟨q, hq, rfl⟩ := Paths.mem_within.1 hp
      exact Path.blank_within rfl (shred_invalid f q hq)
  | .repeated f => by
      intro p hp
      obtain ⟨q, hq, rfl⟩ := Paths.mem_within.1 hp
      exact Path.blank_within rfl (shred_invalid f q hq)
  | .group _ funcs => groupInvalid funcs 0 _ fun _ => rfl
  | .leaf _ _ => by simp [shred, Path.Blank]
where
  groupInvalid : ∀ funcs i valueAt, (∀ j, valueAt j = .ok .invalid) →
      ∀ p ∈ (shred.shredGroup env funcs i valueAt).1, p.Blank
    | [], _, _, _ => by simp [shred.shredGroup]
    | f :: funcs, i, valueAt, hvalueAt => by
        intro p hp
        simp only [shred.shredGroup, hvalueAt] at hp
        rcases Paths.mem_andThen hp with hp | hp
        · exact shred_invalid f p hp
        · exact groupInvalid funcs (i + 1) valueAt hvalueAt p hp

section Shapes

variable {sh : Reflect.Value → Paths} (hsh : ∀ v, ∀ p ∈ (sh v).1, p.WellFormed)
  (hblank : ∀ p ∈ (sh .invalid).1, p.Blank)
include hsh hblank

theorem shredOptional_wellFormed : ∀ v, ∀ p ∈ (shredOptional env sh v).1, p.WellFormed
  | .invalid => by
      intro p hp
      obtain ⟨q, hq, rfl⟩ := Paths.mem_within.1 hp
      exact Path.wellFormed_cut rfl (hblank q hq)
  | .valid t d => by
      intro p hp
      simp only [shredOptional] at hp
      split at hp
      · obtain ⟨q, hq, rfl⟩ := Paths.mem_within.1 hp
        exact Path.wellFormed_cut rfl (hblank q hq)
      · split at hp
        · simp at hp
        · obtain ⟨q, hq, rfl⟩ := Paths.mem_within.1 hp
          exact Path.wellFormed_pass rfl (hsh _ q hq)

omit hblank in
theorem shredElements_wellFormed (value : Reflect.Value) :
    ∀ remaining i, ∀ p ∈ (shredElements env sh true value remaining i).1, p.WellFormed
  | 0, _ => by simp [shredElements]
  | remaining + 1, i => by
      intro p hp
      simp only [shredElements] at hp
      split at hp
      · simp at hp
      · rcases Paths.mem_andThen hp with hp | hp
        · obtain ⟨q, hq, rfl⟩ := Paths.mem_within.1 hp
          exact Path.wellFormed_pass (by simp [Step.passes]) (hsh _ q hq)
        · exact shredElements_wellFormed value remaining (i + 1) p hp

theorem shredRepeated_wellFormed : ∀ v, ∀ p ∈ (shredRepeated env sh v).1, p.WellFormed
  | .invalid => by
      intro p hp
      obtain ⟨q, hq, rfl⟩ := Paths.mem_within.1 hp
      exact Path.wellFormed_cut rfl (hblank q hq)
  | .valid t d => by
      intro p hp
      simp only [shredRepeated] at hp
      split at hp
      · simp at hp
      · rename_i n hlen
        split at hp
        · simp at hp
        · rename_i nil hnil
          split at hp
          · obtain ⟨q, hq, rfl⟩ := Paths.mem_within.1 hp
            exact Path.wellFormed_cut rfl (hblank q hq)
          · rename_i hn
            have hnil := Reflect.Value.isNil_false_of_len_pos hlen (Nat.pos_of_ne_zero hn) hnil
            subst hnil
            exact shredElements_wellFormed env hsh _ n 0 p hp

end Shapes

/-- Every path of a traversal is well formed. -/
theorem shred_wellFormed : ∀ (f : TraverseFunc) v, ∀ p ∈ (shred env f v).1, p.WellFormed
  | .noop, _ => by simp [shred]
  | .optional f, v => shredOptional_wellFormed env (shred_wellFormed f) (shred_invalid env f) v
  | .repeated f, v => shredRepeated_wellFormed env (shred_wellFormed f) (shred_invalid env f) v
  | .group _ funcs, _ => groupWellFormed funcs 0 _
  | .leaf _ _, _ => by simp [shred]; exact ⟨.nil, by simp⟩
where
  groupWellFormed : ∀ funcs i valueAt, ∀ p ∈ (shred.shredGroup env funcs i valueAt).1, p.WellFormed
    | [], _, _ => by simp [shred.shredGroup]
    | f :: funcs, i, valueAt => by
        intro p hp
        simp only [shred.shredGroup] at hp
        split at hp
        · simp at hp
        · rcases Paths.mem_andThen hp with hp | hp
          · exact shred_wellFormed f _ p hp
          · exact groupWellFormed funcs (i + 1) valueAt p hp

end

@[simp] theorem Path.toCall_isNull (levels : Levels) (p : Path) :
    (p.toCall levels).2.isNull = !p.value.isValid := by
  simp only [Path.toCall]
  split <;> simp_all [Value.isNull, makeValue, Value.null]

theorem Schema.shred_wellFormed (env : Reflect.TypeEnv) (s : Schema) (value : Reflect.Value) :
    ∀ p ∈ (s.shred env value).1, p.WellFormed := by
  simp only [Schema.shred]
  split
  · simp
  · exact ParquetGo.shred_wellFormed env s.traverse _

theorem Shaped.passes_of_not_cut : ∀ {steps : List Step}, Shaped steps →
    (∀ s ∈ steps, s.cut = false) → ∀ s ∈ steps, s.passes
  | _, .nil, _ => by simp
  | _, .pass hs hrest, hcut => by
      intro s' hs'
      rcases List.mem_cons.1 hs' with rfl | hs'
      · exact hs
      · exact hrest.passes_of_not_cut (fun s hs => hcut s (List.mem_cons_of_mem _ hs)) s' hs'
  | _, .cut hs _, hcut => by simp [hcut _ (List.mem_cons_self _ _)] at hs

end ParquetGo
