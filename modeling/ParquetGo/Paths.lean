import ParquetGo.Traverse

/-!
# What a traversal is for: the paths of a value

A compiled traversal shreds a value the way Dremel does: every leaf value the value holds is
reached along one path from the root, and the levels the leaf reports are a summary of that
path.  This file states that meaning without closures, sinks or levels in the way.

`shred f v` lists, in order, the paths along which `f` reaches leaves in `v`.  A path records
the Optional and Repeated nodes it went through (`Step`), how the value met each one (present
or not; for a Repeated node, which element was taken) and the value the leaf received.  A
`reflect` panic stops the enumeration; `shred` returns the paths reached before it together
with the panic.

`Levels.after` folds the steps of a path into the levels the traversal keeps, and
`Path.toCall` is the sink call a path stands for.  `feed` hands a list of calls to a sink one
at a time and stops at its first error.  `Proofs/Refinement.lean` shows that running the
compiled closure is `feed` of the calls of `shred`: everything the traversal does is decided
by the paths.
-/

namespace ParquetGo

/-- One Optional or Repeated node on the way from the root to a leaf, as a value met it. -/
inductive Step where
  /-- An Optional node; `present` when its value was valid and not the zero value. -/
  | optional (present : Bool)
  /-- A Repeated node: whether its value was valid, and not nil, and the position of the
  element the path goes on with (`none` when there was no element). -/
  | repeated (valid nonNil : Bool) (index : Option Nat)
  deriving DecidableEq, Repr

/-- A leaf value reached from the root: the leaf's column and kind, the steps on the way, and
the value the leaf received (`invalid` for the zero `Value`). -/
structure Path where
  column : Nat
  kind : Kind
  steps : List Step
  value : Reflect.Value

/-- The paths reached in order, and the panic that stopped the enumeration, if one did. -/
abbrev Paths := List Path × Option String

/-- The paths of a subtree, seen from one node above it. -/
def Paths.within (step : Step) (ps : Paths) : Paths :=
  (ps.1.map fun p => { p with steps := step :: p.steps }, ps.2)

/-- The paths of one part of a value and then of the next; a panic ends the enumeration. -/
def Paths.andThen : Paths → Paths → Paths
  | (ps, none), (qs, panic) => (ps ++ qs, panic)
  | (ps, some panic), _ => (ps, some panic)

theorem Paths.mem_within {p : Path} {s : Step} {ps : Paths} :
    p ∈ (ps.within s).1 ↔ ∃ q ∈ ps.1, p = { q with steps := s :: q.steps } := by
  simp [Paths.within, eq_comm]

theorem Paths.mem_andThen {p : Path} {a b : Paths} (h : p ∈ (a.andThen b).1) : p ∈ a.1 ∨ p ∈ b.1 := by
  rcases a with ⟨ps, _ | _⟩ <;> rcases b with ⟨qs, _⟩ <;> simp_all [Paths.andThen]

@[simp] theorem Paths.columns_within (s : Step) (ps : Paths) :
    (ps.within s).1.map (·.column) = ps.1.map (·.column) := by
  simp [Paths.within, Function.comp_def]

@[simp] theorem Paths.within_panic (s : Step) (ps : Paths) : (ps.within s).2 = ps.2 := rfl

theorem Paths.andThen_fst (a b : Paths) :
    (a.andThen b).1 = a.1 ++ if a.2 = none then b.1 else [] := by
  rcases a with ⟨ps, _ | _⟩ <;> simp [Paths.andThen]

@[simp] theorem Paths.andThen_nil (a : Paths) : a.andThen ([], none) = a := by
  rcases a with ⟨ps, _ | _⟩ <;> simp [Paths.andThen]

theorem Paths.andThen_of_no_panic {a b : Paths} (h : (a.andThen b).2 = none) :
    a.2 = none ∧ b.2 = none ∧ (a.andThen b).1 = a.1 ++ b.1 := by
  rcases a with ⟨ps, _ | _⟩ <;> simp_all [Paths.andThen]

/-! ## Shredding -/

section

variable (env : Reflect.TypeEnv)

/-- The paths through the elements of a sequence, from element `i` on, `remaining` of them. -/
def shredElements (sh : Reflect.Value → Paths) (nonNil : Bool) (value : Reflect.Value) :
    Nat → Nat → Paths
  | 0, _ => ([], none)
  | remaining + 1, i =>
      match value.index env i with
      | .error panic => ([], some panic)
      | .ok elem => ((sh elem).within (.repeated true nonNil (some i))).andThen
          (shredElements sh nonNil value remaining (i + 1))

/-- The paths through an Optional node: a valid non-zero value goes on, dereferenced if it is
a pointer; anything else goes on as the zero `Value`. -/
def shredOptional (sh : Reflect.Value → Paths) : Reflect.Value → Paths
  | .invalid => (sh .invalid).within (.optional false)
  | .valid t d =>
      if d.isZero then (sh .invalid).within (.optional false)
      else
        match if env.kind t = .ptr then (Reflect.Value.valid t d).elem env else .ok (.valid t d)
        with
        | .error panic => ([], some panic)
        | .ok v => (sh v).within (.optional true)

/-- The paths through a Repeated node: one through each element, or one through the zero
`Value` when there is none. -/
def shredRepeated (sh : Reflect.Value → Paths) : Reflect.Value → Paths
  | .invalid => (sh .invalid).within (.repeated false false none)
  | .valid t d =>
      match (Reflect.Value.valid t d).len env with
      | .error panic => ([], some panic)
      | .ok n =>
          match (Reflect.Value.valid t d).isNil env with
          | .error panic => ([], some panic)
          | .ok nil =>
              if n = 0 then (sh .invalid).within (.repeated true (!nil) none)
              else shredElements env sh (!nil) (.valid t d) n 0

/-- The paths along which a compiled traversal reaches leaves in a value. -/
def shred : TraverseFunc → Reflect.Value → Paths
  | .noop, _ => ([], none)
  | .optional f, v => shredOptional env (shred f) v
  | .repeated f, v => shredRepeated env (shred f) v
  | .group c funcs, v => shredGroup funcs 0 fun i => if v.isValid then c.apply env v i else .ok v
  | .leaf column kind, v => ([⟨column, kind, [], v⟩], none)
where
  /-- The paths through the children of a group, from child `i` on. -/
  shredGroup : List TraverseFunc → Nat → (Nat → Except String Reflect.Value) → Paths
    | [], _, _ => ([], none)
    | f :: funcs, i, valueAt =>
        match valueAt i with
        | .error panic => ([], some panic)
        | .ok v => (shred f v).andThen (shredGroup funcs (i + 1) valueAt)

/-- The value `Schema.Traverse` starts from: a pointer is dereferenced, a nil one is the zero
`Value`. -/
def rootValue (value : Reflect.Value) : Except String Reflect.Value :=
  if value.kind env = .ptr then
    match value.isNil env with
    | .error panic => .error panic
    | .ok true => .ok .invalid
    | .ok false => value.elem env
  else .ok value

/-- The paths of a value through a schema's traversal. -/
def Schema.shred (s : Schema) (value : Reflect.Value) : Paths :=
  match rootValue env value with
  | .error panic => ([], some panic)
  | .ok v => ParquetGo.shred env s.traverse v

end

/-! ## Levels -/

/-- The levels after one more step: a present node adds a definition level; a valid
Repeated node deepens the repetition, and an element after the first repeats at that
depth. -/
def Levels.step (levels : Levels) : Step → Levels
  | .optional present =>
      if present then { levels with definitionLevel := levels.definitionLevel + 1 } else levels
  | .repeated valid nonNil index =>
      let depth := if valid then levels.repetitionDepth + 1 else levels.repetitionDepth
      { repetitionDepth := depth
        repetitionLevel := if index.getD 0 = 0 then levels.repetitionLevel else depth
        definitionLevel := if nonNil then levels.definitionLevel + 1 else levels.definitionLevel }

/-- The levels at the end of a path. -/
def Levels.after (levels : Levels) (steps : List Step) : Levels :=
  steps.foldl Levels.step levels

@[simp] theorem Levels.after_nil (levels : Levels) : levels.after [] = levels := rfl

@[simp] theorem Levels.after_cons (levels : Levels) (step : Step) (steps : List Step) :
    levels.after (step :: steps) = (levels.step step).after steps := rfl

/-- The sink call a path stands for, from the levels at its start: the leaf's value, or null
for the zero `Value`, with the levels at its end. -/
def Path.toCall (levels : Levels) (path : Path) : Call :=
  let levels := levels.after path.steps
  let v := if path.value.isValid then makeValue path.kind path.value else Value.null
  (path.column,
    { v with repetitionLevel := levels.repetitionLevel, definitionLevel := levels.definitionLevel })

@[simp] theorem Path.toCall_column (levels : Levels) (path : Path) :
    (path.toCall levels).1 = path.column := rfl

@[simp] theorem Path.toCall_within (levels : Levels) (step : Step) (ps : List Path) :
    (ps.map fun p => { p with steps := step :: p.steps }).map (Path.toCall levels) =
      ps.map (Path.toCall (levels.step step)) := by
  simp [Function.comp_def, Path.toCall]

/-! ## Feeding a sink -/

/-- How a traversal ends once every call was accepted: normally, or with a panic. -/
def Paths.ending : Option String → Except String (Option String)
  | none => .ok none
  | some panic => .error panic

/-- The outcome of a run: its result and the calls made. -/
abbrev Outcome := Except String (Option String) × List Call

/-- Goes on with `k` after a run that ended normally; a sink error or a panic is final. -/
def Outcome.andThen (r : Outcome) (k : List Call → Outcome) : Outcome :=
  match r with
  | (.ok none, made) => k made
  | r => r

/-- Hands `calls` to the sink one at a time after the calls `made`, and stops at the first
error it returns; if it accepts them all, the run ends as `ending` says. -/
def feed (traversal : Traversal) : List Call → List Call → Option String → Outcome
  | made, [], ending => (Paths.ending ending, made)
  | made, call :: calls, ending =>
      match traversal made call with
      | some err => (.ok (some err), made ++ [call])
      | none => feed traversal (made ++ [call]) calls ending

end ParquetGo
