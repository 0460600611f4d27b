import ParquetGo.Paths

/-!
# The traversal refines its paths

`call_refines`: running a compiled closure from any levels on any value, after any calls
already made, is handing the sink the calls of `shred`, in order, and stopping at its first
error; if the sink accepts them all, the run ends with nil or with the panic that stopped the
enumeration.  So the traversal is fail-fast, and everything it reports is decided by the
paths of the value, whatever the sink answers.

## Strategy

`Refines F sh` says that a closure `F` does what the paths `sh` describe.  Each closure of
`Traverse.lean` refines its `shred` helper given that the closure it captured refines its
own (`optionalFunc_refines`, `repeatedFunc_refines`, the loop `repeatedLoop_refines`,
`leafFunc_refines`); `call_refines` puts them together by recursion on the closure, the group's
children by recursion on their list.  Sequencing is `feed_andThen`: the calls of two parts
are fed as the first part's calls and then, if the run goes on, the second's.
-/

namespace ParquetGo

/-! ## Running `TraverseM` -/

namespace TraverseM

@[simp] theorem run_pure {α : Type} (a : α) (calls : List Call) :
    (pure a : TraverseM α).run calls = (.ok a, calls) := rfl

@[simp] theorem run_bind {α β : Type} (x : TraverseM α) (f : α → TraverseM β)
    (calls : List Call) :
    (x >>= f).run calls = match x.run calls with
      | (.ok a, calls) => (f a).run calls
      | (.error e, calls) => (.error e, calls) := by
  simp only [TraverseM.run, ExceptT.run, bind, ExceptT.bind, ExceptT.mk, StateT.run, StateT.bind]
  rcases x calls with ⟨_ | _, _⟩ <;> rfl

@[simp] theorem run_throw {α : Type} (e : String) (calls : List Call) :
    (throw e : TraverseM α).run calls = (.error e, calls) := rfl

end TraverseM

@[simp] theorem run_liftReflect_ok {α : Type} (a : α) (calls : List Call) :
    (liftReflect (.ok a)).run calls = (.ok a, calls) := rfl

@[simp] theorem run_liftReflect_error {α : Type} (e : String) (calls : List Call) :
    (liftReflect (.error e : Except String α)).run calls = (.error e, calls) := rfl

/-! ## Feeding calls -/

section Feed

variable (traversal : Traversal)

theorem feed_append (xs ys : List Call) (ending : Option String) :
    ∀ made, feed traversal made (xs ++ ys) ending =
      (feed traversal made xs none).andThen fun made => feed traversal made ys ending := by
  induction xs with
  | nil => intro made; rfl
  | cons c cs ih =>
      intro made
      simp only [List.cons_append, feed]
      split <;> simp_all [Outcome.andThen]

/-- A run that ends in a panic does not go on. -/
theorem andThen_feed_some (panic : String) (k : List Call → Outcome) :
    ∀ (calls made : List Call),
      (feed traversal made calls (some panic)).andThen k = feed traversal made calls (some panic)
  | [], _ => rfl
  | c :: cs, made => by
      simp only [feed]
      split
      · rfl
      · exact andThen_feed_some panic k cs _

theorem feed_andThen (g : Path → Call) (a b : Paths) (made : List Call) :
    feed traversal made ((a.andThen b).1.map g) (a.andThen b).2 =
      (feed traversal made (a.1.map g) a.2).andThen
        fun made => feed traversal made (b.1.map g) b.2 := by
  rcases a with ⟨ps, _ | panic⟩
  · simp [Paths.andThen, feed_append]
  · simp [Paths.andThen, andThen_feed_some]

theorem feed_singleton (call : Call) (made : List Call) :
    feed traversal made [call] none = (.ok (traversal made call), made ++ [call]) := by
  simp only [feed]
  split <;> simp_all [Paths.ending]

/-- A sink that accepts every call is handed all of them. -/
theorem feed_accepting (haccept : ∀ made call, traversal made call = none) :
    ∀ calls made ending, feed traversal made calls ending = (Paths.ending ending, made ++ calls)
  | [], made, _ => by simp [feed]
  | c :: cs, made, ending => by simp [feed, haccept, feed_accepting haccept cs]

/-- A sink that accepts each call it is handed is handed all of them. -/
theorem feed_none : ∀ (calls made : List Call) (ending : Option String),
    (∀ j (hj : j < calls.length), traversal (made ++ calls.take j) calls[j] = none) →
      feed traversal made calls ending = (Paths.ending ending, made ++ calls)
  | [], _, _, _ => by simp [feed]
  | c :: cs, made, ending, hall => by
      have h₀ : traversal made c = none := by simpa using hall 0 (Nat.succ_pos _)
      simp only [feed, h₀]
      simpa using feed_none cs (made ++ [c]) ending fun j hj => by
        simpa using hall (j + 1) (by simpa using hj)

/-- The sink's first error ends the feeding: it is returned after the call that caused it. -/
theorem feed_first_error {e : String} : ∀ (calls made : List Call) (ending : Option String)
    (k : Nat) (hk : k < calls.length),
    (∀ j (hj : j < k), traversal (made ++ calls.take j) calls[j] = none) →
    traversal (made ++ calls.take k) calls[k] = some e →
      feed traversal made calls ending = (.ok (some e), made ++ calls.take (k + 1))
  | c :: _, made, _, 0, _, _, herr => by simp_all [feed]
  | c :: cs, made, ending, k + 1, hk, hbefore, herr => by
      have h₀ : traversal made c = none := by simpa using hbefore 0 (Nat.succ_pos k)
      simp only [feed, h₀]
      simpa using feed_first_error cs (made ++ [c]) ending k (by simpa using hk)
        (fun j hj => by simpa using hbefore (j + 1) (by omega)) (by simpa using herr)


/-- The calls a run makes were made before it or are among those it was handed. -/
theorem mem_feed {call : Call} :
    ∀ {calls made : List Call} {ending : Option String},
      call ∈ (feed traversal made calls ending).2 → call ∈ made ∨ call ∈ calls
  | [], _, _, h => .inl h
  | c :: cs, made, ending, h => by
      simp only [feed] at h
      split at h
      · simp only [List.mem_append, List.mem_singleton] at h
        rcases h with h | rfl
        · exact .inl h
        · exact .inr (List.mem_cons_self _ _)
      · rcases mem_feed h with h | h
        · simp only [List.mem_append, List.mem_singleton] at h
          rcases h with h | rfl
          · exact .inl h
          · exact .inr (List.mem_cons_self _ _)
        · exact .inr (List.mem_cons_of_mem _ h)

end Feed

/-! ## Each closure refines its paths -/

section Closures

variable (env : Reflect.TypeEnv) (traversal : Traversal)

/-- The closure `F` does what the paths `sh` describe, from any levels and any calls made. -/
def Refines (F : Levels → Reflect.Value → TraverseM (Option String))
    (sh : Reflect.Value → Paths) : Prop :=
  ∀ levels value made, (F levels value).run made =
    feed traversal made ((sh value).1.map (Path.toCall levels)) (sh value).2

theorem leafFunc_refines (column : Nat) (kind : Kind) :
    Refines traversal (leafFunc column kind traversal) fun v => ([⟨column, kind, [], v⟩], none) :=
  fun _ _ made => (feed_singleton traversal _ made).symm

variable {traversal}

theorem optionalFunc_refines {F sh} (hF : Refines traversal F sh) :
    Refines traversal (optionalFunc env F) (shredOptional env sh) := by
  intro levels value made
  rcases value with _ | ⟨t, d⟩
  · simpa [optionalFunc, shredOptional, Paths.within, Levels.step] using hF levels .invalid made
  · simp only [optionalFunc, shredOptional]
    split
    · simpa [Paths.within, Levels.step] using hF levels .invalid made
    · split
      · cases h : (Reflect.Value.valid t d).elem env with
        | error e => simp [liftReflect, feed, Paths.ending]
        | ok v => simpa [liftReflect, Paths.within, Levels.step] using hF _ v made
      · simpa [Paths.within, Levels.step] using hF _ _ made

/-- Once the sink returned an error, the element loop stops. -/
theorem repeatedLoop_some (F : Levels → Reflect.Value → TraverseM (Option String))
    (value : Reflect.Value) (remaining i : Nat) (levels : Levels) (err : String)
    (made : List Call) :
    (repeatedLoop env F value remaining i levels (some err)).run made = (.ok (some err), made) := by
  cases remaining <;> rfl

/-- The element loop, at element `i`, runs at the levels of the step that takes element
`i`. -/
theorem repeatedLoop_refines {F sh} (hF : Refines traversal F sh) (levels : Levels)
    (nonNil : Bool) (value : Reflect.Value) : ∀ remaining i made,
      (repeatedLoop env F value remaining i
          (levels.step (.repeated true nonNil (some i))) none).run made =
        feed traversal made
          ((shredElements env sh nonNil value remaining i).1.map (Path.toCall levels))
          (shredElements env sh nonNil value remaining i).2
  | 0, _, _ => rfl
  | remaining + 1, i, made => by
      simp only [repeatedLoop, shredElements]
      cases value.index env i with
      | error e => simp [liftReflect, feed, Paths.ending]
      | ok elem =>
          have hnext : { levels.step (.repeated true nonNil (some i)) with
              repetitionLevel := (levels.step (.repeated true nonNil (some i))).repetitionDepth } =
              levels.step (.repeated true nonNil (some (i + 1))) := by simp [Levels.step]
          simp only [liftReflect, TraverseM.run_bind, TraverseM.run_pure, feed_andThen,
            Paths.within, Path.toCall_within, hF _ elem made]
          rcases feed traversal made ((sh elem).1.map (Path.toCall _)) (sh elem).2
            with ⟨_ | _ | err, made⟩
          · rfl
          · simp only [Outcome.andThen, hnext]
            exact repeatedLoop_refines hF levels nonNil value remaining (i + 1) made
          · simp [Outcome.andThen, repeatedLoop_some]

theorem repeatedFunc_refines {F sh} (hF : Refines traversal F sh) :
    Refines traversal (repeatedFunc env F) (shredRepeated env sh) := by
  intro levels value made
  rcases value with _ | ⟨t, d⟩
  · simpa [repeatedFunc, shredRepeated, Paths.within, Levels.step] using hF levels .invalid made
  · simp only [repeatedFunc, shredRepeated]
    cases (Reflect.Value.valid t d).len env with
    | error e => simp [liftReflect, feed, Paths.ending]
    | ok n =>
      cases (Reflect.Value.valid t d).isNil env with
      | error e => simp [liftReflect, feed, Paths.ending]
      | ok nil =>
        simp only [liftReflect, TraverseM.run_bind, TraverseM.run_pure]
        rcases n.eq_zero_or_pos with rfl | hn
        · cases nil <;> simpa [Paths.within, Levels.step] using hF _ .invalid made
        · have hloop := fun nonNil =>
            repeatedLoop_refines env hF levels nonNil (.valid t d) n 0 made
          cases nil
          · simpa [hn.ne', Levels.step] using hloop true
          · simpa [hn.ne', Levels.step] using hloop false

variable (traversal)

/-- Every compiled closure does what its paths describe. -/
theorem call_refines : ∀ f : TraverseFunc, Refines traversal (f.call env traversal) (shred env f)
  | .noop => fun _ _ _ => rfl
  | .optional f => optionalFunc_refines env (call_refines f)
  | .repeated f => repeatedFunc_refines env (call_refines f)
  | .group _ funcs => fun levels _ made => callGroup_refines funcs 0 levels _ _ made
  | .leaf column kind => leafFunc_refines traversal column kind
where
  /-- The children of a group, from child `i` on. -/
  callGroup_refines : ∀ (funcs : List TraverseFunc) i levels value valueAt made,
      (TraverseFunc.call.callGroup env traversal funcs i levels value valueAt).run made =
        feed traversal made ((shred.shredGroup env funcs i valueAt).1.map (Path.toCall levels))
          (shred.shredGroup env funcs i valueAt).2
    | [], _, _, _, _, _ => rfl
    | f :: funcs, i, levels, value, valueAt, made => by
        simp only [TraverseFunc.call.callGroup, shred.shredGroup]
        cases valueAt i with
        | error e => simp [liftReflect, feed, Paths.ending]
        | ok v =>
          simp only [liftReflect, TraverseM.run_bind, TraverseM.run_pure, feed_andThen,
            call_refines f levels v made]
          rcases feed traversal made ((shred env f v).1.map (Path.toCall levels)) (shred env f v).2
            with ⟨_ | _ | err, made⟩
          · rfl
          · exact callGroup_refines funcs (i + 1) levels value valueAt made
          · rfl

/-- `Schema.Traverse` hands the sink the calls of the paths of the value, from zero levels,
and stops at its first error. -/
theorem traverseValue_refines (s : Schema) (value : Reflect.Value) (made : List Call) :
    (s.traverseValue env value traversal).run made =
      feed traversal made ((s.shred env value).1.map (Path.toCall {})) (s.shred env value).2 := by
  simp only [Schema.traverseValue, Schema.shred, rootValue]
  split
  · cases hnil : value.isNil env with
    | error e => simp [liftReflect, feed, Paths.ending]
    | ok nil =>
        cases nil
        · cases helem : value.elem env with
          | error e => simp [liftReflect, feed, Paths.ending]
          | ok v => simpa [liftReflect] using
              call_refines env traversal s.traverse {} v made
        · simpa [liftReflect] using
            call_refines env traversal s.traverse {} .invalid made
  · simpa using call_refines env traversal s.traverse {} value made

/-- With a sink that accepts every call, `Schema.Traverse` makes the calls of all the paths
of the value, and ends as their enumeration does. -/
theorem traverseValue_accepting (s : Schema) (value : Reflect.Value)
    (haccept : ∀ made call, traversal made call = none) :
    (s.traverseValue env value traversal).run [] =
      (Paths.ending (s.shred env value).2, (s.shred env value).1.map (Path.toCall {})) := by
  rw [traverseValue_refines, feed_accepting traversal haccept, List.nil_append]

/-- Every call a run of `Schema.Traverse` makes is the call of a path of the value. -/
theorem mem_traverseValue_run {s : Schema} {value : Reflect.Value} {call : Call}
    (hcall : call ∈ ((s.traverseValue env value traversal).run []).2) :
    ∃ path ∈ (s.shred env value).1, call = path.toCall {} := by
  rw [traverseValue_refines] at hcall
  exact List.mem_map.1 ((mem_feed _ hcall).resolve_left (List.not_mem_nil _)) |>.imp
    fun _ h => ⟨h.1, h.2.symm⟩

end Closures

end ParquetGo
