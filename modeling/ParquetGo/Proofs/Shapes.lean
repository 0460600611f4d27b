import ParquetGo.Proofs.Levels
import ParquetGo.Proofs.Names

/-!
# The shapes a compiled traversal peels

`nodeOf` turns every pointer into an `Optional` node and every slice into a `Repeated` one, so
`*[]S` becomes `Optional(Repeated(S))`.  `traverseFuncOf` compiles an Optional or Repeated node
by compiling `Required(node)` beneath its closure, and a `Required` decoration answers
`Optional()` and `Repeated()` for the whole stack it wraps: the cardinality of the node under
the outer one is no longer seen, unless it is a `LIST`.  So the plan of a `*[]S` field peels
the pointer and hands the slice to the group closure of `S`.

The plan's cardinalities (`TraverseFunc.cardinalities`) are the Optional and Repeated closures
on the way to each leaf closure; the schema tree's (`Node.cardinalities`) are the nodes on the
way to each leaf through `ChildNames`/`ChildByName`, as `Optional()` and `Repeated()` report
them.  Every path of a value follows one of the plan's (`shred_cardinalities`), so the plan
bounds the levels a run can emit.

Whatever the sink, a run makes the calls of the run with a sink that accepts everything until
the sink's first error, which it returns at once (`traverseValue_fails_fast`); a panic of the
accepting run is the only way a run with a sink that never fails does not return nil.

## Strategy

`shred_cardinalities` is by induction on the plan, with the custom eliminator
`TraverseFunc.induction` that gives the group case a hypothesis for every child.  The three
programs at the end are computed by `rfl`.
-/

namespace ParquetGo

open Reflect (TypeEnv TypeId TypeDesc StructField)

/-! ## Cardinalities -/

/-- An Optional or a Repeated node on the way to a leaf. -/
inductive Cardinality where
  | optional
  | repeated
  deriving DecidableEq, Repr

/-- The cardinality of the node a step went through. -/
def Step.cardinality : Step → Cardinality
  | .optional _ => .optional
  | .repeated _ _ _ => .repeated

/-- The cardinality a node reports through `Optional()` and `Repeated()`, if any. -/
def Node.ownCardinality (n : Node) : List Cardinality :=
  if n.optional then [.optional] else if n.repeated then [.repeated] else []

/-- Modelled from the spec: the Optional and Repeated nodes on the way from `n`, itself
included, to each of its leaves, depth first through `ChildNames` and `ChildByName`. -/
def Node.cardinalities (n : Node) : List (List Cardinality) :=
  if n.numChildren = 0 then [n.ownCardinality]
  else n.childNames.flatMap fun name =>
    match _h : n.childByName name with
    | .ok child => child.cardinalities.map (n.ownCardinality ++ ·)
    | .error _ => []
termination_by n.size
decreasing_by exact Node.size_lt_of_childByName _h

/-- The cardinalities of the leaves under one child of a node, from the node on. -/
def Node.childCardinalities (n : Node) (name : String) : List (List Cardinality) :=
  match n.childByName name with
  | .ok child => child.cardinalities.map (n.ownCardinality ++ ·)
  | .error _ => []

theorem Node.cardinalities_eq (n : Node) : n.cardinalities =
    if n.numChildren = 0 then [n.ownCardinality]
    else n.childNames.flatMap n.childCardinalities := by
  rw [Node.cardinalities]
  congr 1
  refine congrArg _ (funext fun name => ?_)
  simp only [Node.childCardinalities]
  split <;> simp_all

namespace TraverseFunc

/-- The Optional and Repeated closures on the way to each leaf closure, depth first. -/
def cardinalities : TraverseFunc → List (List Cardinality)
  | noop => []
  | optional f => f.cardinalities.map (.optional :: ·)
  | repeated f => f.cardinalities.map (.repeated :: ·)
  | group _ funcs => cardinalitiesList funcs
  | leaf _ _ => [[]]
where
  /-- The cardinalities of the children of a group. -/
  cardinalitiesList : List TraverseFunc → List (List Cardinality)
    | [] => []
    | f :: funcs => f.cardinalities ++ cardinalitiesList funcs

theorem mem_cardinalitiesList {c : List Cardinality} :
    ∀ {funcs : List TraverseFunc} {f : TraverseFunc}, f ∈ funcs → c ∈ f.cardinalities →
      c ∈ cardinalities.cardinalitiesList funcs
  | g :: funcs, f, hf, hc => by
      rcases List.mem_cons.1 hf with rfl | hf
      · exact List.mem_append_left _ hc
      · exact List.mem_append_right _ (mem_cardinalitiesList hf hc)

/-- Induction on a plan, with a hypothesis for every child of a group. -/
@[induction_eliminator]
theorem induction {motive : TraverseFunc → Prop} (noop : motive noop)
    (optional : ∀ f, motive f → motive (optional f))
    (repeated : ∀ f, motive f → motive (repeated f))
    (group : ∀ c funcs, (∀ f ∈ funcs, motive f) → motive (group c funcs))
    (leaf : ∀ column kind, motive (leaf column kind)) : ∀ f, motive f
  | .noop => noop
  | .optional f => optional f (induction noop optional repeated group leaf f)
  | .repeated f => repeated f (induction noop optional repeated group leaf f)
  | .group c funcs => group c funcs (children funcs)
  | .leaf column kind => leaf column kind
where
  /-- The hypothesis for the children of a group. -/
  children : ∀ funcs : List TraverseFunc, ∀ f ∈ funcs, motive f
    | g :: funcs, f, hf => by
        rcases List.mem_cons.1 hf with rfl | hf
        · exact induction noop optional repeated group leaf f
        · exact children funcs f hf

end TraverseFunc

/-! ## Paths follow the plan -/

section
variable (env : TypeEnv)

theorem mem_shredGroup {p : Path} : ∀ {funcs : List TraverseFunc} {i : Nat}
    {valueAt : Nat → Except String Reflect.Value}, p ∈ (shred.shredGroup env funcs i valueAt).1 →
      ∃ f ∈ funcs, ∃ v, p ∈ (shred env f v).1
  | f :: funcs, i, valueAt, hp => by
      simp only [shred.shredGroup] at hp
      split at hp
      · simp at hp
      · rcases Paths.mem_andThen hp with hp | hp
        · exact ⟨f, List.mem_cons_self _ _, _, hp⟩
        · obtain ⟨g, hg, v, hp⟩ := mem_shredGroup hp
          exact ⟨g, List.mem_cons_of_mem _ hg, v, hp⟩

theorem mem_shredElements {sh : Reflect.Value → Paths} {nonNil : Bool} {value : Reflect.Value}
    {p : Path} : ∀ {remaining i : Nat}, p ∈ (shredElements env sh nonNil value remaining i).1 →
      ∃ index v, ∃ q ∈ (sh v).1, p = { q with steps := .repeated true nonNil index :: q.steps }
  | remaining + 1, i, hp => by
      simp only [shredElements] at hp
      split at hp
      · simp at hp
      · rcases Paths.mem_andThen hp with hp | hp
        · obtain ⟨q, hq, rfl⟩ := Paths.mem_within.1 hp
          exact ⟨_, _, q, hq, rfl⟩
        · exact mem_shredElements hp

theorem mem_shredOptional {sh : Reflect.Value → Paths} {v : Reflect.Value} {p : Path}
    (hp : p ∈ (shredOptional env sh v).1) :
    ∃ present w, ∃ q ∈ (sh w).1, p = { q with steps := .optional present :: q.steps } := by
  rcases v with _ | ⟨t, d⟩
  · obtain ⟨q, hq, rfl⟩ := Paths.mem_within.1 hp
    exact ⟨_, _, q, hq, rfl⟩
  · simp only [shredOptional] at hp
    split at hp
    · obtain ⟨q, hq, rfl⟩ := Paths.mem_within.1 hp
      exact ⟨_, _, q, hq, rfl⟩
    · split at hp
      · simp at hp
      · obtain ⟨q, hq, rfl⟩ := Paths.mem_within.1 hp
        exact ⟨_, _, q, hq, rfl⟩

theorem mem_shredRepeated {sh : Reflect.Value → Paths} {v : Reflect.Value} {p : Path}
    (hp : p ∈ (shredRepeated env sh v).1) :
    ∃ valid nonNil index w, ∃ q ∈ (sh w).1,
      p = { q with steps := .repeated valid nonNil index :: q.steps } := by
  rcases v with _ | ⟨t, d⟩
  · obtain ⟨q, hq, rfl⟩ := Paths.mem_within.1 hp
    exact ⟨_, _, _, _, q, hq, rfl⟩
  · simp only [shredRepeated] at hp
    split at hp
    · simp at hp
    · split at hp
      · simp at hp
      · split at hp
        · obtain ⟨q, hq, rfl⟩ := Paths.mem_within.1 hp
          exact ⟨_, _, _, _, q, hq, rfl⟩
        · obtain ⟨index, w, q, hq, rfl⟩ := mem_shredElements env hp
          exact ⟨_, _, _, _, q, hq, rfl⟩

/-- Every path of a value goes through the Optional and Repeated closures on the way to one
of the plan's leaves, in order. -/
theorem shred_cardinalities (f : TraverseFunc) :
    ∀ v, ∀ p ∈ (shred env f v).1, p.steps.map Step.cardinality ∈ f.cardinalities := by
  induction f with
  | noop => simp [shred]
  | optional f ih =>
      intro v p hp
      obtain ⟨present, w, q, hq, rfl⟩ := mem_shredOptional env hp
      exact List.mem_map_of_mem _ (ih w q hq)
  | repeated f ih =>
      intro v p hp
      obtain ⟨valid, nonNil, index, w, q, hq, rfl⟩ := mem_shredRepeated env hp
      exact List.mem_map_of_mem _ (ih w q hq)
  | group c funcs ih =>
      intro v p hp
      obtain ⟨g, hg, w, hp⟩ := mem_shredGroup env hp
      exact TraverseFunc.mem_cardinalitiesList hg (ih g hg w p hp)
  | leaf column kind => simp [shred, TraverseFunc.cardinalities]

/-- A run's calls are at definition levels no higher than the number of Optional and
Repeated closures on the way to one of the plan's leaves. -/
theorem definitionLevel_le_cardinalities (s : Schema) (value : Reflect.Value)
    (traversal : Traversal) : ∀ call ∈ ((s.traverseValue env value traversal).run []).2,
      ∃ cs ∈ s.traverse.cardinalities, ∃ k ≤ cs.length,
        call.2.definitionLevel = Int8.ofNat k := by
  intro call hcall
  obtain ⟨path, hpath, rfl⟩ := mem_traverseValue_run env traversal hcall
  have hcards : path.steps.map Step.cardinality ∈ s.traverse.cardinalities := by
    simp only [Schema.shred] at hpath
    split at hpath
    · simp at hpath
    · exact shred_cardinalities env s.traverse _ path hpath
  refine ⟨_, hcards, path.steps.countP Step.present, ?_, ?_⟩
  · simpa using List.countP_le_length _
  · simp [Path.toCall, Levels.definitionLevel_after, Int8.zero_add_ofNat]

end

/-! ## Three programs -/

/-- The types of a program with `type S struct { X int64 }`,
`type Single struct { F *[]S }`, `type Pair struct { A int64; F *[]S }` and
``type Tags struct { Values []*int64 `parquet:"values,list"` }``. -/
def shapesDesc : TypeId → TypeDesc
  | 0 => { kind := .struct, name := "S", string := "main.S", fields := [plainField "X" 1 0] }
  | 1 => { kind := .int64, name := "int64", string := "int64" }
  | 2 => { kind := .slice, name := "", string := "[]main.S", elem := 0 }
  | 3 => { kind := .ptr, name := "", string := "*[]main.S", elem := 2 }
  | 4 => { kind := .struct, name := "Single", string := "main.Single",
           fields := [plainField "F" 3 0] }
  | 5 => { kind := .struct, name := "Pair", string := "main.Pair",
           fields := [plainField "A" 1 0, plainField "F" 3 1] }
  | 6 => { kind := .ptr, name := "", string := "*int64", elem := 1 }
  | 7 => { kind := .slice, name := "", string := "[]*int64", elem := 6 }
  | 8 => { kind := .struct, name := "Tags", string := "main.Tags",
           fields := [{ plainField "Values" 7 0 with tag := ⟨[("parquet", "values,list")]⟩ }] }
  | _ => { kind := .invalid, name := "", string := "" }

/-- The program; `deprecated.Int96` is type 9, which nothing refers to. -/
def shapesEnv : TypeEnv where
  desc := shapesDesc
  int96 := 9
  depth t := if t = 0 ∨ t = 4 ∨ t = 5 ∨ t = 8 then 1 else 0
  depth_field := by
    intro t f hf
    rcases t with _ | _ | _ | _ | _ | _ | _ | _ | _ | t <;> simp_all [shapesDesc, plainField]
    rcases hf with rfl | rfl <;> simp

/-- The node of `S`. -/
def sNode : Node := .structNode [(int64Field, [0])] ["X"]

/-- The node of a field `F *[]S`: `Optional(Repeated(S))`. -/
def pointerToSliceField : Node := encoded (compressed (optional (repeated sNode)) []) []

/-- The plan `traverseFuncOf` compiles for `F *[]S` from column `c`: an Optional closure
around the group of `S`, with no Repeated closure. -/
def pointerToSlicePlan (c : Nat) : TraverseFunc :=
  .optional (.group (.byIndex [(int64Field, [0])] ["X"]) [.leaf c .int64])

/-- The schema of `Single`. -/
def singleSchema : Schema where
  name := "Single"
  root := .structNode [(pointerToSliceField, [0])] ["F"]
  traverse := .group (.byIndex [(pointerToSliceField, [0])] ["F"]) [pointerToSlicePlan 0]

/-- The schema of `Pair`. -/
def pairSchema : Schema where
  name := "Pair"
  root := .structNode [(int64Field, [0]), (pointerToSliceField, [1])] ["A", "F"]
  traverse := .group (.byIndex [(int64Field, [0]), (pointerToSliceField, [1])] ["A", "F"])
    [.leaf 0 .int64, pointerToSlicePlan 1]

/-- The node of `Values []*int64` tagged `list`: a `LIST` of `Optional(int64)`. -/
def pointerListField : Node := list (encoded (compressed (optional (int 64)) []) [])

/-- The schema of `Tags`. -/
def tagsSchema : Schema where
  name := "Tags"
  root := .structNode [(pointerListField, [0])] ["values"]
  traverse := .group (.byIndex [(pointerListField, [0])] ["values"]) [.repeated (.leaf 0 .int64)]

/-- `Single{F: &[]S{{X: 1}}}`. -/
def singleValue : Reflect.Value :=
  .valid 4 (.struct [.ptr (some (.slice (some [.struct [.int 1]])))])

/-- `Pair{A: 7, F: &[]S{{X: 1}}}`. -/
def pairValue : Reflect.Value :=
  .valid 5 (.struct [.int 7, .ptr (some (.slice (some [.struct [.int 1]])))])

/-- The panic of `FieldByIndex` on a slice. -/
def fieldOnSlice : String := "reflect: call of reflect.Value.Field on slice Value"

/-- `SchemaOf(Single{})` compiles `F *[]S` to an Optional closure around the group of `S`:
the pointer is peeled, the slice is not, and the group closure asks `reflect` for a field
of the slice. -/
theorem pointerToSlice_field_panics :
    schemaOf shapesEnv 4 4 = .ok singleSchema ∧
      (singleSchema.traverseValue shapesEnv singleValue fun _ _ => none).run [] =
        (.error fieldOnSlice, []) :=
  ⟨rfl, rfl⟩

/-- On `Pair{A: 7, F: &[]S{{X: 1}}}` a sink that accepts everything gets the call of `A`, and
then the traversal panics instead of returning nil; a sink that fails on its first call gets
that call and its error back. -/
theorem pair_run_panics_unless_sink_fails :
    schemaOf shapesEnv 4 5 = .ok pairSchema ∧
      (pairSchema.traverseValue shapesEnv pairValue fun _ _ => none).run [] =
        (.error fieldOnSlice, [(0, ⟨some .int64, .valid 1 (.int 7), 0, 0⟩)]) ∧
      (pairSchema.traverseValue shapesEnv pairValue fun _ _ => some "full").run [] =
        (.ok (some "full"), [(0, ⟨some .int64, .valid 1 (.int 7), 0, 0⟩)]) :=
  ⟨rfl, rfl, rfl⟩

/-- ``type Tags struct { Values []*int64 `parquet:"values,list"` }``: the tree has a Repeated
and an Optional node on the way to the column, so a present element is defined at level 2;
the plan has only the Repeated closure, and no run emits a definition level above 1. -/
theorem pointerList_drops_optional :
    schemaOf shapesEnv 4 8 = .ok tagsSchema ∧
      tagsSchema.root.cardinalities = [[.repeated, .optional]] ∧
      tagsSchema.traverse.cardinalities = [[.repeated]] ∧
      ∀ value traversal,
        ∀ call ∈ ((tagsSchema.traverseValue shapesEnv value traversal).run []).2,
          call.2.definitionLevel = 0 ∨ call.2.definitionLevel = 1 := by
  refine ⟨rfl, ?_, rfl, fun value traversal call hcall => ?_⟩
  · simp [Node.cardinalities_eq, Node.childCardinalities, tagsSchema, pointerListField, list,
      Node.numChildren, Node.childNames, Node.childByName, indexOf_singleton, childByIndex,
      sliceAt, Except.map, Node.ownCardinality, Node.optional, Node.repeated]
  · obtain ⟨cs, hcs, k, hk, hlevel⟩ :=
      definitionLevel_le_cardinalities shapesEnv tagsSchema value traversal call hcall
    obtain rfl : cs = [.repeated] := by simpa [tagsSchema, TraverseFunc.cardinalities,
      TraverseFunc.cardinalities.cardinalitiesList] using hcs
    rcases Nat.le_one_iff_eq_zero_or_eq_one.1 hk with rfl | rfl
    · exact .inl hlevel
    · exact .inr hlevel

/-! ## Failing fast -/

/-- The calls `Schema.Traverse` makes with a sink that accepts every call. -/
def Schema.acceptedCalls (env : TypeEnv) (s : Schema) (value : Reflect.Value) : List Call :=
  ((s.traverseValue env value fun _ _ => none).run []).2

/-- Whatever the sink, `Schema.Traverse` hands it the calls it makes with a sink that accepts
everything, one at a time, and returns the first error at once, after the call that caused
it; a sink that accepts each of them ends the run as the accepting sink does, with nil or
with the same panic. -/
theorem traverseValue_fails_fast (env : TypeEnv) (s : Schema) (value : Reflect.Value)
    (traversal : Traversal) :
    (∀ (k : Nat) (hk : k < (s.acceptedCalls env value).length) (e : String),
      (∀ j (hj : j < k), traversal ((s.acceptedCalls env value).take j)
        (s.acceptedCalls env value)[j] = none) →
      traversal ((s.acceptedCalls env value).take k) (s.acceptedCalls env value)[k] = some e →
      (s.traverseValue env value traversal).run [] =
        (.ok (some e), (s.acceptedCalls env value).take (k + 1))) ∧
    ((∀ j (hj : j < (s.acceptedCalls env value).length), traversal
        ((s.acceptedCalls env value).take j) (s.acceptedCalls env value)[j] = none) →
      (s.traverseValue env value traversal).run [] =
        (s.traverseValue env value fun _ _ => none).run []) := by
  have hcalls : s.acceptedCalls env value = (s.shred env value).1.map (Path.toCall {}) := by
    rw [Schema.acceptedCalls, traverseValue_accepting env _ s value fun _ _ => rfl]
  simp only [hcalls, traverseValue_refines, traverseValue_accepting env _ s value fun _ _ => rfl]
  exact ⟨fun k hk e hbefore herr => by
    simpa using feed_first_error traversal _ [] _ k hk (by simpa using hbefore) (by simpa using herr),
    fun hall => by simpa using feed_none traversal _ [] _ (by simpa using hall)⟩

/-- On `Pair{A: 7, F: &[]S{{X: 1}}}` a sink that fails on its first call gets that call only. -/
theorem pair_sink_fails_first :
    (pairSchema.traverseValue shapesEnv pairValue fun _ _ => some "full").run [] =
      (.ok (some "full"), (pairSchema.acceptedCalls shapesEnv pairValue).take 1) :=
  (traverseValue_fails_fast shapesEnv pairSchema pairValue _).1 0 (by decide) "full"
    (fun _ h => absurd h (Nat.not_lt_zero _)) rfl

end ParquetGo
