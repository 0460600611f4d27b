import ParquetGo.Proofs.Compile

/-!
# The options of a field

`makeStructField` reads a field's options off its `parquet` tag and runs them through a loop,
the `switch option`, in which each option either updates the field's state or panics.  This
file says when the loop and the field's node succeed, and what node they give:

* `structFieldNode_ok_iff`: for every field type and every sequence of options, the loop and
  the node succeed exactly when every keyword is known, `optional` and each codec and each
  encoding appear at most once, at most one option declares the field's node, each option's
  condition on the field's type holds, and `nodeOf` succeeds on the type it is asked for.
  A `uuid` on a `[16]byte` field declares no node: the field's node is then `nodeOf`'s
  `UUID`, and the option may appear any number of times.
* the node is `Optional?(List?(Encoded(Compressed(base, codecs), encodings)))`, with the
  codecs and encodings in the order of the options.

The options come from `tagOptions`, which cuts the tag at every comma, also inside the
parentheses of an option's arguments: `cost,decimal(0,3)` panics (`decimal_tag_panics`).

## Strategy

`optionRole` names what each keyword does.  The state of the loop after a prefix of the
options is described by `LoopState`; one iteration keeps it and succeeds exactly when the
option is acceptable after that prefix (`applyOption_ok_iff`).  The conditions of
`structFieldNode_ok_iff` on the loop (`LoopAccepted`: known keywords, no repeated `optional`,
codec or encoding, one declared node, each option's condition on the type), read on a prefix
extended by one option, are the same conditions on the prefix and the option's acceptability
(`LoopAccepted.snoc_iff`), so induction from the end of the list joins the two.
-/

namespace ParquetGo

open Reflect (TypeEnv TypeId TypeDesc StructField)

/-! ## What each keyword does -/

/-- What an option keyword does in the loop of `makeStructField`. -/
inductive OptionRole where
  | optional
  | codec (codec : Codec)
  | encoding (encoding : Encoding)
  | delta
  | list
  | enum
  | uuid
  | decimal
  | unknown
  deriving DecidableEq

/-- The case of the `switch option` a keyword takes. -/
def optionRole : String → OptionRole
  | "optional" => .optional
  | "snappy" => .codec .snappy
  | "gzip" => .codec .gzip
  | "brotli" => .codec .brotli
  | "lz4" => .codec .lz4Raw
  | "zstd" => .codec .zstd
  | "plain" => .encoding .plain
  | "dict" => .encoding .rleDictionary
  | "delta" => .delta
  | "list" => .list
  | "enum" => .enum
  | "uuid" => .uuid
  | "decimal" => .decimal
  | _ => .unknown

@[simp] theorem optionRole_optional : optionRole "optional" = .optional := rfl
@[simp] theorem optionRole_delta : optionRole "delta" = .delta := rfl
@[simp] theorem optionRole_list : optionRole "list" = .list := rfl
@[simp] theorem optionRole_enum : optionRole "enum" = .enum := rfl
@[simp] theorem optionRole_uuid : optionRole "uuid" = .uuid := rfl
@[simp] theorem optionRole_decimal : optionRole "decimal" = .decimal := rfl

/-- The option keywords of `makeStructField`. -/
def knownOptions : List String :=
  ["optional", "snappy", "gzip", "brotli", "lz4", "zstd", "plain", "dict", "delta", "list",
    "enum", "uuid", "decimal"]

theorem optionRole_ne_unknown {option : String} :
    optionRole option ≠ .unknown ↔ option ∈ knownOptions := by
  unfold optionRole
  split <;> simp_all [knownOptions]

/-- The compression codec an option names. -/
@[simp] def OptionRole.toCodec : OptionRole → Option Codec
  | .codec c => some c
  | _ => none

/-- The encoding an option names: `delta` is `DELTA_BINARY_PACKED`. -/
@[simp] def OptionRole.toEncoding : OptionRole → Option Encoding
  | .encoding e => some e
  | .delta => some .deltaBinaryPacked
  | _ => none

/-- The compression codecs the options name, in order. -/
def optionCodecs (options : List (String × String)) : List Codec :=
  options.filterMap fun o => (optionRole o.1).toCodec

/-- The encodings the options name, in order. -/
def optionEncodings (options : List (String × String)) : List Encoding :=
  options.filterMap fun o => (optionRole o.1).toEncoding

@[simp] theorem optionCodecs_nil : optionCodecs [] = [] := rfl

@[simp] theorem optionCodecs_cons (o : String × String) (options : List (String × String)) :
    optionCodecs (o :: options) = (optionRole o.1).toCodec.toList ++ optionCodecs options := by
  cases h : (optionRole o.1).toCodec <;> simp only [optionCodecs, List.filterMap_cons, h] <;> rfl

@[simp] theorem optionCodecs_append (options options' : List (String × String)) :
    optionCodecs (options ++ options') = optionCodecs options ++ optionCodecs options' :=
  List.filterMap_append _ _ _

@[simp] theorem optionEncodings_nil : optionEncodings [] = [] := rfl

@[simp] theorem optionEncodings_cons (o : String × String) (options : List (String × String)) :
    optionEncodings (o :: options) =
      (optionRole o.1).toEncoding.toList ++ optionEncodings options := by
  cases h : (optionRole o.1).toEncoding <;> simp only [optionEncodings, List.filterMap_cons, h] <;>
    rfl

@[simp] theorem optionEncodings_append (options options' : List (String × String)) :
    optionEncodings (options ++ options') = optionEncodings options ++ optionEncodings options' :=
  List.filterMap_append _ _ _

/-! ## The conditions -/

theorem countP_snoc_le_one {α : Type} (p : α → Bool) (l : List α) (a : α) :
    (l ++ [a]).countP p ≤ 1 ↔ l.countP p ≤ 1 ∧ (p a → ∀ x ∈ l, ¬ p x) := by
  rw [List.countP_append, List.countP_singleton, ← List.countP_eq_zero]
  by_cases ha : p a
  · simp only [ha, if_true, true_implies]
    omega
  · simp [ha]

theorem nodup_filterMap_singleton {α β : Type} (g : α → Option β) (a : α) :
    ([a].filterMap g).Nodup := by
  cases h : g a <;> simp [List.filterMap_cons, h]

section
variable (env : TypeEnv) (nodeOf : TypeId → Build Node) (f : StructField)

/-- The options that declare the field's node: `list`, `enum` and `decimal`, and `uuid` on a
string field (on a `[16]byte` field it leaves the node to `nodeOf`). -/
def declaresNode (option : String) : Bool :=
  option = "list" || option = "enum" || option = "decimal" ||
    (option = "uuid" && env.kind f.type = .string)

/-- An option's condition on the field's type, and for `decimal` on its arguments. -/
def KindAllows (option args : String) : Prop :=
  match optionRole option with
  | .delta => env.kind f.type ∈ [.int, .int32, .int64, .uint, .uint32, .uint64]
  | .list => env.kind f.type = .slice
  | .enum => env.kind f.type = .string
  | .uuid => env.kind f.type = .string ∨
      env.kind f.type = .array ∧ env.kind (env.elem f.type) = .uint8 ∧ (env.desc f.type).len = 16
  | .decimal => (∃ sp, parseDecimalArgs args = .ok sp) ∧ env.kind f.type ∈ [.int32, .int64]
  | _ => True

/-- The conditions on the options under which the loop of `makeStructField` succeeds. -/
structure LoopAccepted (options : List (String × String)) : Prop where
  known : ∀ o ∈ options, o.1 ∈ knownOptions
  optional_once : options.countP (·.1 = "optional") ≤ 1
  codecs_nodup : (optionCodecs options).Nodup
  encodings_nodup : (optionEncodings options).Nodup
  node_once : options.countP (declaresNode env f ·.1) ≤ 1
  allowed : ∀ o ∈ options, KindAllows env f o.1 o.2
  element_ok : (∃ o ∈ options, o.1 = "list") → ∃ element, nodeOf (env.elem f.type) = .ok element

/-- The conditions under which `makeStructField` returns: those of the loop, and `nodeOf`
succeeding on the field's type when no option declares its node. -/
structure OptionsAccepted (options : List (String × String))
    extends LoopAccepted env nodeOf f options : Prop where
  type_ok : (∀ o ∈ options, declaresNode env f o.1 = false) → ∃ node, nodeOf f.type = .ok node

/-- One more option is acceptable after the options `done`. -/
def OptionAccepted (done : List (String × String)) (o : String × String) : Prop :=
  o.1 ∈ knownOptions ∧
  (o.1 = "optional" → ∀ x ∈ done, x.1 ≠ "optional") ∧
  (∀ c ∈ optionCodecs [o], c ∉ optionCodecs done) ∧
  (∀ e ∈ optionEncodings [o], e ∉ optionEncodings done) ∧
  (declaresNode env f o.1 → ∀ x ∈ done, declaresNode env f x.1 = false) ∧
  KindAllows env f o.1 o.2 ∧
  (o.1 = "list" → ∃ element, nodeOf (env.elem f.type) = .ok element)

variable {env nodeOf f}

theorem LoopAccepted.nil : LoopAccepted env nodeOf f [] :=
  ⟨by simp, by simp, by simp, by simp, by simp, by simp,
    by simp⟩

theorem LoopAccepted.snoc_iff (done : List (String × String)) (o : String × String) :
    LoopAccepted env nodeOf f (done ++ [o]) ↔
      LoopAccepted env nodeOf f done ∧ OptionAccepted env nodeOf f done o := by
  simp only [OptionAccepted]
  constructor
  · rintro ⟨hknown, hopt, hcodecs, hencs, hnode, hallowed, helement⟩
    simp only [optionCodecs_append, optionEncodings_append, List.nodup_append] at hcodecs hencs
    simp only [List.mem_append, List.mem_singleton, forall_eq_or_imp] at hknown hallowed
    rw [countP_snoc_le_one] at hopt hnode
    refine ⟨⟨fun x hx => hknown x (.inl hx), hopt.1, hcodecs.1, hencs.1, hnode.1,
      fun x hx => hallowed x (.inl hx), fun ⟨x, hx, hlist⟩ => helement ⟨x, by simp [hx], hlist⟩⟩,
      hknown o (.inr rfl), fun h x hx => by simpa using hopt.2 (by simpa using h) x hx,
      fun c hc hc' => hcodecs.2.2 hc' hc, fun e he he' => hencs.2.2 he' he,
      fun h x hx => by simpa using hnode.2 h x hx, hallowed o (.inr rfl),
      fun h => helement ⟨o, by simp, h⟩⟩
  · rintro ⟨⟨hknown, hopt, hcodecs, hencs, hnode, hallowed, helement⟩, hknown', hopt', hcodecs',
      hencs', hnode', hallowed', helement'⟩
    refine ⟨?_, ?_, ?_, ?_, ?_, ?_, ?_⟩
    · intro x hx
      rcases List.mem_append.1 hx with hx | hx
      · exact hknown x hx
      · rw [List.mem_singleton.1 hx]
        exact hknown'
    · exact (countP_snoc_le_one _ _ _).2
        ⟨hopt, fun h x hx => by simpa using hopt' (by simpa using h) x hx⟩
    · simp only [optionCodecs_append, List.nodup_append]
      exact ⟨hcodecs, nodup_filterMap_singleton _ _, fun c hc hc' => hcodecs' c hc' hc⟩
    · simp only [optionEncodings_append, List.nodup_append]
      exact ⟨hencs, nodup_filterMap_singleton _ _, fun e he he' => hencs' e he' he⟩
    · exact (countP_snoc_le_one _ _ _).2 ⟨hnode, fun h x hx => by simpa using hnode' h x hx⟩
    · intro x hx
      rcases List.mem_append.1 hx with hx | hx
      · exact hallowed x hx
      · rw [List.mem_singleton.1 hx]
        exact hallowed'
    · rintro ⟨x, hx, hlist⟩
      rcases List.mem_append.1 hx with hx | hx
      · exact helement ⟨x, hx, hlist⟩
      · exact helement' (by simpa [List.mem_singleton.1 hx] using hlist)

/-! ## The state of the loop -/

variable (env nodeOf f)

/-- The node beneath a field's decorations, in the spec's words: the one the option that
declares a node gives (the node of the element type for `list`), or the node of the field's
type when no option declares one. -/
def FieldBase (options : List (String × String)) (base : Node) : Prop :=
  match options.find? (declaresNode env f ·.1) with
  | none => nodeOf f.type = .ok base
  | some (option, args) =>
      match optionRole option with
      | .list => nodeOf (env.elem f.type) = .ok base
      | .enum => base = enum
      | .uuid => base = uuid
      | .decimal => ∃ scale precision, parseDecimalArgs args = .ok (scale, precision) ∧
          base = decimal scale precision (if env.kind f.type = .int32 then .int32 else .int64)
      | _ => False

/-- The state of the loop after the options `done`, each of them accepted. -/
structure LoopState (done : List (String × String)) (s : FieldOptions) : Prop where
  optional_eq : s.optional = done.any (·.1 = "optional")
  list_eq : s.list = done.any (·.1 = "list")
  codecs_eq : s.codecs = optionCodecs done
  encodings_eq : s.encodings = optionEncodings done
  node_eq_none : s.node = none ↔ ∀ o ∈ done, declaresNode env f o.1 = false
  node_base : ∀ node, s.node = some node → FieldBase env nodeOf f done node

/-- What one iteration of the loop has to do after the options `done`: succeed exactly when the
next option `o` is acceptable there, and then keep the state of the loop. -/
def StepSpec (done : List (String × String)) (o : String × String) (r : Build FieldOptions) :
    Prop :=
  ((∃ s', r = .ok s') ↔ OptionAccepted env nodeOf f done o) ∧
    ∀ s', r = .ok s' → LoopState env nodeOf f (done ++ [o]) s'

variable {env nodeOf f}

theorem LoopState.nil : LoopState env nodeOf f [] {} :=
  ⟨rfl, rfl, rfl, rfl, by simp, by simp⟩

/-- What one more option does to the state: it records `optional`, `list`, its codec and its
encoding, and either leaves the node or, when it declares one, sets it where there was
none. -/
theorem LoopState.snoc {done : List (String × String)} {s s' : FieldOptions}
    (hs : LoopState env nodeOf f done s) (o : String × String)
    (hoptional : s'.optional = (s.optional || o.1 = "optional"))
    (hlist : s'.list = (s.list || o.1 = "list"))
    (hcodecs : s'.codecs = s.codecs ++ optionCodecs [o])
    (hencodings : s'.encodings = s.encodings ++ optionEncodings [o])
    (hnode : if declaresNode env f o.1 then s.node = none ∧ ∃ node, s'.node = some node ∧
        FieldBase env nodeOf f [o] node
      else s'.node = s.node) :
    LoopState env nodeOf f (done ++ [o]) s' := by
  refine ⟨by simp [hoptional, hs.optional_eq], by simp [hlist, hs.list_eq],
    by simp [hcodecs, hs.codecs_eq], by simp [hencodings, hs.encodings_eq], ?_, ?_⟩
  · split at hnode
    · rename_i hdeclares
      obtain ⟨-, node, hsome, -⟩ := hnode
      simp only [hsome, reduceCtorEq, false_iff, not_forall]
      exact ⟨o, List.mem_append_right _ (List.mem_singleton_self _), by simpa using hdeclares⟩
    · rename_i hdeclares
      rw [hnode, hs.node_eq_none]
      refine ⟨fun h x hx => ?_, fun h x hx => h x (List.mem_append_left _ hx)⟩
      rcases List.mem_append.1 hx with hx | hx
      · exact h x hx
      · rw [List.mem_singleton.1 hx]
        simpa using hdeclares
  · intro node hnode'
    split at hnode
    · obtain ⟨hnone, node', hnode'', hbase⟩ := hnode
      have hfind : done.find? (declaresNode env f ·.1) = none :=
        List.find?_eq_none.2 fun x hx => by simpa using (hs.node_eq_none.1 hnone) x hx
      rw [hnode'', Option.some.injEq] at hnode'
      subst hnode'
      unfold FieldBase at hbase ⊢
      rwa [List.find?_append, hfind, Option.none_or]
    · rw [hnode] at hnode'
      have hbase := hs.node_base node hnode'
      have hfind : ([o].find? (declaresNode env f ·.1)) = none := by simp [*]
      unfold FieldBase at hbase ⊢
      rw [List.find?_append]
      cases h : done.find? (declaresNode env f ·.1) <;> simp_all

theorem declareOnce_eq_ok {declared : Bool} {msg : String} {update s' : FieldOptions} :
    declareOnce env f declared msg update = .ok s' ↔ declared = false ∧ s' = update := by
  cases declared <;> simp [declareOnce, throwInvalidStructField, pure, Except.pure, eq_comm]

theorem LoopState.list_of_none {done : List (String × String)} {s : FieldOptions}
    (hs : LoopState env nodeOf f done s) (hnone : s.node = none) : s.list = false := by
  rw [hs.list_eq, List.any_eq_false]
  intro x hx hlist
  simpa [declaresNode, of_decide_eq_true hlist] using hs.node_eq_none.1 hnone x hx

/-- Acceptability of one more option, read on the state of the loop. -/
theorem LoopState.optionAccepted_iff {done : List (String × String)} {s : FieldOptions}
    (hs : LoopState env nodeOf f done s) (o : String × String) :
    OptionAccepted env nodeOf f done o ↔ o.1 ∈ knownOptions ∧ (o.1 = "optional" → s.optional = false) ∧
      (∀ c ∈ optionCodecs [o], c ∉ s.codecs) ∧ (∀ e ∈ optionEncodings [o], e ∉ s.encodings) ∧
      (declaresNode env f o.1 → s.node = none) ∧ KindAllows env f o.1 o.2 ∧
      (o.1 = "list" → ∃ element, nodeOf (env.elem f.type) = .ok element) := by
  simp [OptionAccepted, hs.optional_eq, hs.codecs_eq, hs.encodings_eq, hs.node_eq_none]

theorem stepSpec_declareOnce {done : List (String × String)} {o : String × String}
    {declared : Bool} {msg : String} {update : FieldOptions}
    (haccepted : OptionAccepted env nodeOf f done o ↔ declared = false)
    (hstate : declared = false → LoopState env nodeOf f (done ++ [o]) update) :
    StepSpec env nodeOf f done o (declareOnce env f declared msg update) :=
  ⟨by simp [declareOnce_eq_ok, haccepted], fun _ h => by
    obtain ⟨hfalse, rfl⟩ := declareOnce_eq_ok.1 h
    exact hstate hfalse⟩

theorem stepSpec_error {done : List (String × String)} {o : String × String}
    {e : Abort} (h : ¬ OptionAccepted env nodeOf f done o) :
    StepSpec env nodeOf f done o (.error e) :=
  ⟨by simpa using h, fun _ h => nomatch h⟩

theorem OptionAccepted.allowed {done : List (String × String)} {o : String × String}
    (h : OptionAccepted env nodeOf f done o) : KindAllows env f o.1 o.2 :=
  h.2.2.2.2.2.1

/-- The options that neither mark the field optional nor give it a node: the codecs and the
encodings. -/
theorem optionRole_flags {option : String}
    (h : optionRole option ∉ [.optional, .list, .enum, .uuid, .decimal]) :
    option ≠ "optional" ∧ option ≠ "list" ∧ declaresNode env f option = false := by
  refine ⟨?_, ?_, ?_⟩
  any_goals rintro rfl; exact absurd (by decide) h
  simp only [declaresNode, Bool.or_eq_false_iff, decide_eq_false_iff_not, Bool.and_eq_false_imp,
    decide_eq_true_eq]
  refine ⟨⟨⟨?_, ?_⟩, ?_⟩, ?_⟩ <;> rintro rfl <;> exact absurd (by decide) h

section Step
variable {done : List (String × String)} {s : FieldOptions}
  (hs : LoopState env nodeOf f done s)
include hs

theorem LoopState.stepSpec_optional (args : String) :
    StepSpec env nodeOf f done ("optional", args) (setOptional env f s) := by
  refine stepSpec_declareOnce ?_ fun _ => hs.snoc _ ?_ ?_ ?_ ?_ ?_ <;>
    simp [hs.optionAccepted_iff, knownOptions,
      declaresNode, KindAllows]

theorem LoopState.stepSpec_codec {option args : String} {c : Codec}
    (hrole : optionRole option = .codec c) :
    StepSpec env nodeOf f done (option, args) (setCompression env f c s) := by
  obtain ⟨hoptional, hlist, hdeclares⟩ := @optionRole_flags env f option (by simp [hrole])
  have hknown : option ∈ knownOptions := optionRole_ne_unknown.1 (by simp [hrole])
  refine stepSpec_declareOnce ?_ fun _ => hs.snoc _ ?_ ?_ ?_ ?_ ?_ <;>
    simp [hs.optionAccepted_iff, hoptional, hlist, hdeclares, hknown,
      hrole, KindAllows]

theorem LoopState.stepSpec_encoding {option args : String} {e : Encoding}
    (hrole : optionRole option = .encoding e) :
    StepSpec env nodeOf f done (option, args) (setEncoding env f e s) := by
  obtain ⟨hoptional, hlist, hdeclares⟩ := @optionRole_flags env f option (by simp [hrole])
  have hknown : option ∈ knownOptions := optionRole_ne_unknown.1 (by simp [hrole])
  refine stepSpec_declareOnce ?_ fun _ => hs.snoc _ ?_ ?_ ?_ ?_ ?_ <;>
    simp [hs.optionAccepted_iff, hoptional, hlist, hdeclares, hknown,
      hrole, KindAllows]

/-- The options that declare the field's node go through `setNode`, which succeeds when no node
was declared before. -/
theorem LoopState.stepSpec_setNode {o : String × String} {node : Node}
    (hdeclares : declaresNode env f o.1 = true) (hbase : FieldBase env nodeOf f [o] node)
    (haccepted : OptionAccepted env nodeOf f done o ↔ s.node = none)
    (hflags : o.1 ≠ "optional" ∧ o.1 ≠ "list") (hcodecs : optionCodecs [o] = [])
    (hencodings : optionEncodings [o] = []) :
    StepSpec env nodeOf f done o (setNode env f node s) :=
  stepSpec_declareOnce (by simpa using haccepted) fun hnone => hs.snoc _ (by simp [hflags.1])
    (by simp [hflags.2]) (by simp [hcodecs]) (by simp [hencodings])
    (by simpa [hdeclares] using ⟨by simpa using hnone, hbase⟩)

theorem LoopState.stepSpec_delta (args : String) :
    StepSpec env nodeOf f done ("delta", args)
      (if env.kind f.type ∈ [.int, .int32, .int64, .uint, .uint32, .uint64] then
        setEncoding env f .deltaBinaryPacked s else throwInvalidFieldTag env f "delta") := by
  split
  next hkind =>
    refine stepSpec_declareOnce ?_ fun _ => hs.snoc _ ?_ ?_ ?_ ?_ ?_ <;>
      simp [hs.optionAccepted_iff, hkind, knownOptions,
        declaresNode, KindAllows]
  next hkind =>
    exact stepSpec_error (mt OptionAccepted.allowed (by simp [KindAllows, hkind]))

theorem LoopState.stepSpec_list (args : String) :
    StepSpec env nodeOf f done ("list", args)
      (if env.kind f.type = .slice then do
        let element ← nodeOf (env.elem f.type)
        setList env f (← setNode env f element s)
      else throwInvalidFieldTag env f "list") := by
  split
  next hkind =>
    cases helement : nodeOf (env.elem f.type) with
    | error e =>
      exact stepSpec_error (by simp [hs.optionAccepted_iff, helement])
    | ok element =>
      show StepSpec env nodeOf f done _ (setNode env f element s >>= setList env f)
      refine ⟨?_, fun s' h => ?_⟩
      · simp [bind_eq_ok, setNode, setList, declareOnce_eq_ok, hs.optionAccepted_iff, hkind,
          helement, knownOptions, declaresNode,
          KindAllows]
        exact ⟨fun ⟨_, _, ⟨h, _⟩, _⟩ => h, fun h => ⟨_, _, ⟨h, rfl⟩, hs.list_of_none h, rfl⟩⟩
      · obtain ⟨s₁, h₁, h₂⟩ := bind_eq_ok.1 h
        obtain ⟨hnone, rfl⟩ := declareOnce_eq_ok.1 h₁
        obtain ⟨-, rfl⟩ := declareOnce_eq_ok.1 h₂
        exact hs.snoc _ (by simp) (by simp) (by simp)
          (by simp)
          (by simpa [declaresNode, FieldBase, helement] using hnone)
  next hkind =>
    exact stepSpec_error (mt OptionAccepted.allowed (by simp [KindAllows, hkind]))

theorem LoopState.stepSpec_enum (args : String) :
    StepSpec env nodeOf f done ("enum", args)
      (if env.kind f.type = .string then setNode env f enum s
      else throwInvalidFieldTag env f "enum") := by
  split
  next hkind =>
    exact hs.stepSpec_setNode (by simp [declaresNode])
      (by simp [FieldBase, declaresNode])
      (by simp [hs.optionAccepted_iff, hkind, knownOptions,
        declaresNode, KindAllows])
      (by simp) (by simp) (by simp)
  next hkind =>
    exact stepSpec_error (mt OptionAccepted.allowed (by simp [KindAllows, hkind]))

theorem LoopState.stepSpec_uuid (args : String) :
    StepSpec env nodeOf f done ("uuid", args)
      (match env.kind f.type with
        | .string => setNode env f uuid s
        | .array =>
            if env.kind (env.elem f.type) ≠ .uint8 ∨ (env.desc f.type).len ≠ 16 then
              throwInvalidFieldTag env f "uuid"
            else pure s
        | _ => throwInvalidFieldTag env f "uuid") := by
  split
  next hkind =>
    exact hs.stepSpec_setNode (by simp [declaresNode, hkind])
      (by simp [FieldBase, declaresNode, hkind])
      (by simp [hs.optionAccepted_iff, hkind, knownOptions,
        declaresNode, KindAllows])
      (by simp) (by simp) (by simp)
  next hkind =>
    split
    next hbad =>
      exact stepSpec_error (mt OptionAccepted.allowed (by simpa [KindAllows, hkind,
        imp_iff_not_or] using hbad))
    next hgood =>
      refine ⟨by simpa [hs.optionAccepted_iff, hkind, knownOptions,
        declaresNode, KindAllows, pure, Except.pure] using hgood, fun s' h => ?_⟩
      cases h
      exact hs.snoc _ (by simp) (by simp) (by simp)
        (by simp) (by simp [declaresNode, hkind])
  next hstring harray =>
    exact stepSpec_error (mt OptionAccepted.allowed (by simp [KindAllows]; tauto))

theorem LoopState.stepSpec_decimal (args : String) :
    StepSpec env nodeOf f done ("decimal", args)
      (match parseDecimalArgs args with
        | .error _ => throwInvalidFieldTag env f ("decimal" ++ args)
        | .ok (scale, precision) =>
            match env.kind f.type with
            | .int32 => setNode env f (decimal scale precision .int32) s
            | .int64 => setNode env f (decimal scale precision .int64) s
            | _ => throwInvalidFieldTag env f "decimal") := by
  split
  next e hparse =>
    exact stepSpec_error (mt OptionAccepted.allowed (by simp [KindAllows, hparse]))
  next scale precision hparse =>
    split
    case' h_1 hkind | h_2 hkind =>
      exact hs.stepSpec_setNode (by simp [declaresNode])
        (by simpa [FieldBase, declaresNode, hparse, hkind] using
          ⟨scale, precision, ⟨rfl, rfl⟩, rfl⟩)
        (by simp [hs.optionAccepted_iff, hkind, hparse, knownOptions, declaresNode, KindAllows])
        (by simp) (by simp) (by simp)
    next hint32 hint64 =>
      exact stepSpec_error (mt OptionAccepted.allowed (by simp [KindAllows]; tauto))

end Step

/-- One iteration of the option loop succeeds exactly when the option is acceptable after the
options before it, and then keeps the state of the loop. -/
theorem applyOption_ok_iff {done : List (String × String)} {s : FieldOptions}
    (hs : LoopState env nodeOf f done s) (o : String × String) :
    StepSpec env nodeOf f done o (applyOption env nodeOf f s o.1 o.2) := by
  obtain ⟨option, args⟩ := o
  unfold applyOption
  split
  all_goals try (rename_i h; obtain rfl : option = _ := h)
  case h_1 => exact hs.stepSpec_optional args
  case h_2 | h_3 | h_4 | h_5 | h_6 => exact hs.stepSpec_codec rfl
  case h_7 | h_8 => exact hs.stepSpec_encoding rfl
  case h_9 => exact hs.stepSpec_delta args
  case h_10 => exact hs.stepSpec_list args
  case h_11 => exact hs.stepSpec_enum args
  case h_12 => exact hs.stepSpec_uuid args
  case h_13 => exact hs.stepSpec_decimal args
  case h_14 =>
    have hunknown : option ∉ knownOptions := by simp_all [knownOptions]
    exact stepSpec_error fun h => hunknown h.1

/-! ## The loop and the field's node -/

theorem foldlM_snoc_eq_ok {done : List (String × String)} {o : String × String}
    {s' : FieldOptions} :
    (done ++ [o]).foldlM (fun s o => applyOption env nodeOf f s o.1 o.2) {} = .ok s' ↔
      ∃ s, done.foldlM (fun s o => applyOption env nodeOf f s o.1 o.2) {} = .ok s ∧
        applyOption env nodeOf f s o.1 o.2 = .ok s' := by
  simp [List.foldlM_append, bind_eq_ok]

/-- The loop over the options succeeds exactly when the options are accepted, and its state is
then the one the options describe. -/
theorem foldlM_applyOption (options : List (String × String)) :
    ((∃ s, options.foldlM (fun s o => applyOption env nodeOf f s o.1 o.2) {} = .ok s) ↔
      LoopAccepted env nodeOf f options) ∧
    ∀ s, options.foldlM (fun s o => applyOption env nodeOf f s o.1 o.2) {} = .ok s →
      LoopState env nodeOf f options s := by
  induction options using List.reverseRecOn with
  | nil => exact ⟨iff_of_true ⟨_, rfl⟩ LoopAccepted.nil, fun s h => by cases h; exact LoopState.nil⟩
  | append_singleton done o ih =>
    simp only [foldlM_snoc_eq_ok, LoopAccepted.snoc_iff]
    refine ⟨⟨fun ⟨_, s, hs, h⟩ => ⟨ih.1.1 ⟨s, hs⟩, ((applyOption_ok_iff (ih.2 s hs) o).1.1 ⟨_, h⟩)⟩,
      fun ⟨hdone, ho⟩ => ?_⟩, fun _ ⟨s, hs, h⟩ => (applyOption_ok_iff (ih.2 s hs) o).2 _ h⟩
    obtain ⟨s, hs⟩ := ih.1.2 hdone
    obtain ⟨s', h⟩ := (applyOption_ok_iff (ih.2 s hs) o).1.2 ho
    exact ⟨s', s, hs, h⟩

/-- After the loop, the field's node is the node the options declared, or else the node of the
field's type, decorated as the options say. -/
theorem structFieldNode_eq_ok {options : List (String × String)} {s : FieldOptions} {node : Node}
    (hs : options.foldlM (fun s o => applyOption env nodeOf f s o.1 o.2) {} = .ok s) :
    structFieldNode env nodeOf f options = .ok node ↔
      ∃ base, s.node.elim (nodeOf f.type) .ok = .ok base ∧
        node = (if s.optional then optional else id)
          ((if s.list then list else id) (encoded (compressed base s.codecs) s.encodings)) := by
  unfold structFieldNode
  rw [hs]
  rcases s with ⟨_ | declared, _ | _, _ | _, encodings, codecs⟩ <;>
    dsimp only [bind, Except.bind, pure, Except.pure] <;> (try cases nodeOf f.type) <;>
    simp [eq_comm]

theorem FieldBase.of_none {options : List (String × String)} {base : Node}
    (hnone : ∀ o ∈ options, declaresNode env f o.1 = false) (h : nodeOf f.type = .ok base) :
    FieldBase env nodeOf f options base := by
  rwa [FieldBase, List.find?_eq_none.2 fun o ho => by simpa using hnone o ho]

/-- `makeStructField` returns a node for a field exactly when its options are accepted: every
keyword is known, `optional`, each codec and each encoding occur at most once, at most one
option declares the node (`list`, `enum`, `decimal`, and `uuid` on a string field), each
option's condition on the field's type holds, and `nodeOf` succeeds where it is called.  The
node is then `Optional?(List?(Encoded(Compressed(base, codecs), encodings)))`, with the codecs
and the encodings in the order of the options. -/
theorem structFieldNode_ok_iff (options : List (String × String)) :
    ((∃ node, structFieldNode env nodeOf f options = .ok node) ↔
      OptionsAccepted env nodeOf f options) ∧
    ∀ node, structFieldNode env nodeOf f options = .ok node →
      ∃ base, FieldBase env nodeOf f options base ∧
        node = (if options.any (·.1 = "optional") then optional else id)
          ((if options.any (·.1 = "list") then list else id)
            (encoded (compressed base (optionCodecs options)) (optionEncodings options))) := by
  have hloop := @foldlM_applyOption env nodeOf f options
  refine ⟨⟨fun ⟨node, h⟩ => ?_, fun h => ?_⟩, fun node h => ?_⟩
  · obtain ⟨s, hs, -⟩ := bind_eq_ok.1 h
    obtain ⟨base, hbase, -⟩ := (structFieldNode_eq_ok hs).1 h
    refine ⟨hloop.1.1 ⟨s, hs⟩, fun hnone => ⟨base, ?_⟩⟩
    rwa [(hloop.2 s hs).node_eq_none.2 hnone] at hbase
  · obtain ⟨s, hs⟩ := hloop.1.2 h.toLoopAccepted
    obtain ⟨base, hbase⟩ : ∃ base, s.node.elim (nodeOf f.type) .ok = .ok base := by
      cases hnode : s.node with
      | some b => exact ⟨b, rfl⟩
      | none => exact h.type_ok ((hloop.2 s hs).node_eq_none.1 hnode)
    exact ⟨_, (structFieldNode_eq_ok hs).2 ⟨base, hbase, rfl⟩⟩
  · obtain ⟨s, hs, -⟩ := bind_eq_ok.1 h
    obtain ⟨base, hbase, rfl⟩ := (structFieldNode_eq_ok hs).1 h
    have hstate := hloop.2 s hs
    refine ⟨base, ?_, ?_⟩
    · cases hnode : s.node with
      | some b =>
        rw [hnode] at hbase
        cases hbase
        exact hstate.node_base _ hnode
      | none =>
        rw [hnode] at hbase
        exact FieldBase.of_none (hstate.node_eq_none.1 hnode) hbase
    · rw [← hstate.optional_eq, ← hstate.list_eq, ← hstate.codecs_eq, ← hstate.encodings_eq]

end

/-! ## Two fields -/

/-- ``Cost int64 `parquet:"cost,decimal(0,3)"` ``, the example of the documentation of
`SchemaOf`. -/
def costField : StructField :=
  { name := "Cost", type := 1, tag := ⟨[("parquet", "cost,decimal(0,3)")]⟩, index := [0],
    anonymous := false, exported := true }

/-- ``ID [16]byte `parquet:"id,uuid,uuid"` ``. -/
def idField : StructField :=
  { name := "ID", type := 3, tag := ⟨[("parquet", "id,uuid,uuid")]⟩, index := [0],
    anonymous := false, exported := true }

/-- The types of `type Price struct { Cost int64 ... }` and `type Key struct { ID [16]byte ... }`. -/
def tagsDesc : TypeId → TypeDesc
  | 0 => { kind := .struct, name := "Price", string := "main.Price", fields := [costField] }
  | 1 => { kind := .int64, name := "int64", string := "int64" }
  | 2 => { kind := .struct, name := "Key", string := "main.Key", fields := [idField] }
  | 3 => { kind := .array, name := "", string := "[16]uint8", elem := 4, len := 16 }
  | 4 => { kind := .uint8, name := "uint8", string := "uint8" }
  | _ => { kind := .invalid, name := "", string := "" }

/-- The program of `Price` and `Key`. -/
def tagsEnv : TypeEnv where
  desc := tagsDesc
  int96 := 5
  depth t := if t = 0 ∨ t = 2 then 1 else 0
  depth_field := by
    intro t f hf
    rcases t with _ | _ | _ | _ | _ | t <;> simp_all [tagsDesc]
    · simp [costField]
    · simp [idField]

/-- The documented tag `cost,decimal(0,3)` is cut at both of its commas: the option loop sees
`decimal(0` and `3)`, and the schema of `Price` panics on the first, naming the field by the
name its tag gives it. -/
theorem decimal_tag_panics :
    tagOptions (split "cost,decimal(0,3)").2 = [("decimal", "(0"), ("3)", "()")] ∧
      schemaOf tagsEnv 10 0 = .error (.panic
        "struct has invalid 'decimal(0' parquet tag: cost int64 parquet:\"cost,decimal(0,3)\"") :=
  ⟨by decide, rfl⟩

/-- `uuid` twice on a `[16]byte` field is accepted: neither occurrence declares the node, which
`nodeOf` then gives. -/
theorem uuid_twice_on_byte_array :
    tagOptions (split "id,uuid,uuid").2 = [("uuid", "()"), ("uuid", "()")] ∧
      makeStructField tagsEnv (nodeOf tagsEnv 10) idField =
        .ok (encoded (compressed uuid []) [], [0]) :=
  ⟨by decide, rfl⟩

end ParquetGo
