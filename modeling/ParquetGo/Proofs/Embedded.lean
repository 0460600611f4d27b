import Mathlib.Data.List.Lex
import ParquetGo.Proofs.Names

/-!
# Flattening embedded structs

`appendStructFields` walks a struct type field by field in declaration order: an anonymous
(embedded) field is walked in turn, an exported field is kept with its index path, any other
field is skipped.  This file says what it returns in terms of paths through the type.

* `FieldPath env t p f`: following the positions `p` from the struct `t` through anonymous
  fields of struct type ends at the declared field `f`.
* `appendStructFields_flattens`: with the fuel `structFieldsOf` gives it, `appendStructFields`
  returns exactly when every anonymous field met along such paths has a struct type
  (`EmbedsOnlyStructs`).  It then returns the exported named fields at the ends of paths
  (`Promotes`), each with its path as `Index`, sorted by path, which is the depth-first
  declaration order; no two share an index, and `FieldByIndex` on one reads its field out of
  any value of `t`.
* `appendStructFields_eq_error`: otherwise it panics in `NumField`, naming `t` or the type of an
  anonymous field met along a path, a type that is not a struct.
* `structNodeOf_valueByIndex`: the node `structNodeOf` builds stores those paths, each once,
  whatever order the names sort them in, and `structNode.ValueByIndex` reads each field.

## Strategy

The loop threads its result through an accumulator.  `appendStructFields_acc` takes the
accumulator out, and `appendStructFields_succ` writes the loop as the concatenation of what
each field contributes (`fieldFields`), a `mapM`.  The block of position `i` is exactly the
promoted fields whose path starts with `i` (`BlockOf`, `fieldFields_spec`); facts about `mapM`
in an `Except` monad (it succeeds when every call does, what the concatenation holds, when it
is sorted) put the blocks together (`blocks_ok_iff`, `blocks_flattened`) in the induction on
fuel.  Reading a field follows the same paths, one `fieldByIndexLoop_step` at a time.
-/

namespace ParquetGo

open Reflect (TypeEnv TypeId TypeDesc StructField Value Data HasType)

/-! ## Paths through anonymous fields -/

/-- `FieldPath env t p f`: following the positions `p` from the struct type `t`, through
anonymous fields of struct type, ends at the declared field `f`. -/
inductive FieldPath (env : TypeEnv) : TypeId → List Nat → StructField → Prop
  | here {t i f} : env.kind t = .struct → (env.desc t).fields[i]? = some f → FieldPath env t [i] f
  | embedded {t i e p f} : env.kind t = .struct → (env.desc t).fields[i]? = some e →
      e.anonymous → FieldPath env e.type p f → FieldPath env t (i :: p) f

/-- `t` is a struct, and so is the type of every anonymous field met along a path from `t`:
then `appendStructFields` never asks another kind of type for its fields. -/
structure EmbedsOnlyStructs (env : TypeEnv) (t : TypeId) : Prop where
  struct : env.kind t = .struct
  embedded : ∀ p f, FieldPath env t p f → f.anonymous → env.kind f.type = .struct

/-- `f` is an exported field with a name at the end of the path `p` from `t`:
`appendStructFields` lists it, with `p` as its `Index`. -/
def Promotes (env : TypeEnv) (t : TypeId) (p : List Nat) (f : StructField) : Prop :=
  FieldPath env t p f ∧ f.anonymous = false ∧ f.exported = true

/-- The contents of the field at the positions `p` inside struct contents. -/
def Reflect.Data.fieldAt : List Nat → Data → Option Data
  | [], d => some d
  | i :: p, .struct fields => fields[i]? >>= Reflect.Data.fieldAt p
  | _ :: _, _ => none

section Paths

variable {env : TypeEnv}

theorem FieldPath.struct {t p f} (h : FieldPath env t p f) : env.kind t = .struct := by
  cases h <;> assumption

theorem FieldPath.exists_cons {t p f} (h : FieldPath env t p f) :
    ∃ i e q, p = i :: q ∧ (env.desc t).fields[i]? = some e := by
  cases h with
  | here _ hi => exact ⟨_, _, [], rfl, hi⟩
  | embedded _ hi _ _ => exact ⟨_, _, _, rfl, hi⟩

/-- A path through a named field stops there. -/
theorem promotes_cons_of_named {t i e p f} (hs : env.kind t = .struct)
    (he : (env.desc t).fields[i]? = some e) (hname : e.anonymous = false) :
    Promotes env t (i :: p) f ↔ p = [] ∧ f = e ∧ e.exported = true := by
  constructor
  · rintro ⟨h | ⟨_, he', hanon, _⟩, -, hexp⟩ <;> simp_all
  · rintro ⟨rfl, rfl, hexp⟩
    exact ⟨.here hs he, hname, hexp⟩

/-- A path through an anonymous field goes on from its type. -/
theorem promotes_cons_of_anonymous {t i e p f} (hs : env.kind t = .struct)
    (he : (env.desc t).fields[i]? = some e) (hanon : e.anonymous = true) :
    Promotes env t (i :: p) f ↔ Promotes env e.type p f := by
  constructor
  · rintro ⟨h | ⟨_, he', _, hp⟩, hname, hexp⟩
    · simp_all
    · obtain rfl : e = _ := Option.some.inj (he.symm.trans he')
      exact ⟨hp, hname, hexp⟩
  · rintro ⟨hp, hname, hexp⟩
    exact ⟨.embedded hs he hanon hp, hname, hexp⟩

/-- `EmbedsOnlyStructs` one level down: `t` is a struct and each anonymous field's type
embeds only structs. -/
theorem embedsOnlyStructs_iff {t} : EmbedsOnlyStructs env t ↔
    env.kind t = .struct ∧ ∀ e ∈ (env.desc t).fields, e.anonymous → EmbedsOnlyStructs env e.type := by
  constructor
  · intro h
    refine ⟨h.struct, fun e he hanon => ?_⟩
    obtain ⟨i, hi⟩ := List.mem_iff_getElem?.1 he
    exact ⟨h.embedded [i] e (.here h.struct hi) hanon,
      fun p f hp => h.embedded (i :: p) f (.embedded h.struct hi hanon hp)⟩
  · rintro ⟨hs, h⟩
    refine ⟨hs, fun p f hp hanon => ?_⟩
    cases hp with
    | here _ hi => exact (h f (List.getElem?_mem hi) hanon).struct
    | embedded _ hi he hp => exact (h _ (List.getElem?_mem hi) he).embedded _ f hp hanon

end Paths

/-! ## Reading a field by its path -/

section Read

variable {env : TypeEnv}

/-- Contents of a struct type are struct contents, one per field, each of its field's type. -/
theorem Reflect.HasType.struct_inv {d t} (hd : HasType env d t) (hs : env.kind t = .struct) :
    ∃ ds, d = .struct ds ∧ ds.length = (env.desc t).fields.length ∧
      ∀ (i : Nat) d' (f : StructField), ds[i]? = some d' → (env.desc t).fields[i]? = some f →
        HasType env d' f.type := by
  cases hd with
  | struct _ hlen hfields =>
    exact ⟨_, rfl, hlen, fun i d' f hd' hf =>
      hfields (d', f) (List.getElem?_mem (List.getElem?_zip_eq_some.2 ⟨hd', hf⟩))⟩
  | _ => simp_all

/-- `Value.Field(i)` on struct contents of a struct type reads position `i`. -/
theorem field_of_struct {t ds i f} (hlen : ds.length = (env.desc t).fields.length)
    (hf : (env.desc t).fields[i]? = some f) :
    ∃ d', ds[i]? = some d' ∧ (Value.valid t (.struct ds)).field env i = .ok (.valid f.type d') := by
  have hi : i < ds.length := hlen ▸ (List.getElem?_eq_some_iff.1 hf).1
  exact ⟨ds[i], List.getElem?_eq_getElem hi, by simp [Value.field, TypeEnv.field, hf, hi]⟩

/-- `FieldByIndex` from a struct value is its loop: the first step reads a field too. -/
theorem fieldByIndex_struct {t ds} (hs : env.kind t = .struct) (i : Nat) (p : List Nat) :
    (Value.valid t (.struct ds)).fieldByIndex env (i :: p) =
      Value.fieldByIndexLoop env (i :: p) (.valid t (.struct ds)) := by
  cases p with
  | nil =>
    simp only [Value.fieldByIndex, Value.fieldByIndexLoop]
    show _ = Value.field env i (.valid t (.struct ds)) >>= fun w => Except.ok w
    cases Value.field env i (.valid t (.struct ds)) <;> rfl
  | cons j q => exact if_pos hs

/-- One step of `FieldByIndex`'s loop from contents of a struct type moves to the contents of
the field at that position, of the field's type. -/
theorem fieldByIndexLoop_step {t i e d} (hs : env.kind t = .struct)
    (hi : (env.desc t).fields[i]? = some e) (hd : HasType env d t) :
    ∃ d', HasType env d' e.type ∧ (∀ p, d.fieldAt (i :: p) = d'.fieldAt p) ∧
      ∀ p, Value.fieldByIndexLoop env (i :: p) (.valid t d) =
        Value.fieldByIndexLoop env p (.valid e.type d') := by
  obtain ⟨ds, rfl, hlen, htype⟩ := hd.struct_inv hs
  obtain ⟨d', hd', hfield⟩ := field_of_struct hlen hi
  refine ⟨d', htype _ _ _ hd' hi, fun p => by simp [Reflect.Data.fieldAt, hd'], fun p => ?_⟩
  show (Value.valid _ (.struct ds)).field env _ >>= _ = _
  rw [hfield]
  rfl

/-- Following a path from contents of `t` reads the contents of the field at its end, which
have the field's type. -/
theorem fieldByIndexLoop_of_fieldPath {t p f} (h : FieldPath env t p f) :
    ∀ {d}, HasType env d t → ∃ d', d.fieldAt p = some d' ∧ HasType env d' f.type ∧
      Value.fieldByIndexLoop env p (.valid t d) = .ok (.valid f.type d') := by
  induction h with
  | here hs hi =>
    intro d hd
    obtain ⟨d', htype, hat, hloop⟩ := fieldByIndexLoop_step hs hi hd
    exact ⟨d', (hat []).trans rfl, htype, (hloop []).trans rfl⟩
  | embedded hs hi _ _ ih =>
    intro d hd
    obtain ⟨d', htype, hat, hloop⟩ := fieldByIndexLoop_step hs hi hd
    obtain ⟨d'', hat', htype', hloop'⟩ := ih htype
    exact ⟨d'', (hat _).trans hat', htype', (hloop _).trans hloop'⟩

/-- `FieldByIndex` along a path from a value of `t` reads the field at its end. -/
theorem fieldByIndex_of_fieldPath {t p f d} (h : FieldPath env t p f) (hd : HasType env d t) :
    ∃ d', d.fieldAt p = some d' ∧ HasType env d' f.type ∧
      (Value.valid t d).fieldByIndex env p = .ok (.valid f.type d') := by
  obtain ⟨i, -, q, rfl, -⟩ := h.exists_cons
  obtain ⟨ds, rfl, -⟩ := hd.struct_inv h.struct
  rw [fieldByIndex_struct h.struct]
  exact fieldByIndexLoop_of_fieldPath h hd

end Read

/-! ## The loop as a concatenation -/

section Concat

variable {α β ε : Type}

/-- A fold whose step appends what a call returns is the concatenation of the calls' results. -/
theorem foldlM_eq_flatten_mapM {step : List β → α → Except ε (List β)} {g : α → Except ε (List β)}
    (hstep : ∀ acc x, step acc x = (acc ++ ·) <$> g x) :
    ∀ (xs : List α) (acc : List β),
      xs.foldlM step acc = (fun ls => acc ++ ls.flatten) <$> xs.mapM g
  | [], acc => by simp only [List.foldlM_nil, List.mapM_nil, map_pure, List.flatten_nil,
      List.append_nil]
  | x :: xs, acc => by
    simp only [List.foldlM_cons, hstep, List.mapM_cons, foldlM_eq_flatten_mapM hstep xs]
    cases g x <;> cases xs.mapM g <;> simp [bind, Except.bind, Functor.map, Except.map, pure,
      Except.pure]

theorem map_eq_ok {f : α → β} {x : Except ε α} {b : β} :
    f <$> x = .ok b ↔ ∃ a, x = .ok a ∧ f a = b := by
  cases x <;> simp [Functor.map, Except.map]

/-- A successful `mapM` over `x :: xs`: a successful call on `x`, then on the rest. -/
theorem mapM_cons_eq_ok {g : α → Except ε β} {x : α} {xs : List α} {ys : List β} :
    (x :: xs).mapM g = .ok ys ↔ ∃ y ys', g x = .ok y ∧ xs.mapM g = .ok ys' ∧ ys = y :: ys' := by
  rw [List.mapM_cons]
  cases g x <;> cases xs.mapM g <;> simp [bind, Except.bind, pure, Except.pure, eq_comm]

theorem mapM_nil_eq_ok {g : α → Except ε β} {ys : List β} : [].mapM g = .ok ys ↔ ys = [] := by
  rw [List.mapM_nil]
  simp [pure, Except.pure, eq_comm]

theorem map_eq_error {f : α → β} {x : Except ε α} {e : ε} : f <$> x = .error e ↔ x = .error e := by
  cases x <;> simp [Functor.map, Except.map]

/-- A failed `mapM` failed on one of the elements. -/
theorem mapM_eq_error {g : α → Except ε β} {e : ε} :
    ∀ {xs : List α}, xs.mapM g = .error e → ∃ x ∈ xs, g x = .error e
  | [], h => by
    rw [List.mapM_nil] at h
    cases h
  | x :: xs, h => by
    rw [List.mapM_cons] at h
    cases hx : g x with
    | error e' =>
      rw [hx] at h
      change Except.error e' = _ at h
      exact ⟨x, .head _, Except.error.inj h ▸ hx⟩
    | ok y =>
      rw [hx] at h
      cases hxs : xs.mapM g with
      | error e' =>
        rw [hxs] at h
        obtain ⟨x', hx', h'⟩ := mapM_eq_error (hxs.trans h)
        exact ⟨x', .tail _ hx', h'⟩
      | ok ys =>
        rw [hxs] at h
        cases h

/-- `mapM` succeeds when every call does. -/
theorem mapM_ok_iff {g : α → Except ε β} :
    ∀ xs : List α, (∃ ys, xs.mapM g = .ok ys) ↔ ∀ x ∈ xs, ∃ y, g x = .ok y
  | [] => by simp only [List.mapM_nil, List.not_mem_nil]; simp [pure, Except.pure]
  | x :: xs => by
    rw [List.forall_mem_cons, ← mapM_ok_iff xs, List.mapM_cons]
    cases g x <;> cases xs.mapM g <;> simp [bind, Except.bind, pure, Except.pure]

/-- What the concatenation of a successful `mapM` holds. -/
theorem mem_flatten_of_mapM {g : α → Except ε (List β)} {a : β} :
    ∀ {xs : List α} {ys : List (List β)}, xs.mapM g = .ok ys →
      (a ∈ ys.flatten ↔ ∃ x ∈ xs, ∃ y, g x = .ok y ∧ a ∈ y)
  | [], ys, h => by simp [mapM_nil_eq_ok.1 h]
  | x :: xs, ys, h => by
    obtain ⟨y, ys', hy, hys', rfl⟩ := mapM_cons_eq_ok.1 h
    rw [List.flatten_cons, List.mem_append, mem_flatten_of_mapM hys']
    simp [hy]

/-- The concatenation of a successful `mapM` is `R`-sorted when each result is and the results
for earlier elements come `R`-before those for later ones. -/
theorem pairwise_flatten_of_mapM {g : α → Except ε (List β)} {R : β → β → Prop} :
    ∀ {xs : List α} {ys : List (List β)}, xs.mapM g = .ok ys →
      (∀ x ∈ xs, ∀ y, g x = .ok y → y.Pairwise R) →
      xs.Pairwise (fun x x' => ∀ y y', g x = .ok y → g x' = .ok y' → ∀ a ∈ y, ∀ b ∈ y', R a b) →
      ys.flatten.Pairwise R
  | [], ys, h, _, _ => by simp [mapM_nil_eq_ok.1 h]
  | x :: xs, ys, h, hsorted, hbefore => by
    obtain ⟨y, ys', hy, hys', rfl⟩ := mapM_cons_eq_ok.1 h
    rw [List.pairwise_cons] at hbefore
    refine List.pairwise_append.2 ⟨hsorted x (.head _) y hy,
      pairwise_flatten_of_mapM hys' (fun x' hx' => hsorted x' (.tail _ hx')) hbefore.2,
      fun a ha b hb => ?_⟩
    obtain ⟨x', hx', y', hy', hb⟩ := (mem_flatten_of_mapM hys').1 hb
    exact hbefore.1 x' hx' y y' hy hy' a ha b hb

/-- What every call keeps of its argument, a successful `mapM` keeps of the list. -/
theorem mapM_map_of_ok {γ : Type} {g : α → Except ε β} {k : β → γ} {h : α → γ}
    (hg : ∀ x y, g x = .ok y → k y = h x) :
    ∀ {xs : List α} {ys : List β}, xs.mapM g = .ok ys → ys.map k = xs.map h
  | [], ys, hys => by simp [mapM_nil_eq_ok.1 hys]
  | x :: xs, ys, hys => by
    obtain ⟨y, ys', hy, hys', rfl⟩ := mapM_cons_eq_ok.1 hys
    simp only [List.map_cons, hg x y hy, mapM_map_of_ok hg hys']

/-- Positions are increasing along `enumFrom`. -/
theorem pairwise_enumFrom_fst_lt : ∀ (n : Nat) (l : List α), (l.enumFrom n).Pairwise (·.1 < ·.1)
  | _, [] => List.Pairwise.nil
  | n, _ :: l => List.pairwise_cons.2
      ⟨fun _ hx => List.le_fst_of_mem_enumFrom hx, pairwise_enumFrom_fst_lt (n + 1) l⟩

end Concat

/-! ## The loop of `appendStructFields` -/

section Loop

variable (env : TypeEnv)

/-- What the field at position `x.1` adds to `appendStructFields`'s result under `index`: the
fields of an embedded struct, the field itself when it is exported, or nothing. -/
def fieldFields (fuel : Nat) (index : List Nat) (x : Nat × StructField) :
    Build (List StructField) :=
  if x.2.anonymous then appendStructFields env fuel x.2.type [] (index ++ [x.1])
  else if x.2.exported then pure [{ x.2 with index := index ++ [x.1] }]
  else pure []

/-- The panic of `appendStructFields` on a type that is not a struct. -/
def numFieldPanic (t : TypeId) : Abort :=
  .panic ("reflect: NumField of non-struct type " ++ (env.desc t).string)

/-- Once `appendStructFields` appends to its accumulator at `fuel`, its loop at `fuel + 1`
concatenates what each field contributes. -/
theorem appendStructFields_succ_of_acc {fuel : Nat}
    (hacc : ∀ t acc index, appendStructFields env fuel t acc index =
      (acc ++ ·) <$> appendStructFields env fuel t [] index)
    (t : TypeId) (acc : List StructField) (index : List Nat) :
    appendStructFields env (fuel + 1) t acc index =
      if env.kind t = .struct then
        (fun ls => acc ++ ls.flatten) <$> (env.desc t).fields.enum.mapM (fieldFields env fuel index)
      else throw (numFieldPanic env t) := by
  rw [appendStructFields]
  by_cases hs : env.kind t = .struct
  · rw [if_pos hs, if_pos hs, @foldlM_eq_flatten_mapM _ _ _ _ (fieldFields env fuel index)]
    rintro acc ⟨i, f⟩
    simp only [fieldFields]
    split_ifs
    · exact hacc _ _ _
    · rfl
    · simp
  · rw [if_neg hs, if_neg hs]
    rfl

/-- `appendStructFields` appends to its accumulator what it returns from an empty one. -/
theorem appendStructFields_acc : ∀ (fuel : Nat) (t : TypeId) (acc : List StructField)
    (index : List Nat), appendStructFields env fuel t acc index =
      (acc ++ ·) <$> appendStructFields env fuel t [] index
  | 0, _, _, _ => rfl
  | fuel + 1, t, acc, index => by
    rw [appendStructFields_succ_of_acc env (appendStructFields_acc fuel),
      appendStructFields_succ_of_acc env (appendStructFields_acc fuel)]
    split
    · simp [Functor.map_map]
    · rfl

/-- The loop of `appendStructFields` concatenates what each field contributes. -/
theorem appendStructFields_succ (fuel : Nat) :
    ∀ (t : TypeId) (acc : List StructField) (index : List Nat),
      appendStructFields env (fuel + 1) t acc index =
        if env.kind t = .struct then
          (fun ls => acc ++ ls.flatten) <$>
            (env.desc t).fields.enum.mapM (fieldFields env fuel index)
        else throw (numFieldPanic env t) :=
  appendStructFields_succ_of_acc env (appendStructFields_acc env fuel)

end Loop

/-! ## What `appendStructFields` returns -/

/-- What `appendStructFields` returns from `t` under `index`: the fields `t` promotes, each with
`index` and then its path as `Index`, sorted by `Index`. -/
structure Flattened (env : TypeEnv) (t : TypeId) (index : List Nat)
    (fields : List StructField) : Prop where
  mem_iff : ∀ g, g ∈ fields ↔ ∃ p f, Promotes env t p f ∧ g = { f with index := index ++ p }
  sorted : fields.Pairwise fun g g' => List.Lex (· < ·) g.index g'.index

/-- `appendStructFields` at `fuel`, from `t` under `index`, succeeds exactly when `t` embeds only
structs, and then returns what `t` promotes. -/
def FlattensAt (env : TypeEnv) (fuel : Nat) (t : TypeId) (index : List Nat) : Prop :=
  ((∃ r, appendStructFields env fuel t [] index = .ok r) ↔ EmbedsOnlyStructs env t) ∧
    ∀ r, appendStructFields env fuel t [] index = .ok r → Flattened env t index r

section Spec

variable {env : TypeEnv}

/-- Sorted paths differ. -/
theorem Flattened.nodup {t index r} (h : Flattened env t index r) : (r.map (·.index)).Nodup :=
  (List.pairwise_map.2 h.sorted).imp fun h => List.Lex.to_ne (List.Lex.imp (fun _ _ => ne_of_lt) _ _ h)

/-- The block of the field at position `x.1` of the struct `t`: it is there unless the field is
anonymous and its type does not embed only structs, and it holds exactly the fields `t` promotes
along paths that start at `x.1`, sorted. -/
structure BlockOf (env : TypeEnv) (fuel : Nat) (t : TypeId) (index : List Nat)
    (x : Nat × StructField) : Prop where
  ok_iff : (∃ b, fieldFields env fuel index x = .ok b) ↔
    (x.2.anonymous = true → EmbedsOnlyStructs env x.2.type)
  mem_iff : ∀ b, fieldFields env fuel index x = .ok b →
    ∀ g, g ∈ b ↔ ∃ p f, Promotes env t (x.1 :: p) f ∧ g = { f with index := index ++ x.1 :: p }
  sorted : ∀ b, fieldFields env fuel index x = .ok b →
    b.Pairwise fun g g' => List.Lex (· < ·) g.index g'.index

theorem fieldFields_spec {fuel t} {x : Nat × StructField} (index : List Nat)
    (hs : env.kind t = .struct) (hx : (env.desc t).fields[x.1]? = some x.2)
    (ih : x.2.anonymous = true → FlattensAt env fuel x.2.type (index ++ [x.1])) :
    BlockOf env fuel t index x := by
  obtain ⟨i, e⟩ := x
  cases hanon : e.anonymous
  · refine ⟨?_, ?_, ?_⟩ <;> simp only [fieldFields, hanon, promotes_cons_of_named hs hx hanon] <;>
      cases hexp : e.exported <;> simp [pure, Except.pure, hexp, hanon, and_assoc]
  · obtain ⟨hok, hflat⟩ := ih hanon
    have hff : fieldFields env fuel index (i, e) =
        appendStructFields env fuel e.type [] (index ++ [i]) := by simp [fieldFields, hanon]
    refine ⟨by simp [hff, hok, hanon], fun b hb g => ?_,
      fun b hb => (hflat b (hff.symm.trans hb)).sorted⟩
    simp [(hflat b (hff.symm.trans hb)).mem_iff, promotes_cons_of_anonymous hs hx hanon]

/-- Paths from `t` start at some position of `t`, and the fields there promote along them. -/
theorem exists_promotes_cons {t} {P : List Nat → StructField → Prop} :
    (∃ x ∈ (env.desc t).fields.enum, ∃ p f, Promotes env t (x.1 :: p) f ∧ P (x.1 :: p) f) ↔
      ∃ p f, Promotes env t p f ∧ P p f := by
  constructor
  · rintro ⟨x, -, p, f, hp, hP⟩
    exact ⟨_, f, hp, hP⟩
  · rintro ⟨p, f, hp, hP⟩
    obtain ⟨i, e, q, rfl, he⟩ := hp.1.exists_cons
    exact ⟨(i, e), List.mem_enum_iff_getElem?.2 he, q, f, hp, hP⟩

section Blocks

variable {fuel : Nat} {t : TypeId} {index : List Nat}
  (hblock : ∀ x ∈ (env.desc t).fields.enum, BlockOf env fuel t index x)
include hblock

/-- The blocks of a struct are all there exactly when it embeds only structs. -/
theorem blocks_ok_iff (hs : env.kind t = .struct) :
    (∃ ys, (env.desc t).fields.enum.mapM (fieldFields env fuel index) = .ok ys) ↔
      EmbedsOnlyStructs env t := by
  rw [mapM_ok_iff, embedsOnlyStructs_iff, and_iff_right hs]
  constructor
  · intro h e he
    obtain ⟨i, hi⟩ := List.mem_iff_getElem?.1 he
    have hx : (i, e) ∈ (env.desc t).fields.enum := List.mem_enum_iff_getElem?.2 hi
    exact (hblock _ hx).ok_iff.1 (h _ hx)
  · exact fun h x hx =>
      (hblock x hx).ok_iff.2 (h x.2 (List.getElem?_mem (List.mem_enum_iff_getElem?.1 hx)))

/-- The concatenated blocks of a struct are what it promotes. -/
theorem blocks_flattened {ys} (hys : (env.desc t).fields.enum.mapM (fieldFields env fuel index) = .ok ys) :
    Flattened env t index ys.flatten := by
  have hok := (mapM_ok_iff _).1 ⟨ys, hys⟩
  refine ⟨fun g => ?_, pairwise_flatten_of_mapM hys (fun x hx => (hblock x hx).sorted)
    ((pairwise_enumFrom_fst_lt 0 _).imp_of_mem fun hx hx' hlt b b' hb hb' g hg g' hg' => ?_)⟩
  · rw [mem_flatten_of_mapM hys, ← exists_promotes_cons]
    refine exists_congr fun x => and_congr_right fun hx => ?_
    obtain ⟨b, hb⟩ := hok x hx
    rw [← (hblock x hx).mem_iff b hb g]
    exact ⟨fun ⟨b', hb', hg⟩ => Except.ok.inj (hb.symm.trans hb') ▸ hg, fun hg => ⟨b, hb, hg⟩⟩
  · obtain ⟨p, f, -, rfl⟩ := ((hblock _ hx).mem_iff b hb g).1 hg
    obtain ⟨p', f', -, rfl⟩ := ((hblock _ hx').mem_iff b' hb' g').1 hg'
    exact List.Lex.append_left _ (List.Lex.rel hlt) index

end Blocks

/-- With more fuel than the depth of `t`, `appendStructFields` succeeds exactly when `t` embeds
only structs, and then returns what `t` promotes. -/
theorem flattensAt : ∀ {fuel t} (index : List Nat), env.depth t < fuel → FlattensAt env fuel t index
  | 0, _, _, h => absurd h (Nat.not_lt_zero _)
  | fuel + 1, t, index, hfuel => by
    unfold FlattensAt
    rw [appendStructFields_succ]
    by_cases hs : env.kind t = .struct
    · have hblock := fun (x : Nat × StructField) (hx : x ∈ (env.desc t).fields.enum) =>
        have hx := List.mem_enum_iff_getElem?.1 hx
        @fieldFields_spec env fuel t x index hs hx fun _ =>
          flattensAt _ (by have := env.depth_field t _ (List.getElem?_mem hx); omega)
      simp only [if_pos hs, map_eq_ok, List.nil_append]
      refine ⟨?_, fun r ⟨ys, hys, hr⟩ => hr ▸ blocks_flattened hblock hys⟩
      rw [← blocks_ok_iff hblock hs]
      exact ⟨fun ⟨_, ys, hys, _⟩ => ⟨ys, hys⟩, fun ⟨ys, hys⟩ => ⟨_, ys, hys, rfl⟩⟩
    · rw [if_neg hs]
      exact ⟨iff_of_false (by rintro ⟨r, hr⟩; cases hr) (fun h => hs h.struct),
        fun r hr => by cases hr⟩

/-- With enough fuel `appendStructFields` fails only in `NumField`, on `t` itself or on the type
of an anonymous field met along a path from `t`, which is not a struct and which the panic
names. -/
theorem appendStructFields_eq_error : ∀ {fuel t} {index : List Nat} {e : Abort},
    env.depth t < fuel → appendStructFields env fuel t [] index = .error e →
    ∃ u, (u = t ∨ ∃ p f, FieldPath env t p f ∧ f.anonymous ∧ f.type = u) ∧
      env.kind u ≠ .struct ∧ e = numFieldPanic env u
  | 0, _, _, _, h, _ => absurd h (Nat.not_lt_zero _)
  | fuel + 1, t, index, e, hfuel, h => by
    rw [appendStructFields_succ] at h
    by_cases hs : env.kind t = .struct
    · rw [if_pos hs, map_eq_error] at h
      obtain ⟨⟨i, f⟩, hx, hf⟩ := mapM_eq_error h
      have hi := List.mem_enum_iff_getElem?.1 hx
      cases hanon : f.anonymous
      · cases hexp : f.exported <;> simp [fieldFields, hanon, hexp, pure, Except.pure] at hf
      · simp only [fieldFields, hanon, if_true] at hf
        have hdepth := env.depth_field t f (List.getElem?_mem hi)
        obtain ⟨u, hu, hkind, rfl⟩ := appendStructFields_eq_error (by omega) hf
        refine ⟨u, .inr ?_, hkind, rfl⟩
        rcases hu with rfl | ⟨p, g, hp, hganon, rfl⟩
        · exact ⟨[i], f, .here hs hi, hanon, rfl⟩
        · exact ⟨i :: p, g, .embedded hs hi hanon hp, hganon, rfl⟩
    · rw [if_neg hs] at h
      exact ⟨t, .inl rfl, hs, (Except.error.inj h).symm⟩

end Spec

/-! ## The flattened fields -/

/-- `appendStructFields(t, nil, nil)`, with the fuel `structFieldsOf` gives it, returns exactly
when `t` embeds only structs.  It then returns the exported named fields at the ends of paths
from `t` through anonymous fields, each with its path as `Index`, in depth-first declaration
order (sorted by path); no two paths are equal, and `FieldByIndex` on a field's path reads that
field out of any value of `t`. -/
theorem appendStructFields_flattens (env : TypeEnv) (t : TypeId) :
    ((∃ fields, appendStructFields env (env.depth t + 1) t [] [] = .ok fields) ↔
        EmbedsOnlyStructs env t) ∧
      ∀ fields, appendStructFields env (env.depth t + 1) t [] [] = .ok fields →
        (∀ g, g ∈ fields ↔ ∃ p f, Promotes env t p f ∧ g = { f with index := p }) ∧
        (fields.map (·.index)).Sorted (List.Lex (· < ·)) ∧
        (fields.map (·.index)).Nodup ∧
        ∀ g ∈ fields, ∀ d, HasType env d t → ∃ d', d.fieldAt g.index = some d' ∧
          (Value.valid t d).fieldByIndex env g.index = .ok (.valid g.type d') := by
  obtain ⟨hok, hflat⟩ := @flattensAt env _ t [] (Nat.lt_succ_self _)
  refine ⟨hok, fun fields h => ?_⟩
  have hf := hflat fields h
  refine ⟨hf.mem_iff, List.pairwise_map.2 hf.sorted, hf.nodup, fun g hg d hd => ?_⟩
  obtain ⟨p, f, hp, rfl⟩ := (hf.mem_iff g).1 hg
  obtain ⟨d', hat, -, hread⟩ := fieldByIndex_of_fieldPath hp.1 hd
  exact ⟨d', hat, hread⟩

/-! ## The paths of a struct node -/

section Node

variable {env : TypeEnv}

theorem makeStructField_snd {nodeOf : TypeId → Build Node} {f : StructField} {y : Node × List Nat}
    (h : makeStructField env nodeOf f = .ok y) : y.2 = f.index := by
  obtain ⟨_, -, h⟩ := bind_eq_ok.1 h
  cases h
  rfl

/-- The paths stored in the node `structNodeOf` builds for `t` are those of the fields `t`
promotes, each once: renaming and sorting the fields moves them but keeps their paths. -/
theorem structNodeOf_paths {nodeOf : TypeId → Build Node} {t fields names}
    (h : structNodeOf env nodeOf t = .ok (.structNode fields names)) :
    (∀ p, p ∈ fields.map (·.2) ↔ ∃ f, Promotes env t p f) ∧ (fields.map (·.2)).Nodup := by
  obtain ⟨sfs, hsfs, h⟩ := bind_eq_ok.1 h
  obtain ⟨ns, hns, h⟩ := bind_eq_ok.1 h
  cases h
  obtain ⟨raw, hraw, hsorted⟩ := bind_eq_ok.1 hsfs
  cases hsorted
  have hperm : (fields.map (·.2)).Perm (raw.map (·.index)) := by
    rw [mapM_map_of_ok (fun f y hy => makeStructField_snd hy) hns]
    have := (List.perm_insertionSort (fun a b : StructField => a.name.data ≤ b.name.data)
      (raw.map fun f => { f with name := resolvedName f })).map fun g : StructField => g.index
    rwa [List.map_map] at this
  have hf := (@flattensAt env _ t [] (Nat.lt_succ_self _)).2 raw hraw
  refine ⟨fun p => ?_, hperm.nodup_iff.2 hf.nodup⟩
  rw [hperm.mem_iff, List.mem_map]
  constructor
  · rintro ⟨g, hg, rfl⟩
    obtain ⟨q, f, hq, rfl⟩ := (hf.mem_iff g).1 hg
    exact ⟨f, hq⟩
  · rintro ⟨f, hp⟩
    exact ⟨_, (hf.mem_iff _).2 ⟨p, f, hp, rfl⟩, rfl⟩

/-- Every position of the node `structNodeOf` builds for `t` holds the path of a field that `t`
promotes, the path of each such field once, and `structNode.ValueByIndex` at the position reads
that field out of any value of `t`. -/
theorem structNodeOf_valueByIndex {nodeOf : TypeId → Build Node} {t fields names}
    (h : structNodeOf env nodeOf t = .ok (.structNode fields names)) :
    (∀ p, p ∈ fields.map (·.2) ↔ ∃ f, Promotes env t p f) ∧ (fields.map (·.2)).Nodup ∧
      ∀ j (hj : j < fields.length) d, HasType env d t → ∃ f d', Promotes env t fields[j].2 f ∧
        d.fieldAt fields[j].2 = some d' ∧
        valueByIndex env fields names (.valid t d) j = .ok (.valid f.type d') := by
  obtain ⟨hmem, hnodup⟩ := structNodeOf_paths h
  refine ⟨hmem, hnodup, fun j hj d hd => ?_⟩
  obtain ⟨f, hp⟩ := (hmem _).1 (List.mem_map_of_mem _ (List.getElem_mem hj))
  obtain ⟨d', hat, -, hread⟩ := fieldByIndex_of_fieldPath hp.1 hd
  refine ⟨f, d', hp, hat, ?_⟩
  have hslice : sliceAt fields (j : Int) = .ok fields[j] := by
    rw [sliceAt, if_pos (Int.natCast_nonneg j)]
    simp [hj]
  have hkind : (Value.valid t d).kind env = .struct := hp.1.struct
  simp only [valueByIndex, hkind, hslice]
  exact hread

end Node

/-! ## An embedded struct -/

/-- The types of a program with `type Base struct { A int64; b int64 }` and
`type Outer struct { Base; C int64 }`: `Outer` promotes `A` out of its embedded `Base`, and `b`
is not exported. -/
def embeddedDesc : TypeId → TypeDesc
  | 0 => { kind := .struct, name := "Outer", string := "main.Outer",
           fields := [{ plainField "Base" 1 0 with anonymous := true }, plainField "C" 2 1] }
  | 1 => { kind := .struct, name := "Base", string := "main.Base",
           fields := [plainField "A" 2 0, { plainField "b" 2 1 with exported := false }] }
  | 2 => { kind := .int64, name := "int64", string := "int64" }
  | _ => { kind := .invalid, name := "", string := "" }

/-- The program; `deprecated.Int96` is type 3, which nothing refers to. -/
def embeddedEnv : TypeEnv where
  desc := embeddedDesc
  int96 := 3
  depth t := if t = 0 then 2 else if t = 1 then 1 else 0
  depth_field := by
    intro t f hf
    rcases t with _ | _ | _ | t <;> simp_all [embeddedDesc, plainField]
    all_goals rcases hf with rfl | rfl <;> simp

/-- The node of `Outer`: `A` at path `[0, 0]` and `C` at `[1]`, sorted by name. -/
def outerFields : List (Node × List Nat) := [(int64Field, [0, 0]), (int64Field, [1])]

/-- The node of `Outer` stores the path of `A` through the embedded `Base`, and every position of
it reads its field out of any `Outer`. -/
theorem outer_node_reads_promoted :
    structNodeOf embeddedEnv (nodeOf embeddedEnv 1) 0 = .ok (.structNode outerFields ["A", "C"]) ∧
      (∀ p, p ∈ outerFields.map (·.2) ↔ ∃ f, Promotes embeddedEnv 0 p f) ∧
      (outerFields.map (·.2)).Nodup ∧
      ∀ j (hj : j < outerFields.length) d, HasType embeddedEnv d 0 → ∃ f d',
        Promotes embeddedEnv 0 outerFields[j].2 f ∧ d.fieldAt outerFields[j].2 = some d' ∧
        valueByIndex embeddedEnv outerFields ["A", "C"] (.valid 0 d) j = .ok (.valid f.type d') :=
  have h : structNodeOf embeddedEnv (nodeOf embeddedEnv 1) 0 =
      .ok (.structNode outerFields ["A", "C"]) := rfl
  ⟨h, structNodeOf_valueByIndex h⟩

end ParquetGo
