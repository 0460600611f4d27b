import ParquetGo.Proofs.Compile

/-!
# Field names and `indexOf`

`structFieldsOf` sorts a struct's fields by their resolved names, and `(*structNode).indexOf`
looks a name up among them with `sort.Search`.  This file shows what the lookup returns on
the names `structNodeOf` builds: the position of the first field with that name, and `-1` for
any other name.  So the by-name lookups `ChildByName` and `ValueByName`, which go through
`indexOf`, agree with the by-index lookups at that position.

Nothing checks that the resolved names differ.  Two fields tagged with the same name, or an
embedded struct's field named like an outer one, give the same name twice, and then the
lookup by the second field's name finds the first field (`duplicate_tags_share_a_name`).

## Strategy

`search_spec` is the loop invariant of `sort.Search`: everything left of `i` fails the test,
`j` passes it, and the fuel covers `j - i`.  On sorted names the test `names[i] ≥ x` is
monotone, so the search stops at the first name not below `x` (`indexOf_of_sorted`).
-/

namespace ParquetGo

open Reflect (TypeEnv TypeId TypeDesc StructField)

/-! ## `sort.Search` -/

section Search

variable (f : Nat → Bool) (n : Nat) (hmono : ∀ a b, a ≤ b → b < n → f a = true → f b = true)
include hmono

/-- The loop invariant of `sort.Search`: the answer lies in `[i, j]`. -/
theorem search_spec : ∀ fuel i j, i ≤ j → j ≤ n → j - i ≤ fuel →
    (∀ m < i, f m = false) → (j < n → f j = true) →
      search f fuel i j ≤ n ∧ (∀ m < search f fuel i j, f m = false) ∧
        (search f fuel i j < n → f (search f fuel i j) = true)
  | 0, i, j, hij, hj, hfuel, hleft, hright => by
      obtain rfl : i = j := by omega
      exact ⟨hj, hleft, hright⟩
  | fuel + 1, i, j, hij, hj, hfuel, hleft, hright => by
      simp only [search]
      split_ifs with hlt hmid
      · refine search_spec fuel _ j (by omega) hj (by omega) (fun m hm => ?_) hright
        by_contra hfm
        have := hmono m ((i + j) / 2) (by omega) (by omega) (by simpa using hfm)
        simp_all
      · exact search_spec fuel i _ (by omega) (by omega) (by omega) hleft
          fun _ => by simpa using hmid
      · obtain rfl : i = j := by omega
        exact ⟨hj, hleft, hright⟩

/-- `sort.Search(n, f)` returns the first index of `[0, n)` where `f` holds, or `n`. -/
theorem sortSearch_spec : sortSearch n f ≤ n ∧ (∀ m < sortSearch n f, f m = false) ∧
    (sortSearch n f < n → f (sortSearch n f) = true) :=
  search_spec f n hmono n 0 n (Nat.zero_le n) le_rfl (by omega) (by simp) (by simp)

end Search

/-! ## `indexOf` on sorted names -/

theorem indexOf_eq_of_getElem {x : String} : ∀ {names : List String} {r : Nat}
    (hr : r < names.length), names[r] = x → (∀ m (hm : m < r), names[m] ≠ x) →
      names.indexOf x = r
  | [], _, hr, _, _ => by simp at hr
  | y :: names, 0, _, hx, _ => by simp_all [List.indexOf_cons_eq]
  | y :: names, r + 1, hr, hx, hbefore => by
      have hy : y ≠ x := by simpa using hbefore 0 (by omega)
      rw [List.indexOf_cons_ne _ hy, @indexOf_eq_of_getElem x names r (by simpa using hr)
        (by simpa using hx) fun m hm => by simpa using hbefore (m + 1) (by omega)]

theorem String.eq_of_data_le {a b : String} (hab : a.data ≤ b.data) (hba : b.data ≤ a.data) :
    a = b :=
  String.ext (le_antisymm hab hba)

/-- On names sorted by Go's byte order, `indexOf` finds the first position of a name that is
among them, and returns `-1` for any other. -/
theorem indexOf_of_sorted {names : List String} (hsorted : names.Sorted (·.data ≤ ·.data))
    (x : String) : indexOf names x = if x ∈ names then (names.indexOf x : Int) else -1 := by
  have hle : ∀ a b (ha : a < names.length) (hb : b < names.length), a ≤ b →
      names[a].data ≤ names[b].data := by
    intro a b ha hb hab
    rcases hab.lt_or_eq with hab | rfl
    · exact hsorted.rel_get_of_lt (a := ⟨a, ha⟩) (b := ⟨b, hb⟩) hab
    · exact le_rfl
  have hgetD : ∀ i (hi : i < names.length), names.getD i "" = names[i] := fun i hi => by
    simp [List.getElem?_eq_getElem hi]
  obtain ⟨hrn, hleft, hright⟩ := sortSearch_spec
    (fun i => !decide ((names.getD i "").data < x.data)) names.length fun a b hab hb ha => by
      simp only [hgetD a (lt_of_le_of_lt hab hb), hgetD b hb, Bool.not_eq_true',
        decide_eq_false_iff_not, not_lt] at ha ⊢
      exact ha.trans (hle a b _ hb hab)
  simp only [indexOf]
  generalize sortSearch names.length _ = r at hrn hleft hright ⊢
  have hbelow : ∀ m (hm : m < r), names[m].data < x.data := fun m hm => by
    have := hleft m hm
    rw [hgetD m (by omega)] at this
    simpa using this
  by_cases hx : x ∈ names
  · have hj := List.indexOf_lt_length.2 hx
    have hxj := List.getElem_indexOf hj
    have hrj : r ≤ names.indexOf x := by
      by_contra hrj
      have := hbelow _ (by omega : names.indexOf x < r)
      rw [hxj] at this
      exact lt_irrefl _ this
    have hr : r < names.length := by omega
    have hxr := hright hr
    simp only [hgetD r hr, Bool.not_eq_true', decide_eq_false_iff_not, not_lt] at hxr
    have hrx : names[r] = x := String.eq_of_data_le (hxj ▸ hle r _ hr hj hrj) hxr
    have hindex : names.indexOf x = r := indexOf_eq_of_getElem hr hrx
      fun m hm hmx => lt_irrefl x.data (hmx ▸ hbelow m hm)
    rw [if_pos hx, if_neg (by rw [hgetD r hr, hrx]; simp only [ne_eq, not_true_eq_false, or_false]; omega), hindex]
  · rw [if_neg hx, if_pos]
    by_cases hr : r = names.length
    · exact .inl hr
    · refine .inr fun hrx => hx ?_
      rw [← hrx, hgetD r (by omega)]
      exact List.getElem_mem _

theorem indexOf_singleton (name : String) : indexOf [name] name = 0 := by
  simp [indexOf, sortSearch, search]

/-! ## The names `structNodeOf` builds -/

/-- What the by-name lookups of a `*structNode` satisfy on its own names. -/
structure NameLookup (env : TypeEnv) (fields : List (Node × List Nat)) (names : List String) :
    Prop where
  /-- One name per field. -/
  length_eq : names.length = fields.length
  /-- The names are sorted in Go's byte order; a name may repeat. -/
  sorted : names.Sorted (·.data ≤ ·.data)
  /-- Any other name is not found. -/
  indexOf_not_mem : ∀ x, x ∉ names → indexOf names x = -1
  /-- A name among them is found at its first position, where `ChildByName` and
  `ValueByName` then look. -/
  byName : ∀ x ∈ names, indexOf names x = names.indexOf x ∧
    (Node.structNode fields names).childByName x = childByIndex fields (names.indexOf x) ∧
    ∀ base, (Node.structNode fields names).valueByName env base x =
      valueByIndex env fields names base (names.indexOf x)
  /-- When the names differ, each is found at its own position. -/
  indexOf_getElem : names.Nodup → ∀ i (hi : i < names.length), indexOf names names[i] = i

theorem mapM_length {α β : Type} {f : α → Build β} :
    ∀ {l : List α} {r : List β}, l.mapM f = .ok r → r.length = l.length
  | [], r, h => by
      simp only [List.mapM_nil] at h
      cases h
      rfl
  | a :: l, r, h => by
      rw [List.mapM_cons] at h
      obtain ⟨b, -, h⟩ := bind_eq_ok.1 h
      obtain ⟨bs, hbs, h⟩ := bind_eq_ok.1 h
      cases h
      simp [mapM_length hbs]

theorem structFieldsOf_sorted {env : TypeEnv} {t : TypeId} {fields : List StructField}
    (h : structFieldsOf env t = .ok fields) : fields.Sorted (·.name.data ≤ ·.name.data) := by
  obtain ⟨raw, -, h⟩ := bind_eq_ok.1 h
  cases h
  exact @List.sorted_insertionSort StructField (·.name.data ≤ ·.name.data) _
    ⟨fun a b => le_total a.name.data b.name.data⟩ ⟨fun _ _ _ => le_trans⟩ _

/-- A field without a tag, at position `i` of its struct. -/
def plainField (name : String) (type : TypeId) (i : Nat) : StructField :=
  { name, type, tag := ⟨[]⟩, index := [i], anonymous := false, exported := true }

/-- The node of an `int64` field without options. -/
def int64Field : Node := encoded (compressed (int 64) []) []

/-- A field `name int64` at position `i`, tagged `parquet:"x"`. -/
def taggedX (name : String) (i : Nat) : StructField :=
  { name, type := 1, tag := ⟨[("parquet", "x")]⟩, index := [i], anonymous := false,
    exported := true }

/-- The types of ``type T struct { A int64 `parquet:"x"`; B int64 `parquet:"x"` }``. -/
def duplicateDesc : TypeId → TypeDesc
  | 0 => { kind := .struct, name := "T", string := "main.T",
           fields := [taggedX "A" 0, taggedX "B" 1] }
  | 1 => { kind := .int64, name := "int64", string := "int64" }
  | _ => { kind := .invalid, name := "", string := "" }

/-- The program of `T`. -/
def duplicateEnv : TypeEnv where
  desc := duplicateDesc
  int96 := 2
  depth t := if t = 0 then 1 else 0
  depth_field := by
    intro t f hf
    rcases t with _ | _ | t <;> simp_all [duplicateDesc]
    rcases hf with rfl | rfl <;> simp [taggedX]

/-- The fields of the node of `T`. -/
def duplicateFields : List (Node × List Nat) := [(int64Field, [0]), (int64Field, [1])]

/-- `T{A: 1, B: 2}`. -/
def duplicateValue : Reflect.Value := .valid 0 (.struct [.int 1, .int 2])

/-- The names of every struct node `structNodeOf` builds are sorted, and the lookups by name
find the first field of each name. -/
theorem structNodeOf_nameLookup (env : TypeEnv) (nodeOf : TypeId → Build Node) (t : TypeId)
    (fields : List (Node × List Nat)) (names : List String)
    (h : structNodeOf env nodeOf t = .ok (.structNode fields names)) :
    NameLookup env fields names := by
  obtain ⟨sfs, hsfs, h⟩ := bind_eq_ok.1 h
  obtain ⟨nodes, hnodes, h⟩ := bind_eq_ok.1 h
  cases h
  have hsorted : (sfs.map (·.name)).Sorted (·.data ≤ ·.data) :=
    List.pairwise_map.2 (structFieldsOf_sorted hsfs)
  refine ⟨by simp [mapM_length hnodes], hsorted, fun x hx => ?_, fun x hx => ?_, ?_⟩
  · simp [indexOf_of_sorted hsorted, hx]
  · have hindex := indexOf_of_sorted hsorted x
    rw [if_pos hx] at hindex
    exact ⟨hindex, by simp [Node.childByName, hindex], fun base => by
      simp [Node.valueByName, hindex]⟩
  · intro hnodup i hi
    rw [indexOf_of_sorted hsorted, if_pos (List.getElem_mem _), List.indexOf_getElem hnodup]

theorem duplicate_nameLookup : NameLookup duplicateEnv duplicateFields ["x", "x"] :=
  structNodeOf_nameLookup duplicateEnv (nodeOf duplicateEnv 1) 0 _ _ rfl

/-- Both fields of `T` resolve to `x`: the names are not strictly increasing, and the lookup
by the second field's name reads the first field. -/
theorem duplicate_tags_share_a_name :
    structNodeOf duplicateEnv (nodeOf duplicateEnv 1) 0 =
        .ok (.structNode duplicateFields ["x", "x"]) ∧
      (Node.structNode duplicateFields ["x", "x"]).valueByName duplicateEnv duplicateValue "x" =
        .ok (.valid 1 (.int 1)) ∧
      valueByIndex duplicateEnv duplicateFields ["x", "x"] duplicateValue 1 =
        .ok (.valid 1 (.int 2)) :=
  ⟨rfl, rfl, rfl⟩

end ParquetGo
