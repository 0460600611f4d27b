import Mathlib.Algebra.Group.Int
import ParquetGo.Proofs.Options

/-!
# What the loop over a tag reads

`makeStructField` takes a field's options off its `parquet` tag one at a time: `split` cuts the
text before the first comma, `splitOptionArgs` cuts that at its first `(`, and the loop goes on
with the rest until nothing is left.  Read as a whole, a tag is its comma-separated parts
(`commaParts`, a trailing empty part dropped): the first names the column and the others are the
options, in order (`tag_commaParts`).

No part holds a comma, so neither do the arguments of an option, and `parseDecimalArgs` needs a
comma between the scale and the precision: no tag can declare a field `decimal`, whatever
follows the keyword (`makeStructField_decimal_fails`).  The parser itself is right: it returns
exactly the pairs of 32-bit integers, and reads back each one written as `(scale,precision)`
(`parseDecimalArgs_round_trip`).

## Strategy

`span_sep` says what `List.span` does at a separator, and `split_cases` reads it on `split`.
One equation, `commaParts_of_ne_empty`, then says what `split` does to the parts: the first
part, and the parts of the rest.  The loop equation follows by induction on the loop's fuel,
and comma-freeness of the parts by the same recursion on the tag's length.  For the round trip,
`toDigitsCore_spec` follows `Nat.toDigitsCore` digit by digit: its digits, folded as `parseInt`
folds them, give the number back.
-/

namespace ParquetGo

open Reflect (TypeEnv TypeId StructField)

/-! ## Cutting at a separator -/

/-- `List.span` at a separator: the characters before its first occurrence, none of them the
separator, then the rest, which is empty or starts with the separator. -/
theorem span_sep (sep : Char) (cs : List Char) :
    (∀ c ∈ (cs.span (· != sep)).1, c ≠ sep) ∧
      (cs.span (· != sep)).1 ++ (cs.span (· != sep)).2 = cs ∧
      ∀ c t, (cs.span (· != sep)).2 = c :: t → c = sep := by
  rw [List.span_eq_take_drop]
  exact ⟨fun c hc => by simpa using List.mem_takeWhile_imp hc,
    List.takeWhile_append_dropWhile _ _,
    fun c t h => by simpa [show cs.dropWhile _ = c :: t from h] using
      List.head?_dropWhile_not (· != sep) cs⟩

/-- `split` at the first comma: the text before it, free of commas, and then either nothing
(there is no comma) or the comma and the text after it. -/
theorem split_cases (s : String) :
    (∀ c ∈ (split s).1.data, c ≠ ',') ∧
      ((split s).1 = s ∧ (split s).2 = "" ∨
        s.data = (split s).1.data ++ ',' :: (split s).2.data) := by
  obtain ⟨hfree, happ, hsep⟩ := span_sep ',' s.data
  unfold split
  generalize s.data.span (· != ',') = sp at hfree happ hsep ⊢
  rcases sp with ⟨head, _ | ⟨c, tail⟩⟩
  · exact ⟨hfree, .inl ⟨String.ext (by simpa using happ), rfl⟩⟩
  · obtain rfl := hsep c tail rfl
    exact ⟨hfree, .inr happ.symm⟩

theorem split_length_lt {s : String} (h : s ≠ "") : (split s).2.length < s.length := by
  have hne : s.data ≠ [] := fun h' => h (String.ext h')
  obtain ⟨-, ⟨-, h2⟩ | h2⟩ := split_cases s
  · rw [h2]
    exact List.length_pos.2 hne
  · show (split s).2.data.length < s.data.length
    rw [h2, List.length_append, List.length_cons]
    omega

/-- The arguments `splitOptionArgs` cuts off are `()`, or the end of the option's text. -/
theorem splitOptionArgs_args (s : String) :
    (splitOptionArgs s).2 = "()" ∨ (splitOptionArgs s).2.data <:+ s.data := by
  obtain ⟨-, happ, -⟩ := span_sep '(' s.data
  unfold splitOptionArgs
  generalize s.data.span (· != '(') = sp at happ ⊢
  rcases sp with ⟨option, _ | ⟨c, args⟩⟩
  · exact .inl rfl
  · exact .inr ⟨option, happ⟩

/-! ## The parts of a tag -/

/-- A list of parts with its last one dropped when it is empty. -/
def dropEmptyLast (parts : List String) : List String :=
  if parts.getLast? = some "" then parts.dropLast else parts

theorem dropEmptyLast_cons (part : String) {parts : List String} (h : parts ≠ []) :
    dropEmptyLast (part :: parts) = part :: dropEmptyLast parts := by
  obtain ⟨p, ps, rfl⟩ := List.exists_cons_of_ne_nil h
  unfold dropEmptyLast
  split_ifs <;> simp_all

/-- A tag's parts between its commas, the last one dropped when it is empty: the loop of
`makeStructField` stops when nothing follows a comma. -/
def commaParts (tag : String) : List String :=
  dropEmptyLast ((tag.data.splitOn ',').map String.mk)

@[simp] theorem commaParts_empty : commaParts "" = [] := rfl

/-- Everything about `commaParts` follows from this equation: a tag's parts are the text before
its first comma, and the parts of the rest. -/
theorem commaParts_of_ne_empty {tag : String} (h : tag ≠ "") :
    commaParts tag = (split tag).1 :: commaParts (split tag).2 := by
  obtain ⟨hfree, ⟨h1, h2⟩ | h2⟩ := split_cases tag
  · have hsingle : tag.data.splitOn ',' = [tag.data] :=
      List.splitOnP_eq_single _ _ fun c hc => by simpa using hfree c (by rw [h1]; exact hc)
    rw [h2, h1, commaParts_empty, commaParts, hsingle]
    simp [dropEmptyLast, h]
  · have hfirst : tag.data.splitOn ',' = (split tag).1.data :: (split tag).2.data.splitOn ',' := by
      rw [h2]
      exact List.splitOnP_first _ _ (fun c hc => by simpa using hfree c hc) ',' (by simp) _
    rw [commaParts, hfirst, List.map_cons,
      dropEmptyLast_cons _ (by simpa [List.splitOn] using List.splitOnP_ne_nil _ _)]
    rfl

/-- The loop of `makeStructField`, given enough fuel, runs over the tag's parts. -/
theorem tagOptions_go_eq (fuel : Nat) (tag : String) (h : tag.length ≤ fuel) :
    tagOptions.go fuel tag = (commaParts tag).map splitOptionArgs := by
  induction fuel generalizing tag with
  | zero =>
    obtain rfl : tag = "" := String.ext (List.eq_nil_of_length_eq_zero (Nat.le_zero.1 h))
    rfl
  | succ fuel ih =>
    rw [tagOptions.go]
    split_ifs with hempty
    · subst hempty
      rfl
    · have := split_length_lt hempty
      rw [commaParts_of_ne_empty hempty, List.map_cons, ih _ (by omega)]

/-- The options `makeStructField` reads after a field's name are the tag's other parts. -/
theorem tagOptions_split (tag : String) :
    tagOptions (split tag).2 = (commaParts tag).tail.map splitOptionArgs := by
  by_cases hempty : tag = ""
  · subst hempty
    rfl
  · rw [commaParts_of_ne_empty hempty, List.tail_cons]
    exact tagOptions_go_eq _ _ le_rfl

/-- No part of a tag holds a comma. -/
theorem comma_not_mem_of_mem_commaParts {tag part : String} (h : part ∈ commaParts tag) :
    ',' ∉ part.data := by
  by_cases hempty : tag = ""
  · subst hempty
    simp at h
  · rw [commaParts_of_ne_empty hempty] at h
    rcases List.mem_cons.1 h with rfl | h
    · exact fun hc => (split_cases tag).1 _ hc rfl
    · exact comma_not_mem_of_mem_commaParts h
termination_by tag.length
decreasing_by exact split_length_lt hempty

theorem comma_not_mem_splitOptionArgs {s : String} (h : ',' ∉ s.data) :
    ',' ∉ (splitOptionArgs s).2.data := by
  rcases splitOptionArgs_args s with hargs | hargs
  · rw [hargs]
    decide
  · exact fun hc => h (hargs.subset hc)

/-! ## The name and the options of a field -/

section

variable (env : TypeEnv) (nodeOf : TypeId → Build Node)

theorem resolvedName_eq_commaParts (f : StructField) :
    resolvedName f = if (commaParts (f.tag.get "parquet")).headD "" = "" then f.name
      else (commaParts (f.tag.get "parquet")).headD "" := by
  unfold resolvedName
  split
  · next h => rw [h]; rfl
  · next tag hempty => rw [commaParts_of_ne_empty hempty]; rfl

theorem makeStructField_eq_commaParts (f : StructField) :
    makeStructField env nodeOf f = (do
      pure (← structFieldNode env nodeOf f
        ((commaParts (f.tag.get "parquet")).tail.map splitOptionArgs), f.index)) := by
  unfold makeStructField
  split
  · next h => rw [h]; rfl
  · next tag _ => rw [tagOptions_split]

/-- How `makeStructField` and `resolvedName` read a field's tag: the column is named by the
tag's first comma-separated part (by the Go name when that part is empty or there is no tag),
and the options are the other parts, in order, a trailing empty part dropped, each cut at its
first `(` into the keyword and its arguments. -/
theorem tag_commaParts (f : StructField) :
    (resolvedName f = if (commaParts (f.tag.get "parquet")).headD "" = "" then f.name
      else (commaParts (f.tag.get "parquet")).headD "") ∧
    makeStructField env nodeOf f = (do
      pure (← structFieldNode env nodeOf f
        ((commaParts (f.tag.get "parquet")).tail.map splitOptionArgs), f.index)) :=
  ⟨resolvedName_eq_commaParts f, makeStructField_eq_commaParts env nodeOf f⟩

/-! ## No decimal from a tag -/

/-- Without a comma between its parentheses, `parseDecimalArgs` fails. -/
theorem parseDecimalArgs_of_comma_not_mem {args : String} (h : ',' ∉ args.data) :
    ∃ e, parseDecimalArgs args = .error e := by
  unfold parseDecimalArgs
  split_ifs
  · exact ⟨_, rfl⟩
  · have hsingle : ((args.data.drop 1).dropLast).splitOn ',' = [(args.data.drop 1).dropLast] :=
      List.splitOnP_eq_single _ _ fun c hc hc' => by
        obtain rfl : c = ',' := by simpa using hc'
        exact h (List.drop_subset _ _ (List.dropLast_subset _ hc))
    simp only [hsingle]
    exact ⟨_, rfl⟩

/-- Every field whose tag has an option `decimal`, whatever its arguments, makes
`makeStructField` fail: the tag is cut at every comma, so the arguments hold none, and
`parseDecimalArgs` rejects arguments without the comma between scale and precision.  No field
can be declared a decimal through its tag. -/
theorem makeStructField_decimal_fails (f : StructField)
    (hdecimal : ∃ part ∈ (commaParts (f.tag.get "parquet")).tail,
      (splitOptionArgs part).1 = "decimal") :
    ∃ e, makeStructField env nodeOf f = .error e := by
  obtain ⟨part, hpart, hkey⟩ := hdecimal
  have hloop : ¬ LoopAccepted env nodeOf f
      ((commaParts (f.tag.get "parquet")).tail.map splitOptionArgs) := fun hacc => by
    have hallowed := hacc.allowed _ (List.mem_map_of_mem _ hpart)
    simp only [KindAllows, hkey, optionRole_decimal] at hallowed
    obtain ⟨e, he⟩ := parseDecimalArgs_of_comma_not_mem
      (comma_not_mem_splitOptionArgs (comma_not_mem_of_mem_commaParts (List.mem_of_mem_tail hpart)))
    obtain ⟨⟨sp, hsp⟩, -⟩ := hallowed
    rw [hsp] at he
    cases he
  rw [makeStructField_eq_commaParts]
  cases hnode : structFieldNode env nodeOf f
      ((commaParts (f.tag.get "parquet")).tail.map splitOptionArgs) with
  | error e => exact ⟨e, rfl⟩
  | ok node =>
    obtain ⟨s, hs, -⟩ := bind_eq_ok.1 hnode
    exact absurd ((foldlM_applyOption _).1.1 ⟨s, hs⟩) hloop

end

/-- The documented `cost,decimal(0,3)` has the keyword `decimal` in its second part, and its
field's node fails. -/
theorem cost_field_never_decimal :
    (∃ part ∈ (commaParts (costField.tag.get "parquet")).tail,
      (splitOptionArgs part).1 = "decimal") ∧
    ∃ e, makeStructField tagsEnv (nodeOf tagsEnv 10) costField = .error e :=
  have h : ∃ part ∈ (commaParts (costField.tag.get "parquet")).tail,
      (splitOptionArgs part).1 = "decimal" := ⟨"decimal(0", by decide, rfl⟩
  ⟨h, makeStructField_decimal_fails tagsEnv (nodeOf tagsEnv 10) costField h⟩

/-! ## The arguments of `decimal` -/

/-- A decimal digit's character, as `Nat.digitChar` writes it and `parseInt` reads it. -/
theorem digitChar_spec : ∀ d < 10, (Nat.digitChar d).isDigit = true ∧
    (Nat.digitChar d).toNat - '0'.toNat = d := by decide

/-- The digits `Nat.toDigitsCore` puts before `ds`, given more fuel than the number: a non-empty
run of decimal digits, which `parseInt`'s fold reads back as the number. -/
theorem toDigitsCore_spec (fuel n : Nat) (ds : List Char) (h : n < fuel) :
    ∃ digits, Nat.toDigitsCore 10 fuel n ds = digits ++ ds ∧ digits ≠ [] ∧
      (∀ c ∈ digits, c.isDigit = true) ∧
      digits.foldl (fun n c => 10 * n + (c.toNat - '0'.toNat)) 0 = n := by
  induction fuel generalizing n ds with
  | zero => omega
  | succ fuel ih =>
    have hd := digitChar_spec (n % 10) (Nat.mod_lt _ (by decide))
    have hstep : Nat.toDigitsCore 10 (fuel + 1) n ds =
        if n / 10 = 0 then Nat.digitChar (n % 10) :: ds
        else Nat.toDigitsCore 10 fuel (n / 10) (Nat.digitChar (n % 10) :: ds) := rfl
    rw [hstep]
    split_ifs with hzero
    · refine ⟨[Nat.digitChar (n % 10)], rfl, by simp, by simpa using hd.1, ?_⟩
      rw [List.foldl_cons, List.foldl_nil, hd.2]
      omega
    · obtain ⟨digits, heq, hne, hdig, hfold⟩ :=
        ih (n / 10) (Nat.digitChar (n % 10) :: ds) (by omega)
      refine ⟨digits ++ [Nat.digitChar (n % 10)], by simp [heq], by simp, ?_, ?_⟩
      · simpa [or_imp, forall_and] using ⟨hdig, hd.1⟩
      · rw [List.foldl_append, hfold, List.foldl_cons, List.foldl_nil, hd.2]
        omega

/-- An integer as `toString` writes it: a `-` when it is negative, then a non-empty run of
decimal digits, which `parseInt`'s fold reads back as its absolute value. -/
theorem toString_int_data (n : Int) :
    ∃ digits, (toString n).data = (if n < 0 then ['-'] else []) ++ digits ∧ digits ≠ [] ∧
      (∀ c ∈ digits, c.isDigit = true) ∧
      digits.foldl (fun n c => 10 * n + (c.toNat - '0'.toNat)) 0 = n.natAbs := by
  cases n with
  | ofNat m =>
    obtain ⟨digits, heq, h⟩ := toDigitsCore_spec (m + 1) m [] (by omega)
    exact ⟨digits, by simpa using heq, h⟩
  | negSucc m =>
    obtain ⟨digits, heq, h⟩ := toDigitsCore_spec (m + 2) (m + 1) [] (by omega)
    rw [List.append_nil] at heq
    refine ⟨digits, ?_, h⟩
    rw [if_pos (Int.negSucc_lt_zero m), ← heq]
    rfl

theorem ne_of_isDigit {c : Char} (h : c.isDigit = true) :
    c ≠ '+' ∧ c ≠ '-' ∧ c ≠ ',' := by
  refine ⟨?_, ?_, ?_⟩ <;> rintro rfl <;> exact absurd h (by decide)

/-- `parseInt` reads back every integer in the range of its bit size, written by `toString`. -/
theorem parseInt_toString (n : Int) (bitSize : Nat) (hlo : -2 ^ bitSize ≤ n)
    (hhi : n < 2 ^ bitSize) : parseInt (toString n) (bitSize + 1) = .ok n := by
  obtain ⟨digits, hs, hne, hdig, hfold⟩ := toString_int_data n
  obtain ⟨d, ds, rfl⟩ := List.exists_cons_of_ne_nil hne
  have hd := ne_of_isDigit (hdig d (List.mem_cons_self _ _))
  unfold parseInt
  rw [hs]
  split
  next negative digits' hsign =>
    obtain ⟨rfl, rfl⟩ : negative = decide (n < 0) ∧ digits' = d :: ds := by
      split_ifs at hsign with hneg
      · simp only [List.singleton_append, Prod.mk.injEq] at hsign
        exact ⟨by rw [← hsign.1, decide_eq_true hneg], hsign.2.symm⟩
      · simp only [List.nil_append] at hsign
        split at hsign
        · exact absurd (List.cons.inj ‹_›).1 hd.1
        · exact absurd (List.cons.inj ‹_›).1 hd.2.1
        · simp only [Prod.mk.injEq] at hsign
          exact ⟨by rw [← hsign.1, decide_eq_false hneg], hsign.2.symm⟩
    rw [Nat.add_sub_cancel]
    rw [show (2 : ℤ) ^ bitSize = ((2 ^ bitSize : ℕ) : ℤ) from (Int.natCast_pow 2 _).symm]
      at hlo hhi
    generalize 2 ^ bitSize = P at hlo hhi ⊢
    simp only [List.all_eq_true.2 hdig, hfold]
    by_cases hneg : n < 0
    · have := Int.ofNat_natAbs_of_nonpos hneg.le
      generalize n.natAbs = m at this ⊢
      simp [hneg]
      rw [if_neg (by omega), this, Int.neg_neg]
    · have := Int.natAbs_of_nonneg (Int.not_lt.1 hneg)
      generalize n.natAbs = m at this ⊢
      simp [hneg]
      rw [if_neg (by omega), this]

/-- Whatever `parseInt` returns is in the range of its bit size. -/
theorem parseInt_range {s : String} {bitSize : Nat} {n : Int}
    (h : parseInt s (bitSize + 1) = .ok n) : -2 ^ bitSize ≤ n ∧ n < 2 ^ bitSize := by
  unfold parseInt at h
  split at h
  dsimp only at h
  rw [Nat.add_sub_cancel] at h
  rw [show (2 : ℤ) ^ bitSize = ((2 ^ bitSize : ℕ) : ℤ) from (Int.natCast_pow 2 _).symm]
  have hP := Nat.two_pow_pos bitSize
  generalize 2 ^ bitSize = P at h hP ⊢
  generalize List.foldl _ 0 _ = v at h
  split_ifs at h with h1 h2 hneg <;> cases h
  · simp [hneg] at h2
    omega
  · simp [hneg] at h2
    omega

/-- `parseDecimalArgs` returns only pairs of 32-bit integers, and reads back every such pair
written as `(scale,precision)`. -/
theorem parseDecimalArgs_round_trip :
    (∀ args scale precision, parseDecimalArgs args = .ok (scale, precision) →
      (-2 ^ 31 ≤ scale ∧ scale < 2 ^ 31) ∧ (-2 ^ 31 ≤ precision ∧ precision < 2 ^ 31)) ∧
    ∀ scale precision : Int, -2 ^ 31 ≤ scale → scale < 2 ^ 31 →
      -2 ^ 31 ≤ precision → precision < 2 ^ 31 →
      parseDecimalArgs ("(" ++ toString scale ++ "," ++ toString precision ++ ")") =
        .ok (scale, precision) := by
  refine ⟨fun args scale precision h => ?_, fun scale precision h1 h2 h3 h4 => ?_⟩
  · unfold parseDecimalArgs at h
    split_ifs at h
    dsimp only at h
    split at h
    · obtain ⟨s, hs, h⟩ := bind_eq_ok.1 h
      obtain ⟨p, hp, h⟩ := bind_eq_ok.1 h
      cases h
      exact ⟨parseInt_range hs, parseInt_range hp⟩
    · cases h
  · have hcomma (n : Int) : ∀ c ∈ (toString n).data, ¬ (c == ',') = true := by
      obtain ⟨digits, hs, -, hdig, -⟩ := toString_int_data n
      rw [hs]
      intro c hc
      rcases List.mem_append.1 hc with hc | hc
      · split_ifs at hc
        · rw [List.mem_singleton.1 hc]
          decide
        · exact absurd hc (List.not_mem_nil c)
      · simpa using (ne_of_isDigit (hdig c hc)).2.2
    have hsplit : ((toString scale).data ++ ',' :: (toString precision).data).splitOn ',' =
        [(toString scale).data, (toString precision).data] := by
      rw [List.splitOn, List.splitOnP_first _ _ (hcomma scale) ',' (by simp),
        List.splitOnP_eq_single _ _ (hcomma precision)]
    have hdata : ("(" ++ toString scale ++ "," ++ toString precision ++ ")").data =
        '(' :: (((toString scale).data ++ ',' :: (toString precision).data) ++ [')']) := by simp
    unfold parseDecimalArgs
    rw [hdata, List.drop_one, List.tail_cons, List.dropLast_concat,
      if_neg (by rw [← List.cons_append, List.getLast?_concat]; simp)]
    dsimp only
    rw [hsplit]
    simp only [parseInt_toString scale 31 h1 h2, parseInt_toString precision 31 h3 h4]
    rfl

/-- `(-1,3)` is read back, and its two numbers are 32-bit integers. -/
theorem decimal_args_read_back :
    parseDecimalArgs ("(" ++ toString (-1 : Int) ++ "," ++ toString (3 : Int) ++ ")") =
        .ok (-1, 3) ∧
      (-2 ^ 31 ≤ (-1 : Int) ∧ (-1 : Int) < 2 ^ 31) ∧
        (-2 ^ 31 ≤ (3 : Int) ∧ (3 : Int) < 2 ^ 31) :=
  have h := parseDecimalArgs_round_trip.2 (-1) 3 (by decide) (by decide) (by decide) (by decide)
  ⟨h, parseDecimalArgs_round_trip.1 _ _ _ h⟩

end ParquetGo
