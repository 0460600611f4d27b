import Mathlib.Data.List.Basic
import Mathlib.Algebra.Group.Nat.Basic

/-!
# The `parquet` tag

A field's tag is `name,option,option,...`; an option is a keyword, possibly followed by
arguments in parentheses.  `split` and `splitOptionArgs` take it apart, `parseDecimalArgs`
reads the arguments of `decimal`.  Go strings are bytes; the separators are ASCII, so cutting
at them is cutting the string's characters (`String.data`).
-/

namespace ParquetGo

/-- `split`: the text before the first comma, and the text after it (empty when there is no
comma). -/
def split (s : String) : String × String :=
  match s.data.span (· != ',') with
  | (head, []) => (⟨head⟩, "")
  | (head, _ :: tail) => (⟨head⟩, ⟨tail⟩)

/-- `splitOptionArgs`: the keyword, and the arguments from the first `(` on, or `"()"` when
there is none. -/
def splitOptionArgs (s : String) : String × String :=
  match s.data.span (· != '(') with
  | (_, []) => (s, "()")
  | (option, args) => (⟨option⟩, ⟨args⟩)

/-- The options the loop `for tag != "" { option, tag = split(tag); ... }` of
`makeStructField` takes off a tag, each with its arguments.  The loop stops once the rest is
empty, so it runs at most once per character: `fuel` starts at the tag's length. -/
def tagOptions (tag : String) : List (String × String) :=
  go tag.length tag
where
  /-- The loop, with `fuel` iterations left. -/
  go : Nat → String → List (String × String)
    | 0, _ => []
    | fuel + 1, tag => if tag = "" then [] else splitOptionArgs (split tag).1 :: go fuel (split tag).2

/-- `strconv.ParseInt(s, 10, bitSize)`: an optional sign, then decimal digits, within the
range of a signed `bitSize`-bit integer. -/
def parseInt (s : String) (bitSize : Nat) : Except String Int :=
  let (negative, digits) := match s.data with
    | '+' :: rest => (false, rest)
    | '-' :: rest => (true, rest)
    | rest => (false, rest)
  if digits.isEmpty || !digits.all Char.isDigit then
    .error ("strconv.ParseInt: parsing \"" ++ s ++ "\": invalid syntax")
  else
    let n := digits.foldl (fun n c => 10 * n + (c.toNat - '0'.toNat)) 0
    if !negative && 2 ^ (bitSize - 1) ≤ n || negative && 2 ^ (bitSize - 1) < n then
      .error ("strconv.ParseInt: parsing \"" ++ s ++ "\": value out of range")
    else .ok (if negative then -(n : Int) else n)

/-- `parseDecimalArgs`: `(scale,precision)`, two 32-bit integers. -/
def parseDecimalArgs (args : String) : Except String (Int × Int) :=
  if args.data.head? ≠ some '(' ∨ args.data.getLast? ≠ some ')' then
    .error ("malformed decimal args: " ++ args)
  else
    let inner : String := ⟨(args.data.drop 1).dropLast⟩
    match inner.data.splitOn ',' with
    | [scale, precision] => do
        pure (← parseInt ⟨scale⟩ 32, ← parseInt ⟨precision⟩ 32)
    | _ => .error ("malformed decimal args: (" ++ inner ++ ")")

end ParquetGo
