/-
Characters and layout of TOML text.
-/
import DocForest.Text.Search
import DocForest.Toml.Value

namespace DocForest.Toml

/-- Blanks inside a line. -/
def isGap (c : Char) : Bool :=
  c == ' ' || c == '\t'

/-- The text behind the blanks at its start. -/
def skipGap (cs : List Char) : List Char :=
  cs.dropWhile isGap

/-- The characters that may stand on a line: no control characters but the tab. -/
def isLineChar (c : Char) : Bool :=
  c == '\t' || (0x20 ≤ c.toNat && c.toNat ≤ 0x7E) || 0x80 ≤ c.toNat

/-- The text behind a line break. -/
def newline? : List Char → Option (List Char)
  | '\n' :: cs => some cs
  | '\r' :: '\n' :: cs => some cs
  | _ => none

/-- The text behind a comment, if there is one. -/
def skipComment : List Char → List Char
  | '#' :: cs => cs.dropWhile isLineChar
  | cs => cs

/-- The text behind the end of a line, before which a comment may stand. -/
def lineEnd? (cs : List Char) : Option (List Char) :=
  match skipComment (skipGap cs) with
  | [] => some []
  | rest => newline? rest

/-- The text behind blanks, line breaks and comments, at most `fuel` of them. -/
def skipLayoutWithin : (fuel : Nat) → List Char → List Char
  | 0, cs => cs
  | fuel + 1, cs =>
    match newline? (skipComment (skipGap cs)) with
    | some rest => skipLayoutWithin fuel rest
    | none => skipGap cs

/-- The text behind blanks, line breaks and comments.  A comment counts only if a line
break ends it. -/
def skipLayout (cs : List Char) : List Char :=
  skipLayoutWithin (cs.length + 1) cs

/-- Puts a character in front of what was read. -/
def prepend (c : Char) (r : Option (List Char × List Char)) : Option (List Char × List Char) :=
  r.map fun (cs, rest) => (c :: cs, rest)

/-- A digit of a number in a base up to sixteen. -/
def digitValue? (base : Nat) (c : Char) : Option Nat :=
  let n := c.toNat
  let value :=
    if 48 ≤ n ∧ n ≤ 57 then some (n - 48)
    else if 65 ≤ n ∧ n ≤ 70 then some (n - 55)
    else if 97 ≤ n ∧ n ≤ 102 then some (n - 87)
    else none
  value.filter (· < base)

/-- Whether a character is a digit in a base. -/
def isDigitOf (base : Nat) (c : Char) : Bool :=
  (digitValue? base c).isSome

/-- The number that some digits write. -/
def digitsValue (base : Nat) (cs : List Char) : Nat :=
  cs.foldl (fun n c => n * base + (digitValue? base c).getD 0) 0

end DocForest.Toml
