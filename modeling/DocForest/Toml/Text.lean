/-
Texts in TOML: on one line or several, with or without escapes.
-/
import DocForest.Toml.Character

namespace DocForest.Toml

/-! ### Escapes -/

/-- The character with a code given in hexadecimal digits. -/
def codePoint? (digits : List Char) : Option Char :=
  let n := digitsValue 16 digits
  if digits.all (isDigitOf 16) && (n < 0xD800 || (0xE000 ≤ n && n < 0x110000)) then
    some (Char.ofNat n)
  else none

/-- The character that an escape stands for, and how many characters behind the
backslash it takes. -/
def escape? : List Char → Option (Char × Nat)
  | [] => none
  | c :: cs =>
    match c with
    | 'b' => some ('\x08', 1)
    | 't' => some ('\t', 1)
    | 'n' => some ('\n', 1)
    | 'f' => some ('\x0c', 1)
    | 'r' => some ('\r', 1)
    | '"' => some ('"', 1)
    | '\\' => some ('\\', 1)
    | 'u' => if 4 ≤ cs.length then (codePoint? (cs.take 4)).map (·, 5) else none
    | 'U' => if 8 ≤ cs.length then (codePoint? (cs.take 8)).map (·, 9) else none
    | _ => none

/-- How many characters a backslash at the end of a line takes with it: the line break,
and the blanks and line breaks behind it. -/
def joinLength? (cs : List Char) : Option Nat :=
  (newline? (skipGap cs)).map fun rest => cs.length - (skipBreaks (rest.length + 1) rest).length
where
  /-- The text behind blanks and line breaks. -/
  skipBreaks : Nat → List Char → List Char
    | 0, cs => cs
    | fuel + 1, cs =>
      match newline? (skipGap cs) with
      | some rest => skipBreaks fuel rest
      | none => skipGap cs

/-! ### On one line -/

/-- The rest of a text with escapes, up to the quote that closes it. -/
def basicText : Reader (List Char)
  | [] => none
  | c :: cs =>
    if c == '"' then some ([], cs)
    else if c == '\\' then
      match escape? cs with
      | none => none
      | some (d, n) => prepend d (basicText (cs.drop n))
    else if isLineChar c then prepend c (basicText cs)
    else none
termination_by cs => cs.length
decreasing_by all_goals simp only [List.length_cons, List.length_drop]; omega

/-- The rest of a text without escapes, up to the quote that closes it. -/
def literalText : Reader (List Char)
  | [] => none
  | c :: cs =>
    if c == '\'' then some ([], cs)
    else if isLineChar c then prepend c (literalText cs)
    else none

/-! ### On several lines -/

/-- The number of quotes at the start, at most five: two may belong to the text, and three
close it. -/
def quoteRun (quote : Char) (cs : List Char) : Nat :=
  min 5 (cs.takeWhile (· == quote)).length

/-- The rest of a text over several lines, up to the three quotes that close it. -/
def longText (quote : Char) (escapes : Bool) (cs : List Char) : Option (List Char × List Char) :=
  match cs with
  | [] => none
  | c :: rest =>
    if c == quote then
      if 3 ≤ quoteRun quote cs then
        some (List.replicate (quoteRun quote cs - 3) quote, cs.drop (quoteRun quote cs))
      else prepend c (longText quote escapes rest)
    else if c == '\\' && escapes then
      match joinLength? rest with
      | some n => longText quote escapes (rest.drop n)
      | none =>
        match escape? rest with
        | none => none
        | some (d, n) =>
          prepend d (longText quote escapes (rest.drop n))
    else if c == '\n' then prepend '\n' (longText quote escapes rest)
    else if c == '\r' then
      if rest.head? = some '\n' then longText quote escapes rest else none
    else if isLineChar c then
      prepend c (longText quote escapes rest)
    else none
termination_by cs.length
decreasing_by all_goals simp only [List.length_cons, List.length_drop]; omega

/-- The text behind a line break at the start, if there is one. -/
def dropNewline (cs : List Char) : List Char :=
  (newline? cs).getD cs

/-- A text in quotes. -/
def quotedText : Reader (List Char)
  | '"' :: '"' :: '"' :: cs => longText '"' true (dropNewline cs)
  | '\'' :: '\'' :: '\'' :: cs => longText '\'' false (dropNewline cs)
  | '"' :: cs => basicText cs
  | '\'' :: cs => literalText cs
  | _ => none

end DocForest.Toml
