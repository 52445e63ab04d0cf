/-
Numbers, dates and times in TOML.  They are only checked: a reader gives the text behind
a well-formed one.
-/
import DocForest.Toml.Character

namespace DocForest.Toml

/-! ### Digits -/

/-- Reads more digits behind one.  A single underscore may stand before a digit. -/
def moreDigits (base : Nat) : Reader (List Char)
  | [] => some ([], [])
  | '_' :: c :: cs =>
    if isDigitOf base c then prepend c (moreDigits base cs) else none
  | c :: cs =>
    if isDigitOf base c then prepend c (moreDigits base cs)
    else if c == '_' then none
    else some ([], c :: cs)

/-- Reads digits, with underscores between them. -/
def digits? (base : Nat) : Reader (List Char)
  | [] => none
  | c :: cs =>
    if isDigitOf base c then prepend c (moreDigits base cs) else none

/-- Takes off a sign. -/
def skipSign : List Char → List Char
  | '+' :: cs => cs
  | '-' :: cs => cs
  | cs => cs

/-- Reads decimal digits; a zero at the start stands alone. -/
def decimal? (cs : List Char) : Option (List Char × List Char) :=
  match cs with
  | '0' :: rest => some (['0'], rest)
  | _ => digits? 10 cs

/-! ### Integers -/

/-- The largest integer. -/
def maxInteger : Nat := Nat.pow 2 63 - 1

/-- Reads an integer with a mark for its base. -/
def basedInteger? (base : Nat) (cs : List Char) : Option (List Char) :=
  match digits? base cs with
  | some (ds, rest) => if digitsValue base ds ≤ maxInteger then some rest else none
  | none => none

/-- Reads an integer. -/
def integer? : List Char → Option (List Char)
  | '0' :: 'x' :: cs => basedInteger? 16 cs
  | '0' :: 'o' :: cs => basedInteger? 8 cs
  | '0' :: 'b' :: cs => basedInteger? 2 cs
  | cs =>
    match decimal? (skipSign cs) with
    | some (ds, rest) =>
      let bound := if cs.head? = some '-' then maxInteger + 1 else maxInteger
      if digitsValue 10 ds ≤ bound then some rest else none
    | none => none

/-! ### Floating-point numbers -/

/-- Reads an exponent. -/
def exponent? : Reader Int
  | c :: cs =>
    if c == 'e' || c == 'E' then
      (digits? 10 (skipSign cs)).map fun (ds, rest) =>
        let n := Int.ofNat (digitsValue 10 ds)
        (if cs.head? = some '-' then -n else n, rest)
    else none
  | [] => none

/-- Reads a fraction. -/
def fraction? : Reader (List Char)
  | '.' :: cs => digits? 10 cs
  | _ => none

/-- The least number that is too large for 64 bits of floating point: half a step above
the largest. -/
def tooLarge : Nat := Nat.pow 2 1024 - Nat.pow 2 970

/-- Whether a decimal number, given by its digits and the power of ten behind the last of
them, is small enough.  Only numbers of about the size of the bound are computed. -/
def isFinite (ds : List Char) (power : Int) : Bool :=
  let significant := ds.dropWhile (· == '0')
  let size := Int.ofNat significant.length + power
  if significant.isEmpty || size < 300 then true
  else if 310 < size then false
  else if 0 ≤ power then digitsValue 10 significant * Nat.pow 10 power.toNat < tooLarge
  else digitsValue 10 significant < tooLarge * Nat.pow 10 (-power).toNat

/-- Reads a number with a fraction or an exponent.  One that is too large is none, unless
it is negative. -/
def float? (cs : List Char) : Option (List Char) :=
  match decimal? (skipSign cs) with
  | none => none
  | some (whole, rest) =>
    let negative := cs.head? = some '-'
    match fraction? rest with
    | some (part, rest) =>
      let (power, rest) := (exponent? rest).getD (0, rest)
      if negative || isFinite (whole ++ part) (power - Int.ofNat part.length) then some rest
      else none
    | none =>
      match exponent? rest with
      | some (power, rest) => if negative || isFinite whole power then some rest else none
      | none => none

/-- Reads infinity, or what is not a number. -/
def special? (cs : List Char) : Option (List Char) :=
  match skipSign cs with
  | 'i' :: 'n' :: 'f' :: rest => some rest
  | 'n' :: 'a' :: 'n' :: rest => some rest
  | _ => none

/-! ### Dates and times -/

/-- Reads a number of exactly `count` digits. -/
def fixedDigits? (count : Nat) (cs : List Char) : Option (Nat × List Char) :=
  let ds := cs.take count
  if ds.length = count ∧ ds.all (isDigitOf 10) then some (digitsValue 10 ds, cs.drop count)
  else none

/-- Reads a number of two digits that lies between two bounds. -/
def twoDigits? (low high : Nat) (cs : List Char) : Option (Nat × List Char) :=
  (fixedDigits? 2 cs).filter fun (n, _) => low ≤ n && n ≤ high

/-- Reads a given character. -/
def mark? (c : Char) : List Char → Option (List Char)
  | d :: cs => if c = d then some cs else none
  | [] => none

/-- The number of days in a month. -/
def daysIn (year month : Nat) : Nat :=
  if month = 2 then
    if year % 4 = 0 ∧ (year % 100 ≠ 0 ∨ year % 400 = 0) then 29 else 28
  else if month = 4 ∨ month = 6 ∨ month = 9 ∨ month = 11 then 30
  else 31

/-- Reads a date. -/
def date? (cs : List Char) : Option (List Char) := do
  let (year, cs) ← fixedDigits? 4 cs
  let (month, cs) ← twoDigits? 1 12 (← mark? '-' cs)
  let (_, cs) ← twoDigits? 1 (daysIn year month) (← mark? '-' cs)
  return cs

/-- Reads the digits of a part of a second, if there are any. -/
def skipSecondPart (cs : List Char) : Option (List Char) :=
  match cs with
  | '.' :: rest =>
    if (rest.takeWhile (isDigitOf 10)).isEmpty then none else some (rest.dropWhile (isDigitOf 10))
  | _ => some cs

/-- Reads a time. -/
def time? (cs : List Char) : Option (List Char) := do
  let (_, cs) ← twoDigits? 0 23 cs
  let (_, cs) ← twoDigits? 0 59 (← mark? ':' cs)
  let (_, cs) ← twoDigits? 0 60 (← mark? ':' cs)
  skipSecondPart cs

/-- Reads the distance of a time from the universal one. -/
def offset? : List Char → Option (List Char)
  | [] => none
  | c :: cs =>
    if c == 'Z' || c == 'z' then some cs
    else if c == '+' || c == '-' then do
      let (_, cs) ← twoDigits? 0 23 cs
      let (_, cs) ← twoDigits? 0 59 (← mark? ':' cs)
      return cs
    else none

/-- Reads a time behind a date, with its distance from the universal one. -/
def timeOfDay? : List Char → Option (List Char)
  | [] => none
  | c :: cs =>
    if c == 'T' || c == 't' || c == ' ' then (time? cs).map fun rest => (offset? rest).getD rest
    else none

/-- Reads a date, a time or both. -/
def dateTime? (cs : List Char) : Option (List Char) :=
  match date? cs with
  | some rest => some ((timeOfDay? rest).getD rest)
  | none => time? cs

end DocForest.Toml
