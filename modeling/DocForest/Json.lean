/-
JSON text: values whose objects keep the order of their fields, and the two ways of
writing them.

Compact text has no blanks.  Readable text puts every element and every field on a
line of its own, two spaces deeper than what holds it, and writes an empty list or
object in place.
-/
namespace DocForest

/-- A JSON value.  The fields of an object have an order. -/
inductive Json
  | null
  | bool (b : Bool)
  | int (n : Int)
  | str (s : String)
  | arr (items : List Json)
  | obj (fields : List (String × Json))

namespace Json

/-- A hexadecimal digit, in lower case. -/
def hexDigit (n : Nat) : Char :=
  if n < 10 then Char.ofNat (48 + n) else Char.ofNat (87 + n)

/-- A character as it stands inside a quoted text. -/
def escapeChar (c : Char) : List Char :=
  if c == '"' then ['\\', '"']
  else if c == '\\' then ['\\', '\\']
  else if c == '\n' then ['\\', 'n']
  else if c == '\r' then ['\\', 'r']
  else if c == '\t' then ['\\', 't']
  else if c.toNat == 8 then ['\\', 'b']
  else if c.toNat == 12 then ['\\', 'f']
  else if c.toNat < 0x20 then
    ['\\', 'u', '0', '0', hexDigit (c.toNat / 16), hexDigit (c.toNat % 16)]
  else [c]

/-- A text in quotes. -/
def quote (s : String) : String :=
  String.ofList ('"' :: s.toList.flatMap escapeChar ++ ['"'])

/-! ### Compact text -/

mutual

/-- The text of a value without blanks. -/
def compact : Json → String
  | null => "null"
  | bool b => if b then "true" else "false"
  | int n => toString n
  | str s => quote s
  | arr items => "[" ++ compactItems true items ++ "]"
  | obj fields => "\x7b" ++ compactFields true fields ++ "\x7d"

/-- The elements of a list, each but the first behind a comma. -/
def compactItems : (first : Bool) → List Json → String
  | _, [] => ""
  | first, item :: items =>
    (if first then "" else ",") ++ compact item ++ compactItems false items

/-- The fields of an object, each but the first behind a comma. -/
def compactFields : (first : Bool) → List (String × Json) → String
  | _, [] => ""
  | first, (key, value) :: fields =>
    (if first then "" else ",") ++ quote key ++ ":" ++ compact value ++ compactFields false fields

end

/-! ### Readable text -/

/-- A line break, and the blanks that start a line at some depth. -/
def newline (depth : Nat) : String :=
  String.ofList ('\n' :: List.replicate (2 * depth) ' ')

mutual

/-- The text of a value that stands at some depth, one element or field to a line. -/
def readableAt (depth : Nat) : Json → String
  | null => "null"
  | bool b => if b then "true" else "false"
  | int n => toString n
  | str s => quote s
  | arr [] => "[]"
  | arr (item :: items) =>
    "[" ++ readableItems (depth + 1) true (item :: items) ++ newline depth ++ "]"
  | obj [] => "\x7b\x7d"
  | obj (field :: fields) =>
    "\x7b" ++ readableFields (depth + 1) true (field :: fields) ++ newline depth ++ "\x7d"

/-- The elements of a list, each on a line of its own. -/
def readableItems (depth : Nat) : (first : Bool) → List Json → String
  | _, [] => ""
  | first, item :: items =>
    (if first then "" else ",") ++ newline depth ++ readableAt depth item ++
      readableItems depth false items

/-- The fields of an object, each on a line of its own. -/
def readableFields (depth : Nat) : (first : Bool) → List (String × Json) → String
  | _, [] => ""
  | first, (key, value) :: fields =>
    (if first then "" else ",") ++ newline depth ++ quote key ++ ": " ++
      readableAt depth value ++ readableFields depth false fields

end

/-- The text of a value, one element or field to a line. -/
def readable (j : Json) : String :=
  readableAt 0 j

end Json

/-- How a document is laid out. -/
inductive Layout
  | compact
  | readable
  deriving DecidableEq

/-- The text of a value in a layout. -/
def Json.render : Layout → Json → String
  | .compact => Json.compact
  | .readable => Json.readable

end DocForest
