/-
Values of the configuration language TOML.

Numbers and truth values are read and checked, but nothing asks for them, so that what
they stand for is not kept.  A table remembers how it came about, since that decides
whether it may be extended.
-/
namespace DocForest

namespace Toml

/-- How a table came about. -/
inductive Origin
  /-- A header names it. -/
  | header
  /-- A header names a table inside it. -/
  | implied
  /-- A dotted key names something inside it. -/
  | dotted
  /-- It is written in braces. -/
  | inline
  deriving DecidableEq

end Toml

/-- A TOML value. -/
inductive Toml
  | text (s : String)
  /-- A number or a truth value. -/
  | scalar
  /-- A date, a time or both. -/
  | dateTime
  | array (items : List Toml)
  | table (origin : Toml.Origin) (entries : List (String × Toml))
  /-- Tables that headers in double brackets have added, one after the other. -/
  | tables (items : List Toml)

namespace Toml

/-- A reader takes something off the start of a text. -/
abbrev Reader (α : Type) : Type := List Char → Option (α × List Char)

end Toml

end DocForest
