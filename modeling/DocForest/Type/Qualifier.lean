/-
The qualifiers a declaration puts on a type.
-/
namespace DocForest

/-- What is applied to a type, read from its name outwards. -/
inductive Qualifier
  | pointer
  | lvalueRef
  | rvalueRef
  | array
  | const
  deriving DecidableEq

namespace Qualifier

/-- The qualifier as it is written. -/
def text : Qualifier → String
  | pointer => "*"
  | lvalueRef => "&"
  | rvalueRef => "&&"
  | array => "[]"
  | const => "const"

/-- The letter that stands for the qualifier in an id. -/
def code : Qualifier → Char
  | pointer => 'P'
  | lvalueRef => 'L'
  | rvalueRef => 'R'
  | array => 'A'
  | const => 'C'

end Qualifier

end DocForest
