/-
The arguments of commands that describe something by its name.
-/
import DocForest.Text.Blank
import DocForest.Text.Search

namespace DocForest.Deferred

open Text

/-- Why the name of a declaration cannot be read. -/
inductive NameError
  /-- The blank before the name is a character of more than one byte. -/
  | wideBlank (c : Char)
  deriving DecidableEq

/-! ### Declarations -/

/-- Whether a character divides the type of a result from a name. -/
def isDivider (c : Char) : Bool :=
  isBlank c || c == '*' || c == '&'

/-- An argument without blanks around it and semicolons behind it. -/
def bareArgument (cs : List Char) : List Char :=
  trimEnd (((trim cs).reverse.dropWhile (· == ';')).reverse)

/-- Cuts a declaration before the keyword of an operator, or else before its
parameters. -/
def cutHead (cs : List Char) : List Char × List Char :=
  match cut? "operator".toList cs with
  | some (head, after) => (head, "operator".toList ++ after)
  | none => (cs.takeWhile (· != '('), cs.dropWhile (· != '('))

/-- The name of a declaration with its parameters, without the type of its result.  The
name starts one byte behind the last divider, which therefore has to be a single byte. -/
def declarationName (args : List Char) : Except NameError (List Char) :=
  let (head, rest) := cutHead (bareArgument args)
  match head.reverse.find? isDivider with
  | none => .ok (head ++ rest)
  | some c =>
    if c.utf8Size = 1 then .ok ((head.reverse.takeWhile (!isDivider ·)).reverse ++ rest)
    else .error (.wideBlank c)

/-! ### Macros -/

/-- The text before the last closing parenthesis; without one, all of it. -/
def beforeLastParen (cs : List Char) : List Char :=
  match cs.reverse.dropWhile (· != ')') with
  | [] => cs
  | _ :: before => before.reverse

/-- The name of a macro, and its parameters if it is written with parentheses. -/
def macroSignature (args : List Char) : List Char × Option (List (List Char)) :=
  let cs := trim args
  match cs.dropWhile (· != '(') with
  | [] => ((splitFirstWord cs).1, none)
  | _ :: inside =>
    (trim (cs.takeWhile (· != '(')),
      some (((pieces (· == ',') (beforeLastParen inside)).map trim).filter (!·.isEmpty)))

end DocForest.Deferred
