/-
Names as they are written in documentation: a path of scopes, and perhaps a parameter
list that chooses among functions of one name.
-/
import DocForest.Text.Alphanumeric
import DocForest.Text.CommaList
import DocForest.Text.Search
import DocForest.Type.Basic

namespace DocForest

open Text

/-- A name to look up. -/
structure Query where
  /-- Whether the path starts at the outermost scope. -/
  isGlobal : Bool := false
  /-- The names of the path, outermost first. -/
  path : List String
  /-- The types of the parameters, if a list of them is given. -/
  arguments : Option (List TypeUse) := none
  /-- Whether the list is followed by a `const`. -/
  isConst : Bool := false
  deriving DecidableEq

namespace Query

/-- The characters of an identifier. -/
def isNameChar (c : Char) : Bool :=
  isAlphanumeric c || c == '_'

/-! ### The parameter list -/

/-- The keyword of operator functions. -/
def operatorWord : List Char := "operator".toList

/-- The text before and behind the first `operator` that is a word of its own and has
something behind it.  `before` is the character in front. -/
def cutOperator? (before : Option Char) : List Char → Option (List Char × List Char)
  | [] => none
  | c :: cs =>
    let later := (cutOperator? (some c) cs).map fun (head, rest) => (c :: head, rest)
    match dropStart? operatorWord (c :: cs) with
    | none => later
    | some after =>
      if !(before.any isNameChar) && after.head?.any (!isNameChar ·) then some ([], after)
      else later

/-- The symbol of an operator and what follows it.  The parentheses of the call operator
are its symbol. -/
def operatorSymbol (after : List Char) : List Char × List Char :=
  let body := trimStart after
  match dropStart? ['(', ')'] body with
  | some rest => (['(', ')'], rest)
  | none => (trim (body.takeWhile (· != '(')), body.dropWhile (· != '('))

/-- The name of an operator function, with a space before a symbol that is a word. -/
def operatorName (symbol : List Char) : List Char :=
  operatorWord ++ (if symbol.head?.any isNameChar then [' '] else []) ++ symbol

/-- Cuts a text before the first parenthesis that stands outside of angle brackets, of
which `depth` are open. -/
def cutParen? (depth : Int) : List Char → Option (List Char × List Char)
  | [] => none
  | c :: cs =>
    if c == '(' && depth == 0 then some ([], c :: cs)
    else
      let depth := if c == '<' then depth + 1 else if c == '>' then depth - 1 else depth
      (cutParen? depth cs).map fun (head, rest) => (c :: head, rest)

/-- The path of a name, and the parameter list with all that follows it. -/
def splitArguments (cs : List Char) : List Char × Option (List Char) :=
  match cutOperator? none cs with
  | some (head, after) =>
    let (symbol, rest) := operatorSymbol after
    let rest := trimStart rest
    (head ++ operatorName symbol, if rest.head? = some '(' then some rest else none)
  | none =>
    match cutParen? 0 cs with
    | some (head, rest) => (trim head, some rest)
    | none => (trim cs, none)

/-- Cuts a text before the parenthesis that closes the last of `depth` open ones. -/
def cutClosing (depth : Int) : List Char → List Char × List Char
  | [] => ([], [])
  | c :: cs =>
    if c == ')' && depth == 1 then ([], c :: cs)
    else
      let depth := if c == '(' then depth + 1 else if c == ')' then depth - 1 else depth
      let (inside, rest) := cutClosing depth cs
      (c :: inside, rest)

/-- Words that a type of several words may end with. -/
def builtinWords : List String :=
  ["int", "char", "short", "long", "signed", "unsigned", "double", "float", "bool", "void",
   "wchar_t", "char8_t", "char16_t", "char32_t", "auto"]

/-- The two parts of a text around its last space. -/
def cutLastSpace? (cs : List Char) : Option (List Char × List Char) :=
  (cut? [' '] cs.reverse).map fun (last, head) => (head.reverse, last.reverse)

/-- Takes the name of a parameter off its type. -/
def dropParameterName (t : TypeUse) : TypeUse :=
  match cutLastSpace? t.name.toList with
  | some (head, last) =>
    if last.all isNameChar && !builtinWords.contains (String.ofList last) then
      { t with name := String.ofList head }
    else t
  | none => t

/-- The type of a parameter, which may be written with a name and a default value. -/
def argumentType (cs : List Char) : TypeUse :=
  dropParameterName (.parse (String.ofList (cs.takeWhile (· != '='))))

/-- The types of a parameter list; a lone `void` is an empty list. -/
def argumentTypes (inside : List Char) : List TypeUse :=
  let items := commaItems inside
  if items = ["void".toList] then [] else items.map argumentType

/-! ### The path -/

/-- Cuts a path at every `::` that stands outside of brackets, of which `depth` are
open. -/
def stretchesAt (depth : Int) : List Char → List (List Char)
  | [] => [[]]
  | c :: cs =>
    if c == ':' && depth == 0 && cs.head? == some ':' then [] :: stretchesAt depth cs.tail
    else
      let depth :=
        if c == '<' || c == '(' then depth + 1
        else if c == '>' || c == ')' then depth - 1
        else depth
      consFirst c (stretchesAt depth cs)
termination_by cs => cs.length
decreasing_by all_goals simp only [List.length_cons, List.length_tail]; omega

/-- The names of a path. -/
def segments (cs : List Char) : List (List Char) :=
  (stretchesAt 0 cs).map trim

/-- Reads a name.  A path with an empty name in it is none. -/
def parse? (name : String) : Option Query :=
  let cs := trim name.toList
  let global := dropStart? [':', ':'] cs
  let (path, list) := splitArguments (global.getD cs)
  let names := segments path
  if names.any List.isEmpty then none
  else
    let bare : Query := { isGlobal := global.isSome, path := names.map String.ofList }
    match list with
    | none => some bare
    | some list =>
      let (inside, rest) := cutClosing 1 list.tail
      some
        { bare with
          arguments := some (argumentTypes inside)
          isConst := (words rest.tail).contains "const".toList }

end Query

end DocForest
