/-
Uses of a type in a declaration: the name of the type and the qualifiers around it.

A spelling is read in three passes.  It is cut into atoms; an atom that continues
the one before it (template arguments, or a name joined by `::`) is glued on; and
the pieces that result are sorted into words of the name and qualifiers.  A `const`
before the name counts as the first qualifier, so that both places of a `const`
give the same use.  A function type is not taken apart.
-/
import DocForest.Text.Blank
import DocForest.Text.Search
import DocForest.Type.Qualifier

namespace DocForest

/-- A type as a declaration uses it. -/
structure TypeUse where
  /-- The name of the type, without qualifiers. -/
  name : String := ""
  qualifiers : List Qualifier := []
  /-- The id of the entity that the name was resolved to. -/
  target : Option String := none
  deriving DecidableEq

namespace TypeUse

open Text

/-! ### Atoms of a spelling -/

/-- The smallest parts of a type spelling. -/
inductive Atom
  /-- A pointer, a reference or an array extent. -/
  | mark (text : List Char)
  /-- Template arguments with their angle brackets. -/
  | arguments (text : List Char)
  /-- Anything else up to a blank or one of the characters that start another atom. -/
  | word (text : List Char)
  deriving DecidableEq

/-- The characters of an atom. -/
def Atom.text : Atom → List Char
  | mark t => t
  | arguments t => t
  | word t => t

/-- Puts one space between the words of template arguments, and none next to
brackets and commas. -/
def tidyArguments (cs : List Char) : List Char :=
  let spaced := squeeze cs
  let spaced := replace [' ', '<'] ['<'] spaced
  let spaced := replace ['<', ' '] ['<'] spaced
  let spaced := replace [' ', '>'] ['>'] spaced
  let spaced := replace [',', ' '] [','] spaced
  replace [' ', ','] [','] spaced

/-- Cuts a text behind the angle bracket that closes the last of `depth` open ones. -/
def cutAngles : (depth : Nat) → List Char → List Char × List Char
  | _, [] => ([], [])
  | depth, c :: cs =>
    if c == '>' && depth ≤ 1 then ([c], cs)
    else
      let depth := if c == '<' then depth + 1 else if c == '>' then depth - 1 else depth
      let (inside, rest) := cutAngles depth cs
      (c :: inside, rest)

/-- Cuts a text behind its first closing square bracket. -/
def cutExtent : List Char → List Char × List Char
  | [] => ([], [])
  | c :: cs =>
    if c == ']' then ([c], cs)
    else
      let (inside, rest) := cutExtent cs
      (c :: inside, rest)

/-- Whether a character belongs to a word of a type spelling. -/
def isWordChar (c : Char) : Bool :=
  !(isBlank c || c == '*' || c == '&' || c == '[' || c == '<')

theorem length_cutAngles (depth : Nat) (cs : List Char) :
    (cutAngles depth cs).2.length ≤ cs.length := by
  induction cs generalizing depth with
  | nil => simp [cutAngles]
  | cons c cs ih =>
    simp only [cutAngles]
    split
    · simp
    · exact Nat.le_succ_of_le (ih _)

theorem length_cutExtent (cs : List Char) : (cutExtent cs).2.length ≤ cs.length := by
  induction cs with
  | nil => simp [cutExtent]
  | cons c cs ih =>
    simp only [cutExtent]
    split
    · simp
    · exact Nat.le_succ_of_le ih

theorem length_dropWhile_le (p : Char → Bool) (cs : List Char) :
    (cs.dropWhile p).length ≤ cs.length :=
  (List.dropWhile_sublist p).length_le

/-- The atoms of a type spelling, from left to right. -/
def atoms : List Char → List Atom
  | [] => []
  | c :: cs =>
    if isBlank c then atoms cs
    else if c == '*' then .mark ['*'] :: atoms cs
    else if c == '&' then
      if cs.head? = some '&' then .mark ['&', '&'] :: atoms cs.tail
      else .mark ['&'] :: atoms cs
    else if c == '[' then .mark (c :: (cutExtent cs).1) :: atoms (cutExtent cs).2
    else if c == '<' then
      .arguments (tidyArguments (c :: (cutAngles 1 cs).1)) :: atoms (cutAngles 1 cs).2
    else .word (c :: cs.takeWhile isWordChar) :: atoms (cs.dropWhile isWordChar)
termination_by cs => cs.length
decreasing_by
  all_goals simp only [List.length_cons, List.length_tail]
  · omega
  · omega
  · omega
  · omega
  · have := length_cutExtent cs; omega
  · have := length_cutAngles 1 cs; omega
  · have := length_dropWhile_le isWordChar cs; omega

/-! ### Pieces -/

/-- Whether an atom continues the piece before it. -/
def Atom.continues (last : List Char) : Atom → Bool
  | mark _ => false
  | arguments _ => true
  | word t => [':', ':'].isPrefixOf t || [':', ':'].isSuffixOf last

/-- The pieces of a list of atoms behind a piece that is still open. -/
def glueOnto (last : List Char) : List Atom → List (List Char)
  | [] => [last]
  | a :: rest =>
    if a.continues last then glueOnto (last ++ a.text) rest
    else last :: glueOnto a.text rest

/-- Glues every atom to the piece that it continues. -/
def glue : List Atom → List (List Char)
  | [] => []
  | a :: rest => glueOnto a.text rest

/-- The pieces of a type spelling. -/
def pieces (cs : List Char) : List (List Char) :=
  glue (atoms cs)

/-! ### Reading the pieces -/

/-- Words that may stand before the name of a type and add nothing to it. -/
def elaborations : List String :=
  ["struct", "class", "union", "enum", "typename"]

/-- What has been read of a type spelling. -/
structure Reading where
  words : List (List Char) := []
  qualifiers : List Qualifier := []
  /-- A `const` was read before the first word. -/
  leadingConst : Bool := false
  /-- A qualifier was read, so that the name is over. -/
  nameOver : Bool := false

/-- Records a qualifier behind the name. -/
def Reading.qualify (r : Reading) (q : Qualifier) : Reading :=
  { r with qualifiers := r.qualifiers ++ [q], nameOver := true }

/-- Reads one more piece.  What follows the qualifiers is the name of the thing
declared, and is not read. -/
def Reading.step (r : Reading) (piece : List Char) : Reading :=
  if piece = "const".toList then
    if r.words.isEmpty then { r with leadingConst := true } else r.qualify .const
  else if piece = "volatile".toList then r
  else if piece = ['*'] then r.qualify .pointer
  else if piece = ['&'] then r.qualify .lvalueRef
  else if piece = ['&', '&'] then r.qualify .rvalueRef
  else if piece.head? = some '[' then r.qualify .array
  else if r.words.isEmpty && elaborations.contains (String.ofList piece) then r
  else if r.nameOver then r
  else { r with words := r.words ++ [piece] }

/-- The use that a finished reading describes. -/
def Reading.use (r : Reading) : TypeUse where
  name := String.ofList (join [' '] r.words)
  qualifiers := if r.leadingConst then .const :: r.qualifiers else r.qualifiers

/-- Reads a type spelling. -/
def parse (spelling : String) : TypeUse :=
  let cs := spelling.toList
  if cs.contains '(' then { name := String.ofList (squeeze cs) }
  else ((pieces cs).foldl Reading.step {}).use

/-- What the type adds to the id of a function that takes it. -/
def idPart (t : TypeUse) : List Char :=
  '-' :: replace [' '] ['_'] t.name.toList ++ '-' :: t.qualifiers.map Qualifier.code

/-- Whether the use names no type. -/
def isEmpty (t : TypeUse) : Bool :=
  t.name.isEmpty

end TypeUse

end DocForest
