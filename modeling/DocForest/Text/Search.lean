/-
Finding a fixed text inside another: leading and trailing parts, the first
place where a separator stands, lines, and replacement.
-/
import DocForest.Text.Blank

namespace DocForest.Text

/-- What follows `start` in a text that begins with it. -/
def dropStart? : (start : List Char) → List Char → Option (List Char)
  | [], cs => some cs
  | _ :: _, [] => none
  | s :: start, c :: cs => if s = c then dropStart? start cs else none

/-- What stands before `stop` in a text that ends with it. -/
def dropStop? (stop cs : List Char) : Option (List Char) :=
  (dropStart? stop.reverse cs.reverse).map List.reverse

/-- The two parts of a text around the first place where `separator` stands. -/
def cut? (separator : List Char) : List Char → Option (List Char × List Char)
  | [] => if separator.isEmpty then some ([], []) else none
  | c :: cs =>
    match dropStart? separator (c :: cs) with
    | some rest => some ([], rest)
    | none => (cut? separator cs).map fun (before, after) => (c :: before, after)

/-- The two parts of a text around the first `separator`; without one, the whole
text is the first part. -/
def cutOrAll (separator cs : List Char) : List Char × List Char :=
  (cut? separator cs).getD (cs, [])

/-- Cuts off one carriage return at the end. -/
def dropReturn (line : List Char) : List Char :=
  (dropStop? ['\r'] line).getD line

/-- The lines of a text whose pieces between line feeds are given: a line that a
line feed ends gives up one carriage return, and an empty last piece is no line. -/
def linesOfPieces : List (List Char) → List (List Char)
  | [] => []
  | [last] => if last.isEmpty then [] else [last]
  | piece :: rest => dropReturn piece :: linesOfPieces rest

/-- The lines of a text. -/
def lines (cs : List Char) : List (List Char) :=
  linesOfPieces (pieces (· == '\n') cs)

/-- Puts `new` in place of every `old`, from left to right and never inside what
was put in.  `old` is not empty. -/
def replace (old new : List Char) : List Char → List Char
  | [] => []
  | c :: cs =>
    if old.isPrefixOf (c :: cs) then new ++ replace old new (cs.drop (old.length - 1))
    else c :: replace old new cs
termination_by cs => cs.length

/-- The pieces that `separator` leaves between its places, from left to right.
`separator` is not empty. -/
def splitOn (separator : List Char) : List Char → List (List Char)
  | [] => [[]]
  | c :: cs =>
    if separator.isPrefixOf (c :: cs) then [] :: splitOn separator (cs.drop (separator.length - 1))
    else consFirst c (splitOn separator cs)
termination_by cs => cs.length

end DocForest.Text
