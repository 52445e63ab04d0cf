/-
The text of a documentation comment, without the marks around it.

In a comment over several lines the marks at the start of its lines are taken off as
one common piece, so that the lines keep their places relative to each other.
-/
import DocForest.Text.Search

namespace DocForest.Comment

open Text

/-- How a comment is written. -/
inductive Style
  /-- A comment that ends with its line. -/
  | line (trailing : Bool)
  /-- A comment between two marks. -/
  | block (trailing : Bool)
  /-- A comment that documents nothing. -/
  | plain
  deriving DecidableEq

/-- The style of a comment.  A comment that documents what stands before it has an
angle bracket behind its mark. -/
def styleOf (cs : List Char) : Style :=
  let trailing := cs[3]? == some '<'
  if "////".toList.isPrefixOf cs || "/***".toList.isPrefixOf cs || cs == "/**/".toList then .plain
  else if "///".toList.isPrefixOf cs || "//!".toList.isPrefixOf cs then .line trailing
  else if "/**".toList.isPrefixOf cs || "/*!".toList.isPrefixOf cs then .block trailing
  else .plain

/-- The text behind the mark that opens a comment. -/
def afterMark (cs : List Char) : List Char :=
  (dropStart? ['<'] (cs.drop 3)).getD (cs.drop 3)

/-- The text of a comment that ends with its line. -/
def lineText (cs : List Char) : List Char :=
  trimEnd ((dropStart? [' '] (afterMark cs)).getD (afterMark cs))

/-! ### Comments over several lines -/

/-- Whether a line holds blanks and asterisks only. -/
def isDecoration (line : List Char) : Bool :=
  line.all fun c => isBlank c || c == '*'

/-- The characters that may stand before the text of a line. -/
def isMargin (c : Char) : Bool :=
  c == ' ' || c == '\t' || c == '*'

/-- The longest text that two texts start with. -/
def commonStart : List Char → List Char → List Char
  | a :: as, b :: bs => if a = b then a :: commonStart as bs else []
  | _, _ => []

/-- The smaller of two texts, in the order of code points. -/
def smaller (a b : List Char) : List Char :=
  if b < a then b else a

/-- The larger of two texts, in the order of code points. -/
def larger (a b : List Char) : List Char :=
  if a < b then b else a

/-- What the smallest and the largest of some lines start with, as far as it is
margin. -/
def marginOf : List (List Char) → List Char
  | [] => []
  | line :: lines =>
    (commonStart (lines.foldl smaller line) (lines.foldl larger line)).takeWhile isMargin

/-- A line behind the first one, without its margin. -/
def dropMargin (margin line : List Char) : List Char :=
  if isDecoration line then [] else trimEnd ((dropStart? margin line).getD line)

/-- The lines of a comment between two marks. -/
def blockLines (cs : List Char) : List (List Char) :=
  let body := afterMark cs
  match lines ((dropStop? ['*', '/'] body).getD body) with
  | [] => [[]]
  | first :: rest =>
    trim first :: rest.map (dropMargin (marginOf (rest.filter (!isDecoration ·))))

/-- Whether a line holds nothing but blanks. -/
def isBlankLine (line : List Char) : Bool :=
  (trim line).isEmpty

/-- Joins lines, without the blank ones at either end. -/
def joinLines (ls : List (List Char)) : List Char :=
  join ['\n'] (((ls.dropWhile isBlankLine).reverse.dropWhile isBlankLine).reverse)

end DocForest.Comment
