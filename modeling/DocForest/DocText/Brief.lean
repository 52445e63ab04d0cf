/-
The short description at the start of a documentation text, and how the texts of
several comments are put together.
-/
import DocForest.Text.Search

namespace DocForest.DocText

open Text

/-- A short description and the text that goes with it. -/
structure Description where
  brief : String := ""
  doc : String := ""
  deriving DecidableEq

/-- What follows the command that introduces a short description. -/
def afterBriefCommand? (cs : List Char) : Option (List Char) :=
  (dropStart? "\\brief".toList cs).or (dropStart? "@brief".toList cs)

/-- The lines of a text, trimmed, as one line. -/
def oneLine (cs : List Char) : List Char :=
  join [' '] (((lines cs).map trim).filter (!·.isEmpty))

/-- Splits a documentation text.  Behind the command for it the whole first paragraph
is the short description; otherwise the first line is. -/
def describe (text : String) : Description :=
  let body := trimStart text.toList
  let (brief, doc) :=
    match afterBriefCommand? body with
    | some rest => cutOrAll ['\n', '\n'] rest
    | none => cutOrAll ['\n'] body
  { brief := String.ofList (oneLine (trim brief)), doc := String.ofList (trim doc) }

/-- One text behind another, with a blank line between them if neither is empty. -/
def appendDoc (doc more : String) : String :=
  if more.isEmpty then doc else if doc.isEmpty then more else doc ++ "\n\n" ++ more

/-- Adds a description: the first short description stays, the texts are collected. -/
def Description.add (d more : Description) : Description where
  brief := if d.brief.isEmpty then more.brief else d.brief
  doc := appendDoc d.doc more.doc

end DocForest.DocText
