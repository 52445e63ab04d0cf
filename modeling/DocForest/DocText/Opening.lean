/-
The command that a documentation text opens with.

A text that opens with one of these commands does not describe the declaration behind
it: it opens or closes a group, or names what it describes.
-/
import DocForest.Text.Search
import DocForest.DocText.Token

namespace DocForest.DocText

open Text

/-- Commands that detach a comment from the declaration behind it. -/
def blockCommands : List String :=
  ["addtogroup", "alias", "class", "def", "defgroup", "endgroup", "endname", "enum", "file", "fn",
   "function", "macro", "mainpage", "name", "namespace", "page", "struct", "typedef", "union", "var",
   "variable"]

/-- Commands that describe a declaration by its name. -/
def declarationCommands : List String :=
  ["alias", "class", "enum", "fn", "function", "namespace", "struct", "typedef", "union", "var",
   "variable"]

/-- Whether a command detaches its comment. -/
def isBlockCommand (name : String) : Bool :=
  blockCommands.contains name

/-- Whether a command describes a declaration by its name. -/
def isDeclarationCommand (name : String) : Bool :=
  declarationCommands.contains name

/-- A command at the start of a text. -/
structure Opening where
  name : String
  /-- What follows the name on its line. -/
  args : String
  /-- The text from the next line on. -/
  body : String
  deriving DecidableEq

/-- What follows the character that starts a command. -/
def afterCommandMark? : List Char → Option (List Char)
  | c :: cs => if c == '\\' || c == '@' then some cs else none
  | [] => none

/-- The block command that a text opens with. -/
def opening? (text : String) : Option Opening :=
  (afterCommandMark? (trimStart text.toList)).bind fun rest =>
    let (line, body) := cutOrAll ['\n'] rest
    let name := String.ofList (line.takeWhile isLetter)
    if isBlockCommand name then
      some
        { name
          args := String.ofList (trim (line.dropWhile isLetter))
          body := String.ofList body }
    else none

end DocForest.DocText
