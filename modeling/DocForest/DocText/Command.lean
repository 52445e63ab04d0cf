/-
The commands inside documentation text, and how their arguments are read.

A reader looks at the tokens behind a command and says how many of them it uses.
What follows a command that lacks its argument stays ordinary text: such a command
uses no token.
-/
import DocForest.DocText.Token
import DocForest.Text.CommaList
import DocForest.Text.Identifier
import DocForest.Text.Search

namespace DocForest.DocText

/-- The commands that are acted upon. -/
inductive CommandWord
  | ref
  | subpage
  | see
  | relates
  | ingroup
  | anchor
  /-- A heading: one for a section, two for a part of it, three for a part of that. -/
  | heading (level : Nat)
  deriving DecidableEq

/-- The command of a name. -/
def CommandWord.ofName? : String → Option CommandWord
  | "ref" => some ref
  | "subpage" => some subpage
  | "see" | "sa" => some see
  | "relates" | "related" => some relates
  | "ingroup" => some ingroup
  | "anchor" => some anchor
  | "section" => some (heading 1)
  | "subsection" => some (heading 2)
  | "subsubsection" => some (heading 3)
  | _ => none

/-- The name under which a command is reported. -/
def CommandWord.name : CommandWord → String
  | ref => "ref"
  | subpage => "subpage"
  | see => "see"
  | relates => "relates"
  | ingroup => "ingroup"
  | anchor => "anchor"
  | heading 1 => "section"
  | heading 2 => "subsection"
  | heading _ => "subsubsection"

/-- A command with its arguments. -/
inductive Command
  /-- A link to a target, with the text to show. -/
  | ref (target : String) (text : Option String)
  /-- A list of targets to look at. -/
  | seeAlso (targets : List String)
  /-- The class that the documented thing is related to. -/
  | relates (target : String)
  /-- A link to a page that becomes part of this one, with the text to show. -/
  | subpage (target : String) (text : Option String)
  /-- The group that the documented thing belongs to. -/
  | ingroup (id : String)
  | heading (level : Nat) (id title : String)
  | anchor (id : String)
  /-- A command that lacks its argument. -/
  | malformed (word : CommandWord)
  deriving DecidableEq

/-- Whether a command produces no text, so that a line with nothing else on it goes
away with it. -/
def Command.vanishes : Command → Bool
  | relates _ => true
  | ingroup _ => true
  | _ => false

/-- A command found in a text. -/
structure Found where
  command : Command
  /-- How many tokens behind the command belong to it. -/
  used : Nat
  /-- The end of the last of them that is text again. -/
  tail : List Char := []
  deriving DecidableEq

/-! ### Arguments -/

/-- The number of space tokens at the start. -/
def spaces (ts : List Token) : Nat :=
  (ts.takeWhile (·.kind == .space)).length

/-- The number of tokens on the line that is left. -/
def lineLength (ts : List Token) : Nat :=
  (ts.takeWhile (·.kind != .newline)).length

/-- A single word, and how many tokens it takes with the spaces before it. -/
def wordArgument? (ts : List Token) : Option (List Char × Nat) :=
  match ts[spaces ts]? with
  | some ⟨.word, text⟩ => some (text, spaces ts + 1)
  | _ => none

/-- How many more round parentheses a text opens than it closes. -/
def parenBalance (cs : List Char) : Int :=
  cs.foldl (fun depth c => if c == '(' then depth + 1 else if c == ')' then depth - 1 else depth) 0

/-- The number of tokens on the line that belong to a name of which `depth`
parentheses are open. -/
def openTokens (depth : Int) : List Token → Nat
  | [] => 0
  | t :: ts =>
    if 0 < depth && t.kind != .newline then openTokens (depth + parenBalance t.text) ts + 1
    else 0

/-- Punctuation that ends a sentence rather than a name. -/
def isSentenceEnd (c : Char) : Bool :=
  c == '.' || c == ';' || c == ':' || c == '!' || c == '?'

/-- A text without the characters at its end for which `p` holds. -/
def dropEnd (p : Char → Bool) (cs : List Char) : List Char :=
  (cs.reverse.dropWhile p).reverse

/-- Splits punctuation off the end of a name.  An operator keeps its own, and so does
a name that has nothing else. -/
def splitPunctuation (name : List Char) : List Char × List Char :=
  let bare := dropEnd isSentenceEnd name
  if bare.isEmpty || "operator".toList.isSuffixOf bare then (name, [])
  else (bare, name.drop bare.length)

/-- A name with its argument list, which may hold spaces and commas; the number of
tokens, and the punctuation behind the name. -/
def referenceName? : List Token → Option (List Char × Nat × List Char)
  | [] => none
  | first :: ts =>
    let more := openTokens (parenBalance first.text) ts
    let (name, tail) := splitPunctuation (first.text ++ textOf (ts.take more))
    some (name, more + 1, tail)

/-- The target of a link: a quoted text or a name. -/
def linkTarget? (ts : List Token) : Option (List Char × Nat × List Char) :=
  match ts[spaces ts]? with
  | some ⟨.quoted, text⟩ => some (Text.stripQuotes text, spaces ts + 1, [])
  | some ⟨.word, _⟩ =>
    (referenceName? (ts.drop (spaces ts))).map fun (name, used, tail) =>
      (name, spaces ts + used, tail)
  | _ => none

/-- The quoted text to show for a link, and how many tokens it takes. -/
def linkText? (ts : List Token) : Option (List Char × Nat) :=
  match ts[spaces ts]? with
  | some ⟨.quoted, text⟩ => some (Text.stripQuotes text, spaces ts + 1)
  | _ => none

/-- The target of a link and the text to show for it.  Punctuation behind the target
ends the link. -/
def link? (make : String → Option String → Command) (ts : List Token) : Option Found :=
  (linkTarget? ts).map fun (target, used, tail) =>
    match tail, linkText? (ts.drop used) with
    | [], some (text, more) =>
      { command := make (String.ofList target) (some (String.ofList text)), used := used + more }
    | _, _ => { command := make (String.ofList target) none, used, tail }

/-- A list of targets that runs to the end of the line. -/
def seeAlso? (ts : List Token) : Option Found :=
  let items := Text.commaItems (textOf (ts.take (lineLength ts)))
  let targets := (items.map fun item => Text.trimEnd (dropEnd (· == '.') item)).filter (!·.isEmpty)
  if targets.isEmpty then none
  else some { command := .seeAlso (targets.map String.ofList), used := lineLength ts }

/-- The id and the title of a heading; the title runs to the end of the line. -/
def heading? (level : Nat) (ts : List Token) : Option Found :=
  (wordArgument? ts).bind fun (id, used) =>
    let rest := ts.drop used
    let title := Text.stripQuotes (Text.trim (textOf (rest.take (lineLength rest))))
    if title.isEmpty then none
    else some
      { command := .heading level (String.ofList id) (String.ofList title)
        used := used + lineLength rest }

/-- A command whose argument is a single word. -/
def withWord? (make : String → Command) (ts : List Token) : Option Found :=
  (wordArgument? ts).map fun (text, used) => { command := make (String.ofList text), used }

/-- Reads the arguments of a command. -/
def CommandWord.read? (word : CommandWord) (ts : List Token) : Option Found :=
  match word with
  | ref => link? .ref ts
  | subpage => link? .subpage ts
  | see => seeAlso? ts
  | relates => withWord? .relates ts
  | ingroup => withWord? .ingroup ts
  | anchor => withWord? .anchor ts
  | heading level => heading? level ts

/-- The command that a token starts, if it starts one that is acted upon. -/
def find? (t : Token) (ts : List Token) : Option Found :=
  if t.kind == .command then
    (CommandWord.ofName? (String.ofList t.text.tail)).map fun word =>
      (word.read? ts).getD { command := .malformed word, used := 0 }
  else none

end DocForest.DocText
