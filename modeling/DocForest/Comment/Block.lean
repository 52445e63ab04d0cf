/-
Documentation comments of a file, and the declarations they belong to.

Comments that end with their line and stand on lines that follow each other are one
block.  A block in front of a token documents what starts there; a trailing block
documents what starts on its own line.  The pass over the tokens is one step per
token: `Scan.step` closes the run of lines that is open, or makes it longer.
-/
import DocForest.Comment.Text
import DocForest.DocText.Opening
import DocForest.Source.Token

namespace DocForest.Comment

open Source

/-- A block of documentation. -/
structure Block where
  text : String
  /-- The line that the block starts on. -/
  line : Nat
  /-- Where the first token behind the block starts. -/
  next : Option Position := none
  /-- Whether the block documents what stands on its own line. -/
  trailing : Bool
  deriving DecidableEq

/-- The block of some lines, unless they are blank. -/
def block? (lines : List (List Char)) (line : Nat) (trailing : Bool) : Option Block :=
  if (joinLines lines).isEmpty then none
  else some { text := String.ofList (joinLines lines), line, trailing }

/-- Whether a block opens with a command that detaches it from what follows. -/
def Block.isCommand (b : Block) : Bool :=
  (DocText.opening? b.text).isSome

/-! ### The pass over the tokens -/

/-- Comments on lines that follow each other. -/
structure Run where
  lines : List (List Char)
  start : Nat
  last : Nat

/-- What is known after some tokens. -/
structure Scan where
  /-- Blocks that no later token changes. -/
  done : List Block := []
  /-- Blocks that wait for the token behind them. -/
  waiting : List Block := []
  /-- The lines that the next comment may continue. -/
  run : Option Run := none

namespace Scan

/-- Ends the run of lines. -/
def close (s : Scan) : Scan :=
  match s.run with
  | none => s
  | some r => { s with waiting := s.waiting ++ (block? r.lines r.start false).toList, run := none }

/-- Adds a block that stands for itself. -/
def push (s : Scan) (b : Option Block) : Scan :=
  { s.close with waiting := s.close.waiting ++ b.toList }

/-- Tells a block which token follows it. -/
def meet (p : Position) (b : Block) : Block :=
  if b.trailing then b else { b with next := some p }

/-- A token that is no comment: the blocks before it have met what follows them. -/
def arrive (s : Scan) (p : Position) : Scan :=
  { done := s.close.done ++ s.close.waiting.map (meet p) }

/-- A comment that ends with its line: it continues the run if it stands on the line
behind it, and else starts a new one. -/
def addLine (s : Scan) (text : List Char) (extent : Extent) : Scan :=
  match s.run with
  | some r =>
    if extent.start.line = nextLine r.last then
      { s with run := some { r with lines := r.lines ++ [text], last := extent.stop.line } }
    else
      { s.close with run := some ⟨[text], extent.start.line, extent.stop.line⟩ }
  | none => { s with run := some ⟨[text], extent.start.line, extent.stop.line⟩ }

/-- Takes in one token. -/
def step (s : Scan) (t : Token) : Scan :=
  if t.isComment then
    let cs := Text.trim t.spelling.toList
    match styleOf cs with
    | .line true => s.push (block? [lineText cs] t.extent.start.line true)
    | .line false => s.addLine (lineText cs) t.extent
    | .block trailing => s.push (block? (blockLines cs) t.extent.start.line trailing)
    | .plain => s.close
  else s.arrive t.extent.start

/-- All blocks. -/
def blocks (s : Scan) : List Block :=
  s.close.done ++ s.close.waiting

end Scan

/-- The documentation blocks of a file, in order. -/
def blocksOf (ts : List Token) : List Block :=
  (ts.foldl Scan.step {}).blocks

/-! ### Which block documents a declaration -/

/-- Whether a block stands in front of what starts at a position. -/
def Block.precedes (b : Block) (p : Position) : Bool :=
  !b.trailing && b.next == some p

/-- Whether a block documents what starts on a line. -/
def Block.trails (b : Block) (line : Nat) : Bool :=
  b.trailing && b.line == line

/-- The documentation of a declaration that starts at a position: the nearest block
before it, unless a command detaches that block; without such a block, the first
trailing one on its line. -/
def documentation? (blocks : List Block) (start : Position) : Option String :=
  match (blocks.filter (·.precedes start)).getLast? with
  | some b => if b.isCommand then none else some b.text
  | none => (blocks.find? (·.trails start.line)).map (·.text)

end DocForest.Comment
