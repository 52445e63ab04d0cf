/-
Tokens of a source text, comments among them.
-/
import DocForest.Position

namespace DocForest.Source

/-- What a token is. -/
inductive TokenKind
  | comment
  | keyword
  | identifier
  | punctuation
  | literal
  deriving DecidableEq

/-- A token of a source text. -/
structure Token where
  kind : TokenKind
  spelling : String
  extent : Extent
  deriving DecidableEq

/-- Whether a token is a comment. -/
def Token.isComment (t : Token) : Bool :=
  t.kind == .comment

/-- The line behind a line.  Line numbers are words of 32 bits. -/
def nextLine (line : Nat) : Nat :=
  (line + 1) % Nat.pow 2 32

end DocForest.Source
