/-
Tokens of documentation text.

At each place the lexer says how many characters belong together and what they
are.  A token is cut off by that number, so that nothing of the text is lost: the
texts of the tokens, one after the other, are the text itself.
-/
import DocForest.Text.Blank

namespace DocForest.DocText

/-- What a token is. -/
inductive TokenKind
  /-- A backslash or an at sign with the letters behind it. -/
  | command
  /-- A backslash before a character that would start a command. -/
  | escape
  /-- A stretch of code between backticks, on one line. -/
  | codeSpan
  /-- A text between double quotes, on one line. -/
  | quoted
  | space
  | newline
  | comma
  | word
  /-- What no other kind accepts. -/
  | stray
  deriving DecidableEq

/-- A token with its characters. -/
structure Token where
  kind : TokenKind
  text : List Char
  deriving DecidableEq

/-- The character around a stretch of code. -/
def backtick : Char := '\x60'

/-- Letters of a command name. -/
def isLetter (c : Char) : Bool :=
  c.isAlpha

/-- The characters of a space token. -/
def isSpace (c : Char) : Bool :=
  c == ' ' || c == '\t' || c == '\r'

/-- The characters of a word. -/
def isWordChar (c : Char) : Bool :=
  !(Text.isBlank c || c == '\\' || c == '@' || c == backtick || c == '"' || c == ',')

/-- The number of characters at the start of a text for which `p` holds. -/
def runLength (p : Char → Bool) (cs : List Char) : Nat :=
  (cs.takeWhile p).length

/-- What stands between `mark` and its next place on the line.  Without one, all of
the line is a stray token. -/
def delimited (kind : TokenKind) (mark : Char) (cs : List Char) : TokenKind × Nat :=
  let inside := runLength (fun c => c != mark && c != '\n') cs
  if cs[inside]? = some mark then (kind, inside + 1) else (.stray, inside)

/-- The kind of the token that starts with `c`, and how many of the characters
behind `c` belong to it. -/
def lexeme (c : Char) (cs : List Char) : TokenKind × Nat :=
  if c == '\\' || c == '@' then
    if 0 < runLength isLetter cs then (.command, runLength isLetter cs)
    else if c == '\\' && (cs.head? == some '\\' || cs.head? == some '@') then (.escape, 1)
    else (.stray, 0)
  else if c == backtick then delimited .codeSpan c cs
  else if c == '"' then delimited .quoted c cs
  else if isSpace c then (.space, runLength isSpace cs)
  else if c == '\n' then (.newline, 0)
  else if c == ',' then (.comma, 0)
  else if isWordChar c then (.word, runLength isWordChar cs)
  else (.stray, 0)

/-- The tokens of a text. -/
def tokens : List Char → List Token
  | [] => []
  | c :: cs =>
    ⟨(lexeme c cs).1, c :: cs.take (lexeme c cs).2⟩ :: tokens (cs.drop (lexeme c cs).2)
termination_by cs => cs.length

/-- The text that a list of tokens stands for. -/
def textOf (ts : List Token) : List Char :=
  ts.flatMap (·.text)

/-- Nothing of a text is lost in its tokens. -/
theorem textOf_tokens (cs : List Char) : textOf (tokens cs) = cs := by
  fun_induction tokens cs with
  | case1 => rfl
  | case2 c cs ih =>
    simp only [textOf, List.flatMap_cons, List.cons_append] at ih ⊢
    rw [ih, List.take_append_drop]

end DocForest.DocText
