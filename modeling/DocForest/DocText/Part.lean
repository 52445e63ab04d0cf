/-
Documentation text as a list of parts: stretches of text, and the commands between
them.

Each command keeps the characters it was read from, so that the text can be put
together again.  The one thing that is lost is the rest of the line around a command
that vanishes and has the line to itself.
-/
import DocForest.DocText.Command

namespace DocForest.DocText

/-- A part of a documentation text. -/
inductive Part
  | text (chars : List Char)
  /-- A command and the characters it was read from. -/
  | command (command : Command) (raw : List Char)
  deriving DecidableEq

/-- A stretch of text, left out if it is empty. -/
def textPart (cs : List Char) : List Part :=
  if cs.isEmpty then [] else [.text cs]

/-- The last line of a text. -/
def lastLine (cs : List Char) : List Char :=
  (cs.reverse.takeWhile (· != '\n')).reverse

/-- Whether a command has its line to itself, where `text` is what stands since the
last command, `started` says whether there was one, and `rest` follows. -/
def isAlone (started : Bool) (text : List Char) (rest : List Token) : Bool :=
  (text.contains '\n' || !started) &&
    (Text.trim (lastLine text)).isEmpty &&
    (rest.takeWhile (·.kind != .newline)).all (·.kind == .space)

/-- The number of tokens up to the start of the next line, on a line with spaces only. -/
def lineEnd (ts : List Token) : Nat :=
  if (ts[spaces ts]?).map (·.kind) = some .newline then spaces ts + 1 else spaces ts

/-- The characters a command was read from. -/
def Found.raw (found : Found) (t : Token) (ts : List Token) : List Char :=
  let all := t.text ++ textOf (ts.take found.used)
  all.take (all.length - found.tail.length)

/-- The parts of a list of tokens, where `text` is what stands since the last command
and `started` says whether there was one. -/
def partsFrom (started : Bool) (text : List Char) : List Token → List Part
  | [] => textPart text
  | t :: ts =>
    match find? t ts with
    | none => partsFrom started (text ++ t.text) ts
    | some found =>
      let rest := ts.drop found.used
      if found.command.vanishes && isAlone started text rest then
        textPart (dropEnd (fun c => c == ' ' || c == '\t') text) ++
          .command found.command (found.raw t ts) ::
            partsFrom true found.tail (rest.drop (lineEnd rest))
      else
        textPart text ++ .command found.command (found.raw t ts) :: partsFrom true found.tail rest
termination_by ts => ts.length
decreasing_by all_goals simp only [List.length_cons, List.length_drop]; omega

/-- The parts of a documentation text. -/
def parts (cs : List Char) : List Part :=
  partsFrom false [] (tokens cs)

/-- The characters of a part. -/
def Part.raw : Part → List Char
  | text cs => cs
  | command _ raw => raw

/-- The text of a list of parts, with each command as it was written. -/
def renderRaw (ps : List Part) : List Char :=
  ps.flatMap Part.raw

/-- The command of a part. -/
def Part.command? : Part → Option Command
  | text _ => none
  | command c _ => some c

/-- The commands of a text, in order. -/
def commands (cs : List Char) : List Command :=
  (parts cs).filterMap Part.command?

/-! ### Groups named inside a text -/

/-- The group that a part names. -/
def Part.group? : Part → Option String
  | command (.ingroup id) _ => some id
  | _ => none

/-- The first group that a text names, and the text without any naming of a group. -/
def takeGroup (text : String) : Option String × String :=
  let ps := parts text.toList
  match ps.findSome? Part.group? with
  | none => (none, text)
  | some id =>
    (some id, String.ofList (Text.trim (renderRaw (ps.filter (·.group?.isNone)))))

end DocForest.DocText
