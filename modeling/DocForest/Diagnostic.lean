/-
What is reported about documentation: messages with a severity, a code and a place.

Nothing that is reported stops the work.  A log keeps every message in order; which of
them are also shown depends on its threshold alone.
-/
namespace DocForest

/-- How grave a message is. -/
inductive Severity
  | error
  | warning
  | info
  | debug
  deriving DecidableEq

namespace Severity

/-- The word for a severity. -/
def text : Severity → String
  | error => "error"
  | warning => "warning"
  | info => "info"
  | debug => "debug"

/-- The place of a severity in the order from the gravest on. -/
def rank : Severity → Nat
  | error => 0
  | warning => 1
  | info => 2
  | debug => 3

/-- Whether a message of this severity is shown under a threshold. -/
def shownUnder (s threshold : Severity) : Bool :=
  s.rank ≤ threshold.rank

/-- The severity of a name; the short name of a warning counts too. -/
def ofName? : String → Option Severity
  | "error" => some error
  | "warning" | "warn" => some warning
  | "info" => some info
  | "debug" => some debug
  | _ => none

end Severity

/-- A message about documentation. -/
structure Diagnostic where
  severity : Severity
  code : Option String := none
  /-- The file in question; empty if there is none. -/
  file : String := ""
  line : Option Nat := none
  message : String
  deriving DecidableEq

/-! ### Codes -/

namespace Code

/-- A command lacks an argument. -/
def missingArgument : String := "E0001"

/-- An id holds characters that cannot stand in a link. -/
def invalidId : String := "E0002"

/-- A group would become part of itself. -/
def groupCycle : String := "E0003"

/-- A command stands where it has no meaning. -/
def misplacedCommand : String := "E0004"

/-- The target of a link is not known. -/
def unresolvedReference : String := "E0020"

/-- A described declaration is not known. -/
def unresolvedDeclaration : String := "E0021"

/-- A related class is not known, or is no class. -/
def unresolvedRelates : String := "E0022"

/-- A page that is to become part of another is not known. -/
def unresolvedSubpage : String := "E0023"

/-- A page would become part of two pages, or of itself. -/
def subpageConflict : String := "E0024"

/-- Two different declarations have the same id. -/
def idCollision : String := "E0040"

/-- Something is closed that is not open. -/
def unbalancedGroup : String := "W0001"

/-- Something is open at the end of a file. -/
def unterminatedGroup : String := "W0002"

/-- Something would belong to two groups. -/
def groupConflict : String := "W0003"

/-- The descriptions of a macro differ in its parameters. -/
def macroParameters : String := "W0004"

/-- A described declaration is of another kind than the description says. -/
def kindMismatch : String := "W0005"

/-- A warning about the source text itself. -/
def sourceWarning : String := "W0006"

end Code

namespace Diagnostic

/-- An error. -/
def error (code file message : String) (line : Option Nat) : Diagnostic :=
  { severity := .error, code := some code, file, line, message }

/-- A warning. -/
def warning (code file message : String) (line : Option Nat) : Diagnostic :=
  { severity := .warning, code := some code, file, line, message }

/-- The text of a message: severity, code, message, and the place if there is one. -/
def text (d : Diagnostic) : String :=
  "[" ++ d.severity.text ++ "]" ++
    (match d.code with
     | some code => "[" ++ code ++ "]"
     | none => "") ++
    ": " ++ d.message ++
    (if d.file.isEmpty then ""
     else
      "\n   in file " ++ d.file ++
        match d.line with
        | some line => ":" ++ toString line
        | none => "")

/-- Whether a message is an error. -/
def isError (d : Diagnostic) : Bool :=
  d.severity == .error

end Diagnostic

/-! ### Logs -/

/-- Messages in the order in which they came, and how grave a message must be to be
shown. -/
structure DiagnosticLog where
  entries : List Diagnostic := []
  threshold : Severity := .debug

namespace DiagnosticLog

/-- Adds a message. -/
def add (log : DiagnosticLog) (d : Diagnostic) : DiagnosticLog :=
  { log with entries := log.entries ++ [d] }

/-- Whether the log shows a message. -/
def shows (log : DiagnosticLog) (d : Diagnostic) : Bool :=
  d.severity.shownUnder log.threshold

/-- The messages that are shown. -/
def shown (log : DiagnosticLog) : List Diagnostic :=
  log.entries.filter log.shows

/-- The messages with a code. -/
def withCode (log : DiagnosticLog) (code : String) : List Diagnostic :=
  log.entries.filter (·.code == some code)

/-- The number of messages of a severity. -/
def count (log : DiagnosticLog) (severity : Severity) : Nat :=
  log.entries.countP (·.severity == severity)

/-- Whether there is an error among the messages. -/
def hasErrors (log : DiagnosticLog) : Bool :=
  log.entries.any (·.isError)

/-- Takes the messages out of the log. -/
def take (log : DiagnosticLog) : List Diagnostic × DiagnosticLog :=
  (log.entries, { log with entries := [] })

end DiagnosticLog

end DocForest
