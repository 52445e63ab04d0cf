/-
What a parser makes of one file, and the set of files that it can read.
-/
import DocForest.Source.Declaration
import DocForest.Source.Token

namespace DocForest.Source

/-- How grave a message of the parser is. -/
inductive MessageKind
  | note
  | warning
  | error
  | fatal
  deriving DecidableEq

/-- Whether a message says that the file could not be understood. -/
def MessageKind.isError : MessageKind → Bool
  | error | fatal => true
  | _ => false

/-- A message of the parser. -/
structure Message where
  kind : MessageKind
  text : String
  deriving DecidableEq

/-- A file named in an include directive; depth one is the file itself. -/
structure Inclusion where
  name : String
  depth : Nat
  deriving DecidableEq

/-- A parsed file. -/
structure Unit where
  tokens : List Token := []
  decls : List DeclTree := []
  includes : List Inclusion := []
  messages : List Message := []

/-- Why a file is not read. -/
inductive LoadError
  | notFound (path : String)
  | failed (reason : String)
  deriving DecidableEq

/-- The text of an error. -/
def LoadError.message : LoadError → String
  | notFound path => "file not found: " ++ path
  | failed reason => "translation unit could not be loaded: " ++ reason

/-- The files that can be read, each with its outcome.  Of two for the same path the later
one counts. -/
abbrev Units : Type := List (String × Except LoadError Unit)

/-- Reads a file. -/
def Units.load (units : Units) (path : String) : Except LoadError Unit :=
  match units.reverse.find? fun (p, _) => Path.same p path with
  | some (_, outcome) => outcome
  | none => .error (.notFound path)

end DocForest.Source
