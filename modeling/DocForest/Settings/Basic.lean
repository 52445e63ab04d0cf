/-
The settings of a run.
-/
import DocForest.Diagnostic
import DocForest.Json
import DocForest.Path

namespace DocForest

/-- What a run reads, what it shows and what it writes. -/
structure Settings where
  /-- Headers are named by their paths below this directory. -/
  rootDirectory : String := "."
  /-- The headers to read, in order. -/
  headerFiles : List String := []
  compilerFlags : List String := []
  includeDirectories : List String := []
  /-- Messages that are less grave are not shown. -/
  level : Severity := .warning
  /-- The file to write. -/
  filename : String := "doxpp.json"
  layout : Layout := .compact
  deriving DecidableEq

/-- The name under which a header is included. -/
def Settings.nameOf (s : Settings) (path : String) : String :=
  Path.nameBelow s.rootDirectory path

end DocForest
