/-
Why a run stops without a document.
-/
import DocForest.Deferred.Argument
import DocForest.Source.Unit

namespace DocForest

/-- What stops a run. -/
inductive RunError
  /-- The settings do not say what they must. -/
  | missingInput (what : String)
  /-- The parser found errors in a file. -/
  | parserErrors (path : String) (count : Nat)
  /-- A file is not read. -/
  | load (path : String) (cause : Source.LoadError)
  /-- The name in the description of a declaration cannot be read. -/
  | name (cause : Deferred.NameError)
  deriving DecidableEq

/-- The text of an error. -/
def RunError.message : RunError → String
  | missingInput what => "Missing required input: " ++ what
  | parserErrors path count =>
    "Could not generate documentation due to parser errors in " ++ path ++ " (" ++ toString count ++
      " error(s))"
  | load path cause => "Could not parse file " ++ path ++ ": " ++ cause.message
  | name (.wideBlank c) =>
    "The name of a declaration follows the wide blank '" ++ String.ofList [c] ++ "'"

end DocForest
