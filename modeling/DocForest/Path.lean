/-
File paths as lists of components.

Repeated and trailing slashes do not count, nor does a dot, unless the path starts with
it.  The root of the file system is a component of its own.  Two paths are the same if
their components are.
-/
import DocForest.Text.Blank

namespace DocForest.Path

/-- The components of a path. -/
def components (path : String) : List String :=
  let cs := path.toList
  let parts := Text.pieces (· == '/') cs
  let named := (parts.filter fun p => !(p.isEmpty || p == ['.'])).map String.ofList
  if cs.head? = some '/' then "/" :: named
  else if parts.head? = some ['.'] then "." :: named
  else named

/-- Whether two paths have the same components. -/
def same (a b : String) : Bool :=
  components a == components b

/-- The name of a file below a root directory: the components behind those of the
root, or all of them if the file is elsewhere, joined by slashes. -/
def nameBelow (root path : String) : String :=
  let all := components path
  let rootParts := components root
  let below := if rootParts.isPrefixOf all then all.drop rootParts.length else all
  String.ofList (Text.join ['/'] (below.map String.toList))

end DocForest.Path
