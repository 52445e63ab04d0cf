/-
The forest of entities: a table under their ids, and the list of its roots.

Links run both ways, from child to parent and from parent to child, and `insert`
sets both.  An entity whose parent is not in the table is stored all the same; it
is then nobody's child.
-/
import DocForest.Entity.Basic
import DocForest.Table
import DocForest.Text.Blank
import DocForest.Text.Search

namespace DocForest

/-- All entities of a document, in order of creation, and the ids of the outermost. -/
structure Forest where
  entities : Table Entity := {}
  roots : List String := []

namespace Forest

/-- The forest without entities. -/
def empty : Forest := {}

/-- The entity with this id. -/
def get? (f : Forest) (id : String) : Option Entity :=
  f.entities.get? id

/-- Whether an id is taken. -/
def contains (f : Forest) (id : String) : Bool :=
  f.entities.contains id

/-- The number of entities. -/
def size (f : Forest) : Nat :=
  f.entities.size

/-- The ids, in order of creation. -/
def ids (f : Forest) : List String :=
  f.entities.keys

/-- Changes the entity with this id. -/
def modify (f : Forest) (id : String) (g : Entity → Entity) : Forest :=
  { f with entities := f.entities.modify id g }

/-- Lists a child of an entity, once; an unknown parent changes nothing. -/
def addChild (f : Forest) (parent child : String) : Forest :=
  f.modify parent (·.addChild child)

/-- Enters an id among the roots, or among the children of its parent. -/
def link (f : Forest) (parent id : String) : Forest :=
  if parent.isEmpty then { f with roots := f.roots ++ [id] } else f.addChild parent id

/-- Stores an entity whose id is not taken and links it to its parent. -/
def insert (f : Forest) (e : Entity) : Forest :=
  if f.contains e.id then f
  else link { f with entities := f.entities.insertNew e.id e } e.parent e.id

/-- The ids of the members of a scope; the empty id is the outermost scope. -/
def children (f : Forest) (scope : String) : List String :=
  if scope.isEmpty then f.roots else ((f.get? scope).map (·.children)).getD []

/-- The members of a scope, in order of declaration. -/
def members (f : Forest) (scope : String) : List Entity :=
  (f.children scope).filterMap f.get?

/-- The members of a scope that have this name. -/
def named (f : Forest) (scope name : String) : List Entity :=
  (f.members scope).filter (·.name == name)

/-- At most `bound` entities from an id outwards. -/
def ancestorsWithin (f : Forest) : (bound : Nat) → (id : String) → List Entity
  | 0, _ => []
  | bound + 1, id =>
    match f.get? id with
    | none => []
    | some e => if e.parent.isEmpty then [e] else e :: f.ancestorsWithin bound e.parent

/-- An entity and the scopes around it, innermost first.  No chain of distinct
entities is longer than the forest is large. -/
def ancestors (f : Forest) (id : String) : List Entity :=
  f.ancestorsWithin f.size id

/-- The names of an entity and of the scopes around it, outermost first, joined by `::`. -/
def qualifiedName? (f : Forest) (id : String) : Option String :=
  if f.contains id then
    some (String.ofList
      (Text.join [':', ':'] ((f.ancestors id).reverse.map (·.name.toList))))
  else none

/-- Follows a path of names inwards from a scope; among members of one name the
first is meant. -/
def descend (f : Forest) (scope : String) : (path : List String) → Option Entity
  | [] => none
  | [name] => (f.named scope name).head?
  | name :: path => (f.named scope name).head?.bind fun e => f.descend e.id path

/-- The entity with this qualified name. -/
def byName? (f : Forest) (qualified : String) : Option Entity :=
  f.descend "" ((Text.splitOn [':', ':'] qualified.toList).map String.ofList)

end Forest

end DocForest
