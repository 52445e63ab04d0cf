/-
Documents: the forest of entities with its headers, groups and pages.

A document is written as a tree.  `Member` is that tree: an entity with its members
under it.  Entities are nested as deep as the forest is large, which is as deep as a
forest without cycles can be.
-/
import DocForest.Forest
import DocForest.Record

namespace DocForest

/-- All that is known of a set of headers. -/
structure Document where
  forest : Forest := {}
  headers : Table Header := {}
  groups : Table Group := {}
  pages : Table Page := {}

namespace Document

/-- The document of no headers. -/
def empty : Document := {}

/-- Whether an entity, a group, a page or a header has this id. -/
def containsId (d : Document) (id : String) : Bool :=
  d.forest.contains id || d.groups.contains id || d.pages.contains id || d.headers.contains id

end Document

/-- An entity with its members nested under it. -/
inductive Member
  | mk (entity : Entity) (members : List Member)

namespace Member

/-- The entity at the top. -/
def entity : Member → Entity
  | mk e _ => e

/-- The members directly below. -/
def members : Member → List Member
  | mk _ ms => ms

end Member

namespace Forest

/-- The trees under some ids, at most `bound` entities deep.  Ids that are not in
the forest are passed over. -/
def nestWithin (f : Forest) : (bound : Nat) → List String → List Member
  | 0, _ => []
  | bound + 1, ids =>
    (ids.filterMap f.get?).map fun e => .mk e (f.nestWithin bound e.children)

/-- The forest as a list of trees. -/
def nest (f : Forest) : List Member :=
  f.nestWithin f.size f.roots

end Forest

end DocForest
