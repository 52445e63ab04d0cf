/-
Which symbol is which entity.

The first sighting of a symbol stores its entity; later ones are merged into it.  An id
that another symbol has taken is refused.  A scope that is named before its declaration
is seen gets a ghost, an entity that only holds its place, so that a parent is always
there before its members.
-/
import DocForest.Forest
import DocForest.Identity.Id
import DocForest.Identity.Merge
import DocForest.Source.Classification

namespace DocForest

/-- The entities so far, and the ids under which symbols are known. -/
structure Registry where
  /-- The id of each symbol, by its USR. -/
  bindings : Table String := {}
  forest : Forest := {}

/-- What became of a sighting. -/
inductive Sighting
  | created (id : String)
  | merged (id : String)
  /-- The id belongs to another symbol, and the sighting was dropped. -/
  | collision (id : String)
  deriving DecidableEq

/-- The id of the entity that holds a sighting. -/
def Sighting.stored? : Sighting → Option String
  | created id => some id
  | merged id => some id
  | collision _ => none

namespace Registry

/-- The registry that knows nothing. -/
def empty : Registry := {}

/-- The id of a symbol. -/
def lookup? (r : Registry) (usr : String) : Option String :=
  r.bindings.get? usr

/-- Binds a symbol to an id, unless it is bound. -/
def register (r : Registry) (usr id : String) : Registry :=
  { r with bindings := r.bindings.insertNew usr id }

/-- The id of a symbol whose entity is stored. -/
def storedId? (r : Registry) (usr : String) : Option String :=
  (r.lookup? usr).filter r.forest.contains

/-- Takes in a sighting of a symbol.  The id of the entity is computed before. -/
def resolve (r : Registry) (usr : String) (e : Entity) : Sighting × Registry :=
  match r.storedId? usr with
  | some id => (.merged id, { r with forest := r.forest.modify id (·.merge e) })
  | none =>
    if r.forest.contains e.id then (.collision e.id, r)
    else
      (.created e.id, { bindings := r.bindings.insert usr e.id, forest := r.forest.insert e })

/-- An entity that holds the place of a scope. -/
def ghost (c : Source.Classification) (id name parent : String) : Entity :=
  { id, name, parent, ghost := true
    detail := (Detail.blank c.kind).mapRecord fun d => { d with isTemplate := c.isTemplate } }

/-- Binds a named scope to its id, and stores a ghost there if nothing is. -/
def holdPlace (r : Registry) (s : Source.Symbol) (c : Source.Classification) (parent : String) :
    String × Registry :=
  let id := memberId c.kind s.name parent { isTemplate := c.isTemplate }
  let forest :=
    if r.forest.contains id then r.forest else r.forest.insert (ghost c id s.name parent)
  (id, { bindings := r.bindings.insert s.usr id, forest })

/-- The id of a scope, given with the scopes around it, innermost first.  Scopes that
are not known get a ghost.  What cannot hold members, and what has no name, has the id of
the scope around it. -/
def ensureScope (r : Registry) : List Source.Symbol → String × Registry
  | [] => ("", r)
  | s :: outer =>
    match r.lookup? s.usr with
    | some id => (id, r)
    | none =>
      let (parent, r) := r.ensureScope outer
      match s.classify? with
      | none => (parent, r)
      | some c =>
        if isAnonymous s.name then (parent, r.register s.usr parent)
        else r.holdPlace s c parent

end Registry

end DocForest
