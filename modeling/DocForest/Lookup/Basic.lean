/-
What a name means at some place of a document.

A name is looked up in the scope at hand and then in each scope around it, up to the
outermost.  The first scope in which it means something decides.
-/
import DocForest.Document.Basic
import DocForest.Lookup.Query

namespace DocForest

/-- Whether an entity of this name is what a part of a path means.  Blanks do not count,
and template arguments only in the names of operators. -/
def nameMatches (name segment : String) : Bool :=
  let cs := segment.toList
  let wanted := if Query.operatorWord.isPrefixOf cs then cs else cs.takeWhile (· != '<')
  Text.eraseBlanks name.toList == Text.eraseBlanks wanted

namespace Query

/-! ### Functions of one name -/

/-- Whether two lists of types agree, with or without their qualifiers. -/
def sameTypes (withQualifiers : Bool) (a b : List TypeUse) : Bool :=
  a.length == b.length &&
    (a.zip b).all fun (x, y) =>
      x.name == y.name && (!withQualifiers || x.qualifiers == y.qualifiers)

/-- Whether an entity is not refused for a missing `const`. -/
def allowsConst (q : Query) (e : Entity) : Bool :=
  !q.isConst || e.detail.function?.any (·.isConst)

/-- Whether an entity is a function whose parameters have these types. -/
def takes (types : List TypeUse) (withQualifiers : Bool) (e : Entity) : Bool :=
  e.detail.function?.any fun f => sameTypes withQualifiers (f.arguments.map (·.type)) types

/-- Chooses among entities of one name.  Given types must be met, if possible with their
qualifiers; otherwise a function without parameters goes first. -/
def pick? (q : Query) (candidates : List Entity) : Option Entity :=
  match q.arguments with
  | some (t :: ts) =>
    (candidates.find? fun e => q.allowsConst e && takes (t :: ts) true e).or
      (candidates.find? fun e => q.allowsConst e && takes (t :: ts) false e)
  | _ =>
    ((candidates.find? fun e => q.allowsConst e && takes [] true e).or
      (candidates.find? q.allowsConst)).or candidates.head?

end Query

namespace Forest

/-- Whether the values of an entity are seen in the scope around it. -/
def isOpenEnum (e : Entity) : Bool :=
  match e.detail with
  | .enumeration d => !d.isScoped
  | _ => false

/-- The members of a scope that a name means.  Without one, the values of its unscoped
enumerations are looked at. -/
def matching (f : Forest) (scope segment : String) : List Entity :=
  let members := f.members scope
  let direct := members.filter (nameMatches ·.name segment)
  if direct.isEmpty then
    ((members.filter isOpenEnum).flatMap fun e => e.children.filterMap f.get?).filter
      (nameMatches ·.name segment)
  else direct

/-- Follows a path inwards from a scope. -/
def search (f : Forest) (q : Query) (scope : String) : (path : List String) → Option String
  | [] => none
  | [name] => (q.pick? (f.matching scope name)).map (·.id)
  | name :: path => (f.matching scope name).findSome? fun e => f.search q e.id path

/-- Inside a class, its bare name means the class and not its constructors. -/
def ownName? (f : Forest) (q : Query) (scope : String) : Option String :=
  match q.path, q.arguments with
  | [name], none =>
    ((f.get? scope).filter fun e => e.isRecord && nameMatches e.name name).map (·.id)
  | _, _ => none

/-- What a name means in one scope. -/
def findIn (f : Forest) (q : Query) (scope : String) : Option String :=
  (f.ownName? q scope).or (f.search q scope q.path)

/-- At most `bound` scopes from one outwards. -/
def outwardWithin (f : Forest) : (bound : Nat) → (scope : String) → List String
  | 0, _ => []
  | bound + 1, scope =>
    if scope.isEmpty then [scope]
    else scope :: f.outwardWithin bound (((f.get? scope).map (·.parent)).getD "")

/-- A scope and the scopes around it, up to the outermost, whose id is empty. -/
def outward (f : Forest) (scope : String) : List String :=
  f.outwardWithin (f.size + 2) scope

/-- The id of the entity that a query means from a scope. -/
def answer? (f : Forest) (q : Query) (context : String) : Option String :=
  if q.isGlobal then f.search q "" q.path else (f.outward context).findSome? (f.findIn q)

/-- The id of the entity that a name means from a scope. -/
def find? (f : Forest) (name context : String) : Option String :=
  (Query.parse? name).bind fun q => f.answer? q context

end Forest

/-- The id of whatever a name means from a scope: an entity, or else the record or one of
the given anchors with that id, or else the header of that name. -/
def Document.find? (d : Document) (anchors : List String) (name context : String) :
    Option String :=
  match d.forest.find? name context with
  | some id => some id
  | none =>
    let name := String.ofList (Text.trim name.toList)
    if d.containsId name || anchors.contains name then some name
    else (d.headers.values.find? (·.name == name)).map (·.id)

end DocForest
