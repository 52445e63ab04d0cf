/-
Links between classes and from types to the entities they name.

Names are looked up before any link is set, so that no link depends on another.
-/
import DocForest.Lookup.Basic

namespace DocForest

/-- A base of a class that was found. -/
structure BaseLink where
  /-- The id of the class that names the base. -/
  derived : String
  /-- The place of the base among those that the class names. -/
  index : Nat
  /-- The id of the base. -/
  base : String
  access : Access
  deriving DecidableEq

namespace Forest

/-- Whether an id belongs to a class. -/
def isRecordId (f : Forest) (id : String) : Bool :=
  (f.get? id).any (·.isRecord)

/-- The class that a base names, seen from the scope around the class that names it. -/
def baseTarget? (f : Forest) (e : Entity) (b : Base) : Option String :=
  (f.find? b.type.name e.parent).filter fun id => id != e.id && f.isRecordId id

/-- The bases of a class that are found. -/
def baseLinksOf (f : Forest) (e : Entity) : List BaseLink :=
  match e.detail.record? with
  | none => []
  | some r =>
    r.bases.zipIdx.filterMap fun (b, index) =>
      (f.baseTarget? e b).map fun base => { derived := e.id, index, base, access := b.access }

/-- All bases that are found. -/
def baseLinks (f : Forest) : List BaseLink :=
  f.entities.values.flatMap f.baseLinksOf

/-- Notes on a class where one of its bases is found. -/
def setBase (index : Nat) (base : String) (r : RecordDetail) : RecordDetail :=
  { r with
    bases := r.bases.modify index fun b => { b with type := { b.type with target := some base } } }

/-- Notes on a class that another one is derived from it, once. -/
def addDerived (derived : String) (access : Access) (r : RecordDetail) : RecordDetail :=
  if r.derived.any (·.id == derived) then r
  else { r with derived := r.derived ++ [⟨derived, access⟩] }

/-- Changes what is said of a class. -/
def modifyRecord (f : Forest) (id : String) (g : RecordDetail → RecordDetail) : Forest :=
  f.modify id fun e => { e with detail := e.detail.mapRecord g }

/-- Sets the link from a class to its base, and the one back. -/
def linkBase (f : Forest) (l : BaseLink) : Forest :=
  (f.modifyRecord l.derived (setBase l.index l.base)).modifyRecord l.base
    (addDerived l.derived l.access)

/-- Links all classes with their bases. -/
def linkBases (f : Forest) : Forest :=
  f.baseLinks.foldl linkBase f

/-! ### Types -/

/-- Whether things of this kind are types. -/
def isTypeKind : Kind → Bool
  | .record _ | .enumeration | .typeAlias => true
  | _ => false

/-- The entity that a type names, seen from the entity that uses it. -/
def typeTarget? (f : Forest) (context : String) (t : TypeUse) : Option String :=
  if t.isEmpty then none
  else (f.find? t.name context).filter fun id => (f.get? id).any (isTypeKind ·.kind)

/-- Links a type to the entity that it names. -/
def linkType (f : Forest) (context : String) (t : TypeUse) : TypeUse :=
  { t with target := f.typeTarget? context t }

/-- Links the types in what is said of an entity. -/
def linkDetail (f : Forest) (context : String) : Detail → Detail
  | .function d =>
    .function
      { d with
        result := d.result.map (f.linkType context)
        arguments := d.arguments.map fun a => { a with type := f.linkType context a.type } }
  | .var d => .var { d with type := d.type.map (f.linkType context) }
  | .typeAlias d => .typeAlias { d with aliased := d.aliased.map (f.linkType context) }
  | .enumeration d => .enumeration { d with underlying := d.underlying.map (f.linkType context) }
  | d => d

/-- Links all types with the entities that they name. -/
def linkTypes (f : Forest) : Forest :=
  { f with entities := f.entities.map fun e => { e with detail := f.linkDetail e.id e.detail } }

end Forest

end DocForest
