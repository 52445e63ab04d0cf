/-
Entities: one record for each documented thing.

An entity is known by its id, which never changes.  It names its parent, and the
parent lists it among its children; `Forest` keeps the two in step.
-/
import DocForest.Entity.Detail

namespace DocForest

/-- A heading inside a documentation text. -/
structure Heading where
  id : String
  title : String
  /-- One for a section, two for a part of it, three for a part of that. -/
  level : Nat
  deriving DecidableEq

/-- The record of a documented thing. -/
structure Entity where
  id : String
  name : String
  /-- The id of the enclosing scope; empty for a thing at the outermost level. -/
  parent : String := ""
  /-- The id of the header that declares it. -/
  header : String := ""
  brief : String := ""
  doc : String := ""
  /-- The id of the documentation group that it belongs to. -/
  group : String := ""
  /-- The name of the member group that it belongs to. -/
  memberGroup : String := ""
  deprecated : Bool := false
  access : Option Access := none
  /-- The id of the class that it declares itself related to. -/
  relates : String := ""
  headings : List Heading := []
  anchors : List String := []
  /-- Whether it only stands in for a scope whose declaration was not seen. -/
  ghost : Bool := false
  /-- The ids of its members, in order of declaration. -/
  children : List String := []
  detail : Detail
  deriving DecidableEq

namespace Entity

/-- The kind of the documented thing. -/
def kind (e : Entity) : Kind :=
  e.detail.kind

/-- Whether the entity stands for a class. -/
def isRecord (e : Entity) : Bool :=
  e.kind.isRecord

/-- Lists a child, once. -/
def addChild (e : Entity) (child : String) : Entity :=
  if child ∈ e.children then e else { e with children := e.children ++ [child] }

@[simp] theorem id_addChild (e : Entity) (child : String) : (e.addChild child).id = e.id := by
  unfold addChild; split <;> rfl

@[simp] theorem parent_addChild (e : Entity) (child : String) :
    (e.addChild child).parent = e.parent := by
  unfold addChild; split <;> rfl

end Entity

end DocForest
