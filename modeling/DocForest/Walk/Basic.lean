/-
The walk over the declarations of a file.

Declarations are visited from the outside in, so that a scope is known before its
members.  `enter` handles one declaration and says under which scope the declarations
inside it belong, if they are to be visited; the walk itself only follows the tree.
-/
import DocForest.Comment.Block
import DocForest.DocText.Brief
import DocForest.DocText.Part
import DocForest.Group.Scope
import DocForest.Identity.Registry
import DocForest.Walk.Detail

namespace DocForest

/-- What is known of the file whose declarations are visited. -/
structure FileContext where
  path : String
  /-- The name under which the file is included. -/
  name : String
  /-- The id of the header. -/
  header : String
  scope : GroupScope
  blocks : List Comment.Block := []

namespace Walk

open Source

/-- The entities so far, and what has been reported. -/
structure State where
  registry : Registry := {}
  notes : List Diagnostic := []

/-- What the comment of a declaration says: its group and its description. -/
def documentation (file : FileContext) (d : Decl) : Option String × DocText.Description :=
  match Comment.documentation? file.blocks d.extent.start with
  | none => (none, {})
  | some text =>
    let (group, text) := DocText.takeGroup text
    (group, DocText.describe text)

/-- The entity of a declaration.  A group that its comment names goes before the one
that is open on its line. -/
def entityOf (file : FileContext) (d : Decl) (inner : List Decl) (c : Classification)
    (parent : String) (parentKind : Option Kind) : Entity :=
  let detail := detailOf d inner c
  let (group, description) := documentation file d
  let line := d.extent.start.line
  { id := memberId c.kind d.name parent detail.signature
    name := d.name
    parent
    header := file.header
    brief := description.brief
    doc := description.doc
    group := group.getD (file.scope.groupAt line)
    memberGroup := file.scope.memberGroupAt line
    deprecated := d.deprecated
    access := if (parentKind.map Kind.isRecord).getD false then d.access else none
    detail }

/-- The report that an id is taken. -/
def collisionNote (file : FileContext) (d : Decl) (id : String) : Diagnostic :=
  .error Code.idCollision file.name
    ("Id \x60" ++ id ++ "\x60 for \x60" ++ d.name ++
      "\x60 is already used by a different declaration") d.extent.start.line

/-- Stores the entity of a declaration; the declarations inside a scope belong to it. -/
def store (file : FileContext) (s : State) (d : Decl) (c : Classification) (e : Entity) :
    State × Option String :=
  match s.registry.resolve d.usr e with
  | (.collision id, registry) => (⟨registry, s.notes ++ [collisionNote file d id]⟩, none)
  | (.created id, registry) => ({ s with registry }, if c.kind.isScope then some id else none)
  | (.merged id, registry) => ({ s with registry }, if c.kind.isScope then some id else none)

/-- Handles a declaration of the file itself whose enclosing scope has the id `parent`. -/
def declare (file : FileContext) (s : State) (d : Decl) (inner : List Decl) (parent : String) :
    State × Option String :=
  let around := (s.registry.forest.get? parent).map fun p => (p.kind, p.name)
  match classify d.kind d.name d.tokens around with
  | none => (s, none)
  | some c =>
    if c.kind.isRecord && !d.isDefinition then (s, none)
    else if c.kind.isScope && isAnonymous d.name then
      ({ s with registry := s.registry.register d.usr parent }, some parent)
    else store file s d c (entityOf file d inner c parent (around.map (·.1)))

/-- The id of the scope around a declaration: the scope that it names itself goes before
the one it stands in. -/
def scopeOf (s : State) (d : Decl) (parent : String) : String × State :=
  match d.scopes with
  | [] => (parent, s)
  | scopes =>
    let (id, registry) := s.registry.ensureScope scopes
    (id, { s with registry })

/-- Handles one declaration that stands in the scope `parent`, and gives the scope of the
declarations inside it if they are to be visited.  What is in no file, and what only
wraps other declarations, is looked through; what is in another file is passed over. -/
def enter (file : FileContext) (s : State) (d : Decl) (inner : List Decl) (parent : String) :
    State × Option String :=
  match d.file with
  | none => (s, some parent)
  | some path =>
    if !Path.same path file.path then (s, none)
    else if d.kind = .unexposed ∨ d.kind = .linkage then (s, some parent)
    else
      let (parent, s) := scopeOf s d parent
      declare file s d inner parent

mutual

/-- Visits a declaration and what is inside it. -/
def visit (file : FileContext) (parent : String) (s : State) : DeclTree → State
  | .node d children =>
    match enter file s d (children.map DeclTree.decl) parent with
    | (s, none) => s
    | (s, some inner) => visitAll file inner s children

/-- Visits declarations one after the other. -/
def visitAll (file : FileContext) (parent : String) (s : State) : List DeclTree → State
  | [] => s
  | t :: ts => visitAll file parent (visit file parent s t) ts

end

end Walk

end DocForest
