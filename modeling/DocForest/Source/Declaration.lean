/-
Declarations as a parser of the source language reports them.

The parser gives every symbol an identity of its own, its USR.  A declaration names the
scopes that enclose it by meaning, innermost first, and holds the declarations inside
it.
-/
import DocForest.Entity.Kind
import DocForest.Path
import DocForest.Position

namespace DocForest.Source

/-- The kinds of declaration that a parser tells apart. -/
inductive DeclKind
  | nameSpace
  | record (key : ClassKey)
  | classTemplate
  | partialSpecialization
  | enumeration
  | enumerator
  | function
  | functionTemplate
  | method
  | constructor
  | destructor
  | conversion
  | field
  | var
  | typedef
  | typeAlias
  | aliasTemplate
  | typeParameter
  | valueParameter
  | templateParameter
  | base
  | accessLabel
  | parameter
  /-- Something whose only meaning is what it holds. -/
  | unexposed
  /-- A change of the language linkage of what it holds. -/
  | linkage
  | other
  deriving DecidableEq

/-- Where a thing is stored, as far as it is said. -/
inductive Storage
  | unspecified
  | external
  | static
  deriving DecidableEq

/-- A scope that encloses a declaration. -/
structure Symbol where
  usr : String
  kind : DeclKind
  name : String
  tokens : List String := []
  deriving DecidableEq

/-- A parameter of a function. -/
structure Parameter where
  name : String
  type : String
  default : Option String := none
  deriving DecidableEq

/-- What a parser says of a single declaration. -/
structure Decl where
  kind : DeclKind
  name : String := ""
  usr : String := ""
  /-- The file that holds the declaration, if there is one. -/
  file : Option String := none
  extent : Extent := {}
  /-- The enclosing scopes, innermost first; empty if they are not said. -/
  scopes : List Symbol := []
  tokens : List String := []
  isDefinition : Bool := false
  isStatic : Bool := false
  isVirtual : Bool := false
  isConst : Bool := false
  isPure : Bool := false
  isAbstract : Bool := false
  deprecated : Bool := false
  storage : Storage := .unspecified
  access : Option Access := none
  resultType : Option String := none
  parameters : List Parameter := []
  type : Option String := none
  underlyingType : Option String := none
  enumValue : Option Int := none
  bitWidth : Option Nat := none
  default : Option String := none
  deriving DecidableEq

/-- A declaration with the declarations inside it. -/
inductive DeclTree
  | node (decl : Decl) (children : List DeclTree)

/-- The declaration at the top. -/
def DeclTree.decl : DeclTree → Decl
  | node d _ => d

/-- The declarations inside. -/
def DeclTree.children : DeclTree → List DeclTree
  | node _ cs => cs

end DocForest.Source
