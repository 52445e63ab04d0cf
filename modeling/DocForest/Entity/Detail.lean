/-
What a document says of a thing beyond its name and its documentation, by kind.
-/
import DocForest.Entity.Kind
import DocForest.Type.Basic

namespace DocForest

/-! ### Templates -/

/-- What a template parameter stands for. -/
inductive ParameterKind
  | type
  | nonType
  | template
  deriving DecidableEq

/-- The word for a kind of template parameter. -/
def ParameterKind.text : ParameterKind → String
  | type => "type"
  | nonType => "non_type"
  | template => "template"

/-- A parameter of a template. -/
structure TemplateParameter where
  name : String
  kind : ParameterKind
  /-- The type of a parameter that stands for a value. -/
  type : String := ""
  default : String := ""
  deriving DecidableEq

/-! ### Classes -/

/-- A class named as a base of another. -/
structure Base where
  type : TypeUse
  access : Access
  isVirtual : Bool
  deriving DecidableEq

/-- A class that names the owner of the entry as a base. -/
structure Derived where
  id : String
  access : Access
  deriving DecidableEq

/-- What is said of a class. -/
structure RecordDetail where
  isTemplate : Bool := false
  templateParameters : List TemplateParameter := []
  bases : List Base := []
  derived : List Derived := []
  /-- The ids of things that declare themselves related to the class. -/
  related : List String := []
  isAbstract : Bool := false
  isFinal : Bool := false
  deriving DecidableEq

/-- What is said of an enumeration. -/
structure EnumDetail where
  underlying : Option TypeUse := none
  isScoped : Bool := false
  deriving DecidableEq

/-! ### Functions -/

/-- The part a function plays in its class, if it has one. -/
inductive Role
  | function
  | method
  | constructor
  | destructor
  | conversion
  deriving DecidableEq

/-- The word for a role. -/
def Role.text : Role → String
  | function => "function"
  | method => "method"
  | constructor => "constructor"
  | destructor => "destructor"
  | conversion => "conversion"

/-- The reference qualifier of a method. -/
inductive RefQualifier
  | lvalue
  | rvalue
  deriving DecidableEq

/-- A reference qualifier as it is written. -/
def RefQualifier.text : RefQualifier → String
  | lvalue => "&"
  | rvalue => "&&"

/-- A parameter of a function. -/
structure Argument where
  name : String := ""
  type : TypeUse := {}
  default : String := ""
  deriving DecidableEq

/-- What is said of a function. -/
structure FunctionDetail where
  role : Role := .function
  isTemplate : Bool := false
  templateParameters : List TemplateParameter := []
  result : Option TypeUse := none
  arguments : List Argument := []
  isStatic : Bool := false
  isVirtual : Bool := false
  isPure : Bool := false
  isConst : Bool := false
  isFinal : Bool := false
  isOverride : Bool := false
  isExplicit : Bool := false
  isDefaulted : Bool := false
  isDeleted : Bool := false
  isConstexpr : Bool := false
  isNoexcept : Bool := false
  isInline : Bool := false
  refQualifier : Option RefQualifier := none
  deriving DecidableEq

/-! ### Variables and aliases -/

/-- What is said of a variable. -/
structure VarDetail where
  type : Option TypeUse := none
  isField : Bool := false
  isStatic : Bool := false
  isConst : Bool := false
  isConstexpr : Bool := false
  isMutable : Bool := false
  isExternal : Bool := false
  isInline : Bool := false
  bitWidth : Option Nat := none
  deriving DecidableEq

/-- What is said of another name for a type. -/
structure AliasDetail where
  aliased : Option TypeUse := none
  isTypedef : Bool := false
  isTemplate : Bool := false
  templateParameters : List TemplateParameter := []
  deriving DecidableEq

/-! ### All kinds together -/

/-- The kind of a thing together with what is said of things of that kind. -/
inductive Detail
  | nameSpace
  | record (key : ClassKey) (detail : RecordDetail)
  | enumeration (detail : EnumDetail)
  | enumerator (value : Option Int)
  | function (detail : FunctionDetail)
  | var (detail : VarDetail)
  | typeAlias (detail : AliasDetail)
  /-- A macro has no parameter list unless it is used like a function. -/
  | macroDef (parameters : Option (List String))
  deriving DecidableEq

namespace Detail

/-- The kind alone. -/
def kind : Detail → Kind
  | nameSpace => .nameSpace
  | record key _ => .record key
  | enumeration _ => .enumeration
  | enumerator _ => .enumerator
  | function _ => .function
  | var _ => .var
  | typeAlias _ => .typeAlias
  | macroDef _ => .macroDef

/-- The detail of a kind that says nothing yet. -/
def blank : Kind → Detail
  | .nameSpace => nameSpace
  | .record key => record key {}
  | .enumeration => enumeration {}
  | .enumerator => enumerator none
  | .function => function {}
  | .var => var {}
  | .typeAlias => typeAlias {}
  | .macroDef => macroDef none

@[simp] theorem kind_blank (k : Kind) : (blank k).kind = k := by
  cases k <;> rfl

/-- The detail of a class. -/
def record? : Detail → Option RecordDetail
  | record _ r => some r
  | _ => none

/-- The detail of a function. -/
def function? : Detail → Option FunctionDetail
  | function f => some f
  | _ => none

/-- Changes the detail of a class, and nothing else. -/
def mapRecord (f : RecordDetail → RecordDetail) : Detail → Detail
  | record key r => record key (f r)
  | d => d

@[simp] theorem kind_mapRecord (f : RecordDetail → RecordDetail) (d : Detail) :
    (d.mapRecord f).kind = d.kind := by
  cases d <;> rfl

end Detail

end DocForest
