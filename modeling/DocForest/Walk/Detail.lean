/-
What a document says of a declaration, read from the declaration, the declarations
directly inside it and its tokens.
-/
import DocForest.Source.Classification
import DocForest.Source.Declarator

namespace DocForest.Walk

open Source

/-- The template parameter that a declaration is. -/
def templateParameter? (d : Decl) : Option TemplateParameter :=
  let make (kind : ParameterKind) : TemplateParameter :=
    { name := d.name, kind, type := d.type.getD "", default := d.default.getD "" }
  match d.kind with
  | .typeParameter => some (make .type)
  | .valueParameter => some (make .nonType)
  | .templateParameter => some (make .template)
  | _ => none

/-- The template parameters among the declarations inside another. -/
def templateParameters (inner : List Decl) : List TemplateParameter :=
  inner.filterMap templateParameter?

/-- The access that a base has if none is written. -/
def defaultAccess : ClassKey → Access
  | .cls => .priv
  | .struct => .pub
  | .union => .pub

/-- The base that a declaration inside a class names. -/
def base? (key : ClassKey) (d : Decl) : Option Base :=
  if d.kind = .base then
    some
      { type := .parse (d.type.getD d.name)
        access := d.access.getD (defaultAccess key)
        isVirtual := d.isVirtual }
  else none

/-- What is said of a class. -/
def recordDetail (d : Decl) (inner : List Decl) (c : Classification) (key : ClassKey) :
    RecordDetail where
  isTemplate := c.isTemplate
  templateParameters := templateParameters inner
  bases := inner.filterMap (base? key)
  isAbstract := d.isAbstract
  isFinal := isFinalClass d.tokens d.name

/-- The parameter that a declaration inside a function is. -/
def argument? (d : Decl) : Option Argument :=
  if d.kind = .parameter then
    some { name := d.name, type := .parse (d.type.getD ""), default := d.default.getD "" }
  else none

/-- The parameters of a function: those that are listed, or else those declared inside
it. -/
def arguments (d : Decl) (inner : List Decl) : List Argument :=
  if d.parameters.isEmpty then inner.filterMap argument?
  else
    d.parameters.map fun p =>
      { name := p.name, type := .parse p.type, default := p.default.getD "" }

/-- Whether a function of this role has a result. -/
def hasResult : Role → Bool
  | .constructor | .destructor => false
  | _ => true

/-- What is said of a function. -/
def functionDetail (d : Decl) (inner : List Decl) (c : Classification) : FunctionDetail :=
  let s := functionSpecifiers d.tokens d.name
  { role := c.role
    isTemplate := c.isTemplate
    templateParameters := templateParameters inner
    result := if hasResult c.role then d.resultType.map TypeUse.parse else none
    arguments := arguments d inner
    isStatic := d.isStatic || d.storage == .static || s.isStatic
    isVirtual := d.isVirtual || s.isVirtual
    isPure := d.isPure || s.isPure
    isConst := d.isConst || s.isConst
    isFinal := s.isFinal
    isOverride := s.isOverride
    isExplicit := s.isExplicit
    isDefaulted := s.isDefaulted
    isDeleted := s.isDeleted
    isConstexpr := s.isConstexpr
    isNoexcept := s.isNoexcept
    isInline := s.isInline
    refQualifier := s.refQualifier }

/-- What is said of a variable.  It is constant itself only if the outermost part of its
type is. -/
def varDetail (d : Decl) (c : Classification) : VarDetail :=
  let s := varSpecifiers d.tokens d.name
  let type := d.type.map TypeUse.parse
  { type
    isField := c.isField
    isStatic := d.isStatic || d.storage == .static || s.isStatic
    isConst := type.bind (·.qualifiers.getLast?) == some .const || s.isConstexpr
    isConstexpr := s.isConstexpr
    isMutable := s.isMutable
    isExternal := d.storage == .external || s.isExternal
    isInline := s.isInline
    bitWidth := d.bitWidth }

/-- What is said of a declaration, `inner` being the declarations directly inside it. -/
def detailOf (d : Decl) (inner : List Decl) (c : Classification) : Detail :=
  match c.kind with
  | .nameSpace => .nameSpace
  | .record key => .record key (recordDetail d inner c key)
  | .enumeration =>
    .enumeration
      { underlying := d.underlyingType.map TypeUse.parse, isScoped := isScopedEnum d.tokens }
  | .enumerator => .enumerator d.enumValue
  | .function => .function (functionDetail d inner c)
  | .var => .var (varDetail d c)
  | .typeAlias =>
    .typeAlias
      { aliased := d.underlyingType.map TypeUse.parse
        isTypedef := c.isTypedef
        isTemplate := c.isTemplate
        templateParameters := templateParameters inner }
  | .macroDef => .macroDef none

@[simp] theorem kind_detailOf (d : Decl) (inner : List Decl) (c : Classification) :
    (detailOf d inner c).kind = c.kind := by
  unfold detailOf
  split <;> simp_all [Detail.kind]

end DocForest.Walk
