/-
Putting together what several declarations say of one thing.

What is known stays: a text, a list or a value is taken from the later declaration only
while it is missing.  A flag holds if any declaration sets it.  Documentation is the
exception: a short description brings its text with it and replaces what was there.
-/
import DocForest.Entity.Basic

namespace DocForest

/-- A text, or another if it is empty. -/
def fillText (s other : String) : String :=
  if s.isEmpty then other else s

/-- A list, or another if it is empty. -/
def fillList {α : Type} (xs others : List α) : List α :=
  if xs.isEmpty then others else xs

/-- The members of a list, and behind them those of another that it does not hold. -/
def union (xs others : List String) : List String :=
  others.foldl (fun acc x => if x ∈ acc then acc else acc ++ [x]) xs

/-- Merges what is said of a class. -/
def RecordDetail.merge (a b : RecordDetail) : RecordDetail where
  isTemplate := a.isTemplate || b.isTemplate
  templateParameters := fillList a.templateParameters b.templateParameters
  bases := fillList a.bases b.bases
  derived := fillList a.derived b.derived
  related := fillList a.related b.related
  isAbstract := a.isAbstract || b.isAbstract
  isFinal := a.isFinal || b.isFinal

/-- Merges what is said of an enumeration. -/
def EnumDetail.merge (a b : EnumDetail) : EnumDetail where
  underlying := a.underlying.or b.underlying
  isScoped := a.isScoped || b.isScoped

/-- Merges what is said of a parameter. -/
def Argument.merge (a b : Argument) : Argument where
  name := fillText a.name b.name
  default := fillText a.default b.default
  type := if a.type.isEmpty then b.type else a.type

/-- Merges parameter lists: one by one if they are equally long. -/
def mergeArguments (xs ys : List Argument) : List Argument :=
  if xs.length = ys.length then xs.zipWith Argument.merge ys else fillList xs ys

/-- Merges what is said of a function.  The role is that of the first declaration. -/
def FunctionDetail.merge (a b : FunctionDetail) : FunctionDetail where
  role := a.role
  isTemplate := a.isTemplate || b.isTemplate
  templateParameters := fillList a.templateParameters b.templateParameters
  result := a.result.or b.result
  arguments := mergeArguments a.arguments b.arguments
  isStatic := a.isStatic || b.isStatic
  isVirtual := a.isVirtual || b.isVirtual
  isPure := a.isPure || b.isPure
  isConst := a.isConst || b.isConst
  isFinal := a.isFinal || b.isFinal
  isOverride := a.isOverride || b.isOverride
  isExplicit := a.isExplicit || b.isExplicit
  isDefaulted := a.isDefaulted || b.isDefaulted
  isDeleted := a.isDeleted || b.isDeleted
  isConstexpr := a.isConstexpr || b.isConstexpr
  isNoexcept := a.isNoexcept || b.isNoexcept
  isInline := a.isInline || b.isInline
  refQualifier := a.refQualifier.or b.refQualifier

/-- Merges what is said of a variable. -/
def VarDetail.merge (a b : VarDetail) : VarDetail where
  type := a.type.or b.type
  isField := a.isField || b.isField
  isStatic := a.isStatic || b.isStatic
  isConst := a.isConst || b.isConst
  isConstexpr := a.isConstexpr || b.isConstexpr
  isMutable := a.isMutable || b.isMutable
  isExternal := a.isExternal || b.isExternal
  isInline := a.isInline || b.isInline
  bitWidth := a.bitWidth.or b.bitWidth

/-- Merges what is said of another name for a type. -/
def AliasDetail.merge (a b : AliasDetail) : AliasDetail where
  aliased := a.aliased.or b.aliased
  isTypedef := a.isTypedef || b.isTypedef
  isTemplate := a.isTemplate || b.isTemplate
  templateParameters := fillList a.templateParameters b.templateParameters

/-- Merges what is said of things of one kind; of different kinds the first stays. -/
def Detail.merge : Detail → Detail → Detail
  | record key a, record key' b => if key = key' then record key (a.merge b) else record key a
  | enumeration a, enumeration b => enumeration (a.merge b)
  | enumerator a, enumerator b => enumerator (a.or b)
  | function a, function b => function (a.merge b)
  | var a, var b => var (a.merge b)
  | typeAlias a, typeAlias b => typeAlias (a.merge b)
  | macroDef a, macroDef b => macroDef (a.or b)
  | a, _ => a

@[simp] theorem Detail.kind_merge (a b : Detail) : (a.merge b).kind = a.kind := by
  cases a <;> cases b <;> try rfl
  rw [Detail.merge]
  split <;> rfl

/-- The detail of a thing after another declaration of it.  One that only stands in for
a scope may have guessed the kind, and gives way. -/
def Entity.mergedDetail (e other : Entity) : Detail :=
  if e.kind = other.kind then e.detail.merge other.detail
  else if e.ghost then other.detail
  else e.detail

/-- Merges another declaration into an entity.  The id and the parent do not change. -/
def Entity.merge (e other : Entity) : Entity where
  id := e.id
  name := fillText e.name other.name
  parent := e.parent
  header := fillText e.header other.header
  brief := if other.brief.isEmpty then e.brief else other.brief
  doc := if other.brief.isEmpty then e.doc else other.doc
  group := fillText e.group other.group
  memberGroup := fillText e.memberGroup other.memberGroup
  deprecated := e.deprecated || other.deprecated
  access := e.access.or other.access
  relates := fillText e.relates other.relates
  headings := fillList e.headings other.headings
  anchors := fillList e.anchors other.anchors
  ghost := false
  children := union e.children other.children
  detail := e.mergedDetail other

end DocForest
