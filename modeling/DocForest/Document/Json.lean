/-
The written form of a document.

Every record writes its fields in one fixed order.  Fields that would say nothing
(an absent type, an empty list of headings, a flag that is hardly ever set) are left
out where the format says so.
-/
import DocForest.Document.Basic
import DocForest.Json

namespace DocForest

namespace Json

/-- A list of texts. -/
def strs (items : List String) : Json :=
  arr (items.map str)

/-- A field that is left out if the text is empty. -/
def strField (key : String) (s : String) : List (String × Json) :=
  if s.isEmpty then [] else [(key, str s)]

/-- A field that is left out if there is no value. -/
def optField {α : Type} (key : String) (f : α → Json) : Option α → List (String × Json)
  | none => []
  | some a => [(key, f a)]

/-- A field that is left out if the list is empty. -/
def listField {α : Type} (key : String) (f : α → Json) (items : List α) : List (String × Json) :=
  if items.isEmpty then [] else [(key, arr (items.map f))]

end Json

open Json

/-- The written form of a type. -/
def TypeUse.json (t : TypeUse) : Json :=
  obj ([("typename", str t.name), ("qualifiers", strs (t.qualifiers.map (·.text)))] ++
    optField "id" str t.target)

/-- The written form of a heading. -/
def Heading.json (h : Heading) : Json :=
  obj [("id", str h.id), ("title", str h.title), ("level", int h.level)]

/-- The written form of a template parameter. -/
def TemplateParameter.json (p : TemplateParameter) : Json :=
  obj ([("name", str p.name), ("kind", str p.kind.text)] ++ strField "type" p.type ++
    strField "default" p.default)

/-- The written form of a base. -/
def Base.json (b : Base) : Json :=
  obj [("type", b.type.json), ("access", str b.access.text), ("is_virtual", bool b.isVirtual)]

/-- The written form of a derived class. -/
def Derived.json (d : Derived) : Json :=
  obj [("id", str d.id), ("access", str d.access.text)]

/-- The written form of a function parameter. -/
def Argument.json (a : Argument) : Json :=
  obj ([("name", str a.name), ("type", a.type.json)] ++ strField "default" a.default)

/-! ### Details -/

/-- The fields of a class. -/
def RecordDetail.fields (r : RecordDetail) : List (String × Json) :=
  [("is_template", bool r.isTemplate),
   ("template_parameters", arr (r.templateParameters.map (·.json))),
   ("bases", arr (r.bases.map (·.json))),
   ("derived", arr (r.derived.map (·.json))),
   ("related", strs r.related),
   ("is_abstract", bool r.isAbstract),
   ("is_final", bool r.isFinal)]

/-- The fields of an enumeration. -/
def EnumDetail.fields (e : EnumDetail) : List (String × Json) :=
  optField "underlying_type" TypeUse.json e.underlying ++ [("is_scoped", bool e.isScoped)]

/-- The fields of a function. -/
def FunctionDetail.fields (f : FunctionDetail) : List (String × Json) :=
  [("role", str f.role.text),
   ("is_template", bool f.isTemplate),
   ("template_parameters", arr (f.templateParameters.map (·.json)))] ++
  optField "return_type" TypeUse.json f.result ++
  [("arguments", arr (f.arguments.map (·.json))),
   ("is_static", bool f.isStatic),
   ("is_virtual", bool f.isVirtual),
   ("is_pure", bool f.isPure),
   ("is_const", bool f.isConst),
   ("is_final", bool f.isFinal),
   ("is_override", bool f.isOverride),
   ("is_explicit", bool f.isExplicit),
   ("is_defaulted", bool f.isDefaulted),
   ("is_deleted", bool f.isDeleted),
   ("is_constexpr", bool f.isConstexpr),
   ("is_noexcept", bool f.isNoexcept),
   ("is_inline", bool f.isInline)] ++
  optField "ref_qualifier" (fun q => str (RefQualifier.text q)) f.refQualifier

/-- The fields of a variable. -/
def VarDetail.fields (v : VarDetail) : List (String × Json) :=
  optField "type" TypeUse.json v.type ++
  [("is_field", bool v.isField),
   ("is_static", bool v.isStatic),
   ("is_const", bool v.isConst),
   ("is_constexpr", bool v.isConstexpr),
   ("is_mutable", bool v.isMutable),
   ("is_extern", bool v.isExternal),
   ("is_inline", bool v.isInline)] ++
  optField "bit_field_width" (fun n => int (Int.ofNat n)) v.bitWidth

/-- The fields of another name for a type. -/
def AliasDetail.fields (a : AliasDetail) : List (String × Json) :=
  optField "aliased" TypeUse.json a.aliased ++
  [("is_typedef", bool a.isTypedef),
   ("is_template", bool a.isTemplate),
   ("template_parameters", arr (a.templateParameters.map (·.json)))]

/-- The fields of any kind, the kind itself first. -/
def Detail.fields (d : Detail) : List (String × Json) :=
  ("member_type", str d.kind.text) ::
    match d with
    | .nameSpace => []
    | .record _ r => r.fields
    | .enumeration e => e.fields
    | .enumerator value => optField "value" int value
    | .function f => f.fields
    | .var v => v.fields
    | .typeAlias a => a.fields
    | .macroDef parameters => optField "parameters" strs parameters

/-! ### Records -/

/-- The headings and anchors of a record. -/
def markFields (headings : List Heading) (anchors : List String) : List (String × Json) :=
  listField "sections" Heading.json headings ++ listField "anchors" str anchors

/-- The fields of an entity, its children left out. -/
def Entity.fields (e : Entity) : List (String × Json) :=
  [("id", str e.id), ("name", str e.name), ("parent", str e.parent), ("header", str e.header),
   ("brief", str e.brief), ("doc", str e.doc), ("group", str e.group)] ++
  strField "member_group" e.memberGroup ++
  [("deprecated", bool e.deprecated)] ++
  optField "access" (fun a => str (Access.text a)) e.access ++
  strField "relates" e.relates ++
  markFields e.headings e.anchors ++
  (if e.ghost then [("ghost", bool true)] else []) ++
  e.detail.fields

/-- The written form of a header. -/
def Header.json (h : Header) : Json :=
  obj ([("id", str h.id), ("name", str h.name), ("brief", str h.brief), ("doc", str h.doc),
    ("includes", strs h.includes)] ++ markFields h.headings h.anchors)

/-- The written form of a group. -/
def Group.json (g : Group) : Json :=
  obj ([("id", str g.id), ("name", str g.name), ("brief", str g.brief), ("doc", str g.doc),
    ("parent", str g.parent), ("subgroups", strs g.subgroups)] ++ markFields g.headings g.anchors)

/-- The written form of a page. -/
def Page.json (p : Page) : Json :=
  obj ([("id", str p.id), ("title", str p.title), ("doc", str p.doc), ("parent", str p.parent),
    ("subpages", strs p.subpages)] ++ markFields p.headings p.anchors)

mutual

/-- The written form of an entity with its members. -/
def Member.json : Member → Json
  | .mk e ms => obj (e.fields ++ [("members", arr (Member.jsons ms))])

/-- The written forms of a list of members. -/
def Member.jsons : List Member → List Json
  | [] => []
  | m :: ms => m.json :: Member.jsons ms

end

/-- The written form of a document. -/
def Document.json (d : Document) : Json :=
  obj [("members", arr (Member.jsons d.forest.nest)),
    ("headers", arr (d.headers.values.map (·.json))),
    ("groups", arr (d.groups.values.map (·.json))),
    ("pages", arr (d.pages.values.map (·.json)))]

/-- The text of a document. -/
def Document.render (d : Document) (layout : Layout) : String :=
  d.json.render layout

end DocForest
