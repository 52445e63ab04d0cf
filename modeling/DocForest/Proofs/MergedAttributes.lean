/-
What several declarations of one thing come to.

Declarations are merged one after the other, and each attribute has its own line in that.  What
comes out can be said without the order of merging: a text, a list or a value is the first that
is there, a flag holds if it is set anywhere, the description is the last that has a brief text,
and the members are listed in the order in which they were first named.  The only places where
the declarations must fit together are the kind, and the number of parameters of a function.

Every attribute is a fold of its own.  To find what such a fold comes to, it is enough that the
first declaration may be merged in before the others are looked at; the lemmas about attributes
say this of each way of merging, those about details put the attributes of one kind together, and
the induction over the declarations is made once, for entities.
-/
import DocForest.Proofs.Merge

namespace DocForest

/-! ### Ways of merging -/

/-- The first text that is not empty. -/
def firstText (texts : List String) : String :=
  (texts.find? (· ≠ "")).getD ""

/-- The first list that is not empty. -/
def firstList {α : Type} (lists : List (List α)) : List α :=
  (lists.find? (!·.isEmpty)).getD []

/-- The first value that is there. -/
def firstValue {α : Type} (values : List (Option α)) : Option α :=
  values.findSome? id

/-- The first type that has a name, or else the last one. -/
def firstType (types : List TypeUse) : TypeUse :=
  ((types.find? (!·.isEmpty)).or types.getLast?).getD {}

@[simp] theorem firstText_fillText (s t : String) (rest : List String) :
    firstText (fillText s t :: rest) = firstText (s :: t :: rest) := by
  unfold fillText firstText
  by_cases hs : s = ""
  · simp [hs]
  · simp [hs]

@[simp] theorem firstList_fillList {α : Type} (xs ys : List α) (rest : List (List α)) :
    firstList (fillList xs ys :: rest) = firstList (xs :: ys :: rest) := by
  unfold fillList firstList
  cases xs <;> simp

@[simp] theorem firstValue_or {α : Type} (a b : Option α) (rest : List (Option α)) :
    firstValue (a.or b :: rest) = firstValue (a :: b :: rest) := by
  cases a <;> rfl

@[simp] theorem firstType_ite (s t : TypeUse) (rest : List TypeUse) :
    firstType ((if s.isEmpty then t else s) :: rest) = firstType (s :: t :: rest) := by
  unfold firstType
  by_cases hs : s.isEmpty = true
  · simp [hs]
  · simp [hs]

@[simp] theorem firstText_singleton (s : String) : firstText [s] = s := by
  by_cases hs : s = "" <;> simp [firstText, hs]

@[simp] theorem firstList_singleton {α : Type} (xs : List α) : firstList [xs] = xs := by
  cases xs <;> rfl

@[simp] theorem firstValue_singleton {α : Type} (a : Option α) : firstValue [a] = a := by
  cases a <;> rfl

@[simp] theorem firstType_singleton (t : TypeUse) : firstType [t] = t := by
  by_cases ht : t.isEmpty = true <;> simp [firstType, ht]

/-- **What a union adds** are the new ones, each once, in order. -/
theorem union_eq_append (xs ys : List String) :
    union xs ys = xs ++ (ys.filter (· ∉ xs)).eraseDups := by
  induction ys generalizing xs with
  | nil => simp [union]
  | cons y rest ih =>
      have hstep : union xs (y :: rest) = union (if y ∈ xs then xs else xs ++ [y]) rest := rfl
      rw [hstep, ih]
      by_cases hy : y ∈ xs
      · simp [hy]
      · have hlater : (rest.filter (· ∉ xs ++ [y])) =
            (rest.filter (· ∉ xs)).filter (fun z => !z == y) := by
          rw [List.filter_filter]
          refine List.filter_congr fun z _ => ?_
          rw [Bool.eq_iff_iff]
          simp [and_comm]
        rw [if_neg hy, hlater, List.filter_cons_of_pos (by simpa using hy), List.eraseDups_cons,
          List.append_assoc, List.singleton_append]

/-! ### Details -/

/-- What several declarations say of a class. -/
def RecordDetail.combined (ds : List RecordDetail) : RecordDetail where
  isTemplate := ds.any (·.isTemplate)
  templateParameters := firstList (ds.map (·.templateParameters))
  bases := firstList (ds.map (·.bases))
  derived := firstList (ds.map (·.derived))
  related := firstList (ds.map (·.related))
  isAbstract := ds.any (·.isAbstract)
  isFinal := ds.any (·.isFinal)

/-- What several declarations say of an enumeration. -/
def EnumDetail.combined (ds : List EnumDetail) : EnumDetail where
  underlying := firstValue (ds.map (·.underlying))
  isScoped := ds.any (·.isScoped)

/-- What several declarations say of a variable. -/
def VarDetail.combined (ds : List VarDetail) : VarDetail where
  type := firstValue (ds.map (·.type))
  isField := ds.any (·.isField)
  isStatic := ds.any (·.isStatic)
  isConst := ds.any (·.isConst)
  isConstexpr := ds.any (·.isConstexpr)
  isMutable := ds.any (·.isMutable)
  isExternal := ds.any (·.isExternal)
  isInline := ds.any (·.isInline)
  bitWidth := firstValue (ds.map (·.bitWidth))

/-- What several declarations say of another name for a type. -/
def AliasDetail.combined (ds : List AliasDetail) : AliasDetail where
  aliased := firstValue (ds.map (·.aliased))
  isTypedef := ds.any (·.isTypedef)
  isTemplate := ds.any (·.isTemplate)
  templateParameters := firstList (ds.map (·.templateParameters))

/-- What several declarations say of one parameter. -/
def Argument.combined (as : List Argument) : Argument where
  name := firstText (as.map (·.name))
  type := firstType (as.map (·.type))
  default := firstText (as.map (·.default))

/-- What further declarations add to parameters, one by one. -/
def combinedArguments (xs : List Argument) (others : List (List Argument)) : List Argument :=
  xs.mapIdx fun i x => Argument.combined (x :: others.filterMap (·[i]?))

/-- What further declarations add to a function. -/
def FunctionDetail.combined (d : FunctionDetail) (others : List FunctionDetail) :
    FunctionDetail :=
  let ds := d :: others
  { role := d.role
    isTemplate := ds.any (·.isTemplate)
    templateParameters := firstList (ds.map (·.templateParameters))
    result := firstValue (ds.map (·.result))
    arguments := combinedArguments d.arguments (others.map (·.arguments))
    isStatic := ds.any (·.isStatic)
    isVirtual := ds.any (·.isVirtual)
    isPure := ds.any (·.isPure)
    isConst := ds.any (·.isConst)
    isFinal := ds.any (·.isFinal)
    isOverride := ds.any (·.isOverride)
    isExplicit := ds.any (·.isExplicit)
    isDefaulted := ds.any (·.isDefaulted)
    isDeleted := ds.any (·.isDeleted)
    isConstexpr := ds.any (·.isConstexpr)
    isNoexcept := ds.any (·.isNoexcept)
    isInline := ds.any (·.isInline)
    refQualifier := firstValue (ds.map (·.refQualifier)) }

@[simp] theorem RecordDetail.combined_merge (a b : RecordDetail) (rest : List RecordDetail) :
    combined (a.merge b :: rest) = combined (a :: b :: rest) := by
  simp [combined, merge, Bool.or_assoc]

@[simp] theorem EnumDetail.combined_merge (a b : EnumDetail) (rest : List EnumDetail) :
    combined (a.merge b :: rest) = combined (a :: b :: rest) := by
  simp [combined, merge, Bool.or_assoc]

@[simp] theorem VarDetail.combined_merge (a b : VarDetail) (rest : List VarDetail) :
    combined (a.merge b :: rest) = combined (a :: b :: rest) := by
  simp [combined, merge, Bool.or_assoc]

@[simp] theorem AliasDetail.combined_merge (a b : AliasDetail) (rest : List AliasDetail) :
    combined (a.merge b :: rest) = combined (a :: b :: rest) := by
  simp [combined, merge, Bool.or_assoc]

@[simp] theorem Argument.combined_merge (a b : Argument) (rest : List Argument) :
    combined (a.merge b :: rest) = combined (a :: b :: rest) := by
  simp [combined, merge]

@[simp] theorem RecordDetail.combined_singleton (a : RecordDetail) : combined [a] = a := by
  simp [combined]

@[simp] theorem EnumDetail.combined_singleton (a : EnumDetail) : combined [a] = a := by
  simp [combined]

@[simp] theorem VarDetail.combined_singleton (a : VarDetail) : combined [a] = a := by
  simp [combined]

@[simp] theorem AliasDetail.combined_singleton (a : AliasDetail) : combined [a] = a := by
  simp [combined]

@[simp] theorem Argument.combined_singleton (a : Argument) : combined [a] = a := by
  simp [combined]

@[simp] theorem combinedArguments_nil (xs : List Argument) : combinedArguments xs [] = xs :=
  List.ext_getElem? fun i => by simp [combinedArguments]

/-- Parameter lists of one length are merged one by one. -/
theorem combinedArguments_merge {xs ys : List Argument} (h : ys.length = xs.length)
    (rest : List (List Argument)) :
    combinedArguments (mergeArguments xs ys) rest = combinedArguments xs (ys :: rest) := by
  rw [mergeArguments, if_pos h.symm]
  refine List.ext_getElem? fun i => ?_
  simp only [combinedArguments, List.getElem?_mapIdx, List.getElem?_zipWith]
  cases hx : xs[i]? with
  | none => simp
  | some x =>
      have hi : i < ys.length := h ▸ (List.getElem?_eq_some_iff.mp hx).1
      simp [List.getElem?_eq_getElem hi]

@[simp] theorem FunctionDetail.combined_nil (a : FunctionDetail) : a.combined [] = a := by
  simp [combined]

theorem FunctionDetail.combined_merge {a b : FunctionDetail}
    (h : b.arguments.length = a.arguments.length) (rest : List FunctionDetail) :
    (a.merge b).combined rest = a.combined (b :: rest) := by
  simp [combined, merge, Bool.or_assoc, combinedArguments_merge h]

namespace Detail

/-- How many parameters a function has; nothing else has any. -/
def parameterCount : Detail → Nat
  | function d => d.arguments.length
  | _ => 0

/-- What a declaration and further ones of its kind say of a thing. -/
def combined (d : Detail) (others : List Detail) : Detail :=
  match d with
  | nameSpace => nameSpace
  | record key a => record key (.combined (a :: others.filterMap (recordOf? key)))
  | enumeration a => enumeration (.combined (a :: others.filterMap enumeration?))
  | enumerator a => enumerator (firstValue (a :: others.filterMap enumerator?))
  | function a => function (a.combined (others.filterMap function?))
  | var a => var (.combined (a :: others.filterMap var?))
  | typeAlias a => typeAlias (.combined (a :: others.filterMap typeAlias?))
  | macroDef a => macroDef (firstValue (a :: others.filterMap macroDef?))

@[simp] theorem combined_nil (d : Detail) : d.combined [] = d := by
  cases d <;> simp [combined]

theorem parameterCount_merge {a b : Detail} (hkind : b.kind = a.kind)
    (hcount : b.parameterCount = a.parameterCount) :
    (a.merge b).parameterCount = a.parameterCount := by
  cases a <;> cases b <;> cases hkind
  all_goals simp_all [merge, parameterCount, FunctionDetail.merge, mergeArguments]

/-- The first of the further declarations may be merged in before the others are looked at. -/
theorem combined_merge {a b : Detail} (hkind : b.kind = a.kind)
    (hcount : b.parameterCount = a.parameterCount) (rest : List Detail) :
    (a.merge b).combined rest = a.combined (b :: rest) := by
  cases a <;> cases b <;> cases hkind
  case function.function.refl a b =>
    exact congrArg function (FunctionDetail.combined_merge hcount _)
  all_goals
    simp [merge, combined, recordOf?, enumeration?, enumerator?, var?, typeAlias?, macroDef?]

end Detail

/-! ### Entities -/

namespace Entity

/-- The declaration whose description is kept: of the further ones the last that has a brief
text. -/
def described (e : Entity) (others : List Entity) : Entity :=
  ((others.filter (·.brief ≠ "")).getLast?).getD e

/-- What a declaration and further ones say of a thing. -/
def combined (e : Entity) (others : List Entity) : Entity :=
  let es := e :: others
  { id := e.id
    name := firstText (es.map (·.name))
    parent := e.parent
    header := firstText (es.map (·.header))
    brief := (e.described others).brief
    doc := (e.described others).doc
    group := firstText (es.map (·.group))
    memberGroup := firstText (es.map (·.memberGroup))
    deprecated := es.any (·.deprecated)
    access := firstValue (es.map (·.access))
    relates := firstText (es.map (·.relates))
    headings := firstList (es.map (·.headings))
    anchors := firstList (es.map (·.anchors))
    ghost := e.ghost && others.isEmpty
    children := e.children ++
      ((others.flatMap (·.children)).filter (· ∉ e.children)).eraseDups
    detail := e.detail.combined (others.map (·.detail)) }

/-- Another declaration of a thing of the same kind, with as many parameters. -/
structure Matches (e other : Entity) : Prop where
  kind : other.kind = e.kind
  count : other.detail.parameterCount = e.detail.parameterCount

@[simp] theorem combined_nil (e : Entity) : e.combined [] = e := by
  simp [combined, described]

theorem Matches.detail_merge {e other : Entity} (h : e.Matches other) :
    (e.merge other).detail = e.detail.merge other.detail :=
  if_pos h.kind.symm

/-- What matches a declaration matches it after a merge. -/
theorem Matches.merge {e other x : Entity} (h : e.Matches other) (hx : e.Matches x) :
    (e.merge other).Matches x where
  kind := by
    rw [hx.kind, Entity.kind, Entity.kind, h.detail_merge, Detail.kind_merge]
  count := by
    rw [hx.count, h.detail_merge, Detail.parameterCount_merge h.kind h.count]

theorem described_merge (e other : Entity) (rest : List Entity) :
    ((e.merge other).described rest).brief = (e.described (other :: rest)).brief ∧
      ((e.merge other).described rest).doc = (e.described (other :: rest)).doc := by
  have hlater : e.described (other :: rest) =
      (if other.brief = "" then e else other).described rest := by
    unfold described
    by_cases hbrief : other.brief = ""
    · simp [hbrief]
    · simp [hbrief, List.getLast?_cons]
  rw [hlater]
  unfold described
  cases (rest.filter (·.brief ≠ "")).getLast? with
  | some x => exact ⟨rfl, rfl⟩
  | none => by_cases hbrief : other.brief = "" <;> simp [merge, hbrief]

/-- The first of the further declarations may be merged in before the others are looked at. -/
theorem Matches.combined_merge {e other : Entity} (h : e.Matches other) (rest : List Entity) :
    (e.merge other).combined rest = e.combined (other :: rest) := by
  obtain ⟨hbrief, hdoc⟩ := described_merge e other rest
  have hchildren : ((e.merge other).combined rest).children =
      (e.combined (other :: rest)).children := by
    show (e.merge other).children ++ _ = e.children ++ _
    rw [← union_eq_append, ← union_eq_append, List.flatMap_cons, union, union, List.foldl_append]
    rfl
  have hdetail : ((e.merge other).combined rest).detail = (e.combined (other :: rest)).detail := by
    show (e.merge other).detail.combined _ = _
    rw [h.detail_merge, Detail.combined_merge h.kind h.count]
    rfl
  rw [combined, combined, Entity.mk.injEq]
  refine ⟨rfl, ?_, rfl, ?_, hbrief, hdoc, ?_, ?_, ?_, ?_, ?_, ?_, ?_, ?_, hchildren, hdetail⟩
  all_goals simp [Entity.merge, Bool.or_assoc]

/--
**Merging in closed form.**

Further declarations of a thing are merged in, one after the other.  They are of its kind, and if
it is a function, they have as many parameters.  What comes out has the id, the parent and the
role of the first declaration; of every other attribute, the value that `combined` names.
-/
theorem foldl_merge_eq_combined {e : Entity} {others : List Entity}
    (h : ∀ other ∈ others, e.Matches other) : others.foldl merge e = e.combined others := by
  induction others generalizing e with
  | nil => simp
  | cons other rest ih =>
      obtain ⟨hother, hrest⟩ := List.forall_mem_cons.mp h
      rw [List.foldl_cons, ih fun x hx => hother.merge (hrest x hx), hother.combined_merge]

/-- A function that is only named. -/
def bareFunction : Entity :=
  { id := "f-int", name := "f", children := ["a"],
    detail := .function { role := .method, arguments := [{ type := { name := "int" } }] } }

/-- Its declaration, with a description. -/
def describedFunction : Entity :=
  { id := "f", name := "g", header := "a.h", brief := "First.", doc := "Text.",
    children := ["b", "a", "b"],
    detail := .function
      { isConst := true, arguments := [{ name := "x", type := { name := "long" } }] } }

/-- Its definition, with another description. -/
def definedFunction : Entity :=
  { id := "f", name := "f", header := "a.cpp", brief := "Second.", children := ["c", "b"],
    detail := .function
      { isInline := true
        arguments := [{ name := "y", type := { name := "int" }, default := "1" }] } }

/-- The name of the parameter comes from the declaration, and its default from the definition. -/
theorem foldl_merge_definedFunction :
    (∀ other ∈ [describedFunction, definedFunction], bareFunction.Matches other) ∧
      [describedFunction, definedFunction].foldl merge bareFunction =
        { id := "f-int", name := "f", header := "a.h", brief := "Second.",
          children := ["a", "b", "c"],
          detail := .function
            { role := .method, isConst := true, isInline := true,
              arguments := [{ name := "x", type := { name := "int" }, default := "1" }] } } := by
  have hmatch : ∀ other ∈ [describedFunction, definedFunction], bareFunction.Matches other := by
    intro other hother
    exact ⟨by revert other; decide, by revert other; decide⟩
  refine ⟨hmatch, ?_⟩
  rw [foldl_merge_eq_combined hmatch]
  decide

end Entity

end DocForest
