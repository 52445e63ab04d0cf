/-
A function is found under its qualified name and the types it takes.

The path of a call is followed inwards like any other, and where each scope on the way is the
only one of its name there is no choice on the way: the search arrives at the scope of the
function and at no other (`IsTrail.search_eq`).  There the types of the call decide among the
functions of that name.  They come from a parameter list, those of the function from its
declaration, and both are the same (`Query.argumentTypes_join`); so there is a function that
meets them with all qualifiers, and the first such function is the answer.
-/
import DocForest.Proofs.Ids
import DocForest.Proofs.QualifiedNames
import DocForest.Proofs.Spellings

namespace DocForest

open Text

/-! ### Functions that take given types -/

/-- The types that a function takes, each with its qualifiers. -/
def Entity.callShape? (e : Entity) : Option (List (String × List Qualifier)) :=
  e.detail.function?.map fun fn => fn.arguments.map (·.type.shape)

/-- A function has the name of another one and takes the same types. -/
def Entity.SameCall (e s : Entity) : Prop :=
  SameName s.name e.name ∧ s.callShape? = e.callShape?

instance (e s : Entity) : Decidable (e.SameCall s) :=
  inferInstanceAs (Decidable (_ ∧ _))

namespace Query

theorem sameTypes_iff {a b : List TypeUse} :
    sameTypes true a b = true ↔ a.map TypeUse.shape = b.map TypeUse.shape := by
  induction a generalizing b with
  | nil => cases b <;> simp [sameTypes]
  | cons x a ih =>
      cases b with
      | nil => simp [sameTypes]
      | cons y b =>
          rw [List.map_cons, List.map_cons, List.cons.injEq, ← ih]
          simp [sameTypes, TypeUse.shape, and_assoc, and_left_comm]

theorem takes_iff {types : List TypeUse} {e : Entity} :
    takes types true e = true ↔ e.callShape? = some (types.map TypeUse.shape) := by
  unfold takes Entity.callShape?
  cases e.detail.function? with
  | none => simp
  | some fn => simp [sameTypes_iff, Function.comp_def]

/-- **The first function that takes the types of a call is chosen**, if there is one. -/
theorem pick?_call {q : Query} {types : List TypeUse} (harguments : q.arguments = some types)
    (hne : types ≠ []) (hconst : q.isConst = false) {candidates : List Entity} {first : Entity}
    (hfirst : candidates.find? (takes types true) = some first) :
    q.pick? candidates = some first := by
  obtain ⟨t, ts, rfl⟩ := List.exists_cons_of_ne_nil hne
  have hallows : ∀ e, q.allowsConst e = true := by
    intro e
    simp [allowsConst, hconst]
  unfold pick?
  simp only [harguments, hallows, Bool.true_and, hfirst, Option.some_or]

/-- A call as it is written. -/
def call (name : String) (spellings : List String) : String :=
  "::" ++ name ++ "(" ++ String.ofList (join [',', ' '] (spellings.map String.toList)) ++ ")"

end Query

namespace Forest

/-! ### The way inwards -/

theorem WellLinked.parent_of_mem_members {f : Forest} (h : f.WellLinked) {scope : String}
    {e : Entity} (he : e ∈ f.members scope) : e.parent = scope := by
  obtain ⟨id, hid, hget⟩ := List.mem_filterMap.mp he
  unfold children at hid
  by_cases hroot : scope = ""
  · rw [if_pos (by simpa using hroot), h.roots] at hid
    obtain ⟨root, hvalue, rfl⟩ := List.mem_map.mp hid
    obtain ⟨hvalue, hparent⟩ := List.mem_filter.mp hvalue
    obtain ⟨⟨key, root⟩, hentry, rfl⟩ := List.mem_map.mp hvalue
    have hkey : f.get? key = some root := (Table.mem_entries_iff h.distinct).mp hentry
    rw [h.keyed key root hkey, hkey] at hget
    obtain rfl := Option.some.inj hget
    rw [hroot]
    simpa using hparent
  · rw [if_neg (by simpa using hroot)] at hid
    cases hscope : f.get? scope with
    | none => simp [hscope] at hid
    | some p =>
        rw [hscope] at hid
        obtain ⟨c, hc, hparent⟩ := h.answered scope p id hscope hid
        obtain rfl := Option.some.inj (hget.symm.trans hc)
        exact hparent

/-- A search among copies of one candidate is a search in that candidate. -/
theorem findSome?_eq_of_forall_eq {α β : Type} {l : List α} {a : α} (ha : a ∈ l)
    (h : ∀ x ∈ l, x = a) (g : α → Option β) : l.findSome? g = g a := by
  cases hg : g a with
  | none => exact List.findSome?_eq_none_iff.mpr fun x hx => by rw [h x hx, hg]
  | some b =>
      obtain ⟨x, rest, rfl⟩ := List.exists_cons_of_ne_nil (List.ne_nil_of_mem ha)
      rw [List.findSome?_cons, h x (by simp), hg]

/-- An entity is the only one of its name in its scope. -/
def Unrivalled (f : Forest) (a : Entity) : Prop :=
  ∀ s ∈ f.members a.parent, SameName s.name a.name → s = a

instance (f : Forest) (a : Entity) : Decidable (f.Unrivalled a) :=
  inferInstanceAs (Decidable (∀ s ∈ f.members a.parent, _))

/-- **A trail of entities that have no rivals is the only way inwards.** -/
theorem IsTrail.search_eq {f : Forest} (h : f.WellLinked) {q : Query} {e : Entity}
    {trail : List Entity} (hnames : ∀ a ∈ trail, Query.IsName a.name.toList)
    (hunique : ∀ a ∈ trail, f.Unrivalled a) :
    ∀ {scope : String}, f.IsTrail scope (trail ++ [e]) →
      f.search q scope ((trail ++ [e]).map (·.name)) =
        (q.pick? (f.matching e.parent e.name)).map (·.id) := by
  induction trail with
  | nil =>
      rintro scope ⟨hmember, -⟩
      rw [h.parent_of_mem_members hmember]
      rfl
  | cons a trail ih =>
      rintro scope ⟨hmember, hrest⟩
      obtain ⟨ha, hnames⟩ := List.forall_mem_cons.mp hnames
      obtain ⟨hfirst, hunique⟩ := List.forall_mem_cons.mp hunique
      have hscope : a.parent = scope := h.parent_of_mem_members hmember
      rw [← ih hnames hunique hrest, List.cons_append, List.map_cons, search]
      · refine findSome?_eq_of_forall_eq (mem_matching_of_mem hmember (nameMatches_self ha)) ?_ _
        intro s hs
        rw [matching_eq_filter hmember (nameMatches_self ha), List.mem_filter] at hs
        refine hfirst s ?_ ((nameMatches_iff ha).mp hs.2)
        rw [hscope]
        exact hs.1
      · simp

/-! ### Looking the call up -/

/-- A call is read as the path of the function and the types of its spellings. -/
theorem WellLinked.parse?_call {f : Forest} (h : f.WellLinked) {id : String}
    (hid : f.contains id = true) (hnames : ∀ a ∈ f.ancestors id, Query.IsName a.name.toList)
    {spellings : List String}
    (hspellings : ∀ s ∈ spellings, Query.IsSpelling s.toList)
    (hvoid : spellings.map (fun s => trim s.toList) ≠ ["void".toList]) :
    ∃ name, f.qualifiedName? id = some name ∧
      Query.parse? (Query.call name spellings) =
        some { isGlobal := true, path := (f.ancestors id).reverse.map (·.name),
               arguments := some (spellings.map TypeUse.parse) } := by
  have hlist : ∀ cs ∈ spellings.map String.toList, Query.IsSpelling cs := by
    intro cs hcs
    obtain ⟨s, hs, rfl⟩ := List.mem_map.mp hcs
    exact hspellings s hs
  have hparse := (h.isPath_pathOf hid hnames).parse?_call
    (Query.not_hasWord_join fun cs hcs => (hlist cs hcs).noOperator)
    (Query.Balanced.join (Query.Balanced.of_not_mem (by decide) (by decide))
      fun cs hcs => (hlist cs hcs).parens)
  have htypes : ((spellings.map String.toList).map fun cs => TypeUse.parse (String.ofList cs)) =
      spellings.map TypeUse.parse := by
    rw [List.map_map]
    exact List.map_congr_left fun s _ => by rw [Function.comp_apply, String.ofList_toList]
  have hvoid' : (spellings.map String.toList).map trim ≠ ["void".toList] := by
    rwa [List.map_map]
  rw [Query.argumentTypes_join hlist hvoid', htypes, map_ofList_pathOf] at hparse
  refine ⟨_, qualifiedName?_eq hid, ?_⟩
  rw [← hparse, Query.call]
  congr 1
  rw [← String.toList_inj]
  simp

/-- **A function is found under its qualified name and the types it takes**: of the functions in
its scope that have its name and take the same types, the first is the answer. -/
theorem WellLinked.finds_first_call {f : Forest} (h : f.WellLinked) {id : String} {e : Entity}
    {fn : FunctionDetail} (he : f.get? id = some e) (hfn : e.detail.function? = some fn)
    (hnames : ∀ a ∈ f.ancestors id, Query.IsName a.name.toList)
    (hunique : ∀ a ∈ (f.ancestors id).tail, f.Unrivalled a)
    {spellings : List String} (hne : spellings ≠ [])
    (hspellings : ∀ s ∈ spellings, Query.IsSpelling s.toList)
    (hvoid : spellings.map (fun s => trim s.toList) ≠ ["void".toList])
    (htypes : fn.arguments.map (·.type.shape) = spellings.map fun s => (TypeUse.parse s).shape)
    (context : String) :
    ∃ name first, f.qualifiedName? id = some name ∧
      (f.members e.parent).find? (fun s => decide (e.SameCall s)) = some first ∧
      f.find? (Query.call name spellings) context = some first.id := by
  have hid : f.contains id = true := contains_of_get? he
  obtain ⟨outer, hcons⟩ := h.ancestors_eq_cons he
  obtain ⟨name, hname, hparse⟩ := h.parse?_call hid hnames hspellings hvoid
  have he' : Query.IsName e.name.toList := hnames e (by simp [hcons])
  have hshape : e.callShape? = some ((spellings.map TypeUse.parse).map TypeUse.shape) := by
    rw [Entity.callShape?, hfn, Option.map_some, htypes, List.map_map]
    rfl
  -- Among the members of that name, those that take the types of the call are the ones meant.
  have hmeant : ∀ s, (nameMatches s.name e.name && Query.takes (spellings.map .parse) true s) =
      decide (e.SameCall s) := by
    intro s
    rw [Bool.eq_iff_iff, Bool.and_eq_true, decide_eq_true_iff, nameMatches_iff he', Query.takes_iff,
      Entity.SameCall, hshape]
  obtain ⟨first, hfirst⟩ : ∃ first,
      (f.members e.parent).find? (fun s => decide (e.SameCall s)) = some first := by
    rw [← Option.isSome_iff_exists, List.find?_isSome]
    exact ⟨e, h.mem_members he, by simp [Entity.SameCall, SameName]⟩
  refine ⟨name, first, hname, hfirst, ?_⟩
  rw [find?, hparse, Option.bind_some, answer?, if_pos rfl]
  have htrail := h.isTrail_ancestors hid
  rw [hcons, List.reverse_cons] at htrail ⊢
  rw [htrail.search_eq h (fun a ha => hnames a (by simp [hcons, List.mem_reverse.mp ha]))
    (fun a ha => hunique a (by simpa [hcons] using ha)),
    matching_eq_filter (h.mem_members he) (nameMatches_self he'),
    Query.pick?_call rfl (by simpa using hne) rfl, Option.map_some]
  rw [List.find?_filter]
  simpa [hmeant] using hfirst

/-- A template, a type of two words and a pointer to a function, as a parameter list has them. -/
def mixedSpellings : List String :=
  ["std::map<int, char> &", "unsigned int", "void (*)(int, char)"]

/-- The parameters that a declaration with these spellings has. -/
def mixedArguments : List Argument :=
  [{ type := { name := "std::map<int,char>", qualifiers := [.lvalueRef] } },
    { type := { name := "unsigned int" } }, { type := { name := "void (*)(int, char)" } }]

/-- A class with a function for each of two lists of types, one of them declared twice. -/
def overloadedEntities : List Entity :=
  [{ id := "N", name := "N", detail := .nameSpace },
    { id := "N-A", name := "A", parent := "N", detail := .record .cls {} },
    { id := "N-A-f-int", name := "f", parent := "N-A",
      detail := .function { arguments := [{ type := { name := "int" } }] } },
    { id := "N-A-f-mixed-const", name := "f", parent := "N-A",
      detail := .function { arguments := mixedArguments, isConst := true } },
    { id := "N-A-f-mixed", name := "f", parent := "N-A",
      detail := .function { arguments := mixedArguments } }]

def overloaded : Forest :=
  overloadedEntities.foldl insert {}

theorem overloaded_wellLinked : overloaded.WellLinked :=
  (empty_sound.foldl_insert (by decide)).wellLinked

/-- Of two functions that differ in a `const` behind the list, both are found as the first. -/
theorem overloaded_finds_first :
    (∀ a ∈ overloaded.ancestors "N-A-f-mixed", Query.IsName a.name.toList) ∧
      (∀ a ∈ (overloaded.ancestors "N-A-f-mixed").tail, overloaded.Unrivalled a) ∧
      (∀ s ∈ mixedSpellings, Query.IsSpelling s.toList) ∧
      ∀ context, overloaded.find?
        "::N::A::f(std::map<int, char> &, unsigned int, void (*)(int, char))" context =
          some "N-A-f-mixed-const" := by
  have hnames : ∀ a ∈ overloaded.ancestors "N-A-f-mixed", Query.IsName a.name.toList := by decide
  have hunique : ∀ a ∈ (overloaded.ancestors "N-A-f-mixed").tail, overloaded.Unrivalled a := by
    decide
  have hspellings : ∀ s ∈ mixedSpellings, Query.IsSpelling s.toList := by decide +kernel
  refine ⟨hnames, hunique, hspellings, ?_⟩
  intro context
  have he : overloaded.get? "N-A-f-mixed" = some _ := rfl
  obtain ⟨name, first, hname, hfirst, hfind⟩ :=
    overloaded_wellLinked.finds_first_call he rfl hnames hunique (by decide) hspellings (by decide)
      (by decide +kernel) context
  obtain rfl : "N::A::f" = name := by
    have hcomputed : overloaded.qualifiedName? "N-A-f-mixed" = some "N::A::f" := by decide
    exact Option.some.inj (hcomputed.symm.trans hname)
  have hid : first.id = "N-A-f-mixed-const" := by
    have hmap := congrArg (Option.map Entity.id) hfirst
    exact Option.some.inj (hmap.symm.trans (by decide))
  have hcall : Query.call "N::A::f" mixedSpellings =
      "::N::A::f(std::map<int, char> &, unsigned int, void (*)(int, char))" := by decide
  rw [hid, hcall] at hfind
  exact hfind

/-- Two functions, one with an argument of a type that was spelled with a blank before it. -/
def spacedVoidEntities : List Entity :=
  [{ id := "f-int", name := "f",
     detail := .function { arguments := [{ type := { name := "int" } }] } },
    { id := "f-void", name := "f",
      detail := .function { arguments := [{ type := { name := "void" } }] } }]

def spacedVoid : Forest :=
  spacedVoidEntities.foldl insert {}

theorem spacedVoid_wellLinked : spacedVoid.WellLinked :=
  (empty_sound.foldl_insert (by decide)).wellLinked

/-- A lone `void` with blanks around it is an empty list as well, so that the types of the call
are not met. -/
theorem spacedVoid_finds_other :
    spacedVoid.WellLinked ∧
      (∀ a ∈ spacedVoid.ancestors "f-void", Query.IsName a.name.toList) ∧
      (spacedVoid.ancestors "f-void").tail = [] ∧
      Query.IsSpelling " void".toList ∧ [" void"] ≠ ["void"] ∧
      spacedVoid.qualifiedName? "f-void" = some "f" ∧
      ∃ e fn, spacedVoid.get? "f-void" = some e ∧ e.detail.function? = some fn ∧
        fn.arguments.map (·.type) = [" void"].map TypeUse.parse ∧
        (spacedVoid.members e.parent).find? (fun s => decide (e.SameCall s)) = some e ∧
        spacedVoid.find? (Query.call "f" [" void"]) "" = some "f-int" := by
  refine ⟨spacedVoid_wellLinked, by decide, by decide, by decide +kernel, by decide, by decide, ?_⟩
  exact ⟨_, _, rfl, rfl, by decide +kernel, by decide, by decide +kernel⟩

end Forest

end DocForest
