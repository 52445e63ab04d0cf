/-
What a simple name means from some place.

The look-up of a name is a search, with a bound on how far it goes outwards and a choice among
whatever is found.  What a name means can be said without any of that: of the scopes around a
place, the innermost in which the name stands for something decides (`Innermost`), and in this
scope it means one thing (`MeansIn`).  The two agree (`findSome?_outwardWithin_iff`, by induction
on the bound, which is never used up since the way outwards ends at the outermost scope).
-/
import DocForest.Proofs.QualifiedNames
import Mathlib.Logic.Relation

namespace DocForest

open Relation

namespace Forest

/-! ### Scopes around a place -/

/-- One scope is directly around another.  The outermost scope has none around it, and an id that
is not known is only in that one. -/
inductive Around (f : Forest) : String → String → Prop
  | parent {id : String} {e : Entity} (hid : id ≠ "") (he : f.get? id = some e) :
      Around f id e.parent
  | unknown {id : String} (hid : id ≠ "") (he : f.get? id = none) : Around f id ""

theorem around_iff {f : Forest} {scope outer : String} :
    f.Around scope outer ↔ scope ≠ "" ∧ ((f.get? scope).map (·.parent)).getD "" = outer := by
  constructor
  · intro h
    cases h with
    | parent hid he => exact ⟨hid, by rw [he]; rfl⟩
    | unknown hid he => exact ⟨hid, by rw [he]; rfl⟩
  · rintro ⟨hid, rfl⟩
    cases he : f.get? scope with
    | some e => exact .parent hid he
    | none => exact .unknown hid he

/-! ### What a name means in one scope -/

/-- The scope is a class of this name. -/
def IsClassNamed (f : Forest) (name scope : String) : Prop :=
  ∃ e, f.get? scope = some e ∧ e.isRecord = true ∧ SameName e.name name

/-- The members of a scope that have this name, in order. -/
def membersNamed (f : Forest) (name scope : String) : List Entity :=
  (f.members scope).filter (SameName ·.name name)

/-- The values of the unscoped enumerations in a scope that have this name, in order. -/
def valuesNamed (f : Forest) (name scope : String) : List Entity :=
  ((f.members scope).filter isOpenEnum).flatMap fun enum =>
    (enum.children.filterMap f.get?).filter (SameName ·.name name)

/-- The scope is a class of this name, or a member has it, or else a value of an unscoped
enumeration. -/
def HasMeaning (f : Forest) (name scope : String) : Prop :=
  f.IsClassNamed name scope ∨ f.membersNamed name scope ≠ [] ∨ f.valuesNamed name scope ≠ []

/-- Whether an entity is a function without parameters. -/
def takesNothing (e : Entity) : Bool :=
  e.detail.function?.any (·.arguments.isEmpty)

/-- The first function without parameters, or else the first entity. -/
def preferred? (es : List Entity) : Option Entity :=
  (es.find? takesNothing).or es.head?

/-- What a name means in a scope: the scope itself, or one of its members, or else one of the
values of its unscoped enumerations. -/
inductive MeansIn (f : Forest) (name scope : String) : String → Prop
  | itself (h : f.IsClassNamed name scope) : MeansIn f name scope scope
  | member {e : Entity} (hclass : ¬ f.IsClassNamed name scope)
      (he : preferred? (f.membersNamed name scope) = some e) : MeansIn f name scope e.id
  | value {e : Entity} (hclass : ¬ f.IsClassNamed name scope)
      (hmembers : f.membersNamed name scope = [])
      (he : preferred? (f.valuesNamed name scope) = some e) : MeansIn f name scope e.id

/-- Of a scope and those around it, the innermost in which a name means something. -/
inductive Innermost (f : Forest) (name : String) : String → String → Prop
  | here {scope : String} (h : f.HasMeaning name scope) : Innermost f name scope scope
  | around {scope outer found : String} (h : ¬ f.HasMeaning name scope)
      (houter : f.Around scope outer) (hfound : Innermost f name outer found) :
      Innermost f name scope found

/-! ### The search in one scope -/

/-- The query for a simple name. -/
def simpleQuery (name : String) : Query :=
  { path := [name] }

theorem parse?_simpleQuery {name : String} (hname : Query.IsName name.toList) :
    Query.parse? name = some (simpleQuery name) := by
  have hpath : Query.IsPath [name.toList] := by
    refine ⟨by simp, ?_⟩
    intro n hn
    rw [List.mem_singleton.mp hn]
    exact hname
  have hwritten : Query.written [name.toList] = name.toList := rfl
  have hparse := hpath.parse?_written.1
  rwa [hwritten, List.map_singleton, String.ofList_toList] at hparse

theorem pick?_simpleQuery (name : String) (es : List Entity) :
    (simpleQuery name).pick? es = preferred? es := by
  have htakes : Query.takes [] true = takesNothing := by
    funext e
    unfold Query.takes takesNothing
    congr 1
    funext d
    cases d.arguments <;> rfl
  have hconst : (simpleQuery name).allowsConst = fun _ => true := rfl
  show ((es.find? fun e => (simpleQuery name).allowsConst e && Query.takes [] true e).or
    (es.find? (simpleQuery name).allowsConst)).or es.head? = _
  rw [hconst, htakes, preferred?]
  cases es with
  | nil => rfl
  | cons e rest => simp

variable {f : Forest} {name : String}

theorem matching_eq (hname : Query.IsName name.toList) (scope : String) :
    f.matching scope name =
      if f.membersNamed name scope = [] then f.valuesNamed name scope
      else f.membersNamed name scope := by
  have hsame : (fun e : Entity => nameMatches e.name name) =
      fun e => decide (SameName e.name name) := by
    funext e
    rw [Bool.eq_iff_iff, nameMatches_iff hname, decide_eq_true_iff]
  unfold matching
  simp only [hsame, List.isEmpty_iff, List.filter_flatMap]
  rfl

theorem ownName?_eq_some_iff (h : f.WellLinked) (hname : Query.IsName name.toList)
    {scope id : String} :
    f.ownName? (simpleQuery name) scope = some id ↔ f.IsClassNamed name scope ∧ id = scope := by
  show ((f.get? scope).filter fun e => e.isRecord && nameMatches e.name name).map (·.id) =
    some id ↔ _
  simp only [Option.map_eq_some_iff, Option.filter_eq_some_iff, Bool.and_eq_true,
    nameMatches_iff hname]
  constructor
  · rintro ⟨e, ⟨he, hrecord, hsame⟩, rfl⟩
    exact ⟨⟨e, he, hrecord, hsame⟩, h.keyed scope e he⟩
  · rintro ⟨⟨e, he, hrecord, hsame⟩, rfl⟩
    exact ⟨e, ⟨he, hrecord, hsame⟩, h.keyed id e he⟩

theorem ownName?_eq_none_iff (h : f.WellLinked) (hname : Query.IsName name.toList)
    {scope : String} :
    f.ownName? (simpleQuery name) scope = none ↔ ¬ f.IsClassNamed name scope := by
  rw [Option.eq_none_iff_forall_ne_some]
  simp [ownName?_eq_some_iff h hname]

theorem search_eq (hname : Query.IsName name.toList) (scope : String) :
    f.search (simpleQuery name) scope [name] =
      (preferred? (if f.membersNamed name scope = [] then f.valuesNamed name scope
        else f.membersNamed name scope)).map (·.id) := by
  rw [search, pick?_simpleQuery, matching_eq hname]

/-- **In one scope**, the search finds what the name means there. -/
theorem findIn_eq_some_iff (h : f.WellLinked) (hname : Query.IsName name.toList)
    {scope id : String} :
    f.findIn (simpleQuery name) scope = some id ↔ f.MeansIn name scope id := by
  rw [findIn, Option.or_eq_some_iff, ownName?_eq_some_iff h hname, ownName?_eq_none_iff h hname]
  show _ ∨ _ ∧ f.search _ scope [name] = some id ↔ _
  rw [search_eq hname, Option.map_eq_some_iff]
  constructor
  · rintro (⟨hclass, rfl⟩ | ⟨hclass, e, he, rfl⟩)
    · exact .itself hclass
    · split at he
      · rename_i hmembers
        exact .value hclass hmembers he
      · exact .member hclass he
  · intro hmeans
    cases hmeans with
    | itself hclass => exact Or.inl ⟨hclass, rfl⟩
    | member hclass he =>
        refine Or.inr ⟨hclass, _, ?_, rfl⟩
        rw [if_neg]
        · exact he
        · intro hempty
          rw [hempty] at he
          cases he
    | value hclass hmembers he => exact Or.inr ⟨hclass, _, by rwa [if_pos hmembers], rfl⟩

theorem preferred?_eq_none_iff {es : List Entity} : preferred? es = none ↔ es = [] := by
  cases es <;> simp [preferred?]

theorem findIn_eq_none_iff (h : f.WellLinked) (hname : Query.IsName name.toList)
    {scope : String} :
    f.findIn (simpleQuery name) scope = none ↔ ¬ f.HasMeaning name scope := by
  rw [findIn, Option.or_eq_none_iff, ownName?_eq_none_iff h hname]
  show _ ∧ f.search _ scope [name] = none ↔ _
  rw [search_eq hname, Option.map_eq_none_iff, preferred?_eq_none_iff, HasMeaning, not_or, not_or,
    not_not, not_not]
  by_cases hmembers : f.membersNamed name scope = []
  · simp [hmembers]
  · simp [hmembers]

/-! ### The search outwards -/

/-- A walk that comes to the outermost scope from another one goes on from the next scope. -/
theorem getLast?_outwardWithin_outer {bound : Nat} {scope outer : String}
    (houter : f.Around scope outer)
    (hlast : (f.outwardWithin (bound + 1) scope).getLast? = some "") :
    f.outwardWithin (bound + 1) scope = scope :: f.outwardWithin bound outer ∧
      (f.outwardWithin bound outer).getLast? = some "" := by
  obtain ⟨hid, rfl⟩ := around_iff.mp houter
  rw [outwardWithin, if_neg (by simpa using hid)] at hlast ⊢
  refine ⟨rfl, ?_⟩
  rw [List.getLast?_cons] at hlast
  cases hrest : (f.outwardWithin bound (((f.get? scope).map (·.parent)).getD "")).getLast? with
  | none =>
      rw [hrest] at hlast
      exact absurd (Option.some.inj hlast) hid
  | some last => rwa [hrest] at hlast

theorem exists_around {scope : String} (hscope : scope ≠ "") : ∃ outer, f.Around scope outer :=
  ⟨_, around_iff.mpr ⟨hscope, rfl⟩⟩

theorem Around.unique {scope outer outer' : String} (h : f.Around scope outer)
    (h' : f.Around scope outer') : outer' = outer :=
  (around_iff.mp h').2.symm.trans (around_iff.mp h).2

theorem not_around_empty {outer : String} : ¬ f.Around "" outer :=
  fun h => (around_iff.mp h).1 rfl

theorem outwardWithin_empty (bound : Nat) : f.outwardWithin (bound + 1) "" = [""] := rfl

/-- The walk goes through all scopes around the place. -/
theorem mem_outwardWithin_iff {found : String} :
    ∀ {bound : Nat} {scope : String}, (f.outwardWithin bound scope).getLast? = some "" →
      (found ∈ f.outwardWithin bound scope ↔ ReflTransGen f.Around scope found) := by
  intro bound
  induction bound with
  | zero => intro scope hlast; simp [outwardWithin] at hlast
  | succ bound ih =>
      intro scope hlast
      rw [ReflTransGen.cases_head_iff, eq_comm (a := scope)]
      by_cases hscope : scope = ""
      · subst hscope
        simp [outwardWithin_empty, not_around_empty]
      · obtain ⟨outer, houter⟩ := f.exists_around hscope
        obtain ⟨hcons, hrest⟩ := getLast?_outwardWithin_outer houter hlast
        rw [hcons, List.mem_cons, ih hrest]
        refine or_congr_right ⟨fun hreach => ⟨outer, houter, hreach⟩, ?_⟩
        rintro ⟨outer', houter', hreach⟩
        rwa [houter.unique houter'] at hreach

/-- **The first scope in which something is found is the innermost** in which the name means
something. -/
theorem findSome?_outwardWithin_iff (h : f.WellLinked) (hname : Query.IsName name.toList)
    {id : String} :
    ∀ {bound : Nat} {scope : String}, (f.outwardWithin bound scope).getLast? = some "" →
      ((f.outwardWithin bound scope).findSome? (f.findIn (simpleQuery name)) = some id ↔
        ∃ found, f.Innermost name scope found ∧ f.MeansIn name found id) := by
  intro bound
  induction bound with
  | zero => intro scope hlast; simp [outwardWithin] at hlast
  | succ bound ih =>
      intro scope hlast
      have hcons : ∃ rest, f.outwardWithin (bound + 1) scope = scope :: rest := by
        rw [outwardWithin]
        split
        · exact ⟨_, rfl⟩
        · exact ⟨_, rfl⟩
      by_cases hmeaning : f.HasMeaning name scope
      · -- The scope itself decides.
        obtain ⟨rest, hrest⟩ := hcons
        obtain ⟨id', hid'⟩ := Option.ne_none_iff_exists'.mp (mt (findIn_eq_none_iff h hname).mp
          (not_not_intro hmeaning))
        have hfirst : (f.outwardWithin (bound + 1) scope).findSome? (f.findIn (simpleQuery name)) =
            f.findIn (simpleQuery name) scope := by
          rw [hrest, List.findSome?_cons, hid']
        rw [hfirst, findIn_eq_some_iff h hname]
        refine ⟨fun hmeans => ⟨scope, .here hmeaning, hmeans⟩, ?_⟩
        rintro ⟨found, hfound, hmeans⟩
        cases hfound with
        | here _ => exact hmeans
        | around hno _ _ => exact absurd hmeaning hno
      have hnone := (findIn_eq_none_iff h hname).mpr hmeaning
      by_cases hscope : scope = ""
      · subst hscope
        rw [outwardWithin_empty, List.findSome?_singleton, hnone]
        simp only [reduceCtorEq, false_iff, not_exists, not_and]
        intro found hfound _
        cases hfound with
        | here hyes => exact hmeaning hyes
        | around _ houter _ => exact not_around_empty houter
      · obtain ⟨outer, houter⟩ := f.exists_around hscope
        obtain ⟨hwalk, hlast⟩ := getLast?_outwardWithin_outer houter hlast
        rw [hwalk, List.findSome?_cons, hnone]
        dsimp only
        rw [ih hlast]
        refine exists_congr fun found => and_congr_left fun _ => ⟨.around hmeaning houter, ?_⟩
        intro hfound
        cases hfound with
        | here hyes => exact absurd hyes hmeaning
        | around _ houter' hfound =>
            rwa [houter.unique houter'] at hfound

/--
**What a simple name means.**

The name is an identifier, and the place is any: a scope, an id that is not known, or the empty
one.  Nothing is found exactly if the name means nothing in the scopes around the place.
Otherwise the innermost of them in which it means something decides, and what is found is what
it means there: the scope itself if it is a class of this name, or else a member of this name, or
else a value of an unscoped enumeration, and among several a function without parameters.
-/
theorem WellLinked.find?_simple (h : f.WellLinked) (hname : Query.IsName name.toList)
    (context : String) :
    (f.find? name context = none ↔
      ∀ scope, ReflTransGen f.Around context scope → ¬ f.HasMeaning name scope) ∧
    ∀ id, f.find? name context = some id ↔
      ∃ scope, f.Innermost name context scope ∧ f.MeansIn name scope id := by
  have hfind : f.find? name context =
      (f.outward context).findSome? (f.findIn (simpleQuery name)) := by
    rw [find?, parse?_simpleQuery hname, Option.bind_some, answer?]
    exact if_neg Bool.false_ne_true
  have hlast := h.outward context
  rw [hfind]
  refine ⟨?_, fun id => findSome?_outwardWithin_iff h hname hlast⟩
  rw [List.findSome?_eq_none_iff]
  refine forall_congr' fun scope => ?_
  rw [findIn_eq_none_iff h hname]
  exact imp_congr_left (mem_outwardWithin_iff hlast)

/-- A class with a constructor, two functions of one name and an unscoped enumeration, and behind it
a variable that has the name of a value. -/
def colorEntities : List Entity :=
  [{ id := "C", name := "C", detail := .record .cls {} },
    { id := "C-C", name := "C", parent := "C", detail := .function { role := .constructor } },
    { id := "C-f-int", name := "f", parent := "C",
      detail := .function { role := .method, arguments := [{ type := { name := "int" } }] } },
    { id := "C-f", name := "f", parent := "C", detail := .function { role := .method } },
    { id := "C-Color", name := "Color", parent := "C", detail := .enumeration {} },
    { id := "C-Color-red", name := "red", parent := "C-Color", detail := .enumerator (some 0) },
    { id := "red", name := "red", detail := .var {} }]

def colors : Forest :=
  colorEntities.foldl insert {}

theorem colors_wellLinked : colors.WellLinked :=
  (empty_sound.foldl_insert (by decide)).wellLinked

/-- From the inside of a function, a value of the class hides the variable, the class its
constructor, and the function without parameters the other one. -/
theorem colors_find?_simple :
    colors.WellLinked ∧
      (Query.IsName "red".toList ∧ ∃ scope, colors.Innermost "red" "C-f-int" scope ∧
        colors.MeansIn "red" scope "C-Color-red") ∧
      (Query.IsName "C".toList ∧ ∃ scope, colors.Innermost "C" "C-f-int" scope ∧
        colors.MeansIn "C" scope "C") ∧
      (Query.IsName "f".toList ∧ ∃ scope, colors.Innermost "f" "C-f-int" scope ∧
        colors.MeansIn "f" scope "C-f") ∧
      Query.IsName "green".toList ∧
        ∀ scope, ReflTransGen colors.Around "C-f-int" scope →
          ¬ colors.HasMeaning "green" scope := by
  have hred : Query.IsName "red".toList := by decide
  have hC : Query.IsName "C".toList := by decide
  have hf : Query.IsName "f".toList := by decide
  have hgreen : Query.IsName "green".toList := by decide
  have h := colors_wellLinked
  refine ⟨h, ⟨hred, ?_⟩, ⟨hC, ?_⟩, ⟨hf, ?_⟩, hgreen, ?_⟩
  · exact ((h.find?_simple hred "C-f-int").2 "C-Color-red").mp (by decide +kernel)
  · exact ((h.find?_simple hC "C-f-int").2 "C").mp (by decide +kernel)
  · exact ((h.find?_simple hf "C-f-int").2 "C-f").mp (by decide +kernel)
  · exact (h.find?_simple hgreen "C-f-int").1.mp (by decide +kernel)

end Forest

end DocForest
