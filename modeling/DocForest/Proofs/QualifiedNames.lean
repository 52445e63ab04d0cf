/-
Every entity is found under its qualified name.

The name is put together on the way from the entity outwards, by the parents.  It is looked up
on the way from the outermost scope inwards, by the lists of children, and this way can branch:
several members of a scope may have one name, and the search goes into all of them in turn.

The ancestors of the entity, read the other way round, are one way inwards (`IsTrail`).  The
search takes it unless it finds something before, so it does find something
(`IsTrail.search_isSome`); and whatever it finds has the last name of the path, since nothing
else is looked at there (`named_of_search`).
-/
import DocForest.Proofs.Links
import DocForest.Proofs.References

namespace DocForest

open Text

/-- Two names are the same up to blanks. -/
def SameName (name name' : String) : Prop :=
  eraseBlanks name.toList = eraseBlanks name'.toList

instance (name name' : String) : Decidable (SameName name name') :=
  inferInstanceAs (Decidable (_ = _))

/-- An identifier means the names that are the same up to blanks. -/
theorem nameMatches_iff {name segment : String} (h : Query.IsName segment.toList) :
    nameMatches name segment = true ↔ SameName name segment := by
  have hplain : segment.toList.takeWhile (· != '<') = segment.toList := by
    rw [List.takeWhile_eq_self_iff]
    intro c hc
    rw [bne_iff_ne]
    rintro rfl
    exact h.not_mem (by decide) hc
  unfold nameMatches
  dsimp only
  rw [hplain, ite_self, beq_iff_eq, SameName]

theorem nameMatches_self {name : String} (h : Query.IsName name.toList) :
    nameMatches name name = true :=
  (nameMatches_iff h).mpr rfl

namespace Query

/-- A choice is one of the candidates. -/
theorem mem_of_pick? {q : Query} {candidates : List Entity} {e : Entity}
    (h : q.pick? candidates = some e) : e ∈ candidates := by
  unfold pick? at h
  split at h
  · rcases Option.or_eq_some_iff.mp h with h | ⟨-, h⟩
    · exact List.mem_of_find?_eq_some h
    · exact List.mem_of_find?_eq_some h
  · rcases Option.or_eq_some_iff.mp h with h | ⟨-, h⟩
    · rcases Option.or_eq_some_iff.mp h with h | ⟨-, h⟩
      · exact List.mem_of_find?_eq_some h
      · exact List.mem_of_find?_eq_some h
    · exact List.mem_of_head? h

/-- Without a parameter list there is a choice as soon as there is a candidate. -/
theorem exists_pick? {q : Query} (hq : q.arguments = none) {candidates : List Entity}
    (h : candidates ≠ []) : ∃ e, q.pick? candidates = some e := by
  obtain ⟨first, rest, rfl⟩ := List.exists_cons_of_ne_nil h
  rw [← Option.isSome_iff_exists, pick?, hq]
  simp

end Query

namespace Forest

/-! ### Members of a scope -/

theorem get?_of_mem_filterMap {f : Forest} (h : f.WellLinked) {ids : List String} {e : Entity}
    (he : e ∈ ids.filterMap f.get?) : f.get? e.id = some e := by
  obtain ⟨id, -, hget⟩ := List.mem_filterMap.mp he
  rw [h.keyed id e hget]
  exact hget

theorem mem_matching {f : Forest} (h : f.WellLinked) {scope segment : String} {e : Entity}
    (he : e ∈ f.matching scope segment) :
    f.get? e.id = some e ∧ nameMatches e.name segment = true := by
  unfold matching at he
  dsimp only at he
  split at he
  · obtain ⟨hvalue, hname⟩ := List.mem_filter.mp he
    obtain ⟨enum, -, hchild⟩ := List.mem_flatMap.mp hvalue
    exact ⟨get?_of_mem_filterMap h hchild, hname⟩
  · obtain ⟨hmember, hname⟩ := List.mem_filter.mp he
    exact ⟨get?_of_mem_filterMap h hmember, hname⟩

/-- As long as a member has the name that is looked for, only members are meant. -/
theorem matching_eq_filter {f : Forest} {scope segment : String} {e : Entity}
    (he : e ∈ f.members scope) (hname : nameMatches e.name segment = true) :
    f.matching scope segment = (f.members scope).filter (nameMatches ·.name segment) := by
  have hne : ((f.members scope).filter (nameMatches ·.name segment)).isEmpty = false := by
    rw [List.isEmpty_eq_false_iff]
    exact List.ne_nil_of_mem (List.mem_filter.mpr ⟨he, hname⟩)
  unfold matching
  dsimp only
  rw [hne]
  rfl

theorem mem_matching_of_mem {f : Forest} {scope segment : String} {e : Entity}
    (he : e ∈ f.members scope) (hname : nameMatches e.name segment = true) :
    e ∈ f.matching scope segment := by
  rw [matching_eq_filter he hname]
  exact List.mem_filter.mpr ⟨he, hname⟩

/-- An entity is a member of the scope that it names. -/
theorem WellLinked.mem_members {f : Forest} (h : f.WellLinked) {id : String} {e : Entity}
    (he : f.get? id = some e) : e ∈ f.members e.parent := by
  refine List.mem_filterMap.mpr ⟨id, ?_, he⟩
  unfold children
  by_cases hroot : e.parent = ""
  · rw [if_pos (by simpa using hroot), h.roots]
    have hvalue : e ∈ f.entities.values :=
      List.mem_map.mpr ⟨(id, e), (Table.mem_entries_iff h.distinct).mpr he, rfl⟩
    exact List.mem_map.mpr ⟨e, List.mem_filter.mpr ⟨hvalue, by simp [hroot]⟩, h.keyed id e he⟩
  · rw [if_neg (by simpa using hroot)]
    obtain ⟨p, hp, hcount⟩ := h.listed id e he hroot
    rw [hp]
    exact List.count_pos_iff.mp (by rw [Option.map_some, Option.getD_some, hcount]; decide)

/-! ### The way inwards -/

/-- Each of some entities is a member of the one before it, and the first of a scope. -/
def IsTrail (f : Forest) (scope : String) : List Entity → Prop
  | [] => True
  | a :: rest => a ∈ f.members scope ∧ f.IsTrail a.id rest

theorem ancestorsWithin_eq_cons {f : Forest} {id : String} {e : Entity} (he : f.get? id = some e)
    {bound : Nat} {root : Entity} (hroot : (f.ancestorsWithin bound id).getLast? = some root) :
    ∃ outer, f.ancestorsWithin bound id = e :: outer := by
  cases bound with
  | zero => simp [ancestorsWithin] at hroot
  | succ bound =>
      simp only [ancestorsWithin, he]
      split
      · exact ⟨_, rfl⟩
      · exact ⟨_, rfl⟩

/-- The ancestors of an entity lead from the outermost scope to it, and on. -/
theorem WellLinked.isTrail_ancestorsWithin {f : Forest} (h : f.WellLinked) :
    ∀ {bound : Nat} {id : String} {rest : List Entity},
      (∃ root, (f.ancestorsWithin bound id).getLast? = some root ∧ root.parent = "") →
      f.IsTrail id rest → f.IsTrail "" ((f.ancestorsWithin bound id).reverse ++ rest) := by
  intro bound
  induction bound with
  | zero =>
      rintro id rest ⟨root, hroot, -⟩ -
      simp [ancestorsWithin] at hroot
  | succ bound ih =>
      rintro id rest ⟨root, hlast, hroot⟩ hrest
      rw [ancestorsWithin] at hlast ⊢
      cases he : f.get? id with
      | none =>
          rw [he] at hlast
          simp at hlast
      | some e =>
          rw [he] at hlast
          dsimp only at hlast ⊢
          have hstep : f.IsTrail e.parent (e :: rest) := by
            refine ⟨h.mem_members he, ?_⟩
            rw [h.keyed id e he]
            exact hrest
          by_cases hparent : e.parent = ""
          · rw [if_pos (by simpa using hparent)]
            rw [hparent] at hstep
            exact hstep
          · rw [if_neg (by simpa using hparent)] at hlast ⊢
            rw [List.reverse_cons, List.append_assoc, List.singleton_append]
            refine ih ?_ hstep
            -- The walk did not stop at `e`, so it goes on to the same root.
            rw [List.getLast?_cons] at hlast
            cases houter : (f.ancestorsWithin bound e.parent).getLast? with
            | none =>
                rw [houter] at hlast
                obtain rfl : e = root := by simpa using hlast
                exact absurd hroot hparent
            | some r =>
                rw [houter] at hlast
                obtain rfl : r = root := by simpa using hlast
                exact ⟨r, rfl, hroot⟩

/-- **The ancestors of an entity lead from the outermost scope to it.** -/
theorem WellLinked.isTrail_ancestors {f : Forest} (h : f.WellLinked) {id : String}
    (hid : f.contains id = true) : f.IsTrail "" (f.ancestors id).reverse := by
  have htrail : f.IsTrail "" ((f.ancestors id).reverse ++ []) :=
    h.isTrail_ancestorsWithin (h.ancestors id hid) trivial
  rwa [List.append_nil] at htrail

theorem WellLinked.ancestors_eq_cons {f : Forest} (h : f.WellLinked) {id : String} {e : Entity}
    (he : f.get? id = some e) : ∃ outer, f.ancestors id = e :: outer := by
  obtain ⟨root, hroot, -⟩ := h.ancestors id (contains_of_get? he)
  exact ancestorsWithin_eq_cons he hroot

/-! ### Searching -/

/-- What a search finds has the last name of the path. -/
theorem named_of_search {f : Forest} (h : f.WellLinked) {q : Query} {path : List String} :
    ∀ {scope id : String}, f.search q scope path = some id →
      ∃ e last, f.get? id = some e ∧ path.getLast? = some last ∧
        nameMatches e.name last = true := by
  induction path with
  | nil => intro scope id hsearch; simp [search] at hsearch
  | cons name path ih =>
      intro scope id hsearch
      cases path with
      | nil =>
          rw [search] at hsearch
          obtain ⟨e, hpick, rfl⟩ := Option.map_eq_some_iff.mp hsearch
          obtain ⟨hget, hname⟩ := mem_matching h (Query.mem_of_pick? hpick)
          exact ⟨e, name, hget, rfl, hname⟩
      | cons next path =>
          rw [search] at hsearch
          · obtain ⟨inner, -, hinner⟩ := List.exists_of_findSome?_eq_some hsearch
            obtain ⟨e, last, hget, hlast, hname⟩ := ih hinner
            exact ⟨e, last, hget, by rw [List.getLast?_cons_cons]; exact hlast, hname⟩
          · simp

/-- **A search that can follow a trail finds something.** -/
theorem IsTrail.search_isSome {f : Forest} {q : Query} (hq : q.arguments = none)
    {trail : List Entity} (hne : trail ≠ [])
    (hnames : ∀ a ∈ trail, Query.IsName a.name.toList) :
    ∀ {scope : String}, f.IsTrail scope trail →
      (f.search q scope (trail.map (·.name))).isSome = true := by
  induction trail with
  | nil => exact absurd rfl hne
  | cons a rest ih =>
      intro scope htrail
      obtain ⟨hmember, hrest⟩ := htrail
      obtain ⟨ha, hnames⟩ := List.forall_mem_cons.mp hnames
      have hfound := mem_matching_of_mem hmember (nameMatches_self ha)
      cases rest with
      | nil =>
          obtain ⟨e, he⟩ := Query.exists_pick? hq (List.ne_nil_of_mem hfound)
          simp [search, he]
      | cons b rest =>
          rw [List.map_cons, search, List.findSome?_isSome_iff]
          · exact ⟨a, hfound, ih (by simp) hnames hrest⟩
          · simp

/-- The name of a class that means the class itself is the one that is looked for. -/
theorem named_of_ownName? {f : Forest} (h : f.WellLinked) {q : Query} {scope id : String}
    (hown : f.ownName? q scope = some id) :
    ∃ e last, f.get? id = some e ∧ q.path.getLast? = some last ∧
      nameMatches e.name last = true := by
  unfold ownName? at hown
  split at hown
  · rename_i name hpath _
    obtain ⟨e, he, rfl⟩ := Option.map_eq_some_iff.mp hown
    obtain ⟨hget, hmatch⟩ := Option.filter_eq_some_iff.mp he
    rw [Bool.and_eq_true] at hmatch
    refine ⟨e, name, ?_, by rw [hpath]; rfl, hmatch.2⟩
    rw [h.keyed scope e hget]
    exact hget
  · simp at hown

/-! ### Looking the name up -/

/-- A name means an entity of the given name. -/
def Finds (f : Forest) (name context wanted : String) : Prop :=
  ∃ id e, f.find? name context = some id ∧ f.get? id = some e ∧ SameName e.name wanted

theorem outward_empty (f : Forest) : f.outward "" = [""] := rfl

/-- The path of an entity: its name behind those of the scopes around it. -/
def pathOf (f : Forest) (id : String) : List (List Char) :=
  (f.ancestors id).reverse.map (·.name.toList)

theorem qualifiedName?_eq {f : Forest} {id : String} (hid : f.contains id = true) :
    f.qualifiedName? id = some (String.ofList (Query.written (f.pathOf id))) := by
  rw [qualifiedName?, if_pos hid]
  rfl

theorem WellLinked.isPath_pathOf {f : Forest} (h : f.WellLinked) {id : String}
    (hid : f.contains id = true) (hnames : ∀ a ∈ f.ancestors id, Query.IsName a.name.toList) :
    Query.IsPath (f.pathOf id) := by
  obtain ⟨e, he⟩ := contains_iff_exists.mp hid
  obtain ⟨outer, hcons⟩ := h.ancestors_eq_cons he
  refine ⟨by simp [pathOf, hcons], ?_⟩
  intro n hn
  obtain ⟨a, ha, rfl⟩ := List.mem_map.mp hn
  exact hnames a (List.mem_reverse.mp ha)

theorem map_ofList_pathOf (f : Forest) (id : String) :
    (f.pathOf id).map String.ofList = (f.ancestors id).reverse.map (·.name) := by
  rw [pathOf, List.map_map]
  exact List.map_congr_left fun a _ => String.ofList_toList

/--
**Every entity is found under its qualified name**, from any place if the name starts with
colons, and from the outermost scope if it does not: the look-up ends at an entity of that name.
-/
theorem WellLinked.finds_qualifiedName {f : Forest} (h : f.WellLinked) {id : String} {e : Entity}
    (he : f.get? id = some e) (hnames : ∀ a ∈ f.ancestors id, Query.IsName a.name.toList) :
    ∃ name, f.qualifiedName? id = some name ∧
      (∀ context, f.Finds ("::" ++ name) context e.name) ∧ f.Finds name "" e.name := by
  have hid : f.contains id = true := contains_of_get? he
  obtain ⟨outer, hcons⟩ := h.ancestors_eq_cons he
  have hpath := h.isPath_pathOf hid hnames
  have he' : Query.IsName e.name.toList := hnames e (by simp [hcons])
  obtain ⟨hplain, hglobal⟩ := hpath.parse?_written
  rw [map_ofList_pathOf] at hplain hglobal
  -- What has the last name of the path has the name of the entity.
  have hnamed : ∀ {found : String},
      (∃ e' last, f.get? found = some e' ∧
        ((f.ancestors id).reverse.map (·.name)).getLast? = some last ∧
        nameMatches e'.name last = true) →
      ∃ e', f.get? found = some e' ∧ SameName e'.name e.name := by
    rintro found ⟨e', last, hget, hlast, hmatch⟩
    obtain rfl : e.name = last := by simpa [hcons] using hlast
    exact ⟨e', hget, (nameMatches_iff he').mp hmatch⟩
  have hsearch : ∀ {q : Query}, q.arguments = none →
      ∃ found, f.search q "" ((f.ancestors id).reverse.map (·.name)) = some found := by
    intro q hq
    rw [← Option.isSome_iff_exists]
    exact (h.isTrail_ancestors hid).search_isSome hq (by simp [hcons])
      (fun a ha => hnames a (List.mem_reverse.mp ha))
  refine ⟨_, qualifiedName?_eq hid, ?_, ?_⟩
  · intro context
    have hwritten : "::" ++ String.ofList (Query.written (f.pathOf id)) =
        String.ofList (':' :: ':' :: Query.written (f.pathOf id)) := by
      rw [← String.toList_inj]
      simp
    obtain ⟨found, hfound⟩ := hsearch (q := ⟨true, _, none, false⟩) rfl
    obtain ⟨e', hget, hsame⟩ := hnamed (named_of_search h hfound)
    refine ⟨found, e', ?_, hget, hsame⟩
    rw [hwritten, find?, hglobal]
    exact hfound
  · rw [Finds, find?, hplain, Option.bind_some, answer?, if_neg (by simp), outward_empty,
      List.findSome?_singleton, findIn]
    cases hown : f.ownName? ⟨false, _, none, false⟩ "" with
    | some found =>
        obtain ⟨e', hget, hsame⟩ := hnamed (named_of_ownName? h hown)
        exact ⟨found, e', rfl, hget, hsame⟩
    | none =>
        obtain ⟨found, hfound⟩ := hsearch (q := ⟨false, _, none, false⟩) rfl
        obtain ⟨e', hget, hsame⟩ := hnamed (named_of_search h hfound)
        exact ⟨found, e', hfound, hget, hsame⟩

/-- Each of some entities is without children and of a scope that was stored before it. -/
def Fits (f : Forest) : List Entity → Prop
  | [] => True
  | e :: es => (e.children = [] ∧ f.Knows e.parent) ∧ (f.insert e).Fits es

instance (f : Forest) (scope : String) : Decidable (f.Knows scope) :=
  inferInstanceAs (Decidable (_ ∨ _))

instance decidableFits : (f : Forest) → (es : List Entity) → Decidable (f.Fits es)
  | _, [] => isTrue trivial
  | f, e :: es =>
    have := decidableFits (f.insert e) es
    inferInstanceAs (Decidable (_ ∧ (f.insert e).Fits es))

/-- A forest to which entities are added in a fitting order stays sound. -/
theorem Sound.foldl_insert {es : List Entity} :
    ∀ {f : Forest}, f.Sound → f.Fits es → (es.foldl insert f).Sound := by
  induction es with
  | nil => exact fun h _ => h
  | cons e es ih =>
      rintro f h ⟨⟨hchildren, hknown⟩, hrest⟩
      exact ih (insert_sound h hchildren hknown) hrest

/-- A namespace behind a variable of its name, and in it a class with a constructor. -/
def shadowedEntities : List Entity :=
  [{ id := "n", name := "N", detail := .var {} },
    { id := "N", name := "N", detail := .nameSpace },
    { id := "N-A", name := "A", parent := "N", detail := .record .cls {} },
    { id := "N-A-A", name := "A", parent := "N-A", detail := .function { role := .constructor } }]

def shadowed : Forest :=
  shadowedEntities.foldl insert {}

theorem shadowed_wellLinked : shadowed.WellLinked :=
  (empty_sound.foldl_insert (by decide)).wellLinked

/-- The variable does not hide the namespace, and the class does not hide its constructor. -/
theorem shadowed_finds :
    shadowed.WellLinked ∧ (∀ a ∈ shadowed.ancestors "N-A-A", Query.IsName a.name.toList) ∧
      (∀ context, shadowed.Finds "::N::A::A" context "A") ∧
      shadowed.Finds "N::A::A" "" "A" := by
  have hnames : ∀ a ∈ shadowed.ancestors "N-A-A", Query.IsName a.name.toList := by decide
  obtain ⟨e, he, hname⟩ : ∃ e, shadowed.get? "N-A-A" = some e ∧ e.name = "A" := by
    exact ⟨_, rfl, rfl⟩
  obtain ⟨name, hqualified, hglobal, hplain⟩ :=
    shadowed_wellLinked.finds_qualifiedName he hnames
  obtain rfl : "N::A::A" = name := by
    have hcomputed : shadowed.qualifiedName? "N-A-A" = some "N::A::A" := by decide
    exact Option.some.inj (hcomputed.symm.trans hqualified)
  rw [hname] at hglobal hplain
  exact ⟨shadowed_wellLinked, hnames, hglobal, hplain⟩

end Forest

end DocForest
