/-
Sightings that are taken in twice.

The first time a list of sightings is taken in, entities are created, found in the place of
ghosts, merged and refused, in any mixture.  The second time nothing is created any more:
each symbol has its entity, or its id is taken and it is refused again.  So the second time
each entity merges, in their order, the sightings that belong to it, and these are the ones
that it has merged before; `Entity.merge_settles` says that it stays as it is.

`Absorbed` is what holds after the first time.  A sighting that is stored counts as merged
into itself, and a child that is entered between two sightings of its parent changes
nothing that a later merge looks at.
-/
import DocForest.Proofs.Merge
import DocForest.Proofs.Symbols

namespace DocForest

/-! ### Children that are entered in between -/

namespace Entity

theorem foldl_merge_children (others : List Entity) :
    ∀ (e : Entity) (children : List String),
      others.foldl merge { e with children } =
        { others.foldl merge e with
          children := others.foldl (fun cs other => union cs other.children) children } := by
  induction others with
  | nil => intro e children; rfl
  | cons other rest ih =>
      intro e children
      exact ih (e.merge other) (union children other.children)

theorem mem_foldl_union {x : String} {others : List Entity} :
    ∀ (children : List String),
      x ∈ others.foldl (fun cs other => union cs other.children) children ↔
        x ∈ children ∨ ∃ other ∈ others, x ∈ other.children := by
  induction others with
  | nil => simp
  | cons other rest ih =>
      intro children
      rw [List.foldl_cons, ih, mem_union]
      simp [or_assoc]

theorem foldl_union_eq_self {others : List Entity} :
    ∀ {children : List String}, (∀ other ∈ others, ∀ x ∈ other.children, x ∈ children) →
      others.foldl (fun cs other => union cs other.children) children = children := by
  induction others with
  | nil => intro children _; rfl
  | cons other rest ih =>
      intro children h
      rw [List.foldl_cons, union_eq_left (h other (by simp))]
      exact ih fun o ho => h o (by simp [ho])

/-- An entity that has settled is settled with one more child. -/
theorem settled_addChild {e : Entity} {others : List Entity} (h : others.foldl merge e = e)
    (child : String) : others.foldl merge (e.addChild child) = e.addChild child := by
  unfold addChild
  split
  · exact h
  · have hchildren : others.foldl (fun cs other => union cs other.children) e.children =
        e.children :=
      congrArg children ((foldl_merge_children others e e.children).symm.trans h)
    have hheld : ∀ other ∈ others, ∀ x ∈ other.children, x ∈ e.children ++ [child] := by
      intro other hother x hx
      have hmem := (mem_foldl_union e.children).mpr (Or.inr ⟨other, hother, hx⟩)
      rw [hchildren] at hmem
      exact List.mem_append_left _ hmem
    rw [foldl_merge_children, foldl_union_eq_self hheld, h]

end Entity

namespace Table

variable {α : Type}

theorem mem_entries_modify {t : Table α} {key : String} {f : α → α} {k : String} {v : α} :
    (k, v) ∈ (t.modify key f).entries ↔
      ∃ w, (k, w) ∈ t.entries ∧ v = if k = key then f w else w := by
  rw [modify_eq_mapEntries]
  simp only [List.mem_map, Prod.mk.injEq, Prod.exists]
  constructor
  · intro hfound
    obtain ⟨k', w, hmem, rfl, rfl⟩ := hfound
    exact ⟨w, hmem, rfl⟩
  · intro hfound
    obtain ⟨w, hmem, rfl⟩ := hfound
    exact ⟨k, w, hmem, rfl, rfl⟩

end Table

/-- What is listed after an insertion was listed before or is new, and may have the new one
for a child. -/
theorem Forest.mem_entries_insert {f : Forest} {e : Entity} (hnew : f.contains e.id = false)
    {id : String} {e' : Entity} (hmem : (id, e') ∈ (f.insert e).entities.entries) :
    ∃ e₀, ((id, e₀) ∈ f.entities.entries ∨ (id = e.id ∧ e₀ = e)) ∧
      (e' = e₀ ∨ e' = e₀.addChild e.id) := by
  have hstored : ∀ {e₀}, (id, e₀) ∈ (f.entities.insertNew e.id e).entries →
      (id, e₀) ∈ f.entities.entries ∨ (id = e.id ∧ e₀ = e) := by
    intro e₀ h₀
    unfold Table.insertNew at h₀
    rw [if_neg (by simpa [Forest.contains] using hnew)] at h₀
    simpa using h₀
  unfold insert link at hmem
  rw [if_neg (by simp [hnew])] at hmem
  split at hmem
  · exact ⟨e', hstored hmem, Or.inl rfl⟩
  · obtain ⟨e₀, h₀, rfl⟩ := Table.mem_entries_modify.mp hmem
    refine ⟨e₀, hstored h₀, ?_⟩
    split
    · exact Or.inr rfl
    · exact Or.inl rfl

namespace Registry

/-- Takes in a sighting, whatever becomes of it. -/
def takeIn (r : Registry) (sighting : String × Entity) : Registry :=
  (r.resolve sighting.1 sighting.2).2

/-- Takes in sightings one after the other. -/
def takeAll (r : Registry) (sightings : List (String × Entity)) : Registry :=
  sightings.foldl takeIn r

/-- The sightings whose symbols are bound to an entity. -/
def sightingsOf (r : Registry) (sightings : List (String × Entity)) (id : String) : List Entity :=
  (sightings.filter (r.storedId? ·.1 == some id)).map (·.2)

theorem sightingsOf_append (r : Registry) (ps qs : List (String × Entity)) (id : String) :
    r.sightingsOf (ps ++ qs) id = r.sightingsOf ps id ++ r.sightingsOf qs id := by
  simp [sightingsOf]

theorem sightingsOf_congr {r r' : Registry} {ps : List (String × Entity)}
    (h : ∀ p ∈ ps, r'.storedId? p.1 = r.storedId? p.1) (id : String) :
    r'.sightingsOf ps id = r.sightingsOf ps id := by
  unfold sightingsOf
  refine congrArg _ (List.filter_congr fun p hp => ?_)
  rw [h p hp]

/-- Nothing new comes of these sightings: each has its entity or is refused, and the
entities have taken from them what they take. -/
structure Absorbed (r : Registry) (sightings : List (String × Entity)) : Prop where
  bound : ∀ usr id, r.lookup? usr = some id → id = "" ∨ r.forest.contains id = true
  known : ∀ p ∈ sightings, r.storedId? p.1 = none → r.forest.contains p.2.id = true
  settled : ∀ id e, (id, e) ∈ r.forest.entities.entries →
    (r.sightingsOf sightings id).foldl Entity.merge e = e

/-! ### One more sighting -/

theorem storedId?_modify (r : Registry) (key : String) (g : Entity → Entity) (usr : String) :
    storedId? { r with forest := r.forest.modify key g } usr = r.storedId? usr := by
  unfold storedId?
  congr 1
  funext id
  exact Table.contains_modify r.forest.entities key g id

/-- A sighting that is merged. -/
theorem Absorbed.merged {r : Registry} {ps : List (String × Entity)} (h : r.Absorbed ps)
    {usr id : String} (hstored : r.storedId? usr = some id) (e : Entity) :
    Absorbed { r with forest := r.forest.modify id (·.merge e) } (ps ++ [(usr, e)]) := by
  have hcontains : ∀ k, (r.forest.modify id (·.merge e)).contains k = r.forest.contains k :=
    fun k => Table.contains_modify r.forest.entities id _ k
  refine ⟨?_, ?_, ?_⟩
  · intro u i hu
    rw [hcontains]
    exact h.bound u i hu
  · intro p hp hnone
    rw [storedId?_modify] at hnone
    rw [hcontains]
    rcases List.mem_append.mp hp with hp | hp
    · exact h.known p hp hnone
    · obtain rfl : p = (usr, e) := by simpa using hp
      rw [hstored] at hnone
      simp at hnone
  · intro k e' hmem
    obtain ⟨e₀, h₀, rfl⟩ := Table.mem_entries_modify.mp hmem
    rw [sightingsOf_congr (fun p _ => storedId?_modify r id _ p.1), sightingsOf_append]
    have hold := h.settled k e₀ h₀
    by_cases hk : k = id
    · -- Merging is the last step of a list that the entity has merged once already.
      have hlast : r.sightingsOf [(usr, e)] k = [e] := by simp [sightingsOf, hstored, hk]
      have hagain : e₀.merge e = (r.sightingsOf ps k ++ [e]).foldl Entity.merge e₀ := by
        rw [List.foldl_append, hold]
        rfl
      rw [if_pos hk, hlast, hagain]
      exact Entity.merge_settles e₀ _
    · have hlast : r.sightingsOf [(usr, e)] k = [] := by
        simp [sightingsOf, hstored, Ne.symm hk]
      rw [if_neg hk, hlast, List.append_nil]
      exact hold

/-- A sighting that is refused. -/
theorem Absorbed.refused {r : Registry} {ps : List (String × Entity)} (h : r.Absorbed ps)
    {usr : String} {e : Entity} (hnone : r.storedId? usr = none)
    (htaken : r.forest.contains e.id = true) : r.Absorbed (ps ++ [(usr, e)]) := by
  refine ⟨h.bound, ?_, ?_⟩
  · intro p hp hp'
    rcases List.mem_append.mp hp with hp | hp
    · exact h.known p hp hp'
    · obtain rfl : p = (usr, e) := by simpa using hp
      exact htaken
  · intro id e' hmem
    have hlast : r.sightingsOf [(usr, e)] id = [] := by simp [sightingsOf, hnone]
    rw [sightingsOf_append, hlast, List.append_nil]
    exact h.settled id e' hmem

theorem storedId?_store (r : Registry) (usr : String) (e : Entity) :
    (r.store usr e).storedId? usr = some e.id := by
  rw [storedId?_eq_some, store, lookup?_insert, if_pos rfl]
  exact ⟨rfl, Forest.contains_insert_iff.mpr (Or.inr rfl)⟩

/-- The other symbols keep what they have: none of them waited for this entity. -/
theorem storedId?_store_of_ne {r : Registry} {ps : List (String × Entity)} (h : r.Absorbed ps)
    {usr u : String} (hu : u ≠ usr) {e : Entity} (hid : e.id ≠ "") :
    (r.store usr e).storedId? u = r.storedId? u := by
  refine Option.ext fun i => ?_
  rw [storedId?_eq_some, storedId?_eq_some, store, lookup?_insert, if_neg hu,
    Forest.contains_insert_iff]
  refine and_congr_right fun hbound => ⟨?_, Or.inl⟩
  intro hcase
  rcases hcase with hc | rfl
  · exact hc
  · exact (h.bound u e.id hbound).resolve_left hid

/-- A sighting that is stored.  No sighting before it was of the same symbol, since that one
would have been stored under the same id. -/
theorem Absorbed.stored {r : Registry} {ps : List (String × Entity)} (h : r.Absorbed ps)
    {usr : String} {e : Entity} (hnone : r.storedId? usr = none)
    (hfree : r.forest.contains e.id = false) (hghost : e.ghost = false) (hid : e.id ≠ "")
    (hsame : ∀ p ∈ ps, p.1 = usr → p.2.id = e.id) :
    (r.store usr e).Absorbed (ps ++ [(usr, e)]) := by
  have hfirst : ∀ p ∈ ps, p.1 ≠ usr := by
    intro p hp hu
    have hc := h.known p hp (by rw [hu]; exact hnone)
    rw [hsame p hp hu, hfree] at hc
    simp at hc
  have hold : ∀ p ∈ ps, (r.store usr e).storedId? p.1 = r.storedId? p.1 :=
    fun p hp => storedId?_store_of_ne h (hfirst p hp) hid
  refine ⟨?_, ?_, ?_⟩
  · intro u i hu
    rw [store, lookup?_insert] at hu
    rw [store, Forest.contains_insert_iff]
    by_cases hsym : u = usr
    · rw [if_pos hsym] at hu
      exact Or.inr (Or.inr (Option.some.inj hu).symm)
    · rw [if_neg hsym] at hu
      exact (h.bound u i hu).imp_right Or.inl
  · intro p hp hp'
    rw [store, Forest.contains_insert_iff]
    rcases List.mem_append.mp hp with hp | hp
    · rw [hold p hp] at hp'
      exact Or.inl (h.known p hp hp')
    · obtain rfl : p = (usr, e) := by simpa using hp
      exact Or.inr rfl
  · intro id e' hmem
    obtain ⟨e₀, h₀, hchild⟩ := Forest.mem_entries_insert hfree hmem
    have hsettled :
        ((r.store usr e).sightingsOf (ps ++ [(usr, e)]) id).foldl Entity.merge e₀ = e₀ := by
      rw [sightingsOf_append, sightingsOf_congr hold]
      rcases h₀ with hlisted | ⟨rfl, rfl⟩
      · have hne : e.id ≠ id := by
          rintro rfl
          have hc : r.forest.contains e.id = true :=
            Table.contains_iff_mem_keys.mpr (List.mem_map.mpr ⟨_, hlisted, rfl⟩)
          rw [hfree] at hc
          simp at hc
        have hlast : (r.store usr e).sightingsOf [(usr, e)] id = [] := by
          simp [sightingsOf, storedId?_store, hne]
        rw [hlast, List.append_nil]
        exact h.settled id e₀ hlisted
      · have hnothing : r.sightingsOf ps e₀.id = [] := by
          rw [sightingsOf, List.map_eq_nil_iff, List.filter_eq_nil_iff]
          intro p _ hp
          have hc := (storedId?_eq_some.mp (beq_iff_eq.mp hp)).2
          rw [hfree] at hc
          simp at hc
        have hlast : (r.store usr e₀).sightingsOf [(usr, e₀)] e₀.id = [e₀] := by
          simp [sightingsOf, storedId?_store]
        rw [hnothing, hlast]
        exact Entity.merge_self hghost
    rcases hchild with rfl | rfl
    · exact hsettled
    · exact Entity.settled_addChild hsettled e.id

/-- **A sighting that is taken in is absorbed** along with those before it. -/
theorem Absorbed.takeIn {r : Registry} {ps : List (String × Entity)} (h : r.Absorbed ps)
    {p : String × Entity} (hghost : p.2.ghost = false) (hid : p.2.id ≠ "")
    (hsame : ∀ q ∈ ps, q.1 = p.1 → q.2.id = p.2.id) : (r.takeIn p).Absorbed (ps ++ [p]) := by
  obtain ⟨usr, e⟩ := p
  unfold Registry.takeIn
  rcases r.resolve_cases usr e with ⟨id, hstored, hres⟩ | ⟨hnone, htaken, hres⟩ |
    ⟨hnone, hfree, hres⟩
  · rw [hres]
    exact h.merged hstored e
  · rw [hres]
    exact h.refused hnone htaken
  · rw [hres]
    exact h.stored hnone hfree hghost hid hsame

/-! ### The whole list, twice -/

theorem Absorbed.takeAll {qs : List (String × Entity)} (hghost : ∀ p ∈ qs, p.2.ghost = false)
    (hid : ∀ p ∈ qs, p.2.id ≠ "") :
    ∀ {r : Registry} {ps : List (String × Entity)}, r.Absorbed ps →
      (∀ p ∈ ps ++ qs, ∀ q ∈ ps ++ qs, p.1 = q.1 → p.2.id = q.2.id) →
      (r.takeAll qs).Absorbed (ps ++ qs) := by
  induction qs with
  | nil => intro r ps h _; rw [List.append_nil]; exact h
  | cons q rest ih =>
      intro r ps h hsame
      have hq := h.takeIn (hghost q (by simp)) (hid q (by simp))
        fun p hp hpq => hsame p (by simp [hp]) q (by simp) hpq
      have hrest := ih (fun p hp => hghost p (by simp [hp])) (fun p hp => hid p (by simp [hp])) hq
        (by simpa using hsame)
      rw [List.append_assoc] at hrest
      exact hrest

/-- Sightings of which nothing new comes are merged, each entity taking its own. -/
theorem takeAll_of_known {qs : List (String × Entity)} :
    ∀ {r : Registry},
      (∀ p ∈ qs, r.storedId? p.1 = none → r.forest.contains p.2.id = true) →
      r.takeAll qs = { r with forest := { r.forest with entities :=
        ⟨r.forest.entities.entries.map fun p =>
          (p.1, (r.sightingsOf qs p.1).foldl Entity.merge p.2)⟩ } } := by
  induction qs with
  | nil =>
      intro r _
      show r = _
      simp [sightingsOf]
  | cons q rest ih =>
      obtain ⟨usr, e⟩ := q
      intro r hknown
      have hrest : ∀ p ∈ rest, r.storedId? p.1 = none → r.forest.contains p.2.id = true :=
        fun p hp => hknown p (by simp [hp])
      show (r.takeIn (usr, e)).takeAll rest = _
      unfold takeIn
      rcases r.resolve_cases usr e with ⟨id, hstored, hres⟩ | ⟨hnone, -, hres⟩ | ⟨hnone, hfree, -⟩
      · rw [hres, ih]
        · have hsightings : ∀ k, sightingsOf { r with forest := r.forest.modify id (·.merge e) }
              rest k = r.sightingsOf rest k :=
            sightingsOf_congr fun p _ => storedId?_modify r id _ p.1
          have hentries : (r.forest.modify id (·.merge e)).entities.entries =
              r.forest.entities.entries.map fun p =>
                (p.1, if p.1 = id then p.2.merge e else p.2) :=
            congrArg Table.entries (Table.modify_eq_mapEntries r.forest.entities id (·.merge e))
          simp only [hsightings, hentries, List.map_map]
          have hstep : ∀ k v, (r.sightingsOf ((usr, e) :: rest) k).foldl Entity.merge v =
              (r.sightingsOf rest k).foldl Entity.merge (if k = id then v.merge e else v) := by
            intro k v
            by_cases hk : k = id
            · simp [sightingsOf, hstored, hk]
            · simp [sightingsOf, hstored, hk, Ne.symm hk]
          simp only [hstep]
          rfl
        · intro p hp hp'
          rw [storedId?_modify] at hp'
          exact (Table.contains_modify r.forest.entities id _ p.2.id).trans (hrest p hp hp')
      · rw [hres, ih hrest]
        have hstep : ∀ k, r.sightingsOf ((usr, e) :: rest) k = r.sightingsOf rest k := by
          intro k
          simp [sightingsOf, hnone]
        simp only [hstep]
      · have htaken := hknown (usr, e) (by simp) hnone
        rw [hfree] at htaken
        simp at htaken

theorem Absorbed.takeAll_eq {r : Registry} {ps : List (String × Entity)} (h : r.Absorbed ps) :
    r.takeAll ps = r := by
  rw [takeAll_of_known h.known]
  have hentries : r.forest.entities.entries.map (fun p =>
      (p.1, (r.sightingsOf ps p.1).foldl Entity.merge p.2)) = r.forest.entities.entries := by
    refine (List.map_congr_left fun p hp => ?_).trans (List.map_id _)
    obtain ⟨id, e⟩ := p
    rw [h.settled id e hp]
    rfl
  rw [hentries]

/--
**Taking in the same sightings twice is the same as taking them in once.**

The registry may be any in which symbols are bound to no id or to stored ones.  Sightings of
one symbol agree on the id; apart from that, they may contradict each other in everything.
-/
theorem takeAll_twice (r : Registry)
    (hbound : ∀ usr id, r.lookup? usr = some id → id = "" ∨ r.forest.contains id = true)
    (sightings : List (String × Entity)) (hghost : ∀ p ∈ sightings, p.2.ghost = false)
    (hid : ∀ p ∈ sightings, p.2.id ≠ "")
    (hsame : ∀ p ∈ sightings, ∀ q ∈ sightings, p.1 = q.1 → p.2.id = q.2.id) :
    (r.takeAll sightings).takeAll sightings = r.takeAll sightings := by
  have hstart : r.Absorbed [] := by
    refine ⟨hbound, by simp, ?_⟩
    intro id e _
    rfl
  have hdone := hstart.takeAll hghost hid (by simpa using hsame)
  rw [List.nil_append] at hdone
  exact hdone.takeAll_eq

/-- A registry that knows a class only by its name. -/
def ghostRegistry : Registry :=
  (ensureScope {} [{ usr := "A", kind := .record .cls, name := "A" }]).2

/-- A struct in the place of the ghost and a function, each seen twice and described
differently, and another function that wants the id of the first. -/
def rivalSightings : List (String × Entity) :=
  [("A", { id := "A", name := "A", brief := "First.", detail := .record .struct {} }),
    ("f", { id := "A-f", name := "f", parent := "A"
            detail := .function { arguments := [{ type := { qualifiers := [.pointer] } }] } }),
    ("A", { id := "A", name := "A", brief := "Last.", detail := .record .cls { isFinal := true } }),
    ("f", { id := "A-f", name := "f", parent := "A"
            detail := .function
              { arguments := [{ name := "x", type := { qualifiers := [.const] } }] } }),
    ("g", { id := "A-f", name := "f", parent := "A", detail := .function {} })]

theorem ghostRegistry_bound (usr id : String) (h : ghostRegistry.lookup? usr = some id) :
    id = "" ∨ ghostRegistry.forest.contains id = true :=
  Or.inr ((ensureScope_follows empty_faithful (by decide)).faithful.stored usr id h)

/-- Everything that can happen to a sighting happens to one of these. -/
theorem rivalSightings_twice :
    (∀ usr id, ghostRegistry.lookup? usr = some id →
      id = "" ∨ ghostRegistry.forest.contains id = true) ∧
    (∀ p ∈ rivalSightings, p.2.ghost = false ∧ p.2.id ≠ "") ∧
    (∀ p ∈ rivalSightings, ∀ q ∈ rivalSightings, p.1 = q.1 → p.2.id = q.2.id) ∧
    (ghostRegistry.takeAll rivalSightings).takeAll rivalSightings =
      ghostRegistry.takeAll rivalSightings := by
  have hplain : ∀ p ∈ rivalSightings, p.2.ghost = false ∧ p.2.id ≠ "" := by decide
  have hsame : ∀ p ∈ rivalSightings, ∀ q ∈ rivalSightings, p.1 = q.1 → p.2.id = q.2.id := by
    decide
  exact ⟨ghostRegistry_bound, hplain, hsame,
    takeAll_twice ghostRegistry ghostRegistry_bound rivalSightings (fun p hp => (hplain p hp).1)
      (fun p hp => (hplain p hp).2) hsame⟩

end Registry

end DocForest
