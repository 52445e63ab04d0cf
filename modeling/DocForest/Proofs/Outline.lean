/-
Most of what happens to a forest leaves its links alone.

An entity is merged, described, linked to types and bases, marked and rendered, and none
of this touches its id, its parent or its children.  The outline of a forest is what is
left of it when everything else is dropped.  An equation between outlines is all that has
to be proved of a pass that only decorates, and `Sound.of_outline` turns it into a
statement about the links.
-/
import DocForest.Deferred.Basic
import DocForest.Proofs.Links
import DocForest.Reference.Resolve

namespace DocForest

namespace Forest

/-- The places of all entities under their ids, in order of creation, and the roots. -/
def outline (f : Forest) : List (String × String × String × List String) × List String :=
  (f.entities.entries.map fun p => (p.1, p.2.place), f.roots)

theorem lookup_outline (f : Forest) (id : String) :
    f.outline.1.lookup id = (f.get? id).map Entity.place := by
  obtain ⟨⟨entries⟩, roots⟩ := f
  simp only [outline, get?, Table.get?]
  induction entries with
  | nil => rfl
  | cons p rest ih =>
      obtain ⟨k, e⟩ := p
      simp only [List.map_cons, List.lookup_cons]
      by_cases h : id = k
      · subst h
        simp
      · have hk : (id == k) = false := by simpa using h
        rw [hk]
        exact ih

theorem ids_eq_outline (f : Forest) : f.ids = f.outline.1.map (·.1) := by
  simp [ids, Table.keys, outline]

theorem idsUnder_eq_outline (f : Forest) (scope : String) :
    f.idsUnder scope = ((f.outline.1.map (·.2)).filter (·.2.1 == scope)).map (·.1) := by
  obtain ⟨⟨entries⟩, roots⟩ := f
  simp only [idsUnder, outline, Table.values]
  induction entries with
  | nil => rfl
  | cons p rest ih =>
      obtain ⟨k, e⟩ := p
      simp only [List.map_cons, List.filter_cons]
      by_cases h : (e.parent == scope) = true
      · rw [if_pos h, if_pos (show (e.place.2.1 == scope) = true from h)]
        rw [List.map_cons, List.map_cons, ih]
        rfl
      · rw [if_neg h, if_neg (show ¬ (e.place.2.1 == scope) = true from h)]
        exact ih

/-- **Links are sound in one forest if they are in another of the same outline.** -/
theorem Sound.of_outline {f f' : Forest} (h : f.Sound) (ho : f'.outline = f.outline) :
    f'.Sound := by
  have hids : f'.ids = f.ids := by rw [ids_eq_outline, ids_eq_outline, ho]
  have hunder : ∀ scope, f'.idsUnder scope = f.idsUnder scope := by
    intro scope
    rw [idsUnder_eq_outline, idsUnder_eq_outline, ho]
  have hback : ∀ id e', f'.get? id = some e' →
      ∃ e, f.get? id = some e ∧ e.id = e'.id ∧ e.parent = e'.parent ∧ e.children = e'.children := by
    intro id e' hget
    have hlook : (f.get? id).map Entity.place = some e'.place := by
      rw [← lookup_outline, ← ho, lookup_outline, hget]
      rfl
    obtain ⟨e, he, hplace⟩ := Option.map_eq_some_iff.mp hlook
    simp only [Entity.place, Prod.mk.injEq] at hplace
    exact ⟨e, he, hplace.1, hplace.2.1, hplace.2.2⟩
  refine ⟨?_, ?_, ?_, ?_, ?_⟩
  · show f'.ids.Nodup
    rw [hids]
    exact h.distinct
  · intro id e' hget
    obtain ⟨e, he, hid, -, -⟩ := hback id e' hget
    rw [← hid]
    exact h.keyed id e he
  · rw [hunder, ← h.roots]
    exact congrArg Prod.snd ho
  · intro id e' hget
    obtain ⟨e, he, -, -, hch⟩ := hback id e' hget
    rw [← hch, hunder]
    exact h.children id e he
  · intro id e' hget hne
    obtain ⟨e, he, -, hpar, -⟩ := hback id e' hget
    rw [hids, ← hpar]
    exact h.older id e he (by rw [hpar]; exact hne)

/-! ### Changes of single entities -/

theorem outline_modify (f : Forest) (key : String) {g : Entity → Entity}
    (hg : ∀ e, (g e).place = e.place) : (f.modify key g).outline = f.outline := by
  simp only [outline, modify, Table.modify, List.map_map, Prod.mk.injEq, and_true]
  refine List.map_congr_left fun p _ => ?_
  obtain ⟨k, e⟩ := p
  by_cases h : k = key
  · simp [h, hg]
  · simp [h]

theorem outline_mapEntities (f : Forest) {g : Entity → Entity} (hg : ∀ e, (g e).place = e.place) :
    outline { f with entities := f.entities.map g } = f.outline := by
  simp only [outline, Table.map, List.map_map, Prod.mk.injEq, and_true]
  refine List.map_congr_left fun p _ => ?_
  simp [hg]

theorem outline_modifyRecord (f : Forest) (key : String) (g : RecordDetail → RecordDetail) :
    (f.modifyRecord key g).outline = f.outline :=
  outline_modify f key fun _ => rfl

/-- Merging something that lists no children changes no place. -/
theorem place_merge (e : Entity) {other : Entity} (h : other.children = []) :
    (e.merge other).place = e.place := by
  simp [Entity.place, Entity.merge, h, union]

/-! ### The last pass -/

theorem outline_linkBases (f : Forest) : f.linkBases.outline = f.outline := by
  have hfold : ∀ (links : List BaseLink) (f : Forest),
      (links.foldl linkBase f).outline = f.outline := by
    intro links
    induction links with
    | nil => intro f; rfl
    | cons l rest ih =>
        intro f
        rw [List.foldl_cons, ih, linkBase, outline_modifyRecord, outline_modifyRecord]
  exact hfold f.baseLinks f

theorem outline_linkTypes (f : Forest) : f.linkTypes.outline = f.outline :=
  outline_mapEntities f fun _ => rfl

theorem outline_relate (f : Forest) (id cls : String) : (f.relate id cls).outline = f.outline := by
  calc (f.relate id cls).outline
      = (f.modifyRecord cls (addRelated id)).outline := outline_modify _ id fun _ => rfl
    _ = f.outline := outline_modifyRecord f cls (addRelated id)

end Forest

namespace Document

theorem outline_setTexts (d : Document) (brief doc : String) (owner : Owner) :
    (d.setTexts brief doc owner).forest.outline = d.forest.outline := by
  cases owner with
  | entity id => exact Forest.outline_modify d.forest id fun _ => rfl
  | header id => rfl
  | group id => rfl
  | page id => rfl

theorem forest_foldl_addSubpage (parent : String) (children : List String) :
    ∀ d : Document, (children.foldl (fun d child => d.addSubpage parent child) d).forest = d.forest := by
  induction children with
  | nil => intro d; rfl
  | cons child rest ih => intro d; exact ih (d.addSubpage parent child)

theorem outline_applyOutcome (d : Document) (owner : Owner) (o : Outcome) :
    (d.applyOutcome owner o).forest.outline = d.forest.outline := by
  cases owner with
  | entity id =>
      unfold applyOutcome
      cases o.relates with
      | none => rfl
      | some cls => exact Forest.outline_relate d.forest id cls
  | header id => rfl
  | group id => rfl
  | page id => exact congrArg Forest.outline (forest_foldl_addSubpage id o.subpages d)

theorem outline_renderOwner (d : Document) (anchors : List String) (owner : Owner) :
    (d.renderOwner anchors owner).1.forest.outline = d.forest.outline := by
  unfold renderOwner
  cases d.texts? owner with
  | none => rfl
  | some texts => exact (outline_applyOutcome _ owner _).trans (outline_setTexts d _ _ owner)

theorem outline_foldl_renderStep (anchors : List String) (owners : List Owner) :
    ∀ s : Document × List Diagnostic,
      (owners.foldl (renderStep anchors) s).1.forest.outline = s.1.forest.outline := by
  induction owners with
  | nil => intro s; rfl
  | cons owner rest ih =>
      intro s
      rw [List.foldl_cons, ih]
      exact outline_renderOwner s.1 anchors owner

/-- **Looking up all names leaves the links alone.** -/
theorem outline_resolve (d : Document) : d.resolve.1.forest.outline = d.forest.outline := by
  have hlink : d.link.forest.outline = d.forest.outline := by
    show d.forest.linkBases.linkTypes.outline = d.forest.outline
    rw [Forest.outline_linkTypes, Forest.outline_linkBases]
  have hmark : d.link.mark.forest.outline = d.link.forest.outline :=
    Forest.outline_mapEntities d.link.forest fun _ => rfl
  unfold resolve renderTexts
  rw [outline_foldl_renderStep, hmark, hlink]

end Document

end DocForest
