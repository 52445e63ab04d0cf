/-
Links between entities run both ways.

A class lists the classes that are derived from it, and a class lists the things that are
related to it.  The first list is written when classes are linked, before any text is
looked at, and nothing later touches it (`BasesPaired.congr`).  The second is written
while texts are rendered, one turn at a time: the turn of an entity whose documentation
names a class puts the entity on the list of that class, and on no other
(`related?_renderOwner`).  Which class that is does not depend on the turns before it, so
the list at the end is known from the start (`related?_foldl_renderStep`).
-/
import DocForest.Proofs.Preparation

namespace DocForest

open DocText

theorem Forest.isRecordId_iff {f : Forest} {id : String} :
    f.isRecordId id = true ↔ ∃ r, f.record? id = some r := by
  have hdetail : ∀ e : Entity, e.isRecord = e.detail.record?.isSome := by
    intro e
    rw [Entity.isRecord, Entity.kind]
    cases e.detail <;> rfl
  rw [isRecordId, record?, ← Option.isSome_iff_exists]
  cases f.get? id with
  | none => simp
  | some e => simp [hdetail]

/-! ### A text names classes only -/

namespace Renderer

/-- What a text is related to, if anything, is a class. -/
def NamesClass (w : Renderer) (o : Outcome) : Prop :=
  ∀ cls, o.relates = some cls → w.document.forest.isRecordId cls = true

variable {w : Renderer} {o : Outcome}

theorem NamesClass.link (h : w.NamesClass o) (target : String) (text : Option String) :
    w.NamesClass (w.link o target text).2 := by
  unfold Renderer.link
  dsimp only
  split
  · exact h
  · exact h

theorem NamesClass.links (targets : List String) :
    ∀ {o : Outcome}, w.NamesClass o → w.NamesClass (w.links o targets).2 := by
  induction targets with
  | nil => intro o h; exact h
  | cons target rest ih => intro o h; exact ih (h.link target none)

theorem NamesClass.subpage (h : w.NamesClass o) (target : String) (text : Option String) :
    w.NamesClass (w.subpage o target text).2 := by
  unfold Renderer.subpage
  cases w.owner with
  | page current =>
      dsimp only
      split
      · exact h
      split
      · exact h
      dsimp only
      split
      · exact h
      · exact h
  | entity id => exact h
  | header id => exact h
  | group id => exact h

theorem NamesClass.relate (h : w.NamesClass o) (target : String) :
    w.NamesClass (w.relate o target) := by
  unfold Renderer.relate
  cases w.owner with
  | entity id =>
      dsimp only
      split
      · exact h
      split
      · exact h
      split
      · intro cls hcls
        have hfound := ‹w.relatedClass? target = some _›
        obtain rfl := Option.some.inj hcls
        exact (Option.filter_eq_some_iff.mp hfound).2
      · exact h
  | header id => exact h
  | group id => exact h
  | page id => exact h

theorem NamesClass.command (h : w.NamesClass o) (raw : List Char) (c : Command) :
    w.NamesClass (w.command o raw c).2 := by
  cases c with
  | ref target text => exact h.link target text
  | seeAlso targets => exact NamesClass.links targets h
  | relates target => exact h.relate target
  | subpage target text => exact h.subpage target text
  | ingroup id => exact h
  | heading level id title => exact h
  | anchor id => exact h
  | malformed word => exact h

theorem NamesClass.parts (ps : List Part) :
    ∀ {o : Outcome}, w.NamesClass o → w.NamesClass (w.parts o ps).2 := by
  induction ps with
  | nil => intro o h; exact h
  | cons part rest ih =>
      intro o h
      cases part with
      | text cs => exact ih h
      | command c raw => exact ih (h.command raw c)

theorem NamesClass.text (h : w.NamesClass o) (s : String) : w.NamesClass (w.text o s).2 :=
  NamesClass.parts (DocText.parts s.toList) h

end Renderer

namespace Document

/-- **The documentation of an entity relates it to nothing but a class.** -/
theorem isRecordId_of_relation? {d : Document} {anchors : List String} {id cls : String}
    (h : d.relation? anchors id = some cls) : d.forest.isRecordId cls = true := by
  obtain ⟨r, hr, hcls⟩ := Option.bind_eq_some_iff.mp h
  obtain ⟨texts, -, rfl⟩ := Option.map_eq_some_iff.mp hr
  have hstart : Renderer.NamesClass { document := d, anchors, owner := .entity id } {} := by
    intro cls hnone
    simp at hnone
  exact (hstart.text texts.1).text texts.2 cls hcls

/-! ### One turn -/

/-- The things that are noted as related to a class. -/
def related? (d : Document) (cls : String) : Option (List String) :=
  (d.forest.record? cls).map (·.related)

/-- Notes a related thing, once. -/
def noteRelated (id : String) (ids : List String) : List String :=
  if id ∈ ids then ids else ids ++ [id]

/-- The entity whose documentation, if it is its turn, names the class. -/
def relating? (d : Document) (anchors : List String) (cls : String) : Owner → Option String
  | .entity id => if d.relation? anchors id = some cls then some id else none
  | _ => none

theorem related?_setTexts (d : Document) (brief doc : String) (owner : Owner) (cls : String) :
    (d.setTexts brief doc owner).related? cls = d.related? cls := by
  cases owner with
  | entity id =>
      have hdetail : ((d.forest.modify id fun e => { e with brief, doc }).get? cls).map (·.detail) =
          (d.forest.get? cls).map (·.detail) := Table.map_get?_modify _ id (by intro e; rfl) cls
      rw [related?, related?]
      exact congrArg (Option.map _) (Forest.record?_congr hdetail)
  | header id => rfl
  | group id => rfl
  | page id => rfl

theorem related?_relate (d : Document) (id target cls : String) :
    related? { d with forest := d.forest.relate id target } cls =
      (d.related? cls).map fun ids => if target = cls then noteRelated id ids else ids := by
  have hdetail : ((d.forest.relate id target).get? cls).map (·.detail) =
      ((d.forest.modifyRecord target (addRelated id)).get? cls).map (·.detail) :=
    Table.map_get?_modify _ id (by intro e; rfl) cls
  have hrecord : (d.forest.relate id target).record? cls =
      (d.forest.modifyRecord target (addRelated id)).record? cls :=
    Forest.record?_congr hdetail
  have hadd : ∀ r : RecordDetail, (addRelated id r).related = noteRelated id r.related := by
    intro r
    unfold addRelated noteRelated
    split <;> rfl
  rw [related?, hrecord, Forest.record?_modifyRecord, related?]
  by_cases hcls : cls = target
  · rw [if_pos hcls, Option.map_map, Option.map_map]
    simp only [Function.comp_def, hadd, hcls, if_true]
  · simp only [if_neg hcls, if_neg (Ne.symm hcls), Option.map_id']

theorem related?_applyOutcome (d : Document) (owner : Owner) (o : Outcome) (cls : String) :
    (d.applyOutcome owner o).related? cls =
      (d.related? cls).map fun ids =>
        match owner with
        | .entity id => if o.relates = some cls then noteRelated id ids else ids
        | _ => ids := by
  cases owner with
  | entity id =>
      unfold applyOutcome
      cases o.relates with
      | none => simp
      | some target =>
          simp only [Option.some.injEq]
          exact related?_relate d id target cls
  | header id => simp [applyOutcome]
  | group id => simp [applyOutcome]
  | page id =>
      rw [applyOutcome, related?, forest_foldl_addSubpage, Option.map_id']
      rfl

/-- **A turn puts its entity on the list of the class that its documentation names**, and
changes no other list. -/
theorem related?_renderOwner (d : Document) (anchors : List String) (owner : Owner)
    (cls : String) :
    (d.renderOwner anchors owner).1.related? cls =
      (d.related? cls).map fun ids =>
        ((d.relating? anchors cls owner).map fun id => noteRelated id ids).getD ids := by
  cases hr : d.rendition? anchors owner with
  | none =>
      have hnone : d.relating? anchors cls owner = none := by
        cases owner with
        | entity id => simp [relating?, relation?, hr]
        | header id => rfl
        | group id => rfl
        | page id => rfl
      rw [renderOwner_of_none hr, hnone]
      simp
  | some r =>
      rw [renderOwner_of_rendition? hr]
      dsimp only
      rw [related?_applyOutcome, related?_setTexts]
      refine congrArg (Option.map · _) (funext fun ids => ?_)
      cases owner with
      | entity id =>
          dsimp only [relating?]
          rw [relation?, hr, Option.bind_some]
          split <;> rfl
      | header id => rfl
      | group id => rfl
      | page id => rfl

/-! ### All turns -/

/-- The turn of one record does not change what another names. -/
theorem relating?_renderOwner_of_ne (d : Document) (anchors : List String) (cls : String)
    {owner other : Owner} (h : other ≠ owner) :
    (d.renderOwner anchors other).1.relating? anchors cls owner =
      d.relating? anchors cls owner := by
  cases owner with
  | entity id =>
      have hsame : (d.renderOwner anchors other).1.rendition? anchors (.entity id) =
          d.rendition? anchors (.entity id) :=
        rendition?_congr (bare_renderOwner d anchors other) (fun _ => by simp)
          (texts?_renderOwner_of_ne d anchors h) anchors
      have hrelation : (d.renderOwner anchors other).1.relation? anchors id =
          d.relation? anchors id := by
        rw [relation?, hsame, relation?]
      simp only [relating?, hrelation]
  | header id => rfl
  | group id => rfl
  | page id => rfl

theorem eq_of_relating? {d : Document} {anchors : List String} {cls id : String} {owner : Owner} :
    d.relating? anchors cls owner = some id ↔
      owner = .entity id ∧ d.relation? anchors id = some cls := by
  cases owner with
  | entity other =>
      simp only [relating?, Option.ite_none_right_eq_some, Option.some.injEq, Owner.entity.injEq]
      constructor
      · intro h
        obtain ⟨hcls, rfl⟩ := h
        exact ⟨rfl, hcls⟩
      · intro h
        obtain ⟨rfl, hcls⟩ := h
        exact ⟨hcls, rfl⟩
  | header other => simp [relating?]
  | group other => simp [relating?]
  | page other => simp [relating?]

theorem related?_foldl_renderStep (anchors : List String) (cls : String) (owners : List Owner) :
    ∀ (s : Document × List Diagnostic) (ids : List String), owners.Nodup →
      (∀ id ∈ ids, .entity id ∉ owners) → s.1.related? cls = some ids →
        (owners.foldl (renderStep anchors) s).1.related? cls =
          some (ids ++ owners.filterMap (s.1.relating? anchors cls)) := by
  induction owners with
  | nil => intro s ids _ _ hids; simpa using hids
  | cons owner rest ih =>
      intro s ids hnodup hnew hids
      obtain ⟨howner, hrest⟩ := List.nodup_cons.mp hnodup
      have hlater : rest.filterMap ((s.1.renderOwner anchors owner).1.relating? anchors cls) =
          rest.filterMap (s.1.relating? anchors cls) := by
        refine List.filterMap_congr fun other hother => ?_
        refine relating?_renderOwner_of_ne s.1 anchors cls ?_
        intro heq
        exact howner (by rw [heq]; exact hother)
      have hturn := related?_renderOwner s.1 anchors owner cls
      rw [hids, Option.map_some] at hturn
      rw [List.foldl_cons, List.filterMap_cons]
      cases hid : s.1.relating? anchors cls owner with
      | none =>
          rw [hid, Option.map_none, Option.getD_none] at hturn
          have hpass := ih (renderStep anchors s owner) ids hrest
            (fun id hmem hin => hnew id hmem (List.mem_cons_of_mem _ hin)) hturn
          rw [hpass]
          exact congrArg (fun l => some (ids ++ l)) hlater
      | some id =>
          obtain ⟨rfl, -⟩ := eq_of_relating?.mp hid
          -- The entity is not on the list yet: each has one turn only.
          have habsent : id ∉ ids := fun hmem => hnew id hmem List.mem_cons_self
          rw [hid, Option.map_some, Option.getD_some, noteRelated, if_neg habsent] at hturn
          have hnext : ∀ other ∈ ids ++ [id], .entity other ∉ rest := by
            intro other hother hin
            rcases List.mem_append.mp hother with hold | hlast
            · exact hnew other hold (List.mem_cons_of_mem _ hin)
            · rw [List.mem_singleton.mp hlast] at hin
              exact howner hin
          have hpass := ih (renderStep anchors s (.entity id)) (ids ++ [id]) hrest hnext hturn
          rw [hpass, List.append_assoc]
          exact congrArg (fun l => some (ids ++ ([id] ++ l))) hlater

/-- **The list of a class at the end**: the entities whose documentation names the class. -/
theorem WellFormed.related?_renderTexts {d : Document} (hd : d.WellFormed) (anchors : List String)
    {cls : String} (hnone : d.related? cls = some []) :
    (d.renderTexts anchors).1.related? cls =
      some (d.owners.filterMap (d.relating? anchors cls)) := by
  have hpass := related?_foldl_renderStep anchors cls d.owners (d, []) [] hd.nodup_owners
    (by simp) hnone
  rwa [List.nil_append] at hpass

theorem mem_filterMap_relating? {d : Document} {anchors : List String} {cls id : String} :
    id ∈ d.owners.filterMap (d.relating? anchors cls) ↔ d.relation? anchors id = some cls := by
  rw [List.mem_filterMap]
  constructor
  · intro h
    obtain ⟨owner, -, howner⟩ := h
    exact (eq_of_relating?.mp howner).2
  · intro h
    have hmem : id ∈ d.forest.ids := by
      obtain ⟨r, hr, -⟩ := Option.bind_eq_some_iff.mp h
      obtain ⟨texts, htexts, -⟩ := Option.map_eq_some_iff.mp hr
      obtain ⟨e, he, -⟩ := Option.map_eq_some_iff.mp htexts
      exact Forest.contains_iff_mem_ids.mp (Forest.contains_of_get? he)
    exact ⟨.entity id, by simp [owners, hmem], eq_of_relating?.mpr ⟨rfl, h⟩⟩

theorem WellFormed.nodup_relating? {d : Document} (hd : d.WellFormed) (anchors : List String)
    (cls : String) : (d.owners.filterMap (d.relating? anchors cls)).Nodup := by
  rw [List.Nodup, List.pairwise_filterMap]
  refine hd.nodup_owners.imp fun hne id hid id' hid' heq => hne ?_
  rw [(eq_of_relating?.mp hid).1, (eq_of_relating?.mp hid').1, heq]

end Document

/-! ### Both directions -/

namespace Forest

/-- Whether bases and derived classes name each other is not a matter of what is related to
them. -/
theorem BasesPaired.congr {f f' : Forest} (h : f.BasesPaired)
    (hsame : ∀ id, (f'.record? id).map RecordDetail.bare = (f.record? id).map RecordDetail.bare) :
    f'.BasesPaired := by
  -- A class of one forest is a class of the other, with the same bases and derived classes.
  have hback : ∀ {g g' : Forest},
      (∀ id, (g'.record? id).map RecordDetail.bare = (g.record? id).map RecordDetail.bare) →
      ∀ {id r'}, g'.record? id = some r' →
        ∃ r, g.record? id = some r ∧ r.bases = r'.bases ∧ r.derived = r'.derived := by
    intro g g' hsame id r' hr'
    have hbare := hsame id
    rw [hr', Option.map_some] at hbare
    obtain ⟨r, hr, heq⟩ := Option.map_eq_some_iff.mp hbare.symm
    exact ⟨r, hr, congrArg (·.bases) heq, congrArg (·.derived) heq⟩
  have hforth := fun id => (hsame id).symm
  refine ⟨?_, ?_, ?_⟩
  · intro base r' hr' derived
    obtain ⟨r, hr, -, hderived⟩ := hback hsame hr'
    rw [← hderived, h.derived_iff base r hr derived]
    refine and_congr_right fun _ => ⟨?_, ?_⟩
    · intro hbase
      obtain ⟨s, hs, hb⟩ := hbase
      obtain ⟨s', hs', hbases, -⟩ := hback hforth hs
      exact ⟨s', hs', by rwa [hbases]⟩
    · intro hbase
      obtain ⟨s', hs', hb⟩ := hbase
      obtain ⟨s, hs, hbases, -⟩ := hback hsame hs'
      exact ⟨s, hs, by rwa [hbases]⟩
  · intro base r' hr'
    obtain ⟨r, hr, -, hderived⟩ := hback hsame hr'
    rw [← hderived]
    exact h.once base r hr
  · intro base r' hr' x hx
    obtain ⟨r, hr, -, hderived⟩ := hback hsame hr'
    rw [← hderived] at hx
    obtain ⟨s, hs, haccess⟩ := h.access base r hr x hx
    obtain ⟨s', hs', hbases, -⟩ := hback hforth hs
    exact ⟨s', hs', by rwa [hbases]⟩

/-- Classes and the things related to them name each other. -/
structure RelationsPaired (f : Forest) : Prop where
  /-- An entity names a class exactly if the class lists it. -/
  relates_iff : ∀ id e, f.get? id = some e → ∀ cls, cls ≠ "" →
    (e.relates = cls ↔ ∃ r, f.record? cls = some r ∧ e.id ∈ r.related)
  /-- It is listed once. -/
  once : ∀ cls r, f.record? cls = some r → r.related.Nodup

end Forest

namespace Document

/-- No entity knows yet of others that it is derived from or related to. -/
structure Unlinked (d : Document) : Prop where
  wellFormed : d.WellFormed
  forest : d.forest.Unlinked
  related : ∀ id r, d.forest.record? id = some r → r.related = []
  relates : ∀ id e, d.forest.get? id = some e → e.relates = ""

/-! ### The whole pass -/

/-- Entities keep their ids. -/
theorem id_resolve (d : Document) (id : String) :
    (d.resolve.1.forest.get? id).map (·.id) = (d.forest.get? id).map (·.id) := by
  have hbare : ∀ f : Forest, (f.bare.get? id).map (·.id) = (f.get? id).map (·.id) := by
    intro f
    rw [Forest.get?_bare, Option.map_map]
    rfl
  calc (d.resolve.1.forest.get? id).map (·.id)
      = (d.resolve.1.forest.bare.get? id).map (·.id) := (hbare _).symm
    _ = (d.link.mark.forest.bare.get? id).map (·.id) :=
        congrArg (fun d => (d.forest.get? id).map (·.id)) d.bare_resolve
    _ = (d.link.mark.forest.get? id).map (·.id) := hbare _
    _ = (d.link.forest.get? id).map (·.id) := by rw [get?_mark, Option.map_map]; rfl
    _ = (d.forest.get? id).map (·.id) := Forest.map_get?_of_plain d.plain_link (fun _ => rfl) id

/-- What is said of a class is settled by the links, except for what is related to it. -/
theorem bare_record?_resolve (d : Document) (id : String) :
    (d.resolve.1.forest.record? id).map RecordDetail.bare =
      (d.forest.linkBases.record? id).map RecordDetail.bare := by
  have hlink : d.link.mark.forest.record? id = d.forest.linkBases.record? id :=
    (d.link.record?_mark id).trans (d.forest.linkBases.record?_linkTypes id)
  rw [← Forest.record?_bare, ← hlink, ← Forest.record?_bare]
  exact congrArg (fun d => d.forest.record? id) d.bare_resolve

section Unlinked

variable {d : Document} (h : d.Unlinked)

include h

/-- The class that the documentation of an entity names is noted on it, and none else. -/
theorem Unlinked.relates_eq {id : String} {e : Entity}
    (hget : d.resolve.1.forest.get? id = some e) :
    e.relates = (d.link.mark.relation? d.link.anchorIds id).getD "" := by
  obtain ⟨e₀, hget₀, -⟩ : ∃ e₀, d.forest.get? id = some e₀ ∧ e₀.id = e.id := by
    have hid := d.id_resolve id
    rw [hget, Option.map_some] at hid
    exact Option.map_eq_some_iff.mp hid.symm
  have hmem : .entity id ∈ d.link.mark.owners := by
    rw [owners_link_mark]
    have hin : id ∈ d.forest.ids := Forest.contains_iff_mem_ids.mp (Forest.contains_of_get? hget₀)
    simp [owners, hin]
  have hstart : d.link.mark.noted? id = some "" := by
    have hnoted : (d.link.forest.get? id).map (·.relates) = (d.forest.get? id).map (·.relates) :=
      Forest.map_get?_of_plain d.plain_link (fun _ => rfl) id
    rw [hget₀, Option.map_some, h.relates id e₀ hget₀] at hnoted
    rw [noted?, get?_mark, Option.map_map]
    exact hnoted
  have hend := h.wellFormed.link_mark.noted?_renderTexts d.link.anchorIds hmem
  rw [hstart, Option.map_some] at hend
  have hnow : d.resolve.1.noted? id = some e.relates := by rw [noted?, hget, Option.map_some]
  exact Option.some.inj (hnow.symm.trans hend)

/-- A class lists the entities whose documentation names it. -/
theorem Unlinked.related_eq {cls : String} {r : RecordDetail}
    (hr : d.resolve.1.forest.record? cls = some r) :
    r.related = d.link.mark.owners.filterMap
      (d.link.mark.relating? d.link.anchorIds cls) := by
  obtain ⟨r₁, hr₁, -⟩ : ∃ r₁, d.forest.linkBases.record? cls = some r₁ ∧ r₁.bare = r.bare := by
    have hbare := d.bare_record?_resolve cls
    rw [hr, Option.map_some] at hbare
    exact Option.map_eq_some_iff.mp hbare.symm
  have hstart : d.link.mark.related? cls = some [] := by
    have hrelated := d.forest.related_linkBases cls
    rw [hr₁, Option.map_some] at hrelated
    obtain ⟨r₀, hr₀, heq⟩ := Option.map_eq_some_iff.mp hrelated.symm
    rw [h.related cls r₀ hr₀] at heq
    rw [related?, record?_mark]
    refine (congrArg (Option.map _) (Forest.record?_linkTypes _ cls)).trans ?_
    rw [hr₁, Option.map_some, ← heq]
  have hend := h.wellFormed.link_mark.related?_renderTexts d.link.anchorIds hstart
  have hnow : d.resolve.1.related? cls = some r.related := by rw [related?, hr, Option.map_some]
  exact Option.some.inj (hnow.symm.trans hend)

theorem Unlinked.relationsPaired : d.resolve.1.forest.RelationsPaired where
  relates_iff := by
    intro id e hget cls hcls
    have hid : e.id = id := by
      have hsame := d.id_resolve id
      rw [hget, Option.map_some] at hsame
      obtain ⟨e₀, hget₀, heq⟩ := Option.map_eq_some_iff.mp hsame.symm
      rw [← heq]
      exact h.forest.keyed id e₀ hget₀
    -- Both sides come down to what the documentation of the entity names.
    have hnames : e.relates = cls ↔ d.link.mark.relation? d.link.anchorIds id = some cls := by
      rw [h.relates_eq hget]
      cases d.link.mark.relation? d.link.anchorIds id with
      | none => simpa using hcls.symm
      | some cls' => simp
    rw [hnames, hid]
    constructor
    · intro hrelation
      have hclass : d.resolve.1.forest.isRecordId cls = true := by
        rw [← Forest.isRecordId_bare]
        refine (congrArg (fun d => d.forest.isRecordId cls) d.bare_resolve).trans ?_
        exact (Forest.isRecordId_bare _ cls).trans (isRecordId_of_relation? hrelation)
      obtain ⟨r, hr⟩ := Forest.isRecordId_iff.mp hclass
      refine ⟨r, hr, ?_⟩
      rw [h.related_eq hr]
      exact mem_filterMap_relating?.mpr hrelation
    · intro hlisted
      obtain ⟨r, hr, hmem⟩ := hlisted
      rw [h.related_eq hr] at hmem
      exact mem_filterMap_relating?.mp hmem
  once := by
    intro cls r hr
    rw [h.related_eq hr]
    exact h.wellFormed.link_mark.nodup_relating? d.link.anchorIds cls

/-- The bases of a class lead to the classes that they name. -/
theorem Unlinked.bases_eq {id : String} {e : Entity} {r : RecordDetail}
    (hget : d.forest.get? id = some e) (hr : e.detail.record? = some r) :
    ∃ r', d.resolve.1.forest.record? id = some r' ∧
      r'.bases.map (·.type.target) = r.bases.map (d.forest.baseTarget? e) := by
  obtain ⟨r₁, hr₁, hbases⟩ := h.forest.exists_record?_linkBases hget hr
  have hbare := d.bare_record?_resolve id
  rw [hr₁, Option.map_some] at hbare
  obtain ⟨r', hr', heq⟩ := Option.map_eq_some_iff.mp hbare
  refine ⟨r', hr', ?_⟩
  have hsame : r'.bases = r₁.bases := congrArg (·.bases) heq
  have hrecord : d.forest.record? id = some r := Forest.record?_of_get? hget hr
  rw [hsame, hbases, List.map_map]
  exact List.map_congr_left fun b hb =>
    Forest.linked_of_target_none (h.forest.bases id r hrecord b hb)

/--
**Links agree in both directions once all names are looked up.**

A class lists as derived exactly the other classes with a base that leads to it, each once
and with the access of the first such base.  And an entity names a class that it is related
to exactly if the class lists the entity, once.

Nothing is missing on both sides at once: a base leads to the class that it names, and an
entity is related to the class that its documentation names.
-/
theorem Unlinked.resolve_links_both_ways :
    d.resolve.1.forest.BasesPaired ∧ d.resolve.1.forest.RelationsPaired ∧
    (∀ id e r, d.forest.get? id = some e → e.detail.record? = some r →
      ∃ r', d.resolve.1.forest.record? id = some r' ∧
        r'.bases.map (·.type.target) = r.bases.map (d.forest.baseTarget? e)) ∧
    ∀ id e, d.resolve.1.forest.get? id = some e →
      e.relates = (d.link.mark.relation? d.link.anchorIds id).getD "" := by
  refine ⟨h.forest.basesPaired.congr d.bare_record?_resolve, h.relationsPaired, ?_, ?_⟩
  · intro id e r hget hr
    exact h.bases_eq hget hr
  · intro id e hget
    exact h.relates_eq hget

end Unlinked

/-- A class that names another as a base twice, and itself, with a function that is related
to the other one. -/
def repeatedBase : Document :=
  { forest :=
      { entities := ⟨[("B", { id := "B", name := "B", detail := .record .cls {} }),
          ("D", { id := "D", name := "D", detail := .record .cls { bases :=
            [⟨{ name := "D" }, .pub, false⟩, ⟨{ name := "B" }, .priv, false⟩,
              ⟨{ name := "::B" }, .pub, true⟩] } }),
          ("f", { id := "f", name := "f", detail := .function {},
                  doc := "\\relates B\n\\relates D" })]⟩
        roots := ["B", "D", "f"] } }

theorem unlinked_repeatedBase : repeatedBase.Unlinked := by
  have hdistinct : repeatedBase.forest.entities.WellFormed := show ["B", "D", "f"].Nodup by decide
  have hall : ∀ p ∈ repeatedBase.forest.entities.entries, p.2.id = p.1 ∧ p.2.relates = "" ∧
      ∀ r ∈ p.2.detail.record?,
        r.derived = [] ∧ r.related = [] ∧ ∀ b ∈ r.bases, b.type.target = none := by
    decide +kernel
  have hentity : ∀ {id e}, repeatedBase.forest.get? id = some e →
      (id, e) ∈ repeatedBase.forest.entities.entries :=
    fun hget => (Table.mem_entries_iff hdistinct).mpr hget
  have hrecord : ∀ {id r}, repeatedBase.forest.record? id = some r →
      r.derived = [] ∧ r.related = [] ∧ ∀ b ∈ r.bases, b.type.target = none := by
    intro id r hr
    obtain ⟨e, hget, hdetail⟩ := Option.bind_eq_some_iff.mp hr
    exact (hall _ (hentity hget)).2.2 r hdetail
  exact {
    wellFormed := ⟨hdistinct, List.nodup_nil, List.nodup_nil, List.nodup_nil⟩
    forest := {
      distinct := hdistinct
      keyed := fun id e hget => (hall _ (hentity hget)).1
      derived := fun id r hr => (hrecord hr).1
      bases := fun id r hr => (hrecord hr).2.2 }
    related := fun id r hr => (hrecord hr).2.1
    relates := fun id e hget => (hall _ (hentity hget)).2.1 }

/-- The derived class is listed once, as a private one, and the function names the class
that its first command names. -/
theorem repeatedBase_links_both_ways :
    repeatedBase.Unlinked ∧ repeatedBase.resolve.1.forest.BasesPaired ∧
      repeatedBase.resolve.1.forest.RelationsPaired ∧
      (repeatedBase.resolve.1.forest.record? "B").map (fun r => (r.derived, r.related)) =
        some ([⟨"D", .priv⟩], ["f"]) ∧
      (repeatedBase.resolve.1.forest.get? "f").map (·.relates) = some "B" := by
  obtain ⟨hbases, hrelations, -⟩ := unlinked_repeatedBase.resolve_links_both_ways
  exact ⟨unlinked_repeatedBase, hbases, hrelations, by decide +kernel, by decide +kernel⟩

end Document

end DocForest
