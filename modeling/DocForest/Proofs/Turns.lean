/-
Rendering in place is rendering all at once.

The texts of the records are rendered one after the other, each against a document in
which the earlier ones are done.  For an entity, a header or a group this makes no
difference.  A turn writes the texts and the related class of its own record, which
nobody else reads (`texts?_renderOwner_of_ne`, `noted?_renderOwner`), and it leaves the
bare document alone, which is all that a text is rendered against.

So when the turn of a record comes, its texts are still those it started with, and they
come to what they would have come to at the start.
-/
import DocForest.Proofs.Lookups
import DocForest.Proofs.Pages
import Mathlib.Data.List.Nodup

namespace DocForest

open DocText

/-- What the texts of a record come to. -/
structure Rendition where
  brief : String
  doc : String
  outcome : Outcome
  deriving DecidableEq

namespace Document

/-- What the texts of a record come to against a document. -/
def rendition? (d : Document) (anchors : List String) (owner : Owner) : Option Rendition :=
  (d.texts? owner).map fun (brief, doc) =>
    let w : Renderer := { document := d, anchors, owner }
    let shown := w.text {} brief
    let rest := w.text shown.2 doc
    { brief := shown.1, doc := rest.1, outcome := rest.2 }

/-- A turn writes down what the texts of the record come to, and nothing else. -/
theorem renderOwner_of_rendition? {d : Document} {anchors : List String} {owner : Owner}
    {r : Rendition} (h : d.rendition? anchors owner = some r) :
    d.renderOwner anchors owner =
      ((d.setTexts r.brief r.doc owner).applyOutcome owner r.outcome, r.outcome.notes) := by
  obtain ⟨texts, htexts, rfl⟩ := Option.map_eq_some_iff.mp h
  unfold renderOwner
  rw [htexts]

theorem renderOwner_of_none {d : Document} {anchors : List String} {owner : Owner}
    (h : d.rendition? anchors owner = none) : d.renderOwner anchors owner = (d, []) := by
  have htexts : d.texts? owner = none := Option.map_eq_none_iff.mp h
  unfold renderOwner
  rw [htexts]

/-- **The texts of a record come to the same** against documents that differ neither in
these texts nor when they are bare. -/
theorem rendition?_congr {d d' : Document} (hbare : d'.bare = d.bare) {owner : Owner}
    (howner : ∀ id, owner ≠ .page id) (htexts : d'.texts? owner = d.texts? owner)
    (anchors : List String) : d'.rendition? anchors owner = d.rendition? anchors owner := by
  have htext : ∀ (o : Outcome) (s : String),
      Renderer.text { document := d', anchors, owner } o s =
        Renderer.text { document := d, anchors, owner } o s := by
    intro o s
    have hrenderer : Renderer.bare { document := d', anchors, owner } =
        Renderer.bare { document := d, anchors, owner } := by
      simp only [Renderer.bare, hbare]
    rw [← Renderer.text_bare _ howner, hrenderer, Renderer.text_bare _ howner]
  unfold rendition?
  simp only [htexts, htext]

/-! ### What a turn does to texts -/

theorem texts?_setTexts_of_ne (d : Document) (brief doc : String) {owner other : Owner}
    (h : other ≠ owner) : (d.setTexts brief doc other).texts? owner = d.texts? owner := by
  -- Only records of one kind are kept in one table.
  cases owner <;> cases other <;> try rfl
  case entity.entity id id' =>
    have hne : id ≠ id' := fun heq => h (by rw [heq])
    simp only [texts?, setTexts, Forest.get?_modify, if_neg hne]
  case header.header id id' =>
    have hne : id ≠ id' := fun heq => h (by rw [heq])
    simp only [texts?, setTexts, Table.get?_modify, if_neg hne]
  case group.group id id' =>
    have hne : id ≠ id' := fun heq => h (by rw [heq])
    simp only [texts?, setTexts, Table.get?_modify, if_neg hne]
  case page.page id id' =>
    have hne : id ≠ id' := fun heq => h (by rw [heq])
    simp only [texts?, setTexts, Table.get?_modify, if_neg hne]

theorem texts?_setTexts (d : Document) (brief doc : String) {owner : Owner}
    (hpage : ∀ id, owner = .page id → brief = "") :
    (d.setTexts brief doc owner).texts? owner = (d.texts? owner).map fun _ => (brief, doc) := by
  cases owner with
  | entity id =>
      simp only [texts?, setTexts, Forest.get?_modify, if_pos, Option.map_map]
      rfl
  | header id =>
      simp only [texts?, setTexts, Table.get?_modify, if_pos, Option.map_map]
      rfl
  | group id =>
      simp only [texts?, setTexts, Table.get?_modify, if_pos, Option.map_map]
      rfl
  | page id =>
      rw [hpage id rfl]
      simp only [texts?, setTexts, Table.get?_modify, if_pos, Option.map_map]
      rfl

theorem texts?_relate (d : Document) (id cls : String) (owner : Owner) :
    texts? { d with forest := d.forest.relate id cls } owner = d.texts? owner := by
  cases owner with
  | entity other =>
      have hclass : ((d.forest.modifyRecord cls (addRelated id)).get? other).map
          (fun e => (e.brief, e.doc)) = (d.forest.get? other).map fun e => (e.brief, e.doc) :=
        Table.map_get?_modify _ cls (by intro e; rfl) other
      refine Eq.trans ?_ hclass
      exact Table.map_get?_modify _ id (by intro e; rfl) other
  | header other => rfl
  | group other => rfl
  | page other => rfl

theorem texts?_foldl_addSubpage (parent : String) (children : List String) (owner : Owner) :
    ∀ d : Document, (children.foldl (fun d child => d.addSubpage parent child) d).texts? owner =
      d.texts? owner := by
  induction children with
  | nil => intro d; rfl
  | cons child rest ih =>
      intro d
      rw [List.foldl_cons, ih]
      cases owner with
      | entity id => rfl
      | header id => rfl
      | group id => rfl
      | page id =>
          have hwriting := congrArg (Option.map fun w => ("", w.2))
            (writing_addSubpage d parent child id)
          simpa [texts?, Option.map_map, Function.comp_def, Page.writing] using hwriting

theorem texts?_applyOutcome (d : Document) (other : Owner) (o : Outcome) (owner : Owner) :
    (d.applyOutcome other o).texts? owner = d.texts? owner := by
  cases other with
  | entity id =>
      unfold applyOutcome
      cases o.relates with
      | none => rfl
      | some cls => exact texts?_relate d id cls owner
  | header id => rfl
  | group id => rfl
  | page id => exact texts?_foldl_addSubpage id o.subpages owner d

/-- A page has no short description, and none comes of rendering it. -/
theorem brief_rendition?_page {d : Document} {anchors : List String} {id : String} {r : Rendition}
    (h : d.rendition? anchors (.page id) = some r) : r.brief = "" := by
  obtain ⟨texts, htexts, rfl⟩ := Option.map_eq_some_iff.mp h
  obtain ⟨page, -, rfl⟩ := Option.map_eq_some_iff.mp htexts
  show (Renderer.text _ {} "").1 = ""
  rw [Renderer.text_empty]

/-- After its turn a record has the texts that its own came to. -/
theorem texts?_renderOwner {d : Document} {anchors : List String} {owner : Owner} {r : Rendition}
    (h : d.rendition? anchors owner = some r) :
    (d.renderOwner anchors owner).1.texts? owner = some (r.brief, r.doc) := by
  obtain ⟨texts, htexts, -⟩ := Option.map_eq_some_iff.mp h
  have hpage : ∀ id, owner = .page id → r.brief = "" := by
    intro id howner
    subst howner
    exact brief_rendition?_page h
  rw [renderOwner_of_rendition? h]
  dsimp only
  rw [texts?_applyOutcome, texts?_setTexts d r.brief r.doc hpage, htexts]
  rfl

/-! ### What a turn does to related classes -/

/-- The class that the documentation of an entity names, if it may name one. -/
def relation? (d : Document) (anchors : List String) (id : String) : Option String :=
  (d.rendition? anchors (.entity id)).bind (·.outcome.relates)

/-- The related class that is noted on an entity. -/
def noted? (d : Document) (id : String) : Option String :=
  (d.forest.get? id).map (·.relates)

theorem noted?_setTexts (d : Document) (brief doc : String) (owner : Owner) (id : String) :
    (d.setTexts brief doc owner).noted? id = d.noted? id := by
  cases owner with
  | entity other => exact Table.map_get?_modify _ other (by intro e; rfl) id
  | header other => rfl
  | group other => rfl
  | page other => rfl

theorem noted?_relate (d : Document) (id cls other : String) :
    noted? { d with forest := d.forest.relate id cls } other =
      if other = id then (d.noted? other).map fun _ => cls else d.noted? other := by
  have hclass : ((d.forest.modifyRecord cls (addRelated id)).get? other).map (·.relates) =
      d.noted? other := Table.map_get?_modify _ cls (by intro e; rfl) other
  rw [← hclass, noted?, Forest.relate, Forest.get?_modify]
  by_cases hother : other = id
  · rw [if_pos hother, if_pos hother, Option.map_map, Option.map_map]
    rfl
  · rw [if_neg hother, if_neg hother]

theorem noted?_applyOutcome (d : Document) (owner : Owner) (o : Outcome) (id : String) :
    (d.applyOutcome owner o).noted? id =
      if owner = .entity id then (d.noted? id).map fun old => o.relates.getD old
      else d.noted? id := by
  cases owner with
  | entity other =>
      simp only [applyOutcome, Owner.entity.injEq, eq_comm (a := other)]
      cases o.relates with
      | none => simp
      | some cls => exact noted?_relate d other cls id
  | header other => rfl
  | group other => rfl
  | page other =>
      rw [if_neg (by simp), noted?, noted?]
      exact congrArg (fun f => (f.get? id).map (·.relates)) (forest_foldl_addSubpage other _ d)

/-- A turn notes a related class on the record itself, and on no other. -/
theorem noted?_renderOwner (d : Document) (anchors : List String) (owner : Owner) (id : String) :
    (d.renderOwner anchors owner).1.noted? id =
      if owner = .entity id then (d.noted? id).map fun old => (d.relation? anchors id).getD old
      else d.noted? id := by
  cases hr : d.rendition? anchors owner with
  | none =>
      rw [renderOwner_of_none hr]
      by_cases howner : owner = .entity id
      · subst howner
        simp [relation?, hr]
      · rw [if_neg howner]
  | some r =>
      rw [renderOwner_of_rendition? hr]
      dsimp only
      rw [noted?_applyOutcome, noted?_setTexts]
      by_cases howner : owner = .entity id
      · subst howner
        rw [if_pos rfl, if_pos rfl, relation?, hr]
        rfl
      · rw [if_neg howner, if_neg howner]

/-! ### The pass -/

/-- No record is stored twice. -/
structure WellFormed (d : Document) : Prop where
  entities : d.forest.entities.WellFormed
  headers : d.headers.WellFormed
  groups : d.groups.WellFormed
  pages : d.pages.WellFormed

theorem WellFormed.nodup_owners {d : Document} (h : d.WellFormed) : d.owners.Nodup := by
  have hentities : (d.forest.ids.map Owner.entity).Nodup :=
    List.Nodup.map (fun _ _ heq => Owner.entity.inj heq) h.entities
  have hheaders : (d.headers.keys.map Owner.header).Nodup :=
    List.Nodup.map (fun _ _ heq => Owner.header.inj heq) h.headers
  have hgroups : (d.groups.keys.map Owner.group).Nodup :=
    List.Nodup.map (fun _ _ heq => Owner.group.inj heq) h.groups
  have hpages : (d.pages.keys.map Owner.page).Nodup :=
    List.Nodup.map (fun _ _ heq => Owner.page.inj heq) h.pages
  simp [owners, List.nodup_append, hentities, hheaders, hgroups, hpages, or_imp, forall_and]

/-- What the turns of other records leave alone is left alone by all of them. -/
theorem foldl_renderStep_eq {β : Type} (view : Document → β) {owner : Owner} {anchors : List String}
    (hstep : ∀ (d : Document) (other : Owner), other ≠ owner →
      view (d.renderOwner anchors other).1 = view d) (owners : List Owner) :
    ∀ s : Document × List Diagnostic, owner ∉ owners →
      view (owners.foldl (renderStep anchors) s).1 = view s.1 := by
  induction owners with
  | nil => intro s _; rfl
  | cons other rest ih =>
      intro s hmem
      have hne : other ≠ owner := fun heq => hmem (heq ▸ List.mem_cons_self)
      rw [List.foldl_cons, ih _ fun hrest => hmem (List.mem_cons_of_mem _ hrest)]
      exact hstep s.1 other hne

theorem texts?_renderOwner_of_ne (d : Document) (anchors : List String) {owner other : Owner}
    (h : other ≠ owner) : (d.renderOwner anchors other).1.texts? owner = d.texts? owner := by
  cases hr : d.rendition? anchors other with
  | none => rw [renderOwner_of_none hr]
  | some r =>
      rw [renderOwner_of_rendition? hr]
      exact (texts?_applyOutcome _ other r.outcome owner).trans (texts?_setTexts_of_ne d _ _ h)

theorem exists_texts? {d : Document} {owner : Owner} (h : owner ∈ d.owners) :
    ∃ texts, d.texts? owner = some texts := by
  have hget : ∀ {α : Type} {t : Table α} {id : String} (view : α → String × String),
      id ∈ t.keys → ∃ texts, (t.get? id).map view = some texts := by
    intro α t id view hid
    obtain ⟨v, hv⟩ := Table.contains_iff_exists.mp (Table.contains_iff_mem_keys.mpr hid)
    exact ⟨view v, by rw [hv]; rfl⟩
  cases owner with
  | entity id => exact hget _ (by simpa [owners, Forest.ids] using h)
  | header id => exact hget _ (by simpa [owners] using h)
  | group id => exact hget _ (by simpa [owners] using h)
  | page id => exact hget _ (by simpa [owners] using h)

section Pass

variable (anchors : List String) {owner : Owner}

theorem texts?_foldl_renderStep (owners : List Owner) (s : Document × List Diagnostic)
    (h : owner ∉ owners) :
    (owners.foldl (renderStep anchors) s).1.texts? owner = s.1.texts? owner :=
  foldl_renderStep_eq (·.texts? owner) (fun d _ hne => texts?_renderOwner_of_ne d anchors hne)
    owners s h

theorem noted?_foldl_renderStep {id : String} (owners : List Owner) (s : Document × List Diagnostic)
    (h : .entity id ∉ owners) :
    (owners.foldl (renderStep anchors) s).1.noted? id = s.1.noted? id :=
  foldl_renderStep_eq (·.noted? id)
    (fun d other hne => (noted?_renderOwner d anchors other id).trans (if_neg hne)) owners s h

/-- **What the texts of a record come to** does not depend on which others are done. -/
theorem rendition?_foldl_renderStep (howner : ∀ id, owner ≠ .page id) (owners : List Owner)
    (s : Document × List Diagnostic) (h : owner ∉ owners) :
    (owners.foldl (renderStep anchors) s).1.rendition? anchors owner =
      s.1.rendition? anchors owner :=
  rendition?_congr (bare_foldl_renderStep anchors owners s) howner
    (texts?_foldl_renderStep anchors owners s h) anchors

variable {d : Document} (hd : d.WellFormed)

include hd

/-- Every record has its turn once. -/
theorem WellFormed.exists_turn (howner : owner ∈ d.owners) :
    ∃ before after, d.owners = before ++ owner :: after ∧ owner ∉ before ∧ owner ∉ after := by
  obtain ⟨before, after, howners⟩ := List.mem_iff_append.mp howner
  have hnodup := hd.nodup_owners
  rw [howners, List.nodup_middle, List.nodup_cons, List.mem_append, not_or] at hnodup
  exact ⟨before, after, howners, hnodup.1.1, hnodup.1.2⟩

/-- The texts of a record at the end are what they came to in its turn. -/
theorem WellFormed.texts?_renderTexts (howner : owner ∈ d.owners) {r : Rendition}
    (hr : (d.reaching anchors owner).rendition? anchors owner = some r) :
    (d.renderTexts anchors).1.texts? owner = some (r.brief, r.doc) := by
  obtain ⟨before, after, howners, hbefore, hafter⟩ := hd.exists_turn howner
  rw [reaching_eq howners hbefore] at hr
  rw [renderTexts, howners, List.foldl_append, List.foldl_cons,
    texts?_foldl_renderStep anchors after _ hafter]
  exact texts?_renderOwner hr

/-- The related class of an entity at the end is the one that its documentation names. -/
theorem WellFormed.noted?_renderTexts {id : String} (hid : .entity id ∈ d.owners) :
    (d.renderTexts anchors).1.noted? id =
      (d.noted? id).map fun old => (d.relation? anchors id).getD old := by
  obtain ⟨before, after, howners, hbefore, hafter⟩ := hd.exists_turn hid
  have hturn := rendition?_foldl_renderStep anchors (fun _ => by simp) before (d, []) hbefore
  rw [renderTexts, howners, List.foldl_append, List.foldl_cons,
    noted?_foldl_renderStep anchors after _ hafter]
  refine (noted?_renderOwner _ anchors (.entity id) id).trans ?_
  rw [if_pos rfl, noted?_foldl_renderStep anchors before (d, []) hbefore, relation?, relation?,
    hturn]

/-- What is reported in the turn of a record. -/
theorem WellFormed.notes_renderTexts :
    (d.renderTexts anchors).2 =
      d.owners.flatMap fun owner => ((d.reaching anchors owner).renderOwner anchors owner).2 := by
  have hnodup := hd.nodup_owners
  -- Along the pass: what is reported so far, and the turns that are left.
  have hpass : ∀ after before, d.owners = before ++ after →
      (after.foldl (renderStep anchors) (before.foldl (renderStep anchors) (d, []))).2 =
        (before.foldl (renderStep anchors) (d, [])).2 ++
          after.flatMap fun owner => ((d.reaching anchors owner).renderOwner anchors owner).2 := by
    intro after
    induction after with
    | nil => intro before _; simp
    | cons owner rest ih =>
        intro before howners
        have hbefore : owner ∉ before := by
          rw [howners, List.nodup_middle, List.nodup_cons, List.mem_append, not_or] at hnodup
          exact hnodup.1.1
        have hnext := ih (before ++ [owner]) (by rw [howners]; simp)
        rw [List.foldl_append, List.foldl_cons, List.foldl_nil] at hnext
        rw [List.foldl_cons, hnext, List.flatMap_cons, reaching_eq howners hbefore,
          ← List.append_assoc]
        rfl
  exact hpass d.owners [] rfl

/--
**Rendering the records one after the other is rendering them all at once.**

The texts of an entity, a header or a group come to what they come to against the document
before any of them is rendered, and so do its related class and what is reported about it.
Whichever other records are rendered before, in whatever order, makes no difference.
-/
theorem WellFormed.renderTexts_at_once :
    (∀ owner ∈ d.owners, (∀ id, owner ≠ .page id) →
      ∃ r, d.rendition? anchors owner = some r ∧
        (d.renderTexts anchors).1.texts? owner = some (r.brief, r.doc) ∧
        (∀ id e, owner = .entity id → d.forest.get? id = some e →
          ∃ e', (d.renderTexts anchors).1.forest.get? id = some e' ∧
            e'.relates = r.outcome.relates.getD e.relates) ∧
        ((d.reaching anchors owner).renderOwner anchors owner).2 = r.outcome.notes ∧
        ∀ before : List Owner, owner ∉ before →
          (before.foldl (renderStep anchors) (d, [])).1.rendition? anchors owner = some r) ∧
    (d.renderTexts anchors).2 =
      d.owners.flatMap fun owner => ((d.reaching anchors owner).renderOwner anchors owner).2 := by
  refine ⟨?_, hd.notes_renderTexts anchors⟩
  intro owner hmem howner
  obtain ⟨texts, htexts⟩ := exists_texts? hmem
  obtain ⟨r, hr⟩ : ∃ r, d.rendition? anchors owner = some r :=
    ⟨_, Option.map_eq_some_iff.mpr ⟨texts, htexts, rfl⟩⟩
  have hany : ∀ before : List Owner, owner ∉ before →
      (before.foldl (renderStep anchors) (d, [])).1.rendition? anchors owner = some r := by
    intro before hbefore
    rw [rendition?_foldl_renderStep anchors howner before (d, []) hbefore]
    exact hr
  have hturn : (d.reaching anchors owner).rendition? anchors owner = some r := by
    obtain ⟨before, after, howners, hbefore, -⟩ := hd.exists_turn hmem
    rw [reaching_eq howners hbefore]
    exact hany before hbefore
  refine ⟨r, hr, hd.texts?_renderTexts anchors hmem hturn, ?_, ?_, hany⟩
  · intro id e heq hget
    subst heq
    have hnoted := hd.noted?_renderTexts anchors hmem
    rw [noted?, noted?, hget, relation?, hr] at hnoted
    exact Option.map_eq_some_iff.mp hnoted
  · rw [renderOwner_of_rendition? hturn]

end Pass

/-- A class, a function that is related to it, and a header that mentions both. -/
def relatedFunction : Document :=
  { forest :=
      { entities := ⟨[("C", { id := "C", name := "C", detail := .record .cls {} }),
          ("f", { id := "f", name := "f", detail := .function {},
                  doc := "\\relates C\nTakes a \\ref C." })]⟩
        roots := ["C", "f"] }
    headers := ⟨[("a_h", { id := "a_h", name := "a.h", doc := "\\see f, g" })]⟩ }

theorem wellFormed_relatedFunction : relatedFunction.WellFormed where
  entities := show ["C", "f"].Nodup by decide
  headers := show ["a_h"].Nodup by decide
  groups := List.nodup_nil
  pages := List.nodup_nil

/-- The function is related to the class, and the header is rendered as if it came first. -/
theorem relatedFunction_at_once :
    relatedFunction.WellFormed ∧
      (∃ r, relatedFunction.rendition? [] (.entity "f") = some r ∧
        r.outcome.relates = some "C" ∧
        (relatedFunction.renderTexts []).1.texts? (.entity "f") = some (r.brief, r.doc)) ∧
      ∃ r, relatedFunction.rendition? [] (.header "a_h") = some r ∧
        r.doc = "!!! see \"See also\"\n    [f](#f), g" ∧
        (relatedFunction.renderTexts []).1.texts? (.header "a_h") = some (r.brief, r.doc) := by
  obtain ⟨hall, -⟩ := wellFormed_relatedFunction.renderTexts_at_once []
  refine ⟨wellFormed_relatedFunction, ?_, ?_⟩
  · obtain ⟨r, hr, htexts, -⟩ := hall (.entity "f") (by decide) (by simp)
    have hrelates : (relatedFunction.rendition? [] (.entity "f")).map (·.outcome.relates) =
        some (some "C") := by
      decide +kernel
    rw [hr] at hrelates
    exact ⟨r, hr, Option.some.inj hrelates, htexts⟩
  · obtain ⟨r, hr, htexts, -⟩ := hall (.header "a_h") (by decide) (by simp)
    have hdoc : (relatedFunction.rendition? [] (.header "a_h")).map (·.doc) =
        some "!!! see \"See also\"\n    [f](#f), g" := by
      decide +kernel
    rw [hr] at hdoc
    exact ⟨r, hr, Option.some.inj hdoc, htexts⟩

end Document

end DocForest
