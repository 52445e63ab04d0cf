/-
No link leads nowhere, and no target fails in silence.

A text is put together from one piece for each of its parts.  The piece for a target is
settled by what the target means (`Piece.OfTarget`): a link with nothing reported, or the
text alone with one error.  No other command reports such an error, so the errors can be
counted (`countP_notes`).

What a target means is looked up in the turn of the record that it stands in, but the
look-up sees the bare document only, which is the same at the end.  There the answer is
the id of a record, or a heading or an anchor that is noted on one (`place_of_find?`).
-/
import DocForest.Proofs.Preparation
import DocForest.Proofs.QualifiedNames

namespace DocForest

open DocText

/-! ### Where names lead -/

theorem Table.mem_values_of_get? {α : Type} {t : Table α} {key : String} {v : α}
    (h : t.get? key = some v) : v ∈ t.values := by
  obtain ⟨before, after, hentries, -⟩ := List.lookup_eq_some_iff.mp h
  exact List.mem_map.mpr ⟨(key, v), by simp [hentries], rfl⟩

namespace Forest

variable {f : Forest}

theorem mem_values_of_mem_matching {scope segment : String} {e : Entity}
    (h : e ∈ f.matching scope segment) : e ∈ f.entities.values := by
  have hget : ∀ {ids : List String}, e ∈ ids.filterMap f.get? → e ∈ f.entities.values := by
    intro ids he
    obtain ⟨id, -, hid⟩ := List.mem_filterMap.mp he
    exact Table.mem_values_of_get? hid
  unfold matching at h
  dsimp only at h
  split at h
  · obtain ⟨hvalue, -⟩ := List.mem_filter.mp h
    obtain ⟨enum, -, hchild⟩ := List.mem_flatMap.mp hvalue
    exact hget hchild
  · exact hget (List.mem_filter.mp h).1

theorem id_mem_of_search {q : Query} {id : String} (path : List String) :
    ∀ {scope : String}, f.search q scope path = some id → id ∈ f.entities.values.map (·.id) := by
  induction path with
  | nil => intro scope h; simp [search] at h
  | cons name rest ih =>
      intro scope h
      cases rest with
      | nil =>
          obtain ⟨e, he, rfl⟩ := Option.map_eq_some_iff.mp h
          exact List.mem_map_of_mem (mem_values_of_mem_matching (Query.mem_of_pick? he))
      | cons next rest =>
          obtain ⟨e, -, he⟩ := List.exists_of_findSome?_eq_some h
          exact ih he

theorem id_mem_of_findIn {q : Query} {scope id : String} (h : f.findIn q scope = some id) :
    id ∈ f.entities.values.map (·.id) := by
  rcases Option.or_eq_some_iff.mp h with hown | ⟨-, hsearch⟩
  · unfold ownName? at hown
    split at hown
    · obtain ⟨e, he, rfl⟩ := Option.map_eq_some_iff.mp hown
      exact List.mem_map_of_mem (Table.mem_values_of_get? (Option.filter_eq_some_iff.mp he).1)
    · simp at hown
  · exact id_mem_of_search q.path hsearch

/-- A name means an entity of the forest. -/
theorem id_mem_of_find? {name context id : String} (h : f.find? name context = some id) :
    id ∈ f.entities.values.map (·.id) := by
  obtain ⟨q, -, hq⟩ := Option.bind_eq_some_iff.mp h
  unfold answer? at hq
  split at hq
  · exact id_mem_of_search q.path hq
  · obtain ⟨scope, -, hscope⟩ := List.exists_of_findSome?_eq_some hq
    exact id_mem_of_findIn hscope

end Forest

namespace Document

/-- The ids of all records. -/
def recordIds (d : Document) : List String :=
  d.forest.entities.values.map (·.id) ++ d.headers.values.map (·.id) ++
    d.groups.values.map (·.id) ++ d.pages.values.map (·.id)

/-- Every record is stored once, under its own id. -/
structure Keyed (d : Document) : Prop extends d.WellFormed where
  entityIds : d.forest.entities.values.map (·.id) = d.forest.ids
  headerIds : d.headers.values.map (·.id) = d.headers.keys
  groupIds : d.groups.values.map (·.id) = d.groups.keys
  pageIds : d.pages.values.map (·.id) = d.pages.keys

theorem Keyed.mem_recordIds {d : Document} (h : d.Keyed) {id : String} :
    id ∈ d.recordIds ↔ d.containsId id = true := by
  simp only [recordIds, h.entityIds, h.headerIds, h.groupIds, h.pageIds, List.mem_append,
    containsId, Bool.or_eq_true, Forest.contains_iff_mem_ids, Table.contains_iff_mem_keys]
  tauto

/-- **A name means a record, or one of the given anchors.** -/
theorem place_of_find? {d : Document} {anchors : List String} {name context id : String}
    (h : d.find? anchors name context = some id) :
    id ∈ d.recordIds ∨ d.containsId id = true ∨ id ∈ anchors := by
  unfold find? at h
  split at h
  · have hentity := Forest.id_mem_of_find? ‹d.forest.find? name context = some _›
    obtain rfl := Option.some.inj h
    left
    simp only [recordIds, List.mem_append]
    exact Or.inl (Or.inl (Or.inl hentity))
  · dsimp only at h
    split at h
    · have hplace := ‹(_ || _) = true›
      obtain rfl := Option.some.inj h
      rw [Bool.or_eq_true, List.contains_iff_mem] at hplace
      exact Or.inr hplace
    · obtain ⟨header, hheader, rfl⟩ := Option.map_eq_some_iff.mp h
      have hmem : header.id ∈ d.headers.values.map (·.id) :=
        List.mem_map_of_mem (List.mem_of_find?_eq_some hheader)
      left
      simp only [recordIds, List.mem_append]
      exact Or.inl (Or.inl (Or.inr hmem))

end Document

/-! ### Pieces -/

/-- A piece of a rendered text, with what is reported about it. -/
structure Piece where
  text : String
  notes : List Diagnostic

/-- Whether a message is an error about a target that means nothing. -/
def Diagnostic.isUnresolved (note : Diagnostic) : Bool :=
  note.isError && note.code == some Code.unresolvedReference

theorem Diagnostic.isUnresolved_error (code file message : String) (line : Option Nat) :
    (error code file message line).isUnresolved = (code == Code.unresolvedReference) := by
  simp [isUnresolved, isError, error]

/-- The targets that a part of a text links to. -/
def DocText.Part.targets : Part → List String
  | .command (.ref target _) _ => [target]
  | .command (.seeAlso targets) _ => targets
  | _ => []

namespace Piece

/-- What a target comes to, shown in this way: a link to what it means, or the text alone
and one error. -/
inductive OfTarget (shown : String) : (answer : Option String) → Piece → Prop
  | linked (id : String) : OfTarget shown (some id) ⟨Renderer.markdownLink shown id, []⟩
  | left (note : Diagnostic) (h : note.isUnresolved = true) : OfTarget shown none ⟨shown, [note]⟩

/-- What a part of a text comes to, if targets mean what `answer` says. -/
def OfPart (answer : String → Option String) : Part → Piece → Prop
  | .text cs, p => p = ⟨String.ofList cs, []⟩
  | .command (.ref target text) _, p => OfTarget (text.getD target) (answer target) p
  | .command (.seeAlso targets) _, p =>
    ∃ ps, List.Forall₂ (fun target p => OfTarget target (answer target) p) targets ps ∧
      p = ⟨Renderer.seeAlsoText (ps.map (·.text)), ps.flatMap (·.notes)⟩
  | .command _ _, p => ∀ note ∈ p.notes, note.isUnresolved = false

/-- Pieces put together and trimmed. -/
def joined (ps : List Piece) : String :=
  String.ofList (Text.trim (String.join (ps.map (·.text))).toList)

variable {answer : String → Option String}

theorem OfTarget.countP_notes {shown : String} {answer : Option String} {p : Piece}
    (h : OfTarget shown answer p) :
    p.notes.countP (·.isUnresolved) = if answer.isNone then 1 else 0 := by
  cases h with
  | linked id => rfl
  | left note hnote => simp [hnote]

theorem countP_notes_targets {targets : List String} {ps : List Piece}
    (h : List.Forall₂ (fun target p => OfTarget target (answer target) p) targets ps) :
    (ps.flatMap (·.notes)).countP (·.isUnresolved) =
      targets.countP fun target => (answer target).isNone := by
  induction h with
  | nil => rfl
  | cons hp _ ih =>
      rw [List.flatMap_cons, List.countP_append, ih, hp.countP_notes, List.countP_cons,
        Nat.add_comm]

theorem OfPart.countP_notes {part : Part} {p : Piece} (h : OfPart answer part p) :
    p.notes.countP (·.isUnresolved) = part.targets.countP fun target => (answer target).isNone := by
  have hother : (∀ note ∈ p.notes, note.isUnresolved = false) →
      p.notes.countP (·.isUnresolved) = 0 := by
    intro hnone
    rw [List.countP_eq_zero]
    intro note hnote
    simp [hnone note hnote]
  cases part with
  | text cs =>
      obtain rfl := h
      rfl
  | command c raw =>
      cases c with
      | ref target text =>
          rw [OfTarget.countP_notes h]
          simp [Part.targets, List.countP_cons]
      | seeAlso targets =>
          obtain ⟨ps, hps, rfl⟩ := h
          exact countP_notes_targets hps
      | relates target => exact hother h
      | subpage target text => exact hother h
      | ingroup id => exact hother h
      | heading level id title => exact hother h
      | anchor id => exact hother h
      | malformed word => exact hother h

/-- **There are as many errors as targets that mean nothing.** -/
theorem countP_notes {parts : List Part} {ps : List Piece}
    (h : List.Forall₂ (OfPart answer) parts ps) :
    (ps.flatMap (·.notes)).countP (·.isUnresolved) =
      (parts.flatMap (·.targets)).countP fun target => (answer target).isNone := by
  induction h with
  | nil => rfl
  | cons hp _ ih =>
      rw [List.flatMap_cons, List.countP_append, ih, hp.countP_notes, List.flatMap_cons,
        List.countP_append]

end Piece

/-! ### A text comes in pieces -/

namespace Renderer

/-- What a target means in a text. -/
def answer? (w : Renderer) (target : String) : Option String :=
  w.document.find? w.anchors target w.owner.context

/-- What comes of rendering something after `o` is one more piece. -/
structure Adds (o : Outcome) (r : String × Outcome) (p : Piece) : Prop where
  text : r.1 = p.text
  notes : r.2.notes = o.notes ++ p.notes

variable (w : Renderer)

/-- **A target becomes a link, or stays as text and is reported.** -/
theorem exists_piece_link (o : Outcome) (target : String) (text : Option String) :
    ∃ p, Piece.OfTarget (text.getD target) (w.answer? target) p ∧
      Adds o (w.link o target text) p := by
  unfold link answer?
  dsimp only
  cases w.document.find? w.anchors target w.owner.context with
  | some id => exact ⟨_, .linked id, rfl, by simp⟩
  | none =>
      refine ⟨_, .left _ ?_, rfl, rfl⟩
      rw [Diagnostic.isUnresolved_error]
      exact BEq.rfl

theorem exists_pieces_links (targets : List String) :
    ∀ o : Outcome, ∃ ps,
      List.Forall₂ (fun target p => Piece.OfTarget target (w.answer? target) p) targets ps ∧
        (w.links o targets).1 = ps.map (·.text) ∧
        (w.links o targets).2.notes = o.notes ++ ps.flatMap (·.notes) := by
  induction targets with
  | nil => intro o; exact ⟨[], .nil, rfl, by simp [links]⟩
  | cons target rest ih =>
      intro o
      obtain ⟨p, hp, hadds⟩ := w.exists_piece_link o target none
      obtain ⟨ps, hps, htexts, hnotes⟩ := ih (w.link o target none).2
      refine ⟨p :: ps, .cons hp hps, ?_, ?_⟩
      · simp only [links, htexts, hadds.text, List.map_cons]
      · simp only [links, hnotes, hadds.notes, List.flatMap_cons, List.append_assoc]

/-- Nothing is reported about targets. -/
def Quiet (o o' : Outcome) : Prop :=
  ∃ notes, o'.notes = o.notes ++ notes ∧ ∀ note ∈ notes, note.isUnresolved = false

theorem Quiet.refl (o : Outcome) : Quiet o o :=
  ⟨[], by simp, by simp⟩

theorem quiet_note (o : Outcome) {code : String}
    (hcode : (code == Code.unresolvedReference) = false) (message : String) :
    Quiet o (w.note o code message) := by
  refine ⟨_, rfl, ?_⟩
  intro note hnote
  rw [List.mem_singleton.mp hnote, Diagnostic.isUnresolved_error, hcode]

theorem quiet_relate (o : Outcome) (target : String) : Quiet o (w.relate o target) := by
  unfold relate
  cases w.owner with
  | entity id =>
      dsimp only
      split
      · exact w.quiet_note o (by decide) _
      split
      · exact .refl o
      split
      · exact ⟨[], by simp, by simp⟩
      · exact w.quiet_note o (by decide) _
  | header id => exact w.quiet_note o (by decide) _
  | group id => exact w.quiet_note o (by decide) _
  | page id => exact w.quiet_note o (by decide) _

theorem quiet_subpage (o : Outcome) (target : String) (text : Option String) :
    Quiet o (w.subpage o target text).2 := by
  unfold subpage
  cases w.owner with
  | page current =>
      dsimp only
      split
      · exact w.quiet_note o (by decide) _
      split
      · exact w.quiet_note o (by decide) _
      dsimp only
      split
      · exact .refl o
      · exact ⟨[], by simp, by simp⟩
  | entity id => exact w.quiet_note o (by decide) _
  | header id => exact w.quiet_note o (by decide) _
  | group id => exact w.quiet_note o (by decide) _

theorem exists_piece_command (o : Outcome) (raw : List Char) (c : Command) :
    ∃ p, Piece.OfPart w.answer? (.command c raw) p ∧ Adds o (w.command o raw c) p := by
  -- Two commands have targets; the others report something else, if anything.
  have hquiet : ∀ r : String × Outcome, Quiet o r.2 →
      ∃ p, (∀ note ∈ p.notes, note.isUnresolved = false) ∧ Adds o r p := by
    intro r h
    obtain ⟨notes, hnotes, hnone⟩ := h
    exact ⟨⟨r.1, notes⟩, hnone, rfl, hnotes⟩
  cases c with
  | ref target text => exact w.exists_piece_link o target text
  | seeAlso targets =>
      obtain ⟨ps, hps, htexts, hnotes⟩ := w.exists_pieces_links targets o
      refine ⟨_, ⟨ps, hps, rfl⟩, ?_, ?_⟩
      · rw [command_seeAlso, htexts]
      · rw [command_seeAlso]
        exact hnotes
  | relates target => exact hquiet _ (w.quiet_relate o target)
  | subpage target text => exact hquiet _ (w.quiet_subpage o target text)
  | ingroup id => exact hquiet _ (w.quiet_note o (by decide) _)
  | heading level id title => exact hquiet _ (.refl o)
  | anchor id => exact hquiet _ (.refl o)
  | malformed word => exact hquiet _ (w.quiet_note o (by decide) _)

theorem exists_pieces_parts (parts : List Part) :
    ∀ o : Outcome, ∃ ps, List.Forall₂ (Piece.OfPart w.answer?) parts ps ∧
      (w.parts o parts).1 = String.join (ps.map (·.text)) ∧
      (w.parts o parts).2.notes = o.notes ++ ps.flatMap (·.notes) := by
  induction parts with
  | nil => intro o; exact ⟨[], .nil, by simp [Renderer.parts], by simp [Renderer.parts]⟩
  | cons part rest ih =>
      intro o
      cases part with
      | text cs =>
          obtain ⟨ps, hps, htext, hnotes⟩ := ih o
          refine ⟨⟨String.ofList cs, []⟩ :: ps, .cons rfl hps, ?_, ?_⟩
          · simp only [Renderer.parts, htext, List.map_cons, String.join_cons]
          · simp only [Renderer.parts, hnotes, List.flatMap_cons, List.nil_append]
      | command c raw =>
          obtain ⟨p, hp, hadds⟩ := w.exists_piece_command o raw c
          obtain ⟨ps, hps, htext, hnotes⟩ := ih (w.command o raw c).2
          refine ⟨p :: ps, .cons hp hps, ?_, ?_⟩
          · simp only [Renderer.parts, htext, hadds.text, List.map_cons, String.join_cons]
          · simp only [Renderer.parts, hnotes, hadds.notes, List.flatMap_cons, List.append_assoc]

/-- **A rendered text is put together from one piece for each of its parts**, and so is
what is reported about it. -/
theorem exists_pieces_text (o : Outcome) (s : String) :
    ∃ ps, List.Forall₂ (Piece.OfPart w.answer?) (DocText.parts s.toList) ps ∧
      (w.text o s).1 = Piece.joined ps ∧
      (w.text o s).2.notes = o.notes ++ ps.flatMap (·.notes) := by
  obtain ⟨ps, hps, htext, hnotes⟩ := w.exists_pieces_parts (DocText.parts s.toList) o
  refine ⟨ps, hps, ?_, hnotes⟩
  rw [Piece.joined, ← htext]
  rfl

end Renderer

/-! ### The whole pass -/

namespace Document

theorem recordIds_bare (d : Document) : d.bare.recordIds = d.recordIds := by
  simp only [recordIds, bare, Forest.bare, Table.values_map, List.map_map]
  rfl

theorem recordIds_mark (d : Document) : d.mark.recordIds = d.recordIds := by
  simp only [recordIds, mark, Table.values_map, List.map_map]
  rfl

theorem recordIds_link (d : Document) : d.link.recordIds = d.recordIds := by
  have hplain : ∀ f : Forest, f.plain.entities.values.map (·.id) =
      f.entities.values.map (·.id) := by
    intro f
    simp only [Forest.plain, Table.values_map, List.map_map]
    rfl
  have hentities : d.link.forest.entities.values.map (·.id) =
      d.forest.entities.values.map (·.id) := by
    rw [← hplain, d.plain_link, hplain]
  simp only [recordIds, hentities]
  rfl

theorem recordIds_resolve (d : Document) : d.resolve.1.recordIds = d.recordIds := by
  rw [← recordIds_bare, bare_resolve, recordIds_bare, recordIds_mark, recordIds_link]

theorem containsId_iff {d : Document} {id : String} :
    d.containsId id = true ↔ id ∈ d.owners.map Owner.id := by
  simp only [containsId, owners, Bool.or_eq_true, Forest.contains_iff_mem_ids,
    Table.contains_iff_mem_keys, List.map_append, List.map_map, List.mem_append,
    Function.comp_def, Owner.id, List.map_id']
  tauto

theorem containsId_resolve (d : Document) (id : String) :
    d.resolve.1.containsId id = d.containsId id := by
  rw [← containsId_bare, bare_resolve, containsId_bare, Bool.eq_iff_iff, containsId_iff,
    containsId_iff, owners_link_mark]

/-- What a target in the texts of a record means once all is done. -/
def answer? (d : Document) (owner : Owner) (target : String) : Option String :=
  d.resolve.1.find? d.link.anchorIds target owner.context

/-- **What a target means is there in the end.** -/
theorem Keyed.place_of_answer? {d : Document} (h : d.Keyed) {owner : Owner} {target id : String}
    (hid : d.answer? owner target = some id) :
    id ∈ d.resolve.1.recordIds ∨ id ∈ d.resolve.1.recorded := by
  rcases place_of_find? hid with hrecord | hcontains | hanchor
  · exact Or.inl hrecord
  -- An id that is taken as a key is the id of a record, since each is stored under its own.
  · rw [containsId_resolve] at hcontains
    rw [recordIds_resolve]
    exact Or.inl (h.mem_recordIds.mpr hcontains)
  · have hnoted := mem_recorded_mark hanchor
    rw [← recorded_bare, ← bare_resolve, recorded_bare] at hnoted
    exact Or.inr hnoted

theorem exists_pieces_rendition? {d : Document} {owner : Owner} {brief doc : String}
    (htexts : d.texts? owner = some (brief, doc)) (anchors : List String) :
    ∃ r bs ds, d.rendition? anchors owner = some r ∧
      List.Forall₂ (Piece.OfPart fun target => d.find? anchors target owner.context)
        (DocText.parts brief.toList) bs ∧
      List.Forall₂ (Piece.OfPart fun target => d.find? anchors target owner.context)
        (DocText.parts doc.toList) ds ∧
      r.brief = Piece.joined bs ∧ r.doc = Piece.joined ds ∧
      r.outcome.notes = (bs ++ ds).flatMap (·.notes) := by
  let w : Renderer := { document := d, anchors, owner }
  obtain ⟨bs, hbs, hbrief, hfirst⟩ := w.exists_pieces_text {} brief
  obtain ⟨ds, hds, hdoc, hnotes⟩ := w.exists_pieces_text (w.text {} brief).2 doc
  refine ⟨_, bs, ds, Option.map_eq_some_iff.mpr ⟨_, htexts, rfl⟩, hbs, hds, hbrief, hdoc, ?_⟩
  rw [List.flatMap_append]
  exact hnotes.trans (by rw [hfirst]; rfl)

theorem bare_reaching (d : Document) (anchors : List String) (owner : Owner) :
    (d.reaching anchors owner).bare = d.bare :=
  bare_foldl_renderStep anchors _ (d, [])

theorem texts?_reaching (d : Document) (anchors : List String) (owner : Owner) :
    (d.reaching anchors owner).texts? owner = d.texts? owner := by
  refine texts?_foldl_renderStep anchors _ (d, []) fun hmem => ?_
  simpa using List.mem_takeWhile_imp hmem

/-- What is reported in the turn of a record. -/
def reports (d : Document) (owner : Owner) : List Diagnostic :=
  ((d.link.mark.reaching d.link.anchorIds owner).renderOwner d.link.anchorIds owner).2

/-- **The texts of a record come in pieces**, and so does what is reported in its turn.
The targets among them mean what they mean in the end. -/
theorem WellFormed.exists_pieces {d : Document} (h : d.WellFormed) {owner : Owner}
    (howner : owner ∈ d.owners) :
    ∃ brief doc bs ds, d.texts? owner = some (brief, doc) ∧
      List.Forall₂ (Piece.OfPart (d.answer? owner)) (DocText.parts brief.toList) bs ∧
      List.Forall₂ (Piece.OfPart (d.answer? owner)) (DocText.parts doc.toList) ds ∧
      d.resolve.1.texts? owner = some (Piece.joined bs, Piece.joined ds) ∧
      d.reports owner = (bs ++ ds).flatMap (·.notes) := by
  obtain ⟨⟨brief, doc⟩, htexts⟩ := exists_texts? howner
  have hturn : (d.link.mark.reaching d.link.anchorIds owner).texts? owner = some (brief, doc) := by
    rw [texts?_reaching, texts?_link_mark, htexts]
  -- Neither the turn nor the end shows more to a look-up than the bare document.
  have hanswer : (fun target =>
      (d.link.mark.reaching d.link.anchorIds owner).find? d.link.anchorIds target owner.context) =
        d.answer? owner := by
    funext target
    rw [answer?, ← find?_bare, bare_reaching, ← bare_resolve, find?_bare]
  obtain ⟨r, bs, ds, hr, hbs, hds, hbrief, hdoc, hnotes⟩ :=
    exists_pieces_rendition? hturn d.link.anchorIds
  rw [hanswer] at hbs hds
  have hmem : owner ∈ d.link.mark.owners := by rw [owners_link_mark]; exact howner
  refine ⟨brief, doc, bs, ds, htexts, hbs, hds, ?_, ?_⟩
  · rw [← hbrief, ← hdoc]
    exact h.link_mark.texts?_renderTexts d.link.anchorIds hmem hr
  · rw [reports, renderOwner_of_rendition? hr, hnotes]

/-- The targets in the texts of a record. -/
def targetsOf (d : Document) (owner : Owner) : List String :=
  ((d.texts? owner).map fun (brief, doc) =>
    (DocText.parts brief.toList ++ DocText.parts doc.toList).flatMap (·.targets)).getD []

/-- All targets in the texts of a document, each with the record that it stands in. -/
def targets (d : Document) : List (Owner × String) :=
  d.owners.flatMap fun owner => (d.targetsOf owner).map (owner, ·)

theorem WellFormed.countP_reports {d : Document} (h : d.WellFormed) {owner : Owner}
    (howner : owner ∈ d.owners) :
    (d.reports owner).countP (·.isUnresolved) =
      (d.targetsOf owner).countP fun target => (d.answer? owner target).isNone := by
  obtain ⟨brief, doc, bs, ds, htexts, hbs, hds, -, hreports⟩ := h.exists_pieces howner
  have htargets : d.targetsOf owner = (DocText.parts brief.toList).flatMap (·.targets) ++
      (DocText.parts doc.toList).flatMap (·.targets) := by
    rw [targetsOf, htexts, ← List.flatMap_append]
    rfl
  rw [hreports, List.flatMap_append, List.countP_append, Piece.countP_notes hbs,
    Piece.countP_notes hds, htargets, List.countP_append]

theorem WellFormed.countP_resolve {d : Document} (h : d.WellFormed) :
    (d.owners.flatMap d.reports).countP (·.isUnresolved) =
      d.targets.countP fun (owner, target) => (d.answer? owner target).isNone := by
  rw [targets, List.countP_flatMap, List.countP_flatMap]
  refine congrArg List.sum (List.map_congr_left fun owner howner => ?_)
  rw [Function.comp_apply, h.countP_reports howner, Function.comp_apply, List.countP_map]
  rfl

/--
**Every target becomes a link to something that is there, or is left and reported once.**

What a target means in the end is the id of a record, or a heading or an anchor noted on
one.  The texts of every record come in pieces, one for each part of what was written; the
piece for a target that means something is the link, with nothing reported, and for any
other it is the text to show, with one error.  So there are as many of these errors as
targets without a meaning.
-/
theorem Keyed.resolve_links_or_reports {d : Document} (h : d.Keyed) :
    (∀ owner target id, d.answer? owner target = some id →
      id ∈ d.resolve.1.recordIds ∨ id ∈ d.resolve.1.recorded) ∧
    (∀ owner ∈ d.owners, ∃ brief doc bs ds, d.texts? owner = some (brief, doc) ∧
      List.Forall₂ (Piece.OfPart (d.answer? owner)) (DocText.parts brief.toList) bs ∧
      List.Forall₂ (Piece.OfPart (d.answer? owner)) (DocText.parts doc.toList) ds ∧
      d.resolve.1.texts? owner = some (Piece.joined bs, Piece.joined ds) ∧
      d.reports owner = (bs ++ ds).flatMap (·.notes)) ∧
    d.resolve.2 = d.owners.flatMap d.reports ∧
    d.resolve.2.countP (·.isUnresolved) =
      d.targets.countP fun (owner, target) => (d.answer? owner target).isNone := by
  have hreports : d.resolve.2 = d.owners.flatMap d.reports := by
    rw [← owners_link_mark]
    exact h.toWellFormed.link_mark.notes_renderTexts d.link.anchorIds
  refine ⟨fun owner target id hid => h.place_of_answer? hid,
    fun owner howner => h.toWellFormed.exists_pieces howner, hreports, ?_⟩
  rw [hreports]
  exact h.toWellFormed.countP_resolve

/-- A header that links to a class, to a heading on a page, to itself by its name, and to
nothing. -/
def linkedHeader : Document :=
  { forest :=
      { entities := ⟨[("C", { id := "C", name := "C", detail := .record .cls {} })]⟩
        roots := ["C"] }
    headers := ⟨[("h",
      { id := "h", name := "a.h", brief := "\\ref C \"A class\"", doc := "\\see use, a.h, D" })]⟩
    pages := ⟨[("p", { id := "p", doc := "\\section use Use" })]⟩ }

theorem keyed_linkedHeader : linkedHeader.Keyed where
  entities := show ["C"].Nodup by decide
  headers := show ["h"].Nodup by decide
  groups := List.nodup_nil
  pages := show ["p"].Nodup by decide
  entityIds := rfl
  headerIds := rfl
  groupIds := rfl
  pageIds := rfl

/-- All its targets but the last are linked, and that one is reported. -/
theorem linkedHeader_links_or_reports :
    linkedHeader.Keyed ∧
      linkedHeader.targets.map (fun (owner, target) => linkedHeader.answer? owner target) =
        [some "C", some "use", some "h", none] ∧
      (∀ id, some id ∈
          linkedHeader.targets.map (fun (owner, target) => linkedHeader.answer? owner target) →
        id ∈ linkedHeader.resolve.1.recordIds ∨ id ∈ linkedHeader.resolve.1.recorded) ∧
      linkedHeader.resolve.1.texts? (.header "h") =
        some ("[A class](#C)", "!!! see \"See also\"\n    [use](#use), [a.h](#h), D") ∧
      linkedHeader.resolve.2.countP (·.isUnresolved) = 1 := by
  obtain ⟨hplace, -, -, hcount⟩ := keyed_linkedHeader.resolve_links_or_reports
  have hanswers : linkedHeader.targets.map
      (fun (owner, target) => linkedHeader.answer? owner target) =
        [some "C", some "use", some "h", none] := by
    decide +kernel
  refine ⟨keyed_linkedHeader, hanswers, ?_, by decide +kernel, ?_⟩
  · intro id hid
    obtain ⟨⟨owner, target⟩, -, hanswer⟩ := List.mem_map.mp hid
    exact hplace owner target id hanswer
  · have hnone := congrArg (List.countP (·.isNone)) hanswers
    rw [List.countP_map] at hnone
    exact hcount.trans hnone

end Document

end DocForest
