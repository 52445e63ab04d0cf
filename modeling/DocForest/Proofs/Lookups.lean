/-
Look-ups do not see what rendering changes.

Rendering writes the texts of the records, notes on classes what is related to them, and
makes pages parts of others.  A bare document is what is left when all of this is taken
away.  It is enough for every look-up: names are found by names, kinds, scopes and
signatures, and messages name files by their headers.

So two documents with the same bare document cannot be told apart by looking names up
in them, and a text comes to the same against either of them (`text_bare`).  Only the
text of a page looks at something that rendering changes, and only where it takes in
another page; its links are like all others.
-/
import DocForest.Proofs.Table
import DocForest.Reference.Rendering

namespace DocForest

open DocText

namespace Table

variable {α β : Type}

theorem values_map (t : Table α) (f : α → α) : (t.map f).values = t.values.map f := by
  simp [values, map, List.map_map, Function.comp_def]

theorem contains_map (t : Table α) (f : α → α) (key : String) :
    (t.map f).contains key = t.contains key := by
  rw [contains, get?_map, Option.isSome_map, contains]

/-- A change that a view of the values does not show is not seen in the view. -/
theorem map_modify (t : Table α) (key : String) {view f : α → α} (h : ∀ v, view (f v) = view v) :
    (t.modify key f).map view = t.map view := by
  simp only [modify, map, List.map_map, Table.mk.injEq]
  refine List.map_congr_left fun p _ => ?_
  obtain ⟨k, v⟩ := p
  by_cases hk : k = key
  · simp [hk, h]
  · simp [hk]

end Table

/-! ### Bare records -/

/-- A class without the things that are related to it. -/
def RecordDetail.bare (r : RecordDetail) : RecordDetail :=
  { r with related := [] }

/-- An entity without its texts, and without what `\relates` says. -/
def Entity.bare (e : Entity) : Entity :=
  { e with brief := "", doc := "", relates := "", detail := e.detail.mapRecord RecordDetail.bare }

/-- A header without its texts. -/
def Header.bare (h : Header) : Header :=
  { h with brief := "", doc := "" }

/-- A group without its texts. -/
def Group.bare (g : Group) : Group :=
  { g with brief := "", doc := "" }

/-- A page without its text and without its place among the pages. -/
def Page.bare (p : Page) : Page :=
  { p with doc := "", parent := "", subpages := [] }

/-- A forest of bare entities. -/
def Forest.bare (f : Forest) : Forest :=
  { f with entities := f.entities.map Entity.bare }

/-- A document of bare records. -/
def Document.bare (d : Document) : Document where
  forest := d.forest.bare
  headers := d.headers.map Header.bare
  groups := d.groups.map Group.bare
  pages := d.pages.map Page.bare

namespace Entity

@[simp] theorem id_bare (e : Entity) : e.bare.id = e.id := rfl

@[simp] theorem name_bare (e : Entity) : e.bare.name = e.name := rfl

@[simp] theorem parent_bare (e : Entity) : e.bare.parent = e.parent := rfl

@[simp] theorem header_bare (e : Entity) : e.bare.header = e.header := rfl

@[simp] theorem children_bare (e : Entity) : e.bare.children = e.children := rfl

@[simp] theorem kind_bare (e : Entity) : e.bare.kind = e.kind :=
  Detail.kind_mapRecord RecordDetail.bare e.detail

@[simp] theorem isRecord_bare (e : Entity) : e.bare.isRecord = e.isRecord := by
  simp [isRecord]

@[simp] theorem function?_bare (e : Entity) : e.bare.detail.function? = e.detail.function? := by
  obtain ⟨⟩ := e
  rename_i detail
  cases detail <;> rfl

@[simp] theorem mayRelate_bare (e : Entity) : e.bare.detail.mayRelate = e.detail.mayRelate := by
  obtain ⟨⟩ := e
  rename_i detail
  cases detail <;> rfl

@[simp] theorem isOpenEnum_bare (e : Entity) : Forest.isOpenEnum e.bare = Forest.isOpenEnum e := by
  obtain ⟨⟩ := e
  rename_i detail
  cases detail <;> rfl

end Entity

/-! ### Names in a bare forest -/

namespace Query

@[simp] theorem allowsConst_bare (q : Query) (e : Entity) :
    q.allowsConst e.bare = q.allowsConst e := by
  simp [allowsConst]

@[simp] theorem takes_bare (types : List TypeUse) (withQualifiers : Bool) (e : Entity) :
    takes types withQualifiers e.bare = takes types withQualifiers e := by
  simp [takes]

theorem pick?_map_bare (q : Query) (es : List Entity) :
    q.pick? (es.map Entity.bare) = (q.pick? es).map Entity.bare := by
  have htakes : ∀ types withQualifiers,
      (fun e => q.allowsConst e && takes types withQualifiers e) ∘ Entity.bare =
        fun e => q.allowsConst e && takes types withQualifiers e :=
    fun types withQualifiers => funext fun e => by simp
  have hconst : q.allowsConst ∘ Entity.bare = q.allowsConst := funext (allowsConst_bare q)
  unfold pick?
  split <;> simp only [List.find?_map, htakes, hconst, List.head?_map, Option.map_or]

end Query

namespace Forest

variable (f : Forest)

theorem get?_bare (id : String) : f.bare.get? id = (f.get? id).map Entity.bare :=
  Table.get?_map f.entities Entity.bare id

theorem contains_bare (id : String) : f.bare.contains id = f.contains id :=
  Table.contains_map f.entities Entity.bare id

theorem size_bare : f.bare.size = f.size := by
  simp [size, bare, Table.size, Table.map]

theorem children_bare (scope : String) : f.bare.children scope = f.children scope := by
  unfold children
  split
  · rfl
  · rw [get?_bare, Option.map_map]
    rfl

theorem filterMap_get?_bare (ids : List String) :
    ids.filterMap f.bare.get? = (ids.filterMap f.get?).map Entity.bare := by
  rw [List.map_filterMap, funext f.get?_bare]

theorem members_bare (scope : String) :
    f.bare.members scope = (f.members scope).map Entity.bare := by
  rw [members, children_bare, filterMap_get?_bare, members]

theorem matching_bare (scope segment : String) :
    f.bare.matching scope segment = (f.matching scope segment).map Entity.bare := by
  have hdirect : (f.bare.members scope).filter (nameMatches ·.name segment) =
      ((f.members scope).filter (nameMatches ·.name segment)).map Entity.bare := by
    rw [members_bare, List.filter_map]
    rfl
  have henums : ((f.bare.members scope).filter isOpenEnum).flatMap
        (fun e => e.children.filterMap f.bare.get?) =
      (((f.members scope).filter isOpenEnum).flatMap
        fun e => e.children.filterMap f.get?).map Entity.bare := by
    rw [members_bare, List.filter_map, List.map_flatMap, List.flatMap_map]
    simp only [Function.comp_def, Entity.isOpenEnum_bare, Entity.children_bare,
      filterMap_get?_bare]
  simp only [matching]
  rw [hdirect, henums, List.isEmpty_map]
  split
  · rw [List.filter_map]
    rfl
  · rfl

theorem search_bare (q : Query) (path : List String) :
    ∀ scope : String, f.bare.search q scope path = f.search q scope path := by
  induction path with
  | nil => intro scope; rfl
  | cons name rest ih =>
      intro scope
      cases rest with
      | nil =>
          rw [search, search, matching_bare, Query.pick?_map_bare, Option.map_map]
          rfl
      | cons next rest =>
          rw [search, search, matching_bare, List.findSome?_map]
          · refine congrArg (List.findSome? · _) (funext fun e => ?_)
            exact ih e.id
          · simp
          · simp

theorem ownName?_bare (q : Query) (scope : String) :
    f.bare.ownName? q scope = f.ownName? q scope := by
  unfold ownName?
  split
  · rw [get?_bare, Option.filter_map, Option.map_map]
    simp only [Function.comp_def, Entity.isRecord_bare, Entity.name_bare, Entity.id_bare]
  · rfl

theorem findIn_bare (q : Query) (scope : String) : f.bare.findIn q scope = f.findIn q scope := by
  rw [findIn, ownName?_bare, search_bare, findIn]

theorem outwardWithin_bare (bound : Nat) :
    ∀ scope : String, f.bare.outwardWithin bound scope = f.outwardWithin bound scope := by
  induction bound with
  | zero => intro scope; rfl
  | succ bound ih =>
      intro scope
      rw [outwardWithin, outwardWithin, get?_bare, Option.map_map, ih]
      rfl

theorem answer?_bare (q : Query) (context : String) :
    f.bare.answer? q context = f.answer? q context := by
  unfold answer? outward
  rw [search_bare, size_bare, outwardWithin_bare, funext (f.findIn_bare q)]

/-- **A name means the same in a bare forest.** -/
theorem find?_bare (name context : String) : f.bare.find? name context = f.find? name context := by
  unfold find?
  simp only [answer?_bare]

theorem isRecordId_bare (id : String) : f.bare.isRecordId id = f.isRecordId id := by
  rw [isRecordId, get?_bare, Option.any_map, isRecordId]
  simp only [Entity.isRecord_bare]

theorem mayRelate_bare (id : String) : f.bare.mayRelate id = f.mayRelate id := by
  simp only [mayRelate, get?_bare, Option.any_map, Entity.mayRelate_bare, Entity.parent_bare,
    Entity.kind_bare]

end Forest

/-! ### Names in a bare document -/

namespace Document

variable (d : Document)

theorem containsId_bare (id : String) : d.bare.containsId id = d.containsId id := by
  have hforest : d.bare.forest.contains id = d.forest.contains id := d.forest.contains_bare id
  simp only [containsId, hforest]
  simp only [bare, Table.contains_map]

/-- **A name means the same in a bare document.** -/
theorem find?_bare (anchors : List String) (name context : String) :
    d.bare.find? anchors name context = d.find? anchors name context := by
  have hforest : d.bare.forest.find? name context = d.forest.find? name context :=
    d.forest.find?_bare name context
  have hheaders : d.bare.headers.values = d.headers.values.map Header.bare :=
    d.headers.values_map Header.bare
  unfold find?
  rw [hforest]
  split
  · rfl
  · simp only [containsId_bare, hheaders, List.find?_map, Option.map_map]
    rfl

theorem fileOf_bare (owner : Owner) : d.bare.fileOf owner = d.fileOf owner := by
  have hheader : ∀ id, d.bare.headers.get? id = (d.headers.get? id).map Header.bare :=
    Table.get?_map d.headers Header.bare
  have hentity : ∀ id, d.bare.forest.get? id = (d.forest.get? id).map Entity.bare :=
    d.forest.get?_bare
  unfold fileOf
  cases owner with
  | entity id =>
      dsimp only
      rw [hentity]
      cases d.forest.get? id with
      | none => rfl
      | some e =>
          simp only [Option.map_some, Option.bind_some, Entity.header_bare, hheader,
            Option.map_map]
          rfl
  | header id =>
      dsimp only
      rw [hheader, Option.map_map]
      rfl
  | group id => rfl
  | page id => rfl

end Document

/-! ### Texts against a bare document -/

namespace Renderer

/-- The renderer for the same record against the bare document. -/
def bare (w : Renderer) : Renderer :=
  { w with document := w.document.bare }

variable (w : Renderer)

theorem note_bare (o : Outcome) (code message : String) :
    w.bare.note o code message = w.note o code message := by
  unfold note
  rw [show w.bare.document.fileOf w.bare.owner = w.document.fileOf w.owner from
    w.document.fileOf_bare w.owner]

/-- **A link is the same against a bare document**, whatever record it stands in. -/
theorem link_bare (o : Outcome) (target : String) (text : Option String) :
    w.bare.link o target text = w.link o target text := by
  have hfind : w.bare.document.find? w.bare.anchors target w.bare.owner.context =
      w.document.find? w.anchors target w.owner.context :=
    w.document.find?_bare w.anchors target w.owner.context
  unfold link
  simp only [hfind, note_bare]
  rfl

theorem links_bare (targets : List String) :
    ∀ o : Outcome, w.bare.links o targets = w.links o targets := by
  induction targets with
  | nil => intro o; rfl
  | cons target rest ih =>
      intro o
      simp only [links, link_bare, ih]

theorem relate_bare (o : Outcome) (target : String) :
    w.bare.relate o target = w.relate o target := by
  have hmay : ∀ id, w.bare.document.forest.mayRelate id = w.document.forest.mayRelate id :=
    w.document.forest.mayRelate_bare
  have hclass : w.bare.relatedClass? target = w.relatedClass? target := by
    unfold relatedClass?
    rw [show w.bare.document.forest.isRecordId = w.document.forest.isRecordId from
      funext w.document.forest.isRecordId_bare]
    exact congrArg (Option.filter _) (w.document.forest.find?_bare target w.owner.context)
  unfold relate
  simp only [hmay, hclass, note_bare]
  rfl

theorem subpage_bare (howner : ∀ id, w.owner ≠ .page id) (o : Outcome) (target : String)
    (text : Option String) : w.bare.subpage o target text = w.subpage o target text := by
  unfold subpage
  simp only [note_bare]
  rw [show w.bare.owner = w.owner from rfl]
  cases howner' : w.owner with
  | page id => exact absurd howner' (howner id)
  | entity id => rfl
  | header id => rfl
  | group id => rfl

theorem command_ref (o : Outcome) (raw : List Char) (target : String) (text : Option String) :
    w.command o raw (.ref target text) = w.link o target text := rfl

/-- The text that stands for a list of targets. -/
def seeAlsoText (shown : List String) : String :=
  "!!! see \"See also\"\n    " ++ String.intercalate ", " shown

theorem command_seeAlso (o : Outcome) (raw : List Char) (targets : List String) :
    w.command o raw (.seeAlso targets) =
      (seeAlsoText (w.links o targets).1, (w.links o targets).2) := rfl

theorem command_bare (howner : ∀ id, w.owner ≠ .page id) (o : Outcome) (raw : List Char)
    (c : Command) : w.bare.command o raw c = w.command o raw c := by
  cases c with
  | ref target text => rw [command_ref, command_ref, link_bare]
  | seeAlso targets => rw [command_seeAlso, command_seeAlso, links_bare]
  | relates target => exact congrArg (Prod.mk "") (w.relate_bare o target)
  | subpage target text => exact w.subpage_bare howner o target text
  | ingroup id => exact congrArg (Prod.mk "") (w.note_bare o _ _)
  | heading level id title => rfl
  | anchor id => rfl
  | malformed word => exact congrArg (Prod.mk (String.ofList raw)) (w.note_bare o _ _)

theorem parts_bare (howner : ∀ id, w.owner ≠ .page id) (ps : List Part) :
    ∀ o : Outcome, w.bare.parts o ps = w.parts o ps := by
  induction ps with
  | nil => intro o; rfl
  | cons part rest ih =>
      intro o
      cases part with
      | text cs => simp only [parts, ih]
      | command c raw => simp only [parts, ih, w.command_bare howner]

/-- **A text comes to the same against a bare document**, except that of a page. -/
theorem text_bare (howner : ∀ id, w.owner ≠ .page id) (o : Outcome) (s : String) :
    w.bare.text o s = w.text o s := by
  simp only [text, w.parts_bare howner]

end Renderer

/-! ### Rendering leaves the bare document -/

namespace Forest

theorem bare_modifyRecord (f : Forest) (id : String) {g : RecordDetail → RecordDetail}
    (hg : ∀ r, (g r).bare = r.bare) : (f.modifyRecord id g).bare = f.bare := by
  have hentity : ∀ e : Entity, Entity.bare { e with detail := e.detail.mapRecord g } = e.bare := by
    intro e
    unfold Entity.bare
    cases e.detail <;> simp [Detail.mapRecord, hg]
  simp only [bare, modifyRecord, modify, Table.map_modify _ id hentity]

theorem bare_relate (f : Forest) (id cls : String) : (f.relate id cls).bare = f.bare := by
  have hrelates : ((f.modifyRecord cls (addRelated id)).entities.modify id fun e =>
      { e with relates := cls }).map Entity.bare =
        (f.modifyRecord cls (addRelated id)).entities.map Entity.bare :=
    Table.map_modify _ id fun _ => rfl
  have hrelated : ∀ r : RecordDetail, (addRelated id r).bare = r.bare := by
    intro r
    unfold addRelated
    split <;> rfl
  rw [← bare_modifyRecord f cls hrelated]
  simp only [bare, relate, modify, hrelates]

end Forest

namespace Document

theorem bare_setTexts (d : Document) (brief doc : String) (owner : Owner) :
    (d.setTexts brief doc owner).bare = d.bare := by
  cases owner with
  | entity id =>
      have hentities : (d.forest.entities.modify id fun e => { e with brief, doc }).map
          Entity.bare = d.forest.entities.map Entity.bare := Table.map_modify _ id fun _ => rfl
      simp only [bare, Forest.bare, setTexts, Forest.modify, hentities]
  | header id =>
      have hheaders : (d.headers.modify id fun h => { h with brief, doc }).map Header.bare =
          d.headers.map Header.bare := Table.map_modify _ id fun _ => rfl
      simp only [bare, setTexts, hheaders]
  | group id =>
      have hgroups : (d.groups.modify id fun g => { g with brief, doc }).map Group.bare =
          d.groups.map Group.bare := Table.map_modify _ id fun _ => rfl
      simp only [bare, setTexts, hgroups]
  | page id =>
      have hpages : (d.pages.modify id fun p => { p with doc }).map Page.bare =
          d.pages.map Page.bare := Table.map_modify _ id fun _ => rfl
      simp only [bare, setTexts, hpages]

theorem bare_addSubpage (d : Document) (parent child : String) :
    (d.addSubpage parent child).bare = d.bare := by
  have hadd : ∀ p : Page, (p.addSubpage child).bare = p.bare := by
    intro p
    unfold Page.addSubpage
    split <;> rfl
  have hset : (d.pages.modify child fun p => { p with parent := parent }).map Page.bare =
      d.pages.map Page.bare := Table.map_modify _ child fun _ => rfl
  simp only [bare, addSubpage, Table.map_modify _ parent hadd, hset]

theorem bare_applyOutcome (d : Document) (owner : Owner) (o : Outcome) :
    (d.applyOutcome owner o).bare = d.bare := by
  cases owner with
  | entity id =>
      unfold applyOutcome
      cases o.relates with
      | none => rfl
      | some cls => simp only [bare, Forest.bare_relate]
  | header id => rfl
  | group id => rfl
  | page id =>
      have hfold : ∀ (children : List String) (d : Document),
          (children.foldl (fun d child => d.addSubpage id child) d).bare = d.bare := by
        intro children
        induction children with
        | nil => intro d; rfl
        | cons child rest ih =>
            intro d
            rw [List.foldl_cons, ih, bare_addSubpage]
      exact hfold o.subpages d

theorem bare_renderOwner (d : Document) (anchors : List String) (owner : Owner) :
    (d.renderOwner anchors owner).1.bare = d.bare := by
  unfold renderOwner
  cases d.texts? owner with
  | none => rfl
  | some texts => exact (bare_applyOutcome _ owner _).trans (bare_setTexts d _ _ owner)

theorem bare_foldl_renderStep (anchors : List String) (owners : List Owner) :
    ∀ s : Document × List Diagnostic,
      (owners.foldl (renderStep anchors) s).1.bare = s.1.bare := by
  induction owners with
  | nil => intro s; rfl
  | cons owner rest ih =>
      intro s
      rw [List.foldl_cons, ih]
      exact bare_renderOwner s.1 anchors owner

/-- **Rendering all texts leaves the bare document as it was.** -/
theorem bare_renderTexts (d : Document) (anchors : List String) :
    (d.renderTexts anchors).1.bare = d.bare :=
  bare_foldl_renderStep anchors d.owners (d, [])

end Document

end DocForest
