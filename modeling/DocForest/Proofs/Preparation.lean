/-
What is done to a document before its texts are rendered.

Classes and types are linked first, and then headings and anchors are noted.  Linking
changes only what is said of an entity by its kind, and a plain entity is one without
that (`plain_link`).  Noting marks changes only the lists of marks.  So the texts are the
same afterwards and belong to the same records.

A heading or an anchor that stands in a text is then noted on the record of the text
(`mem_recorded_mark`), and it stays there, since a bare document keeps its marks.
-/
import DocForest.Proofs.Bases
import DocForest.Proofs.Turns
import DocForest.Reference.Resolve

namespace DocForest

/-! ### Linking -/

/-- An entity without what is said of it by its kind. -/
def Entity.plain (e : Entity) : Entity :=
  { e with detail := .nameSpace }

namespace Forest

/-- A forest of plain entities. -/
def plain (f : Forest) : Forest :=
  { f with entities := f.entities.map Entity.plain }

theorem plain_modifyRecord (f : Forest) (id : String) (g : RecordDetail → RecordDetail) :
    (f.modifyRecord id g).plain = f.plain := by
  have hentities : (f.entities.modify id fun e => { e with detail := e.detail.mapRecord g }).map
      Entity.plain = f.entities.map Entity.plain := Table.map_modify _ id fun _ => rfl
  simp only [plain, modifyRecord, modify, hentities]

/-- What setting one link leaves alone is left alone by setting all of them. -/
theorem linkBases_eq {β : Type} (view : Forest → β)
    (hstep : ∀ (f : Forest) (l : BaseLink), view (f.linkBase l) = view f) (f : Forest) :
    view f.linkBases = view f := by
  have hfold : ∀ (links : List BaseLink) (f : Forest), view (links.foldl linkBase f) = view f := by
    intro links
    induction links with
    | nil => intro f; rfl
    | cons l rest ih =>
        intro f
        rw [List.foldl_cons, ih, hstep]
  exact hfold f.baseLinks f

theorem plain_linkBases (f : Forest) : f.linkBases.plain = f.plain := by
  refine linkBases_eq plain (fun f l => ?_) f
  rw [linkBase, plain_modifyRecord, plain_modifyRecord]

theorem plain_linkTypes (f : Forest) : f.linkTypes.plain = f.plain := by
  simp only [plain, linkTypes, Table.map, List.map_map]
  rfl

theorem ids_of_plain {f f' : Forest} (h : f'.plain = f.plain) : f'.ids = f.ids :=
  Table.keys_of_map_eq (Forest.mk.inj h).1

/-- What can be told of a plain entity is the same in forests with the same plain entities. -/
theorem map_get?_of_plain {f f' : Forest} (h : f'.plain = f.plain) {β : Type} {view : Entity → β}
    (hview : ∀ e, view e.plain = view e) (id : String) :
    (f'.get? id).map view = (f.get? id).map view := by
  have hget : ∀ f : Forest, (f.plain.get? id).map view = (f.get? id).map view := by
    intro f
    rw [show f.plain.get? id = (f.get? id).map Entity.plain from Table.get?_map _ _ id,
      Option.map_map]
    exact congrArg (Option.map · _) (funext hview)
  rw [← hget f', h, hget f]

theorem record?_linkTypes (f : Forest) (id : String) : f.linkTypes.record? id = f.record? id := by
  have hdetail : ∀ e : Entity, (f.linkDetail e.id e.detail).record? = e.detail.record? := by
    intro e
    cases e.detail <;> rfl
  rw [record?, record?, show f.linkTypes.get? id =
    (f.get? id).map fun e => { e with detail := f.linkDetail e.id e.detail } from
      Table.get?_map _ _ id]
  cases f.get? id with
  | none => rfl
  | some e => exact hdetail e

/-- Linking classes with their bases leaves alone what is related to them. -/
theorem related_linkBases (f : Forest) (id : String) :
    (f.linkBases.record? id).map (·.related) = (f.record? id).map (·.related) := by
  have hadd : ∀ (derived : String) (access : Access) (r : RecordDetail),
      (addDerived derived access r).related = r.related := by
    intro derived access r
    unfold addDerived
    split <;> rfl
  refine linkBases_eq (fun f => (f.record? id).map (·.related)) (fun f l => ?_) f
  rw [linkBase, map_record?_modifyRecord _ _ (hadd l.derived l.access)]
  exact map_record?_modifyRecord f l.derived (by intro r; rfl) id

theorem record?_bare (f : Forest) (id : String) :
    f.bare.record? id = (f.record? id).map RecordDetail.bare := by
  rw [record?, get?_bare, record?]
  cases f.get? id with
  | none => rfl
  | some e => exact Detail.record?_mapRecord e.detail RecordDetail.bare

end Forest

namespace Document

theorem plain_link (d : Document) : d.link.forest.plain = d.forest.plain :=
  d.forest.linkBases.plain_linkTypes.trans d.forest.plain_linkBases

/-! ### Marks -/

/-- The ids of all headings and anchors that are noted on records. -/
def recorded (d : Document) : List String :=
  (d.forest.entities.values.flatMap fun e => Marks.ids ⟨e.headings, e.anchors⟩) ++
    (d.headers.values.flatMap fun h => Marks.ids ⟨h.headings, h.anchors⟩) ++
    (d.groups.values.flatMap fun g => Marks.ids ⟨g.headings, g.anchors⟩) ++
    d.pages.values.flatMap fun p => Marks.ids ⟨p.headings, p.anchors⟩

theorem get?_mark (d : Document) (id : String) :
    d.mark.forest.get? id = (d.forest.get? id).map Entity.mark :=
  Table.get?_map d.forest.entities Entity.mark id

theorem record?_mark (d : Document) (id : String) :
    d.mark.forest.record? id = d.forest.record? id := by
  refine Forest.record?_congr ?_
  rw [get?_mark, Option.map_map]
  rfl

end Document

theorem Marks.mem_ids_refresh {brief doc id : String} (h : id ∈ (ofTexts brief doc).ids)
    (old : Marks) : id ∈ (refresh old brief doc).ids := by
  have hsome : (ofTexts brief doc).isEmpty = false := by
    rw [Bool.eq_false_iff]
    intro hempty
    simp only [isEmpty, Bool.and_eq_true, List.isEmpty_iff] at hempty
    simp [ids, hempty.1, hempty.2] at h
  simpa [refresh, hsome] using h

namespace Document

/-- **Every heading and every anchor of a text is noted on a record.** -/
theorem mem_recorded_mark {d : Document} {id : String} (h : id ∈ d.anchorIds) :
    id ∈ d.mark.recorded := by
  have htable : ∀ {α : Type} {t : Table α} {mark : α → α} {new old : α → List String},
      (∀ v, id ∈ new v → id ∈ old (mark v)) → id ∈ t.values.flatMap new →
        id ∈ (t.map mark).values.flatMap old := by
    intro α t mark new old hmark hmem
    obtain ⟨v, hv, hid⟩ := List.mem_flatMap.mp hmem
    rw [Table.values_map]
    exact List.mem_flatMap.mpr ⟨mark v, List.mem_map_of_mem hv, hmark v hid⟩
  simp only [anchorIds, List.mem_append] at h
  simp only [recorded, List.mem_append]
  refine h.imp (Or.imp (Or.imp ?_ ?_) ?_) ?_
  · exact htable fun e he => Marks.mem_ids_refresh he _
  · exact htable fun h hh => Marks.mem_ids_refresh hh _
  · exact htable fun g hg => Marks.mem_ids_refresh hg _
  · exact htable fun p hp => Marks.mem_ids_refresh hp _

theorem recorded_bare (d : Document) : d.bare.recorded = d.recorded := by
  simp only [recorded, bare, Forest.bare, Table.values_map, List.flatMap_map]
  rfl

/-! ### Texts -/

theorem texts?_link (d : Document) (owner : Owner) : d.link.texts? owner = d.texts? owner := by
  cases owner with
  | entity id => exact Forest.map_get?_of_plain d.plain_link (fun _ => rfl) id
  | header id => rfl
  | group id => rfl
  | page id => rfl

theorem texts?_mark (d : Document) (owner : Owner) : d.mark.texts? owner = d.texts? owner := by
  cases owner with
  | entity id => simp only [texts?, get?_mark, Option.map_map]; rfl
  | header id => simp only [texts?, mark, Table.get?_map, Option.map_map]; rfl
  | group id => simp only [texts?, mark, Table.get?_map, Option.map_map]; rfl
  | page id => simp only [texts?, mark, Table.get?_map, Option.map_map]; rfl

/-- The records are the same, in the same order, when rendering starts. -/
theorem owners_link_mark (d : Document) : d.link.mark.owners = d.owners := by
  have hids : d.link.forest.ids = d.forest.ids := Forest.ids_of_plain d.plain_link
  have hmark : d.link.mark.forest.ids = d.link.forest.ids :=
    Table.keys_map d.link.forest.entities Entity.mark
  simp only [owners, hmark, hids]
  simp only [mark, link, Table.keys_map]

theorem texts?_link_mark (d : Document) (owner : Owner) :
    d.link.mark.texts? owner = d.texts? owner :=
  (d.link.texts?_mark owner).trans (d.texts?_link owner)

theorem WellFormed.link_mark {d : Document} (h : d.WellFormed) : d.link.mark.WellFormed where
  entities := by
    have hids : d.link.forest.entities.keys = d.forest.entities.keys :=
      Forest.ids_of_plain d.plain_link
    have hlink : d.link.forest.entities.WellFormed := by
      rw [Table.WellFormed, hids]
      exact h.entities
    exact hlink.map Entity.mark
  headers := Table.WellFormed.map h.headers Header.mark
  groups := Table.WellFormed.map h.groups Group.mark
  pages := Table.WellFormed.map h.pages Page.mark

/-- All the rest of the pass is rendering, which leaves the bare document. -/
theorem bare_resolve (d : Document) : d.resolve.1.bare = d.link.mark.bare :=
  bare_renderTexts d.link.mark d.link.anchorIds

end Document

end DocForest
