/-
The last pass only decorates.

It links types to the entities that they name, lists on classes what is derived from them and
what is related to them, notes headings and anchors, and rewrites texts.  An undecorated
document is one from which all of this is taken away, and nothing else: what it still shows of
an entity is its place, its kind and every attribute of that kind, down to the names and the
qualifiers of the types.

Each part of the pass leaves the undecorated document alone.  For rendering that is known
already, since a bare document shows more (`undecorated_bare`).
-/
import DocForest.Proofs.Preparation

namespace DocForest

/-! ### Records without decoration -/

/-- A type without the link to what it names. -/
def TypeUse.unlinked (t : TypeUse) : TypeUse :=
  { t with target := none }

/-- A base without the link to its class. -/
def Base.unlinked (b : Base) : Base :=
  { b with type := b.type.unlinked }

/-- A parameter without the link of its type. -/
def Argument.unlinked (a : Argument) : Argument :=
  { a with type := a.type.unlinked }

/-- A class without the links to its bases, to the classes derived from it and to what is
related to it. -/
def RecordDetail.unlinked (r : RecordDetail) : RecordDetail :=
  { r with bases := r.bases.map Base.unlinked, derived := [], related := [] }

/-- What is said of an entity, without any link. -/
def Detail.unlinked : Detail → Detail
  | .record key r => .record key r.unlinked
  | .function d =>
    .function
      { d with
        result := d.result.map TypeUse.unlinked
        arguments := d.arguments.map Argument.unlinked }
  | .var d => .var { d with type := d.type.map TypeUse.unlinked }
  | .typeAlias d => .typeAlias { d with aliased := d.aliased.map TypeUse.unlinked }
  | .enumeration d => .enumeration { d with underlying := d.underlying.map TypeUse.unlinked }
  | d => d

/-- An entity without its texts, their marks and all links that names stand for. -/
def Entity.undecorated (e : Entity) : Entity :=
  { e with
    brief := ""
    doc := ""
    relates := ""
    headings := []
    anchors := []
    detail := e.detail.unlinked }

/-- A header without its texts and their marks. -/
def Header.undecorated (h : Header) : Header :=
  { h with brief := "", doc := "", headings := [], anchors := [] }

/-- A group without its texts and their marks. -/
def Group.undecorated (g : Group) : Group :=
  { g with brief := "", doc := "", headings := [], anchors := [] }

/-- A page without its text and its marks, and without its place among the pages. -/
def Page.undecorated (p : Page) : Page :=
  { p with doc := "", parent := "", subpages := [], headings := [], anchors := [] }

/-- A forest of undecorated entities. -/
def Forest.undecorated (f : Forest) : Forest :=
  { f with entities := f.entities.map Entity.undecorated }

/-- A document of undecorated records. -/
def Document.undecorated (d : Document) : Document where
  forest := d.forest.undecorated
  headers := d.headers.map Header.undecorated
  groups := d.groups.map Group.undecorated
  pages := d.pages.map Page.undecorated

/-- A change of all values that a view does not show is not seen in the view. -/
theorem Table.map_map_eq {α : Type} (t : Table α) {view f : α → α}
    (h : ∀ v, view (f v) = view v) : (t.map f).map view = t.map view := by
  simp only [map, List.map_map, Table.mk.injEq]
  refine List.map_congr_left fun p _ => ?_
  simp only [Function.comp_apply, h]

/-! ### Links -/

namespace Forest

theorem unlinked_setBase (index : Nat) (base : String) (r : RecordDetail) :
    (setBase index base r).unlinked = r.unlinked := by
  have hbases : (setBase index base r).bases.map Base.unlinked = r.bases.map Base.unlinked := by
    refine List.ext_getElem? fun i => ?_
    simp only [setBase, List.getElem?_map, List.getElem?_modify, Option.map_eq_map, Option.map_map]
    refine congrArg (Option.map · _) (funext fun b => ?_)
    by_cases hi : index = i
    · simp [hi, Base.unlinked, TypeUse.unlinked]
    · simp [hi]
  simp only [RecordDetail.unlinked, hbases]
  rfl

theorem unlinked_addDerived (derived : String) (access : Access) (r : RecordDetail) :
    (addDerived derived access r).unlinked = r.unlinked := by
  unfold addDerived
  split <;> rfl

theorem undecorated_modifyRecord (f : Forest) (id : String) {g : RecordDetail → RecordDetail}
    (hg : ∀ r, (g r).unlinked = r.unlinked) :
    (f.modifyRecord id g).undecorated = f.undecorated := by
  have hentity : ∀ e : Entity,
      Entity.undecorated { e with detail := e.detail.mapRecord g } = e.undecorated := by
    intro e
    unfold Entity.undecorated
    cases e.detail <;> simp [Detail.mapRecord, Detail.unlinked, hg]
  simp only [undecorated, modifyRecord, modify, Table.map_modify _ id hentity]

theorem undecorated_linkBase (f : Forest) (l : BaseLink) :
    (f.linkBase l).undecorated = f.undecorated := by
  rw [linkBase, undecorated_modifyRecord _ _ (unlinked_addDerived l.derived l.access),
    undecorated_modifyRecord _ _ (unlinked_setBase l.index l.base)]

theorem unlinked_linkType (f : Forest) (context : String) (t : TypeUse) :
    (f.linkType context t).unlinked = t.unlinked := rfl

theorem unlinked_linkDetail (f : Forest) (context : String) (d : Detail) :
    (f.linkDetail context d).unlinked = d.unlinked := by
  have hoption : ∀ t : Option TypeUse,
      (t.map (f.linkType context)).map TypeUse.unlinked = t.map TypeUse.unlinked := by
    intro t
    rw [Option.map_map]
    exact congrArg (Option.map · t) (funext (f.unlinked_linkType context))
  cases d <;> simp [linkDetail, Detail.unlinked, hoption, Argument.unlinked, unlinked_linkType]

theorem undecorated_linkTypes (f : Forest) : f.linkTypes.undecorated = f.undecorated := by
  have hentity : ∀ e : Entity,
      Entity.undecorated { e with detail := f.linkDetail e.id e.detail } = e.undecorated := by
    intro e
    simp only [Entity.undecorated, unlinked_linkDetail]
  simp only [undecorated, linkTypes, Table.map_map_eq _ hentity]

theorem undecorated_bare (f : Forest) : f.bare.undecorated = f.undecorated := by
  have hentity : ∀ e : Entity, e.bare.undecorated = e.undecorated := by
    intro e
    simp only [Entity.undecorated, Entity.bare]
    cases e.detail <;> rfl
  simp only [undecorated, bare, Table.map_map_eq _ hentity]

theorem ids_of_undecorated {f f' : Forest} (h : f'.undecorated = f.undecorated) :
    f'.ids = f.ids :=
  Table.keys_of_map_eq (Forest.mk.inj h).1

theorem get?_undecorated (f : Forest) (id : String) :
    f.undecorated.get? id = (f.get? id).map Entity.undecorated :=
  Table.get?_map f.entities Entity.undecorated id

end Forest

/-! ### The whole pass -/

namespace Document

theorem undecorated_link (d : Document) : d.link.undecorated = d.undecorated := by
  have hforest : d.forest.linkBases.linkTypes.undecorated = d.forest.undecorated := by
    rw [Forest.undecorated_linkTypes]
    exact Forest.linkBases_eq Forest.undecorated Forest.undecorated_linkBase d.forest
  simp only [undecorated, link, hforest]

theorem undecorated_mark (d : Document) : d.mark.undecorated = d.undecorated := by
  have hentity : ∀ e : Entity, e.mark.undecorated = e.undecorated := fun _ => rfl
  have hheader : ∀ h : Header, h.mark.undecorated = h.undecorated := fun _ => rfl
  have hgroup : ∀ g : Group, g.mark.undecorated = g.undecorated := fun _ => rfl
  have hpage : ∀ p : Page, p.mark.undecorated = p.undecorated := fun _ => rfl
  simp only [undecorated, mark, Forest.undecorated, Table.map_map_eq _ hentity,
    Table.map_map_eq _ hheader, Table.map_map_eq _ hgroup, Table.map_map_eq _ hpage]

theorem undecorated_bare (d : Document) : d.bare.undecorated = d.undecorated := by
  have hheader : ∀ h : Header, h.bare.undecorated = h.undecorated := fun _ => rfl
  have hgroup : ∀ g : Group, g.bare.undecorated = g.undecorated := fun _ => rfl
  have hpage : ∀ p : Page, p.bare.undecorated = p.undecorated := fun _ => rfl
  simp only [undecorated, bare, Forest.undecorated_bare, Table.map_map_eq _ hheader,
    Table.map_map_eq _ hgroup, Table.map_map_eq _ hpage]

/-- Rendering leaves the bare document, which shows more than the undecorated one. -/
theorem undecorated_of_bare {d d' : Document} (h : d'.bare = d.bare) :
    d'.undecorated = d.undecorated := by
  rw [← undecorated_bare d', h, undecorated_bare d]

theorem undecorated_resolve (d : Document) : d.resolve.1.undecorated = d.undecorated := by
  rw [undecorated_of_bare d.bare_resolve, undecorated_mark, undecorated_link]

theorem keys_of_undecorated {d d' : Document} (h : d'.undecorated = d.undecorated) :
    d'.headers.keys = d.headers.keys ∧ d'.groups.keys = d.groups.keys ∧
      d'.pages.keys = d.pages.keys := by
  obtain ⟨-, hheaders, hgroups, hpages⟩ := Document.mk.inj h
  exact ⟨Table.keys_of_map_eq hheaders, Table.keys_of_map_eq hgroups, Table.keys_of_map_eq hpages⟩

/-- **Looking up names only decorates.**  The four tables keep their keys in their order, the
roots are the same, and each record is the same up to its decoration. -/
theorem resolve_only_decorates (d : Document) :
    d.resolve.1.forest.ids = d.forest.ids ∧
      d.resolve.1.forest.roots = d.forest.roots ∧
      d.resolve.1.headers.keys = d.headers.keys ∧
      d.resolve.1.groups.keys = d.groups.keys ∧
      d.resolve.1.pages.keys = d.pages.keys ∧
      d.resolve.1.undecorated = d.undecorated := by
  have h := d.undecorated_resolve
  obtain ⟨hheaders, hgroups, hpages⟩ := keys_of_undecorated h
  obtain ⟨hforest, -⟩ := Document.mk.inj h
  exact ⟨Forest.ids_of_undecorated hforest, (Forest.mk.inj hforest).2, hheaders, hgroups, hpages, h⟩

end Document

end DocForest
