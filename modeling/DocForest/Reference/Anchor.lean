/-
Headings and anchors: the places inside documentation that links can lead to.

They are noted on the record that holds the text before any text is changed, so that a
link may lead to a text that comes later.
-/
import DocForest.Document.Basic
import DocForest.DocText.Part

namespace DocForest

open DocText

/-- The headings and anchors of a text. -/
structure Marks where
  headings : List Heading := []
  anchors : List String := []
  deriving DecidableEq

namespace Marks

/-- The heading that a command makes. -/
def heading? : Command → Option Heading
  | .heading level id title => some { id, title, level }
  | _ => none

/-- The anchor that a command makes. -/
def anchor? : Command → Option String
  | .anchor id => some id
  | _ => none

/-- The marks of a short description and of the text that goes with it. -/
def ofTexts (brief doc : String) : Marks :=
  let cs := commands brief.toList ++ commands doc.toList
  { headings := cs.filterMap heading?, anchors := cs.filterMap anchor? }

/-- Whether there are no marks. -/
def isEmpty (m : Marks) : Bool :=
  m.headings.isEmpty && m.anchors.isEmpty

/-- The ids that a link may name. -/
def ids (m : Marks) : List String :=
  m.headings.map (·.id) ++ m.anchors

/-- The marks of a record after its texts are read: they stay if there are none in the
texts. -/
def refresh (old : Marks) (brief doc : String) : Marks :=
  let new := ofTexts brief doc
  if new.isEmpty then old else new

end Marks

/-- Notes the marks of an entity. -/
def Entity.mark (e : Entity) : Entity :=
  let m := Marks.refresh ⟨e.headings, e.anchors⟩ e.brief e.doc
  { e with headings := m.headings, anchors := m.anchors }

/-- Notes the marks of a header. -/
def Header.mark (h : Header) : Header :=
  let m := Marks.refresh ⟨h.headings, h.anchors⟩ h.brief h.doc
  { h with headings := m.headings, anchors := m.anchors }

/-- Notes the marks of a group. -/
def Group.mark (g : Group) : Group :=
  let m := Marks.refresh ⟨g.headings, g.anchors⟩ g.brief g.doc
  { g with headings := m.headings, anchors := m.anchors }

/-- Notes the marks of a page. -/
def Page.mark (p : Page) : Page :=
  let m := Marks.refresh ⟨p.headings, p.anchors⟩ "" p.doc
  { p with headings := m.headings, anchors := m.anchors }

/-- Notes the marks of all records. -/
def Document.mark (d : Document) : Document where
  forest := { d.forest with entities := d.forest.entities.map Entity.mark }
  headers := d.headers.map Header.mark
  groups := d.groups.map Group.mark
  pages := d.pages.map Page.mark

/-- The ids of all headings and anchors in the texts of a document. -/
def Document.anchorIds (d : Document) : List String :=
  (d.forest.entities.values.flatMap fun e => (Marks.ofTexts e.brief e.doc).ids) ++
    (d.headers.values.flatMap fun h => (Marks.ofTexts h.brief h.doc).ids) ++
    (d.groups.values.flatMap fun g => (Marks.ofTexts g.brief g.doc).ids) ++
    d.pages.values.flatMap fun p => (Marks.ofTexts "" p.doc).ids

end DocForest
