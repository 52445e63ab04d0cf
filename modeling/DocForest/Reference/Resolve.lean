/-
The last pass over a document: all names in it are looked up.
-/
import DocForest.Reference.Anchor
import DocForest.Reference.Rendering

namespace DocForest

/-- Links classes with their bases, and types with the entities that they name. -/
def Document.link (d : Document) : Document :=
  { d with forest := d.forest.linkBases.linkTypes }

/-- Links classes and types, notes headings and anchors, and renders all texts. -/
def Document.resolve (d : Document) : Document × List Diagnostic :=
  d.link.mark.renderTexts d.link.anchorIds

end DocForest
