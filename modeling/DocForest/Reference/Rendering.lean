/-
Documentation texts with their commands carried out.

Links become Markdown links, headings and anchors become Markdown too, and what names a
class or a page is noted on the records.  The records are taken one after the other:
entities, headers, groups, pages, each in order of creation.
-/
import DocForest.Diagnostic
import DocForest.DocText.Part
import DocForest.Lookup.Basic
import DocForest.Reference.Link

namespace DocForest

open DocText

/-- A record with documentation. -/
inductive Owner
  | entity (id : String)
  | header (id : String)
  | group (id : String)
  | page (id : String)
  deriving DecidableEq

namespace Owner

/-- The id of the record. -/
def id : Owner → String
  | entity i => i
  | header i => i
  | group i => i
  | page i => i

/-- The scope from which names in the documentation are looked up. -/
def context : Owner → String
  | entity i => i
  | _ => ""

end Owner

/-- All records of a document, in the order in which their texts are rendered. -/
def Document.owners (d : Document) : List Owner :=
  d.forest.ids.map .entity ++ d.headers.keys.map .header ++ d.groups.keys.map .group ++
    d.pages.keys.map .page

/-- The short description and the text of a record. -/
def Document.texts? (d : Document) : Owner → Option (String × String)
  | .entity id => (d.forest.get? id).map fun e => (e.brief, e.doc)
  | .header id => (d.headers.get? id).map fun h => (h.brief, h.doc)
  | .group id => (d.groups.get? id).map fun g => (g.brief, g.doc)
  | .page id => (d.pages.get? id).map fun p => ("", p.doc)

/-- The file that messages about a record name; empty if there is none. -/
def Document.fileOf (d : Document) (owner : Owner) : String :=
  let header :=
    match owner with
    | .entity id => (d.forest.get? id).bind fun e => d.headers.get? e.header
    | .header id => d.headers.get? id
    | _ => none
  (header.map (·.name)).getD ""

/-- Whether things of this kind and role may declare themselves related to a class. -/
def Detail.mayRelate : Detail → Bool
  | function f => f.role == .function
  | var v => !v.isField
  | macroDef _ | typeAlias _ | enumeration _ => true
  | _ => false

/-- Whether an entity may declare itself related to a class: it is no member of one. -/
def Forest.mayRelate (f : Forest) (id : String) : Bool :=
  (f.get? id).any fun e =>
    e.detail.mayRelate &&
      (e.parent.isEmpty || (f.get? e.parent).any (·.kind == .nameSpace))

/-- Whether a page is above another, looking at most `bound` pages up from `id`. -/
def Document.isAboveWithin (d : Document) (ancestor : String) :
    (bound : Nat) → (id : Option String) → Bool
  | 0, _ => false
  | bound + 1, id =>
    match id with
    | none => false
    | some id =>
      if id = ancestor then true
      else if id.isEmpty then false
      else d.isAboveWithin ancestor bound ((d.pages.get? id).map (·.parent))

/-- Whether `ancestor` is above a page. -/
def Document.isPageAbove (d : Document) (ancestor page : String) : Bool :=
  d.isAboveWithin ancestor d.pages.size ((d.pages.get? page).map (·.parent))

/-! ### One record -/

/-- What the documentation of a record comes to, besides its text. -/
structure Outcome where
  /-- The class that the record is related to. -/
  relates : Option String := none
  /-- The pages that become part of the record. -/
  subpages : List String := []
  notes : List Diagnostic := []
  deriving DecidableEq

/-- What a text is rendered against. -/
structure Renderer where
  document : Document
  /-- The ids of headings and anchors. -/
  anchors : List String
  owner : Owner

namespace Renderer

/-- Reports an error about the record. -/
def note (w : Renderer) (o : Outcome) (code message : String) : Outcome :=
  { o with notes := o.notes ++ [.error code (w.document.fileOf w.owner) message none] }

/-- A Markdown link. -/
def markdownLink (shown id : String) : String :=
  "[" ++ shown ++ "](#" ++ id ++ ")"

/-- A link to a target.  A target that means nothing is shown as text and reported. -/
def link (w : Renderer) (o : Outcome) (target : String) (text : Option String) :
    String × Outcome :=
  let shown := text.getD target
  match w.document.find? w.anchors target w.owner.context with
  | some id => (markdownLink shown id, o)
  | none =>
    (shown, w.note o Code.unresolvedReference
      ("Unresolved reference \x60" ++ target ++ "\x60 in documentation of \x60" ++ w.owner.id ++
        "\x60"))

/-- Links to several targets. -/
def links (w : Renderer) (o : Outcome) : List String → List String × Outcome
  | [] => ([], o)
  | target :: targets =>
    let (shown, o) := w.link o target none
    let (rest, o) := w.links o targets
    (shown :: rest, o)

/-- The class that the name of a related class means. -/
def relatedClass? (w : Renderer) (target : String) : Option String :=
  (w.document.forest.find? target w.owner.context).filter w.document.forest.isRecordId

/-- Notes the class that a record is related to; the first one counts. -/
def relate (w : Renderer) (o : Outcome) (target : String) : Outcome :=
  match w.owner with
  | .entity id =>
    if !w.document.forest.mayRelate id then
      w.note o Code.misplacedCommand
        ("\\relates " ++ target ++ " in documentation of \x60" ++ id ++
          "\x60, which cannot relate to a class")
    else if o.relates.isSome then o
    else
      match w.relatedClass? target with
      | some cls => { o with relates := some cls }
      | none =>
        w.note o Code.unresolvedRelates
          ("\\relates " ++ target ++ ": no such class, struct or union")
  | _ =>
    w.note o Code.misplacedCommand
      ("\\relates " ++ target ++ " outside of a declaration's documentation")

/-- Whether a page cannot become part of the page at hand: it is that page, or above it,
or part of a third one. -/
def isClaimed (w : Renderer) (current target : String) (page : Page) : Bool :=
  target == current || w.document.isPageAbove target current ||
    (!page.parent.isEmpty && page.parent != current)

/-- Makes a page part of the page at hand and links to it. -/
def subpage (w : Renderer) (o : Outcome) (target : String) (text : Option String) :
    String × Outcome :=
  match w.owner with
  | .page current =>
    match w.document.pages.get? target with
    | none =>
      (text.getD target,
        w.note o Code.unresolvedSubpage ("\\subpage " ++ target ++ ": no such page"))
    | some page =>
      let shown := text.getD (if page.title.isEmpty then target else page.title)
      if w.isClaimed current target page then
        (shown, w.note o Code.subpageConflict
          ("\\subpage " ++ target ++ " in page \x60" ++ current ++
            "\x60 would re-parent the page or create a cycle"))
      else
        (markdownLink shown target,
          if target ∈ o.subpages then o else { o with subpages := o.subpages ++ [target] })
  | _ =>
    (text.getD target,
      w.note o Code.misplacedCommand ("\\subpage " ++ target ++ " outside of a page"))

/-- The text that a command comes to. -/
def command (w : Renderer) (o : Outcome) (raw : List Char) : Command → String × Outcome
  | .ref target text => w.link o target text
  | .seeAlso targets =>
    let (shown, o) := w.links o targets
    ("!!! see \"See also\"\n    " ++ String.intercalate ", " shown, o)
  | .relates target => ("", w.relate o target)
  | .subpage target text => w.subpage o target text
  | .ingroup _ =>
    ("", w.note o Code.misplacedCommand
      ("\\ingroup has no effect in documentation of \x60" ++ w.owner.id ++ "\x60"))
  | .heading level id title =>
    (String.ofList (List.replicate (level + 1) '#') ++ " " ++ title ++ " \x7b#" ++ id ++ "\x7d", o)
  | .anchor id => ("<a id=\"" ++ id ++ "\"></a>", o)
  | .malformed word =>
    (String.ofList raw,
      w.note o Code.missingArgument ("\\" ++ word.name ++ " is missing its argument"))

/-- The text that some parts come to. -/
def parts (w : Renderer) (o : Outcome) : List Part → String × Outcome
  | [] => ("", o)
  | .text cs :: ps =>
    let (rest, o) := w.parts o ps
    (String.ofList cs ++ rest, o)
  | .command c raw :: ps =>
    let (shown, o) := w.command o raw c
    let (rest, o) := w.parts o ps
    (shown ++ rest, o)

/-- A text with its commands carried out, trimmed. -/
def text (w : Renderer) (o : Outcome) (s : String) : String × Outcome :=
  let (shown, o) := w.parts o (DocText.parts s.toList)
  (String.ofList (Text.trim shown.toList), o)

end Renderer

/-! ### All records -/

/-- Sets the texts of a record. -/
def Document.setTexts (d : Document) (brief doc : String) : Owner → Document
  | .entity id => { d with forest := d.forest.modify id fun e => { e with brief, doc } }
  | .header id => { d with headers := d.headers.modify id fun h => { h with brief, doc } }
  | .group id => { d with groups := d.groups.modify id fun g => { g with brief, doc } }
  | .page id => { d with pages := d.pages.modify id fun p => { p with doc } }

/-- Notes on a class that a thing is related to it, once. -/
def addRelated (id : String) (r : RecordDetail) : RecordDetail :=
  if id ∈ r.related then r else { r with related := r.related ++ [id] }

/-- Relates an entity to a class. -/
def Forest.relate (f : Forest) (id cls : String) : Forest :=
  (f.modifyRecord cls (addRelated id)).modify id fun e => { e with relates := cls }

/-- Makes a page part of another. -/
def Document.addSubpage (d : Document) (parent child : String) : Document :=
  { d with
    pages := (d.pages.modify child fun p => { p with parent := parent }).modify parent
      (·.addSubpage child) }

/-- Notes on the records of a document what the documentation of one of them comes to. -/
def Document.applyOutcome (d : Document) (owner : Owner) (o : Outcome) : Document :=
  match owner with
  | .entity id =>
    match o.relates with
    | some cls => { d with forest := d.forest.relate id cls }
    | none => d
  | .page id => o.subpages.foldl (fun d child => d.addSubpage id child) d
  | _ => d

/-- Renders the texts of one record. -/
def Document.renderOwner (d : Document) (anchors : List String) (owner : Owner) :
    Document × List Diagnostic :=
  match d.texts? owner with
  | none => (d, [])
  | some (brief, doc) =>
    let w : Renderer := { document := d, anchors, owner }
    let (brief, o) := w.text {} brief
    let (doc, o) := w.text o doc
    ((d.setTexts brief doc owner).applyOutcome owner o, o.notes)

/-- One record of the pass over all of them. -/
def Document.renderStep (anchors : List String) (s : Document × List Diagnostic)
    (owner : Owner) : Document × List Diagnostic :=
  let (d, notes) := s.1.renderOwner anchors owner
  (d, s.2 ++ notes)

/-- Renders the texts of all records. -/
def Document.renderTexts (d : Document) (anchors : List String) : Document × List Diagnostic :=
  d.owners.foldl (renderStep anchors) (d, [])

end DocForest
