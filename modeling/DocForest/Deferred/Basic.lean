/-
Documentation that stands apart from what it describes.

Such a comment names a declaration, a macro, a header or a page.  It is put aside until
all files are read, so that it does not matter whether it comes before or behind what it
names.
-/
import DocForest.Deferred.Argument
import DocForest.Diagnostic
import DocForest.DocText.Brief
import DocForest.DocText.Opening
import DocForest.DocText.Part
import DocForest.Identity.Id
import DocForest.Identity.Merge
import DocForest.Lookup.Basic

namespace DocForest

open DocText

/-- A command that waits until all files are read. -/
structure DeferredCommand where
  name : String
  args : String := ""
  body : String := ""
  /-- The name of the file that holds it. -/
  file : String
  /-- The id of the header of that file. -/
  header : String
  line : Nat
  /-- The group that is open where it stands. -/
  group : String := ""
  deriving DecidableEq

namespace Deferred

/-- Whether a command waits until all files are read. -/
def isDeferred (name : String) : Bool :=
  isDeclarationCommand name || ["macro", "def", "file", "page", "mainpage"].contains name

/-- The id of the page that stands before all others. -/
def mainPage : String := "index"

/-- A text without blanks around it and without the quotes around that. -/
def unquoted (args : String) : String :=
  String.ofList (Text.stripQuotes (Text.trim args.toList))

/-- Reports an error about a command. -/
def error (c : DeferredCommand) (code message : String) : Diagnostic :=
  .error code c.file message c.line

/-- Reports a doubtful command. -/
def warning (c : DeferredCommand) (code message : String) : Diagnostic :=
  .warning code c.file message c.line

/-! ### Headers and pages -/

/-- Adds documentation to a header, which is created if it is not known. -/
def describeHeader (d : Document) (id name body : String) : Document :=
  { d with
    headers := d.headers.upsert id { id, name } fun h =>
      let sum := Description.add ⟨h.brief, h.doc⟩ (describe body)
      { h with brief := sum.brief, doc := sum.doc } }

/-- Adds text to a page, which is created if it is not known.  The first title stays. -/
def appendPage (d : Document) (id title body : String) : Document :=
  { d with
    pages := d.pages.upsert id { id } fun p =>
      { p with
        title := if p.title.isEmpty then title else p.title
        doc := appendDoc p.doc (String.ofList (Text.trim body.toList)) } }

/-- Carries out the description of a header. -/
def applyFile (d : Document) (c : DeferredCommand) : Document :=
  let name := unquoted c.args
  describeHeader d (if name.isEmpty then c.header else headerId name) name c.body

/-- Carries out the command for a page. -/
def applyPage (d : Document) (c : DeferredCommand) : Document × List Diagnostic :=
  let (id, rest) := Text.splitFirstWord c.args.toList
  let title := Text.stripQuotes (Text.trim rest)
  if id.isEmpty || title.isEmpty then
    (d, [error c Code.missingArgument "\\page needs an ID and a title"])
  else if !Text.isValidId id then
    (d, [error c Code.invalidId ("Invalid page ID \x60" ++ String.ofList id ++ "\x60")])
  else (appendPage d (String.ofList id) (String.ofList title) c.body, [])

/-! ### Macros -/

/-- The entity that the description of a macro makes. -/
def macroEntity (c : DeferredCommand) (name : String) (parameters : Option (List String)) :
    Entity :=
  let (group, text) := takeGroup c.body
  let description := describe text
  let detail := Detail.macroDef parameters
  { id := memberId .macroDef name "" detail.signature
    name
    header := c.header
    brief := description.brief
    doc := description.doc
    group := group.getD c.group
    detail }

/-- The report that a macro is described with other parameters than before. -/
def parameterNotes (c : DeferredCommand) (name : String) (old new : Option (List String)) :
    List Diagnostic :=
  if old.isSome && new.isSome && old != new then
    [warning c Code.macroParameters
      ("Macro \x60" ++ name ++ "\x60 documented with different parameter lists")]
  else []

/-- Carries out the description of a macro. -/
def applyMacro (d : Document) (c : DeferredCommand) : Document × List Diagnostic :=
  let (name, parameters) := macroSignature c.args.toList
  if name.isEmpty then
    (d, [error c Code.missingArgument ("\\" ++ c.name ++ " without a name")])
  else
    let name := String.ofList name
    let parameters := parameters.map (·.map String.ofList)
    let e := macroEntity c name parameters
    match d.forest.get? e.id with
    | none => ({ d with forest := d.forest.insert e }, [])
    | some existing =>
      match existing.detail with
      | .macroDef old =>
        ({ d with forest := d.forest.modify e.id (·.merge e) }, parameterNotes c name old parameters)
      | _ =>
        (d, [error c Code.idCollision
          ("Macro \x60" ++ name ++ "\x60 has the same id as a declared " ++ existing.kind.text)])

/-! ### Declarations -/

/-- Whether a thing of the second kind may be described as one of the first. -/
def kindsAgree (described found : Kind) : Bool :=
  described == found || (described.isRecord && found.isRecord)

/-- The report that a thing is of another kind than its description says. -/
def kindNotes (c : DeferredCommand) (name : String) (found : Kind) : List Diagnostic :=
  match Kind.ofCommand? c.name with
  | some described =>
    if kindsAgree described found then []
    else
      [warning c Code.kindMismatch ("\\" ++ c.name ++ " " ++ name ++ " refers to a " ++ found.text)]
  | none => []

/-- The report that a thing is in another group already. -/
def groupNotes (c : DeferredCommand) (name current : String) : Option String → List Diagnostic
  | none => []
  | some group =>
    if current.isEmpty || current == group then []
    else
      [warning c Code.groupConflict
        (name ++ " is already in group \x60" ++ current ++ "\x60, not adding it to \x60" ++ group ++
          "\x60")]

/-- Adds a description and a group to an entity. -/
def describeEntity (e : Entity) (description : Description) (group : Option String) : Entity :=
  let sum := Description.add ⟨e.brief, e.doc⟩ description
  { e with
    brief := sum.brief
    doc := sum.doc
    group := if e.group.isEmpty then group.getD "" else e.group }

/-- Carries out the description of a declaration. -/
def applyDeclaration (d : Document) (c : DeferredCommand) :
    Except NameError (Document × List Diagnostic) :=
  (declarationName c.args.toList).map fun name =>
    let name := String.ofList name
    if name.isEmpty then
      (d, [error c Code.missingArgument ("\\" ++ c.name ++ " without a name")])
    else
      match d.forest.find? name "" with
      | none =>
        (d, [error c Code.unresolvedDeclaration
          ("\\" ++ c.name ++ " " ++ name ++ ": no such declaration, documentation ignored")])
      | some id =>
        match d.forest.get? id with
        | none => (d, [])
        | some e =>
          let (group, text) := takeGroup c.body
          ({ d with forest := d.forest.modify id (describeEntity · (describe text) group) },
            kindNotes c name e.kind ++ groupNotes c name e.group group)

/-! ### The queue -/

/-- Carries out a command. -/
def apply (d : Document) (c : DeferredCommand) : Except NameError (Document × List Diagnostic) :=
  match c.name with
  | "macro" | "def" => .ok (applyMacro d c)
  | "file" => .ok (applyFile d c, [])
  | "page" => .ok (applyPage d c)
  | "mainpage" => .ok (appendPage d mainPage (unquoted c.args) c.body, [])
  | _ => applyDeclaration d c

/-- Carries out commands one after the other. -/
def process (d : Document) : List DeferredCommand → Except NameError (Document × List Diagnostic)
  | [] => .ok (d, [])
  | c :: queue => do
    let (d, notes) ← apply d c
    let (d, more) ← process d queue
    return (d, notes ++ more)

end Deferred

end DocForest
