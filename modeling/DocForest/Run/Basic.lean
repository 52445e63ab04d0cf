/-
A run: from parsed files to a document.

Files are read in order, each once.  Of every file the comments are looked at first,
since they say which groups are open where; then its declarations are visited.  When all
files are read, the descriptions that were put aside are carried out, and all names are
looked up.
-/
import DocForest.Comment.Block
import DocForest.Deferred.Basic
import DocForest.Group.Command
import DocForest.Reference.Resolve
import DocForest.Run.Error
import DocForest.Settings.Basic
import DocForest.Walk.Basic

namespace DocForest

open Source

/-- What a run has gathered so far. -/
structure Build where
  document : Document := {}
  /-- The ids under which symbols are known. -/
  bindings : Table String := {}
  /-- Commands that wait until all files are read. -/
  queue : List DeferredCommand := []
  notes : List Diagnostic := []

namespace Build

/-! ### Messages of the parser -/

/-- The report of a message of the parser; errors are not reported one by one. -/
def messageNote? (file : String) (m : Message) : Option Diagnostic :=
  match m.kind with
  | .warning => some (.warning Code.sourceWarning file m.text none)
  | .note => some { severity := .info, file, message := m.text }
  | .error | .fatal => none

/-- Reports the messages of the parser.  An error among them stops the run. -/
def checkMessages (b : Build) (path name : String) (ms : List Message) : Except RunError Build :=
  let count := ms.countP (·.kind.isError)
  if 0 < count then .error (.parserErrors path count)
  else .ok { b with notes := b.notes ++ ms.filterMap (messageNote? name) }

/-! ### The header -/

/-- Lists an included header, once. -/
def addInclude (h : Header) (id : String) : Header :=
  if id ∈ h.includes then h else { h with includes := h.includes ++ [id] }

/-- The ids of the headers that a file includes itself. -/
def directIncludes (includes : List Inclusion) : List String :=
  (includes.filter (·.depth == 1)).map fun i => headerId i.name

/-- Enters a header with what it includes. -/
def recordHeader (b : Build) (name : String) (includes : List Inclusion) : Build :=
  let id := headerId name
  { b with
    document.headers := b.document.headers.upsert id { id, name } fun h =>
      (directIncludes includes).foldl addInclude h }

/-! ### Comments that open with a command -/

/-- Carries out a group command. -/
def applyGrouping (b : Build) (scope : GroupScope) (command : GroupCommand) (line : Nat) :
    Build × GroupScope :=
  let (g, notes) := Grouping.apply ⟨scope, b.document.groups⟩ command line
  ({ b with document.groups := g.groups, notes := b.notes ++ notes }, g.scope)

/-- Puts a command aside. -/
def defer (b : Build) (scope : GroupScope) (name : String) (o : DocText.Opening) (line : Nat) :
    Build :=
  { b with
    queue := b.queue ++
      [{ name := o.name, args := o.args, body := o.body, file := name, header := headerId name,
         line, group := scope.current }] }

/-- Carries out the command that a comment opens with, or puts it aside.  A description of
the file at hand needs no waiting. -/
def scanBlock (name : String) (s : Build × GroupScope) (block : Comment.Block) :
    Build × GroupScope :=
  match DocText.opening? block.text with
  | none => s
  | some o =>
    match GroupCommand.ofOpening? o with
    | some command => applyGrouping s.1 s.2 command block.line
    | none =>
      if o.name = "file" ∧ o.args.isEmpty then
        ({ s.1 with document := Deferred.describeHeader s.1.document (headerId name) name o.body },
          s.2)
      else if Deferred.isDeferred o.name then (s.1.defer s.2 name o block.line, s.2)
      else s

/-- Looks at the comments of a file, and gives its group scopes. -/
def scanComments (b : Build) (name : String) (blocks : List Comment.Block) : Build × GroupScope :=
  let (b, scope) := blocks.foldl (scanBlock name) (b, { file := name })
  let (scope, notes) := scope.finish
  ({ b with notes := b.notes ++ notes }, scope)

/-! ### Files -/

/-- Visits the declarations of a file. -/
def walk (b : Build) (file : FileContext) (decls : List DeclTree) : Build :=
  let start : Walk.State := { registry := ⟨b.bindings, b.document.forest⟩, notes := b.notes }
  let s := Walk.visitAll file "" start decls
  { b with
    document.forest := s.registry.forest
    bindings := s.registry.bindings
    notes := s.notes }

/-- Takes in a parsed file. -/
def addUnit (b : Build) (path name : String) (u : Source.Unit) : Except RunError Build := do
  let b ← b.checkMessages path name u.messages
  let b := b.recordHeader name u.includes
  let blocks := Comment.blocksOf u.tokens
  let (b, scope) := b.scanComments name blocks
  return b.walk { path, name, header := headerId name, scope, blocks } u.decls

/-- Reads a file and takes it in. -/
def addFile (settings : Settings) (units : Units) (b : Build) (path : String) :
    Except RunError Build :=
  match units.load path with
  | .error cause => .error (.load path cause)
  | .ok u => b.addUnit path (settings.nameOf path) u

end Build

/-- The paths of a list, without those that are the same as an earlier one. -/
def distinctPaths (paths : List String) : List String :=
  paths.foldl (fun seen p => if seen.any (Path.same p) then seen else seen ++ [p]) []

/-- What a run comes to. -/
structure RunResult where
  document : Document
  notes : List Diagnostic

/-- Reads all files. -/
def readFiles (settings : Settings) (units : Units) : Except RunError Build :=
  if settings.headerFiles.isEmpty then .error (.missingInput "input.header_files")
  else (distinctPaths settings.headerFiles).foldlM (Build.addFile settings units) {}

/-- Carries out what was put aside and looks up all names. -/
def Build.finish (b : Build) : Except RunError RunResult :=
  match Deferred.process b.document b.queue with
  | .error cause => .error (.name cause)
  | .ok (d, notes) =>
    let (d, more) := d.resolve
    .ok { document := d, notes := b.notes ++ notes ++ more }

/-- Runs over the headers that the settings name. -/
def run (settings : Settings) (units : Units) : Except RunError RunResult :=
  (readFiles settings units).bind Build.finish

/-- The log of a run under its settings. -/
def RunResult.log (r : RunResult) (settings : Settings) : DiagnosticLog :=
  { entries := r.notes, threshold := settings.level }

end DocForest
