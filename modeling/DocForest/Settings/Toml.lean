/-
Settings written in TOML.

Every section and every field may be left out, and unknown ones are passed over.  A
section may be a table, or a list that gives its fields in order.
-/
import DocForest.Settings.Basic
import DocForest.Toml.Document

namespace DocForest

namespace Toml

/-- A text. -/
def text? : Toml → Option String
  | text s => some s
  | _ => none

/-- A list of texts. -/
def texts? : Toml → Option (List String)
  | array items => items.mapM text?
  | _ => none

/-- Whether a value holds nothing. -/
def isEmptyCollection : Toml → Bool
  | array items => items.isEmpty
  | tables items => items.isEmpty
  | table _ entries => entries.isEmpty
  | _ => false

/-- A choice between names: a text, or a table with the name as its only key and nothing
under it. -/
def choice? {α : Type} (ofName? : String → Option α) : Toml → Option α
  | text s => ofName? s
  | table _ [(name, v)] => if v.isEmptyCollection then ofName? name else none
  | _ => none

/-- The fields of a section: by name in a table, in order in a list.  A date has no
fields. -/
inductive Section
  | byName (entries : List (String × Toml))
  | inOrder (items : List Toml)

/-- The fields of a value, if it can be a section. -/
def section? : Toml → Option Section
  | table _ entries => some (.byName entries)
  | array items => some (.inOrder items)
  | tables items => some (.inOrder items)
  | dateTime => some (.byName [])
  | _ => none

/-- A field of a section by its name and its place. -/
def Section.field? (s : Section) (name : String) (index : Nat) : Option Toml :=
  match s with
  | byName entries => entries.lookup name
  | inOrder items => items[index]?

/-- Reads a field of a section; a missing one has a default. -/
def Section.read? {α : Type} (s : Section) (name : String) (index : Nat) (default : α)
    (f : Toml → Option α) : Option α :=
  match s.field? name index with
  | none => some default
  | some v => f v

/-- The section of a name; a missing one is empty. -/
def sectionOf? (entries : List (String × Toml)) (name : String) : Option Section :=
  match entries.lookup name with
  | none => some (.byName [])
  | some v => v.section?

end Toml

/-- The layout of a name. -/
def Layout.ofName? : String → Option Layout
  | "compact" => some compact
  | "readable" => some readable
  | _ => none

/-- The settings that a TOML table describes. -/
def Settings.ofEntries? (entries : List (String × Toml)) : Option Settings := do
  let s : Settings := {}
  let input ← Toml.sectionOf? entries "input"
  let clang ← Toml.sectionOf? entries "clang"
  let log ← Toml.sectionOf? entries "log"
  let json ← Toml.sectionOf? entries "json"
  return {
    rootDirectory := ← input.read? "root_directory" 0 s.rootDirectory Toml.text?
    headerFiles := ← input.read? "header_files" 1 s.headerFiles Toml.texts?
    compilerFlags := ← clang.read? "compiler_flags" 0 s.compilerFlags Toml.texts?
    includeDirectories := ← clang.read? "include_directories" 1 s.includeDirectories Toml.texts?
    level := ← log.read? "level" 0 s.level (Toml.choice? Severity.ofName?)
    filename := ← json.read? "filename" 0 s.filename Toml.text?
    layout := ← json.read? "formatting" 1 s.layout (Toml.choice? Layout.ofName?) }

/-- The settings that a TOML text describes. -/
def Settings.ofToml? (text : String) : Option Settings :=
  (Toml.parse? text).bind Settings.ofEntries?

end DocForest
