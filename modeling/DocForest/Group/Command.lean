/-
The commands that open and close groups.

Groups are shared by all files; which of them are open is a matter of one file.  A
command whose arguments are wrong is reported and changes neither.
-/
import DocForest.DocText.Brief
import DocForest.DocText.Opening
import DocForest.DocText.Part
import DocForest.Group.Nesting
import DocForest.Group.Scope

namespace DocForest

open DocText

/-- A command about groups. -/
inductive GroupCommand
  /-- Defines a group and opens it. -/
  | define (args body : String)
  /-- Opens a group again. -/
  | extend (args : String)
  | close
  /-- Opens a member group. -/
  | name (args : String)
  | endName
  deriving DecidableEq

/-- The group command that a text opens with. -/
def GroupCommand.ofOpening? (o : Opening) : Option GroupCommand :=
  match o.name with
  | "defgroup" => some (define o.args o.body)
  | "addtogroup" => some (extend o.args)
  | "endgroup" => some close
  | "name" => some (name o.args)
  | "endname" => some endName
  | _ => none

/-- The groups of a document, and those that are open in a file. -/
structure Grouping where
  scope : GroupScope
  groups : Groups

namespace Grouping

/-- Adds the description of a definition to a group. -/
def define (groups : Groups) (id title : String) (d : Description) : Groups :=
  Table.upsert groups id { id } fun g =>
    let sum := Description.add ⟨g.brief, g.doc⟩ d
    { g with
      name := if g.name.isEmpty then title else g.name
      brief := sum.brief
      doc := sum.doc }

/-- Makes a group part of another and opens it. -/
def openUnder (g : Grouping) (id parent : String) (line : Nat) : Grouping × List Diagnostic :=
  let (groups, notes) := g.groups.nest g.scope.file id parent line
  (⟨g.scope.enter id line, groups⟩, notes)

/-- Reports a command whose arguments are wrong. -/
def refuse (g : Grouping) (code message : String) (line : Nat) : Grouping × List Diagnostic :=
  (g, [.error code g.scope.file message line])

/-- Carries out the definition of a group. -/
def applyDefine (g : Grouping) (args body : String) (line : Nat) : Grouping × List Diagnostic :=
  let (id, rest) := Text.splitFirstWord args.toList
  let title := Text.stripQuotes (Text.trim rest)
  if id.isEmpty || title.isEmpty then
    g.refuse Code.missingArgument "\\defgroup needs an ID and a name" line
  else if !Text.isValidId id then
    g.refuse Code.invalidId ("Invalid group ID \x60" ++ String.ofList id ++ "\x60") line
  else
    let (ingroup, text) := takeGroup body
    let id := String.ofList id
    let groups := define g.groups id (String.ofList title) (describe text)
    let current := g.scope.current
    let parent := if current.isEmpty then ingroup.getD current else current
    openUnder { g with groups } id parent line

/-- Opens a group again; its title and the text behind the command are not read. -/
def applyExtend (g : Grouping) (args : String) (line : Nat) : Grouping × List Diagnostic :=
  let (id, _) := Text.splitFirstWord args.toList
  if id.isEmpty then g.refuse Code.missingArgument "\\addtogroup needs an ID" line
  else if !Text.isValidId id then
    g.refuse Code.invalidId ("Invalid group ID \x60" ++ String.ofList id ++ "\x60") line
  else
    let id := String.ofList id
    openUnder { g with groups := Table.insertNew g.groups id { id } } id g.scope.current line

/-- Carries out a group command on a line. -/
def apply (g : Grouping) (command : GroupCommand) (line : Nat) : Grouping × List Diagnostic :=
  match command with
  | .define args body => g.applyDefine args body line
  | .extend args => g.applyExtend args line
  | .close =>
    let (scope, notes) := g.scope.leave line
    ({ g with scope }, notes)
  | .name args => ({ g with scope := g.scope.enterMember args line }, [])
  | .endName =>
    let (scope, notes) := g.scope.leaveMember line
    ({ g with scope }, notes)

end Grouping

end DocForest
