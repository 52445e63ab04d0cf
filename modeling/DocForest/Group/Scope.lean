/-
Group scopes of one file.

Commands open and close groups, and every change is noted with its line.  The group of
a declaration is then a question about its line, asked after all commands of the file
have been seen: it is the last change on an earlier line.
-/
import DocForest.Diagnostic

namespace DocForest

/-- Changes of a text from line to line: what holds behind each of some lines. -/
abbrev Changes : Type := List (Nat × String)

/-- What holds on a line: the last of the changes that come before the first change
on this line or behind it. -/
def Changes.valueAt (changes : Changes) (line : Nat) : String :=
  (((changes.takeWhile fun (l, _) => l < line).getLast?).map (·.2)).getD ""

/-- The groups that are open at some place of a file. -/
structure GroupScope where
  /-- The name of the file, for messages. -/
  file : String
  /-- The ids of the open groups, innermost first. -/
  stack : List String := []
  changes : Changes := []
  /-- The name of the open member group; empty if there is none. -/
  memberGroup : String := ""
  memberChanges : Changes := []

namespace GroupScope

/-- The innermost open group, or the empty id. -/
def current (s : GroupScope) : String :=
  s.stack.headD ""

/-- The group of a line. -/
def groupAt (s : GroupScope) (line : Nat) : String :=
  s.changes.valueAt line

/-- The member group of a line. -/
def memberGroupAt (s : GroupScope) (line : Nat) : String :=
  s.memberChanges.valueAt line

/-- Opens a group. -/
def enter (s : GroupScope) (id : String) (line : Nat) : GroupScope :=
  { s with stack := id :: s.stack, changes := s.changes ++ [(line, id)] }

/-- Closes the innermost group. -/
def leave (s : GroupScope) (line : Nat) : GroupScope × List Diagnostic :=
  match s.stack with
  | [] =>
    (s, [.warning Code.unbalancedGroup s.file "\\endgroup cannot occur while not in a group" line])
  | _ :: outer =>
    ({ s with stack := outer, changes := s.changes ++ [(line, outer.headD "")] }, [])

/-- Opens a member group, in place of the one that is open. -/
def enterMember (s : GroupScope) (name : String) (line : Nat) : GroupScope :=
  { s with memberGroup := name, memberChanges := s.memberChanges ++ [(line, name)] }

/-- Closes the member group. -/
def leaveMember (s : GroupScope) (line : Nat) : GroupScope × List Diagnostic :=
  if s.memberGroup.isEmpty then
    (s, [.warning Code.unbalancedGroup s.file "\\endname cannot occur outside a \\name block" line])
  else ({ s with memberGroup := "", memberChanges := s.memberChanges ++ [(line, "")] }, [])

/-- Closes whatever is open at the end of the file, with a warning for each. -/
def finish (s : GroupScope) : GroupScope × List Diagnostic :=
  let groups := s.stack.map fun id =>
    Diagnostic.warning Code.unterminatedGroup s.file ("Missing \\endgroup for group " ++ id) none
  let members :=
    if s.memberGroup.isEmpty then []
    else [Diagnostic.warning Code.unterminatedGroup s.file
      ("Missing \\endname for \\name " ++ s.memberGroup) none]
  ({ s with stack := [], memberGroup := "" }, groups ++ members)

end GroupScope

end DocForest
