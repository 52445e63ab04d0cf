/-
The hierarchy of groups.

A group becomes part of another only if neither is part of the other already, and only
once: a group keeps its first parent.
-/
import DocForest.Diagnostic
import DocForest.Record
import DocForest.Table

namespace DocForest

/-- The groups of a document. -/
abbrev Groups : Type := Table Group

namespace Groups

/-- Whether `id` is `ancestor` or part of it, looking at most `bound` groups outwards. -/
def isWithin (groups : Groups) (ancestor : String) : (bound : Nat) → (id : String) → Bool
  | 0, _ => false
  | bound + 1, id =>
    if id = ancestor then true
    else
      match groups.get? id with
      | some group =>
        if group.parent.isEmpty then false else groups.isWithin ancestor bound group.parent
      | none => false

/-- Whether `id` is `ancestor` or part of it. -/
def isDescendant (groups : Groups) (id ancestor : String) : Bool :=
  groups.isWithin ancestor (groups.size + 1) id

/-- The parent of a group; empty if it has none. -/
def parentOf (groups : Groups) (id : String) : String :=
  ((groups.get? id).map (·.parent)).getD ""

/-- Makes a group part of another, which is created if it is not known. -/
def attach (groups : Groups) (child parent : String) : Groups :=
  (Table.modify groups child fun g => { g with parent := parent }).upsert parent { id := parent }
    (·.addSubgroup child)

/-- Makes a group part of another, unless that makes a cycle or the group is part of a
third one.  No parent changes nothing. -/
def nest (groups : Groups) (file child parent : String) (line : Nat) : Groups × List Diagnostic :=
  if parent.isEmpty then (groups, [])
  else if groups.isDescendant parent child then
    (groups, [.error Code.groupCycle file
      ("Nesting group \x60" ++ child ++ "\x60 under \x60" ++ parent ++ "\x60 would create a cycle")
      line])
  else
    let existing := groups.parentOf child
    if !existing.isEmpty && existing != parent then
      (groups, [.warning Code.groupConflict file
        ("Group \x60" ++ child ++ "\x60 is already nested under \x60" ++ existing ++
          "\x60, not under \x60" ++ parent ++ "\x60") line])
    else (groups.attach child parent, [])

end Groups

end DocForest
