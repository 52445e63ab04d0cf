/-
The table that a TOML text describes.

Statements are carried out one after the other.  A header opens a table, and the pairs
behind it go there.  A table is opened by a header at most once, and only if no pair has
defined it.
-/
import DocForest.Toml.Statement

namespace DocForest.Toml

/-- The entries of a table. -/
abbrev Entries : Type := List (String × Toml)

/-- Puts a value under a name: in place if there is one, else at the end. -/
def putEntry (entries : Entries) (name : String) (value : Toml) : Entries :=
  if (entries.lookup name).isSome then
    entries.map fun (k, v) => if k = name then (k, value) else (k, v)
  else entries ++ [(name, value)]

/-- Changes the table that a path leads to.  Tables on the way are made if they are not
there; the last table of a list stands for the list. -/
def changeAt (change : Entries → Option Entries) : (path : List String) → Entries → Option Entries
  | [], entries => change entries
  | name :: path, entries =>
    match entries.lookup name with
    | none => (changeAt change path []).map fun inner => putEntry entries name (.table .implied inner)
    | some (.table .inline _) => none
    | some (.table origin inner) =>
      (changeAt change path inner).map fun inner => putEntry entries name (.table origin inner)
    | some (.tables items) =>
      match items.getLast? with
      | some (.table origin inner) =>
        (changeAt change path inner).map fun inner =>
          putEntry entries name (.tables (items.dropLast ++ [.table origin inner]))
      | _ => none
    | some _ => none

/-- Opens a table of this name and adds pairs to it. -/
def openTable (name : String) (pairs : List Pair) (entries : Entries) : Option Entries :=
  let start : Option Entries :=
    match entries.lookup name with
    | none => some []
    | some (.table .implied inner) => some inner
    | some _ => none
  start.bind fun start =>
    (addPairs start pairs).map fun inner => putEntry entries name (.table .header inner)

/-- Adds a table with these pairs to the list of this name. -/
def addElement (name : String) (pairs : List Pair) (entries : Entries) : Option Entries :=
  let start : Option (List Toml) :=
    match entries.lookup name with
    | none => some []
    | some (.tables items) => some items
    | some _ => none
  start.bind fun items =>
    (addPairs [] pairs).map fun inner =>
      putEntry entries name (.tables (items ++ [.table .header inner]))

/-- The pairs at the start of some statements, and the statements behind them. -/
def leadingPairs : List Statement → List Pair × List Statement
  | .pair path v :: rest =>
    let (pairs, rest) := leadingPairs rest
    ((path, v) :: pairs, rest)
  | rest => ([], rest)

theorem length_leadingPairs (ss : List Statement) : (leadingPairs ss).2.length ≤ ss.length := by
  fun_induction leadingPairs ss with
  | case1 path v rest pairs rest' h ih =>
    simp only [h] at ih
    exact Nat.le_succ_of_le ih
  | case2 => exact Nat.le_refl _

/-- Carries out statements, the first of which is a header. -/
def addSections (entries : Entries) : List Statement → Option Entries
  | [] => some entries
  | s :: ss =>
    let pairs := (leadingPairs ss).1
    let changed :=
      match s with
      | .pair _ _ => none
      | .table path => changeAt (openTable (path.getLastD "") pairs) path.dropLast entries
      | .element path => changeAt (addElement (path.getLastD "") pairs) path.dropLast entries
    match changed with
    | none => none
    | some entries => addSections entries (leadingPairs ss).2
termination_by ss => ss.length
decreasing_by
  have := length_leadingPairs ss
  simp only [List.length_cons]
  omega

/-- The entries of the table that a text describes. -/
def parse? (text : String) : Option Entries :=
  (statements? text.toList).bind fun ss =>
    (addPairs [] (leadingPairs ss).1).bind fun entries => addSections entries (leadingPairs ss).2

end DocForest.Toml
