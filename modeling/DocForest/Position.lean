/-
Places in a source text: line and column, counted from one, and the stretch
between two of them.
-/
namespace DocForest

/-- A line and a column of a source text. -/
structure Position where
  line : Nat := 0
  column : Nat := 0
  deriving DecidableEq

/-- Whether one position stands before another or is the same: lines count
first, columns decide within a line. -/
def Position.le (p q : Position) : Bool :=
  p.line < q.line || (p.line == q.line && p.column ≤ q.column)

/-- The stretch of a source text from one position to another, both included. -/
structure Extent where
  start : Position := {}
  stop : Position := {}
  deriving DecidableEq

/-- Whether a position lies in the stretch. -/
def Extent.contains (e : Extent) (p : Position) : Bool :=
  e.start.le p && p.le e.stop

end DocForest
