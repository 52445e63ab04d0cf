/-
Lists written with commas, as in parameter and argument lists.

A comma divides only where no bracket is open.  Angle, round and square brackets
count alike, and the count is signed: a bracket that closes nothing makes it
negative, and no comma divides until it is zero again.
-/
import DocForest.Text.Blank

namespace DocForest.Text

/-- What one character adds to the number of open brackets. -/
def bracketStep (c : Char) : Int :=
  if c == '<' || c == '(' || c == '[' then 1
  else if c == '>' || c == ')' || c == ']' then -1
  else 0

/-- The stretches of a text between its dividing commas, where `depth` brackets
are open at its start. -/
def stretchesFrom (depth : Int) : List Char → List (List Char)
  | [] => [[]]
  | c :: cs =>
    if c == ',' && depth == 0 then [] :: stretchesFrom depth cs
    else consFirst c (stretchesFrom (depth + bracketStep c) cs)

/-- The items of a comma list: trimmed, the empty ones left out. -/
def commaItems (cs : List Char) : List (List Char) :=
  ((stretchesFrom 0 cs).map trim).filter (!·.isEmpty)

end DocForest.Text
