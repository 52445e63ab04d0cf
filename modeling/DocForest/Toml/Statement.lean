/-
The statements of a TOML text: keys with values, and headers of tables.

Values are nested at most seventy-nine deep, and a key has at most seventy-nine parts; the
depth is what the recursion on values counts down.
-/
import DocForest.Toml.Number
import DocForest.Toml.Text

namespace DocForest.Toml

/-- The bound on the depth of values and on the parts of a key. -/
def maxDepth : Nat := 79

/-! ### Keys -/

/-- The characters of a key without quotes. -/
def isBareChar (c : Char) : Bool :=
  c.isAlphanum || c == '_' || c == '-'

/-- Reads one part of a key. -/
def keyPart : Reader (List Char)
  | '"' :: cs => basicText cs
  | '\'' :: cs => literalText cs
  | cs =>
    let part := cs.takeWhile isBareChar
    if part.isEmpty then none else some (part, cs.dropWhile isBareChar)

/-- Reads the parts of a key, at most `bound` of them, between dots. -/
def keyParts : (bound : Nat) → Reader (List String)
  | 0, _ => none
  | bound + 1, cs =>
    match keyPart (skipGap cs) with
    | none => none
    | some (part, rest) =>
      match skipGap rest with
      | '.' :: rest => (keyParts bound rest).map fun (parts, rest) =>
          (String.ofList part :: parts, rest)
      | rest => some ([String.ofList part], rest)

/-- Reads a key. -/
def key : Reader (List String) :=
  keyParts maxDepth

/-! ### Values -/

/-- A key with its value, the key in parts. -/
abbrev Pair : Type := List String × Toml

/-- Adds a value under a dotted key to a table in braces or to the table at hand.  It fails
where a part of the key is a value, or a table that may not be extended this way. -/
def addPair (entries : List (String × Toml)) : (path : List String) → Toml →
    Option (List (String × Toml))
  | [], _ => none
  | [name], value => if (entries.lookup name).isSome then none else some (entries ++ [(name, value)])
  | name :: path, value =>
    match entries.lookup name with
    | none => (addPair [] path value).map fun inner => entries ++ [(name, .table .dotted inner)]
    | some (.table .dotted inner) =>
      (addPair inner path value).map fun inner => setEntry name (.table .dotted inner) entries
    | some (.table .implied inner) =>
      match path with
      | [_] => none
      | _ =>
        (addPair inner path value).map fun inner => setEntry name (.table .implied inner) entries
    | some (.tables items) =>
      match path, items.getLast? with
      | _ :: _ :: _, some (.table origin inner) =>
        (addPair inner path value).map fun inner =>
          setEntry name (.tables (items.dropLast ++ [.table origin inner])) entries
      | _, _ => none
    | some _ => none
where
  /-- Puts a value in place of the one under a name. -/
  setEntry (name : String) (value : Toml) (entries : List (String × Toml)) :
      List (String × Toml) :=
    entries.map fun (k, v) => if k = name then (k, value) else (k, v)

/-- Adds pairs one after the other. -/
def addPairs (entries : List (String × Toml)) (pairs : List Pair) : Option (List (String × Toml)) :=
  pairs.foldlM (fun entries (path, value) => addPair entries path value) entries

/-- Reads the items of an array up to its end. -/
def arrayItems (item : Reader Toml) : (fuel : Nat) → Reader (List Toml)
  | 0, _ => none
  | fuel + 1, cs =>
    match skipLayout cs with
    | ']' :: rest => some ([], rest)
    | cs =>
      match item cs with
      | none => none
      | some (v, rest) =>
        match skipLayout rest with
        | ',' :: rest => (arrayItems item fuel rest).map fun (vs, rest) => (v :: vs, rest)
        | ']' :: rest => some ([v], rest)
        | _ => none

/-- Reads a key, an equals sign and a value. -/
def pair (value : Reader Toml) : Reader Pair := fun cs =>
  match key cs with
  | some (path, '=' :: rest) => (value (skipGap rest)).map fun (v, rest) => ((path, v), rest)
  | _ => none

/-- Reads the pairs of a table in braces up to its end. -/
def inlinePairs (value : Reader Toml) : (fuel : Nat) → Reader (List Pair)
  | 0, _ => none
  | fuel + 1, cs =>
    match pair value cs with
    | none => none
    | some (p, rest) =>
      match skipGap rest with
      | ',' :: rest => (inlinePairs value fuel rest).map fun (ps, rest) => (p :: ps, rest)
      | '\x7d' :: rest => some ([p], rest)
      | _ => none

/-- Reads a table in braces. -/
def inlineTable (value : Reader Toml) : Reader Toml := fun cs =>
  match skipGap cs with
  | '\x7d' :: rest => some (.table .inline [], rest)
  | cs =>
    match inlinePairs value (cs.length + 1) cs with
    | none => none
    | some (ps, rest) => (addPairs [] ps).map fun entries => (.table .inline entries, rest)

/-- Reads a number, a date or a time. -/
def numberOrDate : Reader Toml := fun cs =>
  match dateTime? cs with
  | some rest => some (.dateTime, rest)
  | none =>
    (((float? cs).or (special? cs)).or (integer? cs)).map fun rest => (.scalar, rest)

/-- Reads a truth value. -/
def truthValue : Reader Toml
  | 't' :: 'r' :: 'u' :: 'e' :: rest => some (.scalar, rest)
  | 'f' :: 'a' :: 'l' :: 's' :: 'e' :: rest => some (.scalar, rest)
  | _ => none

/-- Reads a value that holds no other. -/
def simpleValue : Reader Toml := fun cs =>
  match quotedText cs with
  | some (chars, rest) => some (.text (String.ofList chars), rest)
  | none => (truthValue cs).or (numberOrDate cs)

/-- Reads a value in which others are nested at most `depth` deep. -/
def valueWithin : (depth : Nat) → Reader Toml
  | 0, cs => if cs.head? = some '[' ∨ cs.head? = some '\x7b' then none else simpleValue cs
  | depth + 1, cs =>
    match cs with
    | '[' :: rest =>
      (arrayItems (valueWithin depth) (rest.length + 1) rest).map fun (vs, rest) => (.array vs, rest)
    | '\x7b' :: rest => inlineTable (valueWithin depth) rest
    | _ => simpleValue cs

/-- Reads a value. -/
def value : Reader Toml :=
  valueWithin maxDepth

/-! ### Statements -/

/-- A statement of a TOML text. -/
inductive Statement
  | pair (path : List String) (value : Toml)
  /-- The header of a table. -/
  | table (path : List String)
  /-- The header of one more table of a list. -/
  | element (path : List String)

/-- Reads the header of a table behind its first bracket. -/
def header : Reader Statement
  | '[' :: cs =>
    match key cs with
    | some (path, ']' :: ']' :: rest) => some (.element path, rest)
    | _ => none
  | cs =>
    match key cs with
    | some (path, ']' :: rest) => some (.table path, rest)
    | _ => none

/-- Reads a statement. -/
def statement : Reader Statement
  | '[' :: cs => header cs
  | cs => (pair value cs).map fun ((path, v), rest) => (.pair path v, rest)

/-- The statements of a text, at most `fuel` lines of them. -/
def statementsWithin : (fuel : Nat) → List Char → Option (List Statement)
  | 0, _ => none
  | fuel + 1, cs =>
    match skipGap cs with
    | [] => some []
    | cs =>
      match lineEnd? cs with
      | some rest => statementsWithin fuel rest
      | none =>
        match statement cs with
        | none => none
        | some (s, rest) =>
          match lineEnd? rest with
          | none => none
          | some rest => (statementsWithin fuel rest).map (s :: ·)

/-- The text without the mark of its encoding at the start. -/
def skipByteOrderMark : List Char → List Char
  | c :: cs => if c.toNat = 0xFEFF then cs else c :: cs
  | [] => []

/-- The statements of a text. -/
def statements? (cs : List Char) : Option (List Statement) :=
  let cs := skipByteOrderMark cs
  statementsWithin (cs.length + 1) cs

end DocForest.Toml
