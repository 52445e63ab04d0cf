/-
What the tokens of a declaration say besides what its parser reports.

The scan finds the declared name.  Specifiers stand before it; those of a function also
stand behind its parameter list.  What stands in parentheses is passed over whole.
-/
import DocForest.Entity.Detail
import DocForest.Text.Search

namespace DocForest.Source

/-- The specifiers of a declaration. -/
structure Specifiers where
  isVirtual : Bool := false
  isStatic : Bool := false
  isExplicit : Bool := false
  isInline : Bool := false
  isConstexpr : Bool := false
  isExternal : Bool := false
  isMutable : Bool := false
  isConst : Bool := false
  isFinal : Bool := false
  isOverride : Bool := false
  isPure : Bool := false
  isDefaulted : Bool := false
  isDeleted : Bool := false
  isNoexcept : Bool := false
  refQualifier : Option RefQualifier := none
  deriving DecidableEq

/-! ### Brackets -/

/-- How many brackets a token closes; two angle brackets may be one token. -/
def closing (close token : String) : Nat :=
  if token = close then 1 else if close = ">" ∧ token = ">>" then 2 else 0

/-- The number of tokens up to the one that closes the last of `depth` open brackets.
Without such a token it is the number of all tokens. -/
def bracketLength (openMark close : String) (depth : Nat) : List String → Nat
  | [] => 0
  | t :: ts =>
    if t = openMark then bracketLength openMark close (depth + 1) ts + 1
    else if 0 < closing close t ∧ depth ≤ closing close t then 1
    else bracketLength openMark close (depth - closing close t) ts + 1

/-- The number of tokens of the parenthesis at the start. -/
def parenLength (ts : List String) : Nat :=
  bracketLength "(" ")" 0 ts

/-- The number of tokens of the angle bracket at the start. -/
def angleLength (ts : List String) : Nat :=
  bracketLength "<" ">" 0 ts

/-- The tokens behind the template headers at the start. -/
def dropTemplateHeaders : List String → List String
  | "template" :: "<" :: ts => dropTemplateHeaders (ts.drop (angleLength ("<" :: ts) - 1))
  | ts => ts
termination_by ts => ts.length
decreasing_by simp only [List.length_cons, List.length_drop]; omega

/-! ### The declared name -/

/-- The number of tokens that spell a text at the start of a list. -/
def spelledBy? (text : List Char) : List String → Option Nat
  | [] => none
  | t :: ts =>
    match Text.dropStart? t.toList text with
    | none => none
    | some [] => some 1
    | some rest => (spelledBy? rest ts).map (· + 1)

/-- The last part of a qualified name, without blanks. -/
def unqualified (name : String) : List Char :=
  Text.eraseBlanks ((Text.cutOrAll [':', ':'] name.toList.reverse).1.reverse)

/-- Where a declared name stands: the number of tokens before it, and its own. -/
structure NamePlace where
  before : Nat
  length : Nat
  deriving DecidableEq

/-- The first place that spells a text and whose next token is accepted. -/
def placeWhere? (accept : Option String → Bool) (text : List Char) :
    List String → Option NamePlace
  | [] => none
  | t :: ts =>
    let later := (placeWhere? accept text ts).map fun p => { p with before := p.before + 1 }
    match spelledBy? text (t :: ts) with
    | some n => if accept ((t :: ts)[n]?) then some ⟨0, n⟩ else later
    | none => later

/-- Whether a token starts a parameter list or template arguments. -/
def startsArguments (next : Option String) : Bool :=
  next == some "(" || next == some "<"

/-- The place of the declared name.  One with parameters or template arguments is
preferred; a name that only qualifies another is none. -/
def namePlace? (name : String) (ts : List String) : Option NamePlace :=
  let text := unqualified name
  if text.isEmpty then none
  else
    (placeWhere? startsArguments text ts).or
      (placeWhere? (fun next => next != some "::") text ts)

/-! ### Specifiers -/

/-- Notes a specifier that stands before the name. -/
def Specifiers.lead (s : Specifiers) : String → Specifiers
  | "virtual" => { s with isVirtual := true }
  | "static" => { s with isStatic := true }
  | "explicit" => { s with isExplicit := true }
  | "inline" => { s with isInline := true }
  | "constexpr" | "consteval" => { s with isConstexpr := true }
  | "extern" => { s with isExternal := true }
  | "mutable" => { s with isMutable := true }
  | _ => s

/-- Notes what is assigned to a function in place of a body. -/
def Specifiers.assign (s : Specifiers) : Option String → Specifiers
  | some "0" => { s with isPure := true }
  | some "default" => { s with isDefaulted := true }
  | some "delete" => { s with isDeleted := true }
  | _ => s

/-- Reads the specifiers behind a parameter list.  Behind an arrow stands the type of
the result, whose qualifiers are not those of the function. -/
def Specifiers.trail (s : Specifiers) (inResult : Bool) : List String → Specifiers
  | [] => s
  | t :: ts =>
    if t = "\x7b" ∨ t = ";" ∨ t = ":" then s
    else if t = "=" then s.assign ts.head?
    else if t = "->" then trail s true ts
    else if t = "const" ∧ ¬inResult then trail { s with isConst := true } inResult ts
    else if t = "&" ∧ ¬inResult then trail { s with refQualifier := some .lvalue } inResult ts
    else if t = "&&" ∧ ¬inResult then trail { s with refQualifier := some .rvalue } inResult ts
    else if t = "override" then trail { s with isOverride := true } inResult ts
    else if t = "final" then trail { s with isFinal := true } inResult ts
    else if t = "noexcept" then
      if ts.head? = some "(" then
        trail { s with isNoexcept := !(ts.take (parenLength ts)).contains "false" } inResult
          (ts.drop (parenLength ts))
      else trail { s with isNoexcept := true } inResult ts
    else if t = "throw" ∧ ts.head? = some "(" then trail s inResult (ts.drop (parenLength ts))
    else trail s inResult ts
termination_by ts => ts.length
decreasing_by all_goals simp only [List.length_cons, List.length_drop]; omega

/-- The tokens behind template arguments at the start, if there are any. -/
def dropArguments (ts : List String) : List String :=
  if ts.head? = some "<" then ts.drop (angleLength ts) else ts

/-- The specifiers of a function. -/
def functionSpecifiers (tokens : List String) (name : String) : Specifiers :=
  let ts := dropTemplateHeaders tokens
  match namePlace? name ts with
  | none => {}
  | some place =>
    let s := (ts.take place.before).foldl Specifiers.lead {}
    let rest := dropArguments (ts.drop (place.before + place.length))
    if rest.head? = some "(" then s.trail false (rest.drop (parenLength rest)) else s

/-- The specifiers of a variable. -/
def varSpecifiers (tokens : List String) (name : String) : Specifiers :=
  let ts := dropTemplateHeaders tokens
  let before := ((namePlace? name ts).map (·.before)).getD ts.length
  (ts.take before).foldl Specifiers.lead {}

/-- Whether the head of a class ends the line of its heirs. -/
def isFinalClass (tokens : List String) (name : String) : Bool :=
  let head := (dropTemplateHeaders tokens).takeWhile fun t => !(t == "\x7b" || t == ";")
  ((head.dropWhile (· != name)).drop 1).head? == some "final"

/-- Whether the values of an enumeration are named through it. -/
def isScopedEnum (tokens : List String) : Bool :=
  tokens.head? == some "enum" &&
    (tokens[1]? == some "class" || tokens[1]? == some "struct")

end DocForest.Source
