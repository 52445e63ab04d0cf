/-
What a declaration becomes in a document.
-/
import DocForest.Entity.Detail
import DocForest.Source.Declaration

namespace DocForest.Source

/-- The kind of entity that a declaration becomes, and what its own kind says besides. -/
structure Classification where
  kind : Kind
  isTemplate : Bool := false
  role : Role := .function
  isField : Bool := false
  isTypedef : Bool := false
  deriving DecidableEq

/-- The class key that a token is. -/
def classKeyOf : Option String → ClassKey
  | some "struct" => .struct
  | some "union" => .union
  | _ => .cls

/-- How many angle brackets are open behind a token. -/
def angleDepth (depth : Nat) (token : String) : Nat :=
  if token = "<" then depth + 1
  else if token = ">" then depth - 1
  else if token = ">>" then depth - 2
  else depth

/-- The class key behind the first angle brackets that close, where `depth` of them are
open and `opened` says whether any was. -/
def keyAfterAngles (depth : Nat) (opened : Bool) : List String → ClassKey
  | [] => .cls
  | t :: ts =>
    if (opened || t == "<") && angleDepth depth t == 0 then classKeyOf ts.head?
    else keyAfterAngles (angleDepth depth t) (opened || t == "<") ts

/-- The class key of a class template. -/
def templateClassKey (tokens : List String) : ClassKey :=
  keyAfterAngles 0 false tokens

/-- The role of a function template, which follows from the scope around it. -/
def templateRole (name : String) (parent : Option (Kind × String)) : Role :=
  match parent with
  | some (.record _, className) =>
    if name = className then .constructor
    else if name.toList.head? = some '~' then .destructor
    else .method
  | _ => .function

/-- Classifies a declaration, given kind and name of the scope around it.  What becomes
no entity has no classification. -/
def classify (kind : DeclKind) (name : String) (tokens : List String)
    (parent : Option (Kind × String)) : Option Classification :=
  match kind with
  | .nameSpace => some { kind := .nameSpace }
  | .record key => some { kind := .record key }
  | .classTemplate | .partialSpecialization =>
    some { kind := .record (templateClassKey tokens), isTemplate := true }
  | .enumeration => some { kind := .enumeration }
  | .enumerator => some { kind := .enumerator }
  | .function => some { kind := .function }
  | .functionTemplate =>
    some { kind := .function, isTemplate := true, role := templateRole name parent }
  | .method => some { kind := .function, role := .method }
  | .constructor => some { kind := .function, role := .constructor }
  | .destructor => some { kind := .function, role := .destructor }
  | .conversion => some { kind := .function, role := .conversion }
  | .field => some { kind := .var, isField := true }
  | .var => some { kind := .var }
  | .typedef => some { kind := .typeAlias, isTypedef := true }
  | .typeAlias => some { kind := .typeAlias }
  | .aliasTemplate => some { kind := .typeAlias, isTemplate := true }
  | .typeParameter | .valueParameter | .templateParameter | .base | .accessLabel | .parameter
  | .unexposed | .linkage | .other => none

/-- Classifies a scope that is only named. -/
def Symbol.classify? (s : Symbol) : Option Classification :=
  (classify s.kind s.name s.tokens none).filter (·.kind.isScope)

end DocForest.Source
