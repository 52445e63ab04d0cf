/-
Ids: the names under which a document knows its entities and headers.

An id is built from the name and from the id of the enclosing scope, so that the same
declaration has the same id in every run.  Functions of one name differ in their
signature, which is therefore part of the id.
-/
import DocForest.Entity.Detail

namespace DocForest

/-- What tells apart things of one name in one scope. -/
structure Signature where
  isTemplate : Bool := false
  arguments : List TypeUse := []
  isConst : Bool := false
  refQualifier : Option RefQualifier := none
  deriving DecidableEq

/-- The signature of a thing. -/
def Detail.signature : Detail → Signature
  | record _ r => { isTemplate := r.isTemplate }
  | typeAlias a => { isTemplate := a.isTemplate }
  | function f =>
    { isTemplate := f.isTemplate
      arguments := f.arguments.map (·.type)
      isConst := f.isConst
      refQualifier := f.refQualifier }
  | _ => {}

/-- The mark of a reference qualifier in an id. -/
def RefQualifier.idPart : RefQualifier → List Char
  | lvalue => ['-', 'L']
  | rvalue => ['-', 'R']

/-- What the parameters and qualifiers of a function add to its id. -/
def Signature.callPart (s : Signature) : List Char :=
  s.arguments.flatMap (·.idPart) ++ (if s.isConst then ['-', 'C'] else []) ++
    ((s.refQualifier.map RefQualifier.idPart).getD [])

/-- The id of a thing from its kind, its name, the id of the enclosing scope and its
signature. -/
def memberId (kind : Kind) (name parent : String) (s : Signature) : String :=
  String.ofList
    ((if parent.isEmpty then [] else parent.toList ++ ['-']) ++ name.toList ++
      (if s.isTemplate then ['-', 'T'] else []) ++
      if kind = .function then s.callPart else [])

/-! ### Headers -/

/-- The bytes that stand for themselves in the id of a header. -/
def isPlainByte (b : UInt8) : Bool :=
  (48 ≤ b && b ≤ 57) || (65 ≤ b && b ≤ 90) || (97 ≤ b && b ≤ 122) ||
    b == 45 || b == 46 || b == 95 || b == 126

/-- A hexadecimal digit, in upper case. -/
def upperHexDigit (n : Nat) : Char :=
  if n < 10 then Char.ofNat (48 + n) else Char.ofNat (55 + n)

/-- A byte in the id of a header: itself, or a percent sign and two digits. -/
def percentByte (b : UInt8) : List Char :=
  if isPlainByte b then [Char.ofNat b.toNat]
  else ['%', upperHexDigit (b.toNat / 16), upperHexDigit (b.toNat % 16)]

/-- The id of a header: its name with all bytes that could not stand in a link
written as numbers. -/
def headerId (name : String) : String :=
  String.ofList (name.toList.flatMap fun c => (String.utf8EncodeChar c).flatMap percentByte)

/-! ### Scopes without a name -/

/-- Whether a scope has no name of its own. -/
def isAnonymous (name : String) : Bool :=
  name.isEmpty || "(anonymous".toList.isPrefixOf name.toList ||
    "(unnamed".toList.isPrefixOf name.toList

end DocForest
