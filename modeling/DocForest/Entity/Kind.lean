/-
What a documented thing can be.
-/
namespace DocForest

/-- Who may use a member of a class. -/
inductive Access
  | pub
  | prot
  | priv
  deriving DecidableEq

/-- The access as it is written. -/
def Access.text : Access → String
  | pub => "public"
  | prot => "protected"
  | priv => "private"

/-- The word that introduces a class. -/
inductive ClassKey
  | cls
  | struct
  | union
  deriving DecidableEq

/-- The kind of a documented thing. -/
inductive Kind
  | nameSpace
  | record (key : ClassKey)
  | enumeration
  | enumerator
  | function
  | var
  | typeAlias
  | macroDef
  deriving DecidableEq

namespace Kind

/-- The word for a kind in a document and in messages. -/
def text : Kind → String
  | nameSpace => "namespace"
  | record .cls => "class"
  | record .struct => "struct"
  | record .union => "union"
  | enumeration => "enum"
  | enumerator => "enum_value"
  | function => "function"
  | var => "variable"
  | typeAlias => "alias"
  | macroDef => "macro"

/-- Whether things of this kind have members. -/
def isScope : Kind → Bool
  | nameSpace | record _ | enumeration => true
  | _ => false

/-- Whether things of this kind are classes, whatever word introduces them. -/
def isRecord : Kind → Bool
  | record _ => true
  | _ => false

/-- The kind of thing that a documentation command of this name describes. -/
def ofCommand? : String → Option Kind
  | "class" => some (record .cls)
  | "struct" => some (record .struct)
  | "union" => some (record .union)
  | "namespace" => some nameSpace
  | "enum" => some enumeration
  | "function" | "fn" => some function
  | "variable" | "var" => some var
  | "alias" | "typedef" => some typeAlias
  | "macro" | "def" => some macroDef
  | _ => none

end Kind

end DocForest
