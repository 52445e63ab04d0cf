/-
Blank characters, and the ways a text is cut along them.

A character is blank when it carries the property White_Space.  There are
twenty-five of them, and every function of the library that trims a text or
takes it apart into words means exactly these.
-/
namespace DocForest.Text

/-- The characters with the property White_Space. -/
def isBlank (c : Char) : Bool :=
  let n := c.toNat
  (9 ≤ n && n ≤ 13) || n == 0x20 || n == 0x85 || n == 0xA0 || n == 0x1680 ||
    (0x2000 ≤ n && n ≤ 0x200A) || n == 0x2028 || n == 0x2029 || n == 0x202F ||
    n == 0x205F || n == 0x3000

/-- The text without the blanks it starts with. -/
def trimStart (cs : List Char) : List Char :=
  cs.dropWhile isBlank

/-- The text without the blanks it ends with. -/
def trimEnd (cs : List Char) : List Char :=
  (cs.reverse.dropWhile isBlank).reverse

/-- The text without the blanks at either end. -/
def trim (cs : List Char) : List Char :=
  trimEnd (trimStart cs)

/-- What is left of a text when every blank is taken out. -/
def eraseBlanks (cs : List Char) : List Char :=
  cs.filter (!isBlank ·)

/-! ### Pieces between marked characters -/

/-- Puts a character in front of the first piece. -/
def consFirst (c : Char) : List (List Char) → List (List Char)
  | [] => [[c]]
  | piece :: rest => (c :: piece) :: rest

/-- The pieces that the characters marked by `p` leave between them.  There is
always one more piece than there are marked characters. -/
def pieces (p : Char → Bool) : List Char → List (List Char)
  | [] => [[]]
  | c :: cs => if p c then [] :: pieces p cs else consFirst c (pieces p cs)

/-- The words of a text: its pieces between blanks, the empty ones left out. -/
def words (cs : List Char) : List (List Char) :=
  (pieces isBlank cs).filter (!·.isEmpty)

/-- The texts of a list with a separator between neighbours. -/
def join (separator : List Char) : List (List Char) → List Char
  | [] => []
  | [piece] => piece
  | piece :: rest => piece ++ separator ++ join separator rest

/-- The words of a text with one space between neighbours. -/
def squeeze (cs : List Char) : List Char :=
  join [' '] (words cs)

/-- The first word of a text, and what follows it, both trimmed. -/
def splitFirstWord (cs : List Char) : List Char × List Char :=
  let body := trim cs
  (body.takeWhile (!isBlank ·), trimStart (body.dropWhile (!isBlank ·)))

end DocForest.Text
