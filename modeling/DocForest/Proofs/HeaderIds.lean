/-
The id of a header can be read back.

A header id is the name of the header in a form that may stand in a link: the bytes of the
name in UTF-8, most of them written as a percent sign and two hexadecimal digits.  The
reader below is the one that links are read with.  It takes digits of either case, and a
percent sign without two digits behind it stands for itself.

Reading back works because the percent sign is not among the bytes that stand for
themselves; a name with a percent sign in it would otherwise look like an encoded one.  The
other bytes that do stand for themselves could be any.  Since names with one id are read
back alike, the records of two headers never fall together.
-/
import DocForest.Identity.Id

namespace DocForest

/-! ### The bytes of a text -/

/-- The bytes of a text in UTF-8. -/
def utf8Bytes (s : String) : List UInt8 :=
  s.toUTF8.data.toList

/-- The text that some bytes spell in UTF-8, if they spell one. -/
def ofUtf8Bytes? (bytes : List UInt8) : Option String :=
  String.fromUTF8? bytes.toByteArray

theorem utf8Bytes_ofList (cs : List Char) :
    utf8Bytes (String.ofList cs) = cs.flatMap String.utf8EncodeChar := by
  show (cs.flatMap String.utf8EncodeChar).toByteArray.data.toList = _
  exact List.toList_data_toByteArray

theorem utf8Bytes_eq (s : String) : utf8Bytes s = s.toList.flatMap String.utf8EncodeChar := by
  rw [← utf8Bytes_ofList, String.ofList_toList]

theorem ofUtf8Bytes?_utf8Bytes (s : String) : ofUtf8Bytes? (utf8Bytes s) = some s := by
  have hbytes : (utf8Bytes s).toByteArray = s.toByteArray := by
    rw [utf8Bytes_eq]
    exact String.utf8Encode_toList
  unfold ofUtf8Bytes? String.fromUTF8?
  rw [hbytes, dif_pos s.isValidUTF8]
  rfl

theorem toNat_ofNat_of_lt {n : Nat} (h : n < 128) : (Char.ofNat n).toNat = n := by
  have hvalid : n.isValidChar := Or.inl (by omega)
  unfold Char.ofNat
  rw [dif_pos hvalid]
  rfl

/-- A character of ASCII is a single byte. -/
theorem utf8EncodeChar_ofNat {n : Nat} (h : n < 128) :
    String.utf8EncodeChar (Char.ofNat n) = [UInt8.ofNat n] := by
  have hval : (Char.ofNat n).val.toNat = n := toNat_ofNat_of_lt h
  unfold String.utf8EncodeChar
  rw [hval]
  exact if_pos (by omega)

/-! ### Reading percent signs -/

/-- The value of a hexadecimal digit, in upper or in lower case. -/
def hexValue? (b : UInt8) : Option Nat :=
  let n := b.toNat
  if 48 ≤ n ∧ n ≤ 57 then some (n - 48)
  else if 65 ≤ n ∧ n ≤ 70 then some (n - 55)
  else if 97 ≤ n ∧ n ≤ 102 then some (n - 87)
  else none

/-- The byte that a percent sign and two digits stand for. -/
def escaped? (mark high low : UInt8) : Option UInt8 :=
  if mark = 37 then
    (hexValue? high).bind fun h => (hexValue? low).map fun l => UInt8.ofNat (16 * h + l)
  else none

/-- Replaces every percent sign that has two hexadecimal digits behind it by the byte that
they stand for. -/
def percentDecode : List UInt8 → List UInt8
  | b :: high :: low :: rest =>
    match escaped? b high low with
    | some byte => byte :: percentDecode rest
    | none => b :: percentDecode (high :: low :: rest)
  | bytes => bytes

/-- The name that the id of a header stands for. -/
def readHeaderId (id : String) : Option String :=
  ofUtf8Bytes? (percentDecode (utf8Bytes id))

theorem percentDecode_cons_of_ne {b : UInt8} (h : b ≠ 37) (rest : List UInt8) :
    percentDecode (b :: rest) = b :: percentDecode rest := by
  match rest with
  | [] => rfl
  | [_] => rfl
  | _ :: _ :: _ => rw [percentDecode, escaped?, if_neg h]

/-! ### Bytes that are written and read -/

/-- The bytes that stand for themselves: digits, letters, and four more. -/
theorem isPlainByte_iff {b : UInt8} : isPlainByte b = true ↔
    (48 ≤ b.toNat ∧ b.toNat ≤ 57) ∨ (65 ≤ b.toNat ∧ b.toNat ≤ 90) ∨
      (97 ≤ b.toNat ∧ b.toNat ≤ 122) ∨ b.toNat ∈ [45, 46, 95, 126] := by
  simp only [isPlainByte, Bool.or_eq_true, Bool.and_eq_true, decide_eq_true_eq, beq_iff_eq,
    UInt8.le_iff_toNat_le, ← UInt8.toNat_inj, UInt8.toNat_ofNat, Nat.reducePow, Nat.reduceMod,
    List.mem_cons, List.not_mem_nil, or_false]
  omega

/-- A byte that stands for itself is one of ASCII, and not the percent sign. -/
theorem toNat_of_isPlainByte {b : UInt8} (h : isPlainByte b = true) :
    b.toNat < 128 ∧ b.toNat ≠ 37 := by
  have hplain := isPlainByte_iff.mp h
  simp only [List.mem_cons, List.not_mem_nil, or_false] at hplain
  omega

/-- A digit is written as one byte, which has its value. -/
theorem utf8EncodeChar_upperHexDigit {n : Nat} (h : n < 16) :
    ∃ b, String.utf8EncodeChar (upperHexDigit n) = [b] ∧ hexValue? b = some n := by
  unfold upperHexDigit
  by_cases hn : n < 10
  · rw [if_pos hn]
    refine ⟨UInt8.ofNat (48 + n), utf8EncodeChar_ofNat (by omega), ?_⟩
    have hvalue : (UInt8.ofNat (48 + n)).toNat = 48 + n := by
      rw [UInt8.toNat_ofNat', Nat.mod_eq_of_lt (by omega)]
    unfold hexValue?
    rw [hvalue, if_pos (by omega), Nat.add_sub_cancel_left]
  · rw [if_neg hn]
    refine ⟨UInt8.ofNat (55 + n), utf8EncodeChar_ofNat (by omega), ?_⟩
    have hvalue : (UInt8.ofNat (55 + n)).toNat = 55 + n := by
      rw [UInt8.toNat_ofNat', Nat.mod_eq_of_lt (by omega)]
    unfold hexValue?
    rw [hvalue, if_neg (by omega), if_pos (by omega), Nat.add_sub_cancel_left]

/-- **A byte is read as it was written.** -/
theorem percentDecode_percentByte (b : UInt8) (rest : List UInt8) :
    percentDecode ((percentByte b).flatMap String.utf8EncodeChar ++ rest) =
      b :: percentDecode rest := by
  unfold percentByte
  by_cases hplain : isPlainByte b = true
  · obtain ⟨hascii, hne⟩ := toNat_of_isPlainByte hplain
    have hb : b ≠ 37 := by
      rintro rfl
      exact hne rfl
    rw [if_pos hplain, List.flatMap_singleton, utf8EncodeChar_ofNat hascii, UInt8.ofNat_toNat]
    exact percentDecode_cons_of_ne hb rest
  · have hlt : b.toNat < 256 := b.toNat_lt
    obtain ⟨high, hhigh, hhighValue⟩ := utf8EncodeChar_upperHexDigit (n := b.toNat / 16) (by omega)
    obtain ⟨low, hlow, hlowValue⟩ := utf8EncodeChar_upperHexDigit (n := b.toNat % 16) (by omega)
    have hmark : String.utf8EncodeChar '%' = [37] := rfl
    have hbyte : UInt8.ofNat (16 * (b.toNat / 16) + b.toNat % 16) = b := by
      rw [Nat.div_add_mod, UInt8.ofNat_toNat]
    rw [if_neg hplain]
    simp only [List.flatMap_cons, List.flatMap_nil, hmark, hhigh, hlow, List.append_nil,
      List.cons_append, List.nil_append]
    rw [percentDecode, escaped?, if_pos rfl, hhighValue, hlowValue]
    simp only [Option.bind_some, Option.map_some, hbyte]

theorem percentDecode_flatMap (bytes : List UInt8) :
    percentDecode ((bytes.flatMap percentByte).flatMap String.utf8EncodeChar) = bytes := by
  induction bytes with
  | nil => rfl
  | cons b rest ih =>
      rw [List.flatMap_cons, List.flatMap_append, percentDecode_percentByte, ih]

theorem toList_headerId (name : String) :
    (headerId name).toList = (utf8Bytes name).flatMap percentByte := by
  rw [headerId, String.toList_ofList, utf8Bytes_eq, List.flatMap_assoc]

theorem readHeaderId_headerId (name : String) : readHeaderId (headerId name) = some name := by
  rw [readHeaderId, utf8Bytes_eq, toList_headerId, percentDecode_flatMap, ofUtf8Bytes?_utf8Bytes]

/-! ### The characters of an id -/

/-- Whether a character may stand in the id of a header. -/
def isHeaderIdChar (c : Char) : Bool :=
  c.isAlphanum || ['_', '.', '~', '-', '%'].contains c

theorem isAlphanum_iff {c : Char} : c.isAlphanum = true ↔
    (48 ≤ c.toNat ∧ c.toNat ≤ 57) ∨ (65 ≤ c.toNat ∧ c.toNat ≤ 90) ∨
      (97 ≤ c.toNat ∧ c.toNat ≤ 122) := by
  show ((decide (65 ≤ c.toNat ∧ c.toNat ≤ 90) ||
    (decide (97 ≤ c.toNat) && decide (c.toNat ≤ 122))) ||
    (decide (48 ≤ c.toNat) && decide (c.toNat ≤ 57))) = true ↔ _
  simp only [Bool.or_eq_true, Bool.and_eq_true, decide_eq_true_eq]
  omega

theorem isHeaderIdChar_upperHexDigit {n : Nat} (h : n < 16) :
    isHeaderIdChar (upperHexDigit n) = true := by
  have halphanum : (upperHexDigit n).isAlphanum = true := by
    unfold upperHexDigit
    by_cases hn : n < 10
    · rw [if_pos hn, isAlphanum_iff, toNat_ofNat_of_lt (by omega)]
      omega
    · rw [if_neg hn, isAlphanum_iff, toNat_ofNat_of_lt (by omega)]
      omega
  rw [isHeaderIdChar, halphanum, Bool.true_or]

theorem isHeaderIdChar_of_isPlainByte {b : UInt8} (h : isPlainByte b = true) :
    isHeaderIdChar (Char.ofNat b.toNat) = true := by
  have halphanum := @isAlphanum_iff (Char.ofNat b.toNat)
  rw [toNat_ofNat_of_lt (toNat_of_isPlainByte h).1] at halphanum
  rw [isHeaderIdChar, Bool.or_eq_true, halphanum]
  rcases isPlainByte_iff.mp h with hdigit | hupper | hlower | hother
  · exact Or.inl (Or.inl hdigit)
  · exact Or.inl (Or.inr (Or.inl hupper))
  · exact Or.inl (Or.inr (Or.inr hlower))
  · simp only [List.mem_cons, List.not_mem_nil, or_false] at hother
    rcases hother with hb | hb | hb | hb <;> rw [hb] <;> exact Or.inr rfl

/-- **Nothing else stands in an id.** -/
theorem all_isHeaderIdChar (name : String) : (headerId name).toList.all isHeaderIdChar = true := by
  rw [toList_headerId, List.all_flatMap, List.all_eq_true]
  intro b _
  unfold percentByte
  by_cases hplain : isPlainByte b = true
  · rw [if_pos hplain, List.all_cons, isHeaderIdChar_of_isPlainByte hplain]
    rfl
  · have hlt : b.toNat < 256 := b.toNat_lt
    rw [if_neg hplain]
    simp only [List.all_cons, List.all_nil, Bool.and_true, Bool.and_eq_true]
    exact ⟨rfl, isHeaderIdChar_upperHexDigit (by omega), isHeaderIdChar_upperHexDigit (by omega)⟩

/--
**A header id is a reversible encoding.**  It is made of letters and digits of ASCII and five
more characters, it can be read back, and so no two names have the same one.
-/
theorem headerId_reversible (name : String) :
    (headerId name).toList.all isHeaderIdChar = true ∧
      readHeaderId (headerId name) = some name ∧
      ∀ other, headerId name = headerId other ↔ name = other := by
  refine ⟨all_isHeaderIdChar name, readHeaderId_headerId name, ?_⟩
  intro other
  refine ⟨?_, congrArg headerId⟩
  intro hid
  have hread : some name = some other := by
    rw [← readHeaderId_headerId name, hid, readHeaderId_headerId]
  exact Option.some.inj hread

end DocForest
