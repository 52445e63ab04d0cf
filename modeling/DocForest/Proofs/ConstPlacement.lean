/-
A `const` before the name of a type and one behind it.

Both are meant to give the same use of the type: the one before the name is kept aside and
counts as the first qualifier, where the one behind the name is read anyway.  This is so for
names that are not written from the outermost scope (`parse_const_before`).  The `::` at the
start of the others takes the `const` for the scope that it names, so that the two are read as
one name (`parse_const_before_global`).
-/
import DocForest.Proofs.NormalSpelling

namespace DocForest.TypeUse

open Text

/-! ### Names of types -/

/-- What may be an identifier: a word without a colon and a parenthesis. -/
structure IsIdentifier (cs : List Char) : Prop where
  nonempty : cs ≠ []
  chars : ∀ c ∈ cs, isWordChar c = true
  colon : ':' ∉ cs
  paren : '(' ∉ cs

instance (cs : List Char) : Decidable (IsIdentifier cs) :=
  decidable_of_iff (cs ≠ [] ∧ cs.all isWordChar = true ∧ ':' ∉ cs ∧ '(' ∉ cs)
    ⟨fun ⟨hnonempty, hchars, hcolon, hparen⟩ =>
        ⟨hnonempty, List.all_eq_true.mp hchars, hcolon, hparen⟩,
      fun h => ⟨h.nonempty, List.all_eq_true.mpr h.chars, h.colon, h.paren⟩⟩

/-- The name of a type as it is written: a path of identifiers, from the outermost scope or from
here, and what stands between the brackets of its template arguments. -/
structure TypeName where
  isGlobal : Bool := false
  first : List Char
  inner : List (List Char) := []
  arguments : Option (List Char) := none
  identifiers : ∀ i ∈ first :: inner, IsIdentifier i
  not_reserved : String.ofList first ∉ reserved
  balanced : ∀ inside ∈ arguments, Query.Balanced '<' '>' inside
  paren : ∀ inside ∈ arguments, '(' ∉ inside

namespace TypeName

variable (n : TypeName)

/-- The path of a name, which is read as one word. -/
def word : List Char :=
  if n.isGlobal then ':' :: ':' :: join [':', ':'] (n.first :: n.inner)
  else join [':', ':'] (n.first :: n.inner)

/-- The name as it is written. -/
def text : List Char :=
  n.word ++ n.arguments.elim [] fun inside => '<' :: (inside ++ ['>'])

/-- The template arguments as they are read. -/
def argumentAtoms : List Atom :=
  n.arguments.toList.map fun inside => .arguments (tidyArguments ('<' :: (inside ++ ['>'])))

/-- The name with its template arguments in order. -/
def tidied : List Char :=
  n.word ++ atomsText n.argumentAtoms

theorem first_eq_cons : ∃ c cs, n.first = c :: cs ∧ isWordChar c = true ∧ c ≠ ':' := by
  have hfirst := n.identifiers n.first (by simp)
  obtain ⟨c, cs, heq⟩ := List.exists_cons_of_ne_nil hfirst.nonempty
  refine ⟨c, cs, heq, hfirst.chars c (by simp [heq]), ?_⟩
  rintro rfl
  exact hfirst.colon (by simp [heq])

theorem path_eq_cons : ∃ c cs, join [':', ':'] (n.first :: n.inner) = c :: cs ∧
    isWordChar c = true ∧ c ≠ ':' := by
  obtain ⟨c, cs, heq, hword, hcolon⟩ := n.first_eq_cons
  rw [heq]
  cases n.inner with
  | nil => exact ⟨c, cs, rfl, hword, hcolon⟩
  | cons i is => exact ⟨c, _, rfl, hword, hcolon⟩

theorem word_eq_cons : ∃ c cs, n.word = c :: cs ∧ isWordChar c = true := by
  obtain ⟨c, cs, heq, hword, -⟩ := n.path_eq_cons
  rw [word, heq]
  split
  · exact ⟨':', _, rfl, by decide⟩
  · exact ⟨c, cs, rfl, hword⟩

/-- Only a name from the outermost scope begins with `::`. -/
theorem scope_prefix_word : [':', ':'] <+: n.word ↔ n.isGlobal = true := by
  obtain ⟨c, cs, heq, -, hcolon⟩ := n.path_eq_cons
  rw [word, heq]
  cases n.isGlobal with
  | true => simp
  | false => simpa using fun h : ':' = c => absurd h.symm hcolon

theorem mem_word {c : Char} (hc : c ∈ n.word) : c = ':' ∨ ∃ i ∈ n.first :: n.inner, c ∈ i := by
  have hpath : c = ':' ∨ c ∈ join [':', ':'] (n.first :: n.inner) := by
    rw [word] at hc
    split at hc
    · simpa using hc
    · exact Or.inr hc
  rcases hpath with rfl | hpath
  · exact Or.inl rfl
  · exact (mem_join hpath).imp_left (by simp)

theorem word_chars {c : Char} (hc : c ∈ n.word) : isWordChar c = true := by
  rcases n.mem_word hc with rfl | ⟨i, hi, hci⟩
  · decide
  · exact (n.identifiers i hi).chars c hci

theorem paren_not_mem_text : '(' ∉ n.text := by
  rw [text, List.mem_append, not_or]
  constructor
  · intro hword
    rcases n.mem_word hword with hcolon | ⟨i, hi, hparen⟩
    · exact absurd hcolon (by decide)
    · exact (n.identifiers i hi).paren hparen
  · cases harguments : n.arguments with
    | none => simp
    | some inside => simpa using n.paren inside harguments

/-! ### How a name ends -/

theorem exists_path_eq_concat {i : List Char} {is : List (List Char)}
    (h : ∀ j ∈ i :: is, IsIdentifier j) :
    ∃ cs c, join [':', ':'] (i :: is) = cs ++ [c] ∧ c ≠ ':' := by
  induction is generalizing i with
  | nil =>
      have hi := h i (by simp)
      refine ⟨i.dropLast, i.getLast hi.nonempty, (List.dropLast_append_getLast _).symm, ?_⟩
      intro hcolon
      exact hi.colon (hcolon ▸ List.getLast_mem hi.nonempty)
  | cons j is ih =>
      obtain ⟨cs, c, heq, hc⟩ := ih (List.forall_mem_cons.mp h).2
      exact ⟨i ++ [':', ':'] ++ cs, c, by rw [join_cons_cons, heq, List.append_assoc _ cs], hc⟩

/-- Nothing goes on a name but what begins with `::` or a bracket. -/
theorem not_scope_suffix_tidied : ¬ [':', ':'] <:+ n.tidied := by
  rw [tidied, argumentAtoms]
  cases harguments : n.arguments with
  | none =>
      obtain ⟨cs, c, heq, hc⟩ := exists_path_eq_concat n.identifiers
      have hword : ∃ us, n.word = us ++ [c] := by
        rw [word, heq]
        split
        · exact ⟨':' :: ':' :: cs, rfl⟩
        · exact ⟨cs, rfl⟩
      obtain ⟨us, hus⟩ := hword
      simpa [atomsText, hus] using not_scope_suffix_concat us hc
  | some inside =>
      obtain ⟨inside', htidy, -⟩ := exists_tidyArguments_balanced (n.balanced inside harguments)
      have hend := not_scope_suffix_concat (n.word ++ '<' :: inside') (c := '>') (by decide)
      simpa [atomsText, Atom.text, htidy] using hend

/-! ### Reading a name -/

theorem atoms_text (rest : List Char) :
    atoms (n.text ++ ' ' :: rest) = .word n.word :: (n.argumentAtoms ++ atoms rest) := by
  have hcut : ∀ {us : List Char}, (∀ c ∈ us.head?, isWordChar c = false) →
      atoms (n.word ++ us) = .word n.word :: atoms us := by
    intro us hus
    obtain ⟨c, cs, heq, -⟩ := n.word_eq_cons
    have hne : n.word ≠ [] := by rw [heq]; exact List.cons_ne_nil c cs
    exact cut_word hne (fun c hc => n.word_chars hc) hus
  rw [text, argumentAtoms]
  cases harguments : n.arguments with
  | none =>
      rw [Option.elim, List.append_nil, hcut (by simp; decide), atoms_blank (by decide)]
      rfl
  | some inside =>
      have hangles := cutAngles_balanced (n.balanced inside harguments) (' ' :: rest)
      rw [Option.elim, List.append_assoc, List.cons_append, List.append_assoc,
        List.singleton_append, hcut (by simp; decide), atoms_arguments, hangles,
        atoms_blank (by decide)]
      rfl

theorem glueOnto_argumentAtoms (p : List Char) (as : List Atom) :
    glueOnto p (n.argumentAtoms ++ as) = glueOnto (p ++ atomsText n.argumentAtoms) as := by
  rw [argumentAtoms]
  cases n.arguments with
  | none => simp [atomsText]
  | some inside => simp [atomsText, glueOnto, Atom.continues]

theorem pieces_text (rest : List Char) :
    pieces (n.text ++ ' ' :: rest) = glueOnto n.tidied (atoms rest) := by
  rw [pieces, atoms_text, glue, glueOnto_argumentAtoms]
  rfl

/-- A name goes on a piece before it exactly if it is written from the outermost scope. -/
theorem glueOnto_text {p : List Char} (hp : ¬ [':', ':'] <:+ p) (rest : List Char) :
    glueOnto p (atoms (n.text ++ ' ' :: rest)) =
      if n.isGlobal then glueOnto (p ++ n.tidied) (atoms rest)
      else p :: glueOnto n.tidied (atoms rest) := by
  have hcontinues : (Atom.word n.word).continues p = n.isGlobal := by
    rw [Bool.eq_iff_iff, ← n.scope_prefix_word]
    simp [Atom.continues, hp]
  rw [atoms_text, glueOnto, hcontinues, glueOnto_argumentAtoms, glueOnto_argumentAtoms,
    List.append_assoc]
  rfl

/-! ### The name as a word -/

theorem tidied_head : ∀ c ∈ n.tidied.head?, isWordChar c = true := by
  obtain ⟨c, cs, heq, hc⟩ := n.word_eq_cons
  simpa [tidied, heq] using hc

theorem tidied_not_reserved : String.ofList n.tidied ∉ reserved := by
  cases harguments : n.arguments with
  | some inside =>
      refine not_reserved_of_mem (c := '<') (Or.inr rfl) ?_
      obtain ⟨inside', htidy, -⟩ := exists_tidyArguments (inside ++ ['>'])
      simp [tidied, argumentAtoms, harguments, atomsText, Atom.text, htidy]
  | none =>
      have htidied : n.tidied = n.word := by simp [tidied, argumentAtoms, harguments, atomsText]
      rw [htidied, word]
      split
      · exact not_reserved_of_mem (Or.inl rfl) (List.mem_cons_self ..)
      · cases n.inner with
        | nil => exact n.not_reserved
        | cons i is =>
            exact not_reserved_of_mem (c := ':') (Or.inl rfl) (by simp [join_cons_cons])

theorem plain_tidied : Plain n.tidied ∧ ¬ IsElaboration n.tidied :=
  plain_of_head n.tidied_head n.tidied_not_reserved

end TypeName

/-! ### Qualifiers -/

/-- A qualifier and a text that it is written with. -/
inductive Spells : Qualifier → List Char → Prop
  | pointer : Spells .pointer ['*']
  | lvalueRef : Spells .lvalueRef ['&']
  | rvalueRef : Spells .rvalueRef ['&', '&']
  | const : Spells .const "const".toList
  | array {inside : List Char} (hclose : ']' ∉ inside) (hparen : '(' ∉ inside) :
      Spells .array ('[' :: (inside ++ [']']))

/-- Qualifiers and a text in which they are written with spaces between them. -/
inductive SpellsAll : List Qualifier → List Char → Prop
  | nil : SpellsAll [] []
  | space {ks : List Qualifier} {cs : List Char} (h : SpellsAll ks cs) : SpellsAll ks (' ' :: cs)
  | last {k : Qualifier} {t : List Char} (h : Spells k t) : SpellsAll [k] t
  | more {k : Qualifier} {t : List Char} {ks : List Qualifier} {cs : List Char} (h : Spells k t)
      (rest : SpellsAll ks cs) : SpellsAll (k :: ks) (t ++ ' ' :: cs)

theorem Spells.paren_not_mem {k : Qualifier} {t : List Char} (h : Spells k t) : '(' ∉ t := by
  cases h with
  | array hclose hparen => simpa using hparen
  | _ => decide

theorem SpellsAll.paren_not_mem {ks : List Qualifier} {cs : List Char} (h : SpellsAll ks cs) :
    '(' ∉ cs := by
  induction h with
  | nil => simp
  | space _ ih => simpa using ih
  | last h => exact h.paren_not_mem
  | more h _ ih => simpa [h.paren_not_mem] using ih

theorem closed_const : (Atom.word "const".toList).Closed :=
  .word (by decide) (List.all_eq_true.mp (by decide))

/-- A qualifier is an atom of its own, which does not continue what is complete. -/
theorem Spells.exists_atom {k : Qualifier} {t : List Char} (h : Spells k t) :
    ∃ a : Atom, a.text = t ∧ a.Closed ∧
      ∀ p, ¬ [':', ':'] <:+ p → a.continues p = false := by
  cases h with
  | pointer => exact ⟨_, rfl, .star, fun _ _ => rfl⟩
  | lvalueRef => exact ⟨_, rfl, .amp, fun _ _ => rfl⟩
  | rvalueRef => exact ⟨_, rfl, .ampAmp, fun _ _ => rfl⟩
  | const =>
      refine ⟨.word "const".toList, rfl, closed_const, fun p hp => ?_⟩
      rw [Atom.continues, ← Bool.not_eq_true, Bool.or_eq_true, List.isSuffixOf_iff_suffix]
      exact not_or.mpr ⟨by decide, hp⟩
  | array hclose _ => exact ⟨_, rfl, .extent hclose, fun _ _ => rfl⟩

theorem Spells.not_scope_suffix {k : Qualifier} {t : List Char} (h : Spells k t) :
    ¬ [':', ':'] <:+ t := by
  cases h with
  | @array inside hclose hparen =>
      exact not_scope_suffix_concat ('[' :: inside) (by decide)
  | _ => decide

theorem Spells.step_eq {k : Qualifier} {t : List Char} (h : Spells k t) {r : Reading}
    (hr : r.words ≠ []) : r.step t = r.qualify k := by
  cases h with
  | const => rw [Reading.step, if_pos rfl, if_neg (by simpa using hr)]
  | _ => rfl

/-- Pieces that are read as qualifiers once the name has begun. -/
def ReadAs (ks : List Qualifier) (ts : List (List Char)) : Prop :=
  ∀ r : Reading, r.words ≠ [] → ts.foldl Reading.step r = ks.foldl Reading.qualify r

/-- A qualifier behind a piece is read on its own when a space or nothing follows it. -/
theorem Spells.exists_glueOnto {k : Qualifier} {t : List Char} (h : Spells k t) {p : List Char}
    (hp : ¬ [':', ':'] <:+ p) (rest : List Char) (hrest : ∀ c ∈ rest.head?, c = ' ')
    {ks : List Qualifier} (hks : ∃ ts, glueOnto t (atoms rest) = t :: ts ∧ ReadAs ks ts) :
    ∃ ts, glueOnto p (atoms (t ++ rest)) = p :: ts ∧ ReadAs (k :: ks) ts := by
  obtain ⟨a, rfl, hclosed, hcontinues⟩ := h.exists_atom
  obtain ⟨ts, hglue, hread⟩ := hks
  refine ⟨a.text :: ts, ?_, fun r hr => ?_⟩
  · rw [hclosed.cut fun c hc => Or.inl (hrest c hc), glueOnto,
      if_neg (by simp [hcontinues p hp]), hglue]
  · rw [List.foldl_cons, h.step_eq hr, hread _ (by exact hr), List.foldl_cons]

/-- **Qualifiers behind a piece** are read one by one. -/
theorem SpellsAll.exists_glueOnto {ks : List Qualifier} {cs : List Char} (h : SpellsAll ks cs) :
    ∀ {p : List Char}, ¬ [':', ':'] <:+ p →
      ∃ ts, glueOnto p (atoms cs) = p :: ts ∧ ReadAs ks ts := by
  have hnil : ∀ p, ∃ ts, glueOnto p (atoms []) = p :: ts ∧ ReadAs [] ts := fun p =>
    ⟨[], by rw [atoms, glueOnto], fun _ _ => rfl⟩
  induction h with
  | nil => exact fun _ => hnil _
  | space _ ih =>
      intro p hp
      rw [atoms_blank (by decide)]
      exact ih hp
  | @last k t h =>
      intro p hp
      rw [← List.append_nil t]
      exact h.exists_glueOnto hp [] (by simp) (hnil t)
  | @more k t ks cs h _ ih =>
      intro p hp
      refine h.exists_glueOnto hp (' ' :: cs) (by simp) ?_
      rw [atoms_blank (by decide)]
      exact ih h.not_scope_suffix

theorem use_foldl_qualify (ks : List Qualifier) (r : Reading) :
    (ks.foldl Reading.qualify r).use =
      { r.use with qualifiers := r.use.qualifiers ++ ks } := by
  induction ks generalizing r with
  | nil => simp
  | cons k ks ih =>
      rw [List.foldl_cons, ih]
      cases hleading : r.leadingConst <;> simp [Reading.use, Reading.qualify, hleading]

/-! ### The two places of a `const` -/

/-- A name that has been read, with the qualifiers behind it. -/
theorem SpellsAll.use_foldl {ks : List Qualifier} {cs : List Char} (h : SpellsAll ks cs)
    {p : List Char} (hend : ¬ [':', ':'] <:+ p) (hplain : Plain p) (hfirst : ¬ IsElaboration p)
    {r : Reading} (hover : r.nameOver = false) (hwords : r.words = []) :
    ((glueOnto p (atoms cs)).foldl Reading.step r).use =
      { r.use with name := String.ofList p, qualifiers := r.use.qualifiers ++ ks } := by
  obtain ⟨ts, hglue, hfold⟩ := h.exists_glueOnto hend
  rw [hglue, List.foldl_cons, hplain.step_eq hover fun _ => hfirst, hfold _ (by simp),
    use_foldl_qualify]
  simp [Reading.use, hwords, join]

variable (n : TypeName) {ks : List Qualifier} {cs : List Char}

theorem parse_qualified (h : SpellsAll ks cs) :
    parse (String.ofList (n.text ++ ' ' :: cs)) =
      { name := String.ofList n.tidied, qualifiers := ks } := by
  have hparen : '(' ∉ n.text ++ ' ' :: cs := by
    simp [n.paren_not_mem_text, h.paren_not_mem]
  obtain ⟨hplain, hfirst⟩ := n.plain_tidied
  rw [parse_of_not_mem hparen, n.pieces_text,
    h.use_foldl n.not_scope_suffix_tidied hplain hfirst rfl rfl]
  rfl

theorem pieces_const (cs : List Char) :
    pieces ("const".toList ++ ' ' :: cs) = glueOnto "const".toList (atoms cs) :=
  closed_const.done.pieces_eq cs

/-- Before a name from here, a `const` counts as the first qualifier. -/
theorem parse_const_before (h : SpellsAll ks cs) (hglobal : n.isGlobal = false) :
    parse (String.ofList ("const".toList ++ ' ' :: (n.text ++ ' ' :: cs))) =
      { name := String.ofList n.tidied, qualifiers := .const :: ks } := by
  have hparen : '(' ∉ "const".toList ++ ' ' :: (n.text ++ ' ' :: cs) := by
    simp [n.paren_not_mem_text, h.paren_not_mem]
  obtain ⟨hplain, hfirst⟩ := n.plain_tidied
  rw [parse_of_not_mem hparen, pieces_const, n.glueOnto_text (by decide),
    if_neg (by simp [hglobal]), List.foldl_cons,
    h.use_foldl n.not_scope_suffix_tidied hplain hfirst rfl rfl]
  rfl

/-- Before a name from the outermost scope, a `const` becomes part of the name. -/
theorem parse_const_before_global (h : SpellsAll ks cs) (hglobal : n.isGlobal = true) :
    parse (String.ofList ("const".toList ++ ' ' :: (n.text ++ ' ' :: cs))) =
      { name := String.ofList ("const".toList ++ n.tidied), qualifiers := ks } := by
  have hparen : '(' ∉ "const".toList ++ ' ' :: (n.text ++ ' ' :: cs) := by
    simp [n.paren_not_mem_text, h.paren_not_mem]
  have hscope : [':', ':'] <+: n.tidied :=
    (n.scope_prefix_word.mpr hglobal).trans (List.prefix_append ..)
  have hend : ¬ [':', ':'] <:+ "const".toList ++ n.tidied := fun hsuffix =>
    n.not_scope_suffix_tidied
      (List.suffix_of_suffix_length_le hsuffix (List.suffix_append ..) hscope.length_le)
  have hhead : ∀ c ∈ ("const".toList ++ n.tidied).head?, isWordChar c = true := by
    rintro c hc
    obtain rfl : 'c' = c := by simpa using hc
    decide
  have hcolon : ':' ∈ "const".toList ++ n.tidied :=
    List.mem_append_right _ (hscope.mem (List.mem_cons_self ..))
  obtain ⟨hplain, hfirst⟩ :=
    plain_of_head hhead (not_reserved_of_mem (Or.inl rfl) hcolon)
  rw [parse_of_not_mem hparen, pieces_const, n.glueOnto_text (by decide), if_pos hglobal,
    h.use_foldl hend hplain hfirst rfl rfl]
  rfl

/-- **The two places of a `const`** give the same use exactly for the names that are not written
from the outermost scope. -/
theorem parse_const_eq_iff (n : TypeName) {ks : List Qualifier} {q : String}
    (h : SpellsAll ks q.toList) :
    parse ("const " ++ String.ofList n.text ++ " " ++ q) =
        parse (String.ofList n.text ++ " const " ++ q) ↔
      n.isGlobal = false := by
  have hbefore : "const " ++ String.ofList n.text ++ " " ++ q =
      String.ofList ("const".toList ++ ' ' :: (n.text ++ ' ' :: q.toList)) := by
    apply String.toList_injective
    simp
  have hbehind : String.ofList n.text ++ " const " ++ q =
      String.ofList (n.text ++ ' ' :: ("const".toList ++ ' ' :: q.toList)) := by
    apply String.toList_injective
    simp
  rw [hbefore, hbehind, parse_qualified n (SpellsAll.more .const h)]
  cases hglobal : n.isGlobal with
  | false =>
      rw [parse_const_before n h hglobal]
      exact iff_of_true rfl rfl
  | true =>
      rw [parse_const_before_global n h hglobal]
      refine iff_of_false (fun hparse => ?_) (by simp)
      have hname := String.ofList_injective (congrArg TypeUse.name hparse)
      exact absurd (List.append_left_eq_self.mp hname) (by decide)

def vectorName : TypeName where
  first := "std".toList
  inner := ["vector".toList]
  arguments := some "char *".toList
  identifiers := by decide
  not_reserved := by decide
  balanced := by
    rintro inside ⟨rfl⟩
    exact .of_not_mem (by decide) (by decide)
  paren := by decide

/-- A vector of pointers behind a pointer that is constant itself. -/
theorem vectorName_const_eq :
    SpellsAll [.pointer, .const] "* const".toList ∧
      parse ("const " ++ "std::vector<char *>" ++ " " ++ "* const") =
        parse ("std::vector<char *>" ++ " const " ++ "* const") := by
  have hqualifiers : SpellsAll [.pointer, .const] "* const".toList := .more .pointer (.last .const)
  have htext : String.ofList vectorName.text = "std::vector<char *>" := by decide
  refine ⟨hqualifiers, ?_⟩
  rw [← htext]
  exact (parse_const_eq_iff vectorName hqualifiers).mpr rfl

def globalStringName : TypeName where
  isGlobal := true
  first := "std".toList
  inner := ["string".toList]
  identifiers := by decide
  not_reserved := by decide
  balanced := by simp
  paren := by simp

/-- With a `::` at its start a name takes in the `const` before it. -/
theorem globalStringName_const_ne :
    String.ofList globalStringName.text = "::std::string" ∧
      SpellsAll [.lvalueRef] "&".toList ∧
      parse ("const " ++ "::std::string" ++ " " ++ "&") ≠
        parse ("::std::string" ++ " const " ++ "&") :=
  ⟨by decide, .last .lvalueRef, by decide +kernel⟩

end DocForest.TypeUse
