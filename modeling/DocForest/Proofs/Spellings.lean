/-
A parameter list gives back the types it was put together from.

A declaration reads each of its types from a spelling of its own.  A reference has all of them
in one text, which is cut at its commas, trimmed, rid of default values and of the names of
parameters, and only then read.  Both come to the same types if the spellings have nothing of
that in them.

Cutting at commas gives the spellings back if each leaves the count of open brackets as it was
(`IsItem`), and a spelling does so if each kind of bracket is balanced in it.  Trimming is
harmless because a blank at an end of a spelling is never part of what is read; only an array
extent that is not closed could take it in, and balanced brackets leave none (`ClosesExtents`).
-/
import DocForest.Proofs.CommaLists
import Mathlib.Data.List.Infix

namespace DocForest

open Text

namespace Text

/-! ### Blanks at the ends -/

theorem exists_pieces_eq_cons (p : Char → Bool) (cs : List Char) :
    ∃ piece rest, pieces p cs = piece :: rest := by
  induction cs with
  | nil => exact ⟨[], [], rfl⟩
  | cons c cs ih =>
      obtain ⟨piece, rest, heq⟩ := ih
      rw [pieces, heq]
      split
      · exact ⟨[], piece :: rest, rfl⟩
      · exact ⟨c :: piece, rest, rfl⟩

theorem pieces_append_cons {p : Char → Bool} {b : Char} (hb : p b = true) (us vs : List Char) :
    pieces p (us ++ b :: vs) = pieces p us ++ pieces p vs := by
  induction us with
  | nil => simp [pieces, hb]
  | cons c us ih =>
      rw [List.cons_append, pieces, pieces, ih]
      split
      · rfl
      · obtain ⟨piece, rest, heq⟩ := exists_pieces_eq_cons p us
        rw [heq]
        rfl

/-- **The words around a blank** are those before it and then those behind it. -/
theorem words_append_cons_blank {b : Char} (hb : isBlank b = true) (us vs : List Char) :
    words (us ++ b :: vs) = words us ++ words vs := by
  rw [words, pieces_append_cons hb, List.filter_append, words, words]

theorem words_cons_blank {b : Char} (hb : isBlank b = true) (cs : List Char) :
    words (b :: cs) = words cs :=
  words_append_cons_blank hb [] cs

theorem words_append_blank {b : Char} (hb : isBlank b = true) (cs : List Char) :
    words (cs ++ [b]) = words cs := by
  rw [words_append_cons_blank hb, show words [] = [] from rfl, List.append_nil]

/-- What holds of a trimmed text holds of the text, if blanks at its ends make no difference. -/
theorem trim_induction {motive : List Char → Prop} {cs : List Char} (h : motive (trim cs))
    (cons : ∀ b cs, isBlank b = true → motive cs → motive (b :: cs))
    (append : ∀ b cs, isBlank b = true → motive cs → motive (cs ++ [b])) : motive cs := by
  have hend : ∀ {bs cs : List Char}, (∀ b ∈ bs, isBlank b = true) → motive cs →
      motive (cs ++ bs) := by
    intro bs
    induction bs with
    | nil => intro cs _ hcs; rwa [List.append_nil]
    | cons b bs ih =>
        intro cs hbs hcs
        obtain ⟨hb, hbs⟩ := List.forall_mem_cons.mp hbs
        rw [List.append_cons]
        exact ih hbs (append b cs hb hcs)
  induction cs with
  | nil => exact h
  | cons c cs ih =>
      cases hc : isBlank c with
      | true =>
          rw [trim_cons_blank hc] at h
          exact cons c cs hc (ih h)
      | false =>
          have hstart : trimStart (c :: cs) = c :: cs :=
            List.dropWhile_cons_of_neg (by simp [hc])
          obtain ⟨bs, hbs, heq⟩ := DocText.exists_trimEnd (c :: cs)
          rw [trim, hstart] at h
          rw [heq]
          exact hend hbs h

end Text

namespace TypeUse

/-! ### Reading a padded spelling -/

/-- Every array extent of a spelling is closed. -/
def ClosesExtents (cs : List Char) : Prop :=
  ∀ before after, cs = before ++ '[' :: after → ']' ∈ after

theorem ClosesExtents.of_append {us vs : List Char} (h : ClosesExtents (us ++ vs)) :
    ClosesExtents vs :=
  fun before after heq => h (us ++ before) after (by rw [heq, List.append_assoc])

theorem ClosesExtents.tail {c : Char} {cs : List Char} (h : ClosesExtents (c :: cs)) :
    ClosesExtents cs :=
  fun before after heq => h (c :: before) after (by rw [heq, List.cons_append])

theorem ClosesExtents.of_append_blank {b : Char} (hb : isBlank b = true) {cs : List Char}
    (h : ClosesExtents (cs ++ [b])) : ClosesExtents cs := by
  intro before after heq
  have hmem := h before (after ++ [b]) (by rw [heq, List.append_assoc, List.cons_append])
  rcases List.mem_append.mp hmem with hafter | hlast
  · exact hafter
  · obtain rfl : ']' = b := by simpa using hlast
    exact absurd hb (by decide)

theorem cutExtent_append (cs : List Char) : (cutExtent cs).1 ++ (cutExtent cs).2 = cs := by
  induction cs with
  | nil => rfl
  | cons c cs ih =>
      rw [cutExtent]
      split
      · rfl
      · rw [List.cons_append, ih]

theorem cutExtent_append_of_mem {cs : List Char} (h : ']' ∈ cs) (rest : List Char) :
    cutExtent (cs ++ rest) = ((cutExtent cs).1, (cutExtent cs).2 ++ rest) := by
  induction cs with
  | nil => simp at h
  | cons c cs ih =>
      rw [List.cons_append, cutExtent, cutExtent]
      split
      · rfl
      · rename_i hc
        have hne : ']' ≠ c := fun heq => hc (by rw [heq, beq_self_eq_true])
        rw [ih (List.mem_of_ne_of_mem hne h)]

theorem cutAngles_append (depth : Nat) (cs : List Char) :
    (cutAngles depth cs).1 ++ (cutAngles depth cs).2 = cs := by
  induction cs generalizing depth with
  | nil => rfl
  | cons c cs ih =>
      rw [cutAngles]
      split
      · rfl
      · rw [List.cons_append, ih]

/-- A character behind template arguments stays behind them, unless they are not closed. -/
theorem cutAngles_append_blank {b : Char} (hb : isBlank b = true) (depth : Nat) (cs : List Char) :
    cutAngles depth (cs ++ [b]) = ((cutAngles depth cs).1, (cutAngles depth cs).2 ++ [b]) ∨
      cutAngles depth (cs ++ [b]) = ((cutAngles depth cs).1 ++ [b], (cutAngles depth cs).2) := by
  have hclose : b ≠ '>' := by
    rintro rfl
    exact absurd hb (by decide)
  induction cs generalizing depth with
  | nil => exact Or.inr (by simp [cutAngles, hclose])
  | cons c cs ih =>
      rw [List.cons_append, cutAngles, cutAngles]
      split
      · exact Or.inl rfl
      · rcases ih (if c == '<' then depth + 1 else if c == '>' then depth - 1 else depth)
          with hcut | hcut
        · exact Or.inl (by simp only [hcut])
        · exact Or.inr (by simp only [hcut, List.cons_append])

theorem tidyArguments_append_blank {b : Char} (hb : isBlank b = true) (cs : List Char) :
    tidyArguments (cs ++ [b]) = tidyArguments cs := by
  simp only [tidyArguments, squeeze, words_append_blank hb]

/-- A blank behind a word is not part of it. -/
theorem word_append_blank {b : Char} (hb : isBlank b = true) (cs : List Char) :
    (cs ++ [b]).takeWhile isWordChar = cs.takeWhile isWordChar ∧
      (cs ++ [b]).dropWhile isWordChar = cs.dropWhile isWordChar ++ [b] := by
  have hword : isWordChar b = false := by simp [isWordChar, hb]
  induction cs with
  | nil => simp [hword]
  | cons c cs ih =>
      cases hc : isWordChar c with
      | true => simpa [hc] using ih
      | false => simp [hc]

/-- **A blank behind a spelling adds nothing to its atoms.** -/
theorem atoms_append_blank {b : Char} (hb : isBlank b = true) {cs : List Char}
    (h : ClosesExtents cs) : atoms (cs ++ [b]) = atoms cs := by
  fun_induction atoms cs with
  | case1 => simp [atoms, hb]
  | case2 c cs hc ih =>
      rw [List.cons_append, atoms, if_pos hc]
      exact ih h.tail
  | case3 c cs hc hstar ih =>
      rw [List.cons_append, atoms, if_neg hc, if_pos hstar, ih h.tail]
  | case4 c cs hc hstar hamp hnext ih =>
      obtain ⟨d, rest, rfl⟩ : ∃ d rest, cs = d :: rest := by
        cases cs with
        | nil => simp at hnext
        | cons d rest => exact ⟨d, rest, rfl⟩
      rw [List.cons_append, atoms, if_neg hc, if_neg hstar, if_pos hamp,
        if_pos (by simpa using hnext), List.cons_append, List.tail_cons]
      rw [List.tail_cons] at ih ⊢
      rw [ih h.tail.tail]
  | case5 c cs hc hstar hamp hnext ih =>
      have hnext' : (cs ++ [b]).head? ≠ some '&' := by
        cases cs with
        | nil =>
            intro heq
            obtain rfl : b = '&' := by simpa using heq
            exact absurd hb (by decide)
        | cons d rest => simpa using hnext
      rw [List.cons_append, atoms, if_neg hc, if_neg hstar, if_pos hamp, if_neg hnext', ih h.tail]
  | case6 c cs hc hstar hamp hopen ih =>
      obtain rfl : c = '[' := by simpa using hopen
      have hcut := cutExtent_append_of_mem (h [] cs rfl) [b]
      rw [← cutExtent_append cs] at h
      rw [List.cons_append, atoms, if_neg hc, if_neg hstar, if_neg hamp, if_pos hopen, hcut,
        ih (ClosesExtents.of_append h.tail)]
  | case7 c cs hc hstar hamp hextent hopen ih =>
      have hrest := ih (ClosesExtents.of_append (by rw [cutAngles_append]; exact h.tail))
      rw [List.cons_append, atoms, if_neg hc, if_neg hstar, if_neg hamp, if_neg hextent,
        if_pos hopen]
      rcases cutAngles_append_blank hb 1 cs with hcut | hcut
      · rw [hcut, hrest]
      · rw [hcut, ← List.cons_append, tidyArguments_append_blank hb]
  | case8 c cs hc hstar hamp hextent hopen ih =>
      have hrest := ih (ClosesExtents.of_append
        (by rw [List.takeWhile_append_dropWhile]; exact h.tail))
      rw [List.cons_append, atoms, if_neg hc, if_neg hstar, if_neg hamp, if_neg hextent,
        if_neg hopen]
      rw [(word_append_blank hb cs).1, (word_append_blank hb cs).2, hrest]

theorem parse_congr {cs cs' : List Char} (hparen : '(' ∈ cs ↔ '(' ∈ cs')
    (hwords : words cs = words cs') (hatoms : atoms cs = atoms cs') :
    parse (String.ofList cs) = parse (String.ofList cs') := by
  have hcontains : cs.contains '(' = cs'.contains '(' := by
    rw [Bool.eq_iff_iff, List.contains_iff_mem, List.contains_iff_mem, hparen]
  simp only [parse, String.toList_ofList, hcontains, pieces, squeeze, hwords, hatoms]

/-- **Blanks around a spelling do not count.** -/
theorem parse_trim {cs : List Char} (h : ClosesExtents cs) :
    parse (String.ofList cs) = parse (String.ofList (trim cs)) := by
  have hparen : ∀ b, isBlank b = true → '(' ≠ b := by
    rintro b hb rfl
    exact absurd hb (by decide)
  revert h
  refine trim_induction (motive := fun cs' => ClosesExtents cs' →
    parse (String.ofList cs') = parse (String.ofList (trim cs))) (fun _ => rfl) ?_ ?_
  · intro b cs' hb ih h
    rw [← ih h.tail]
    refine parse_congr ?_ (words_cons_blank hb cs') ?_
    · simp [hparen b hb]
    · rw [atoms, if_pos hb]
  · intro b cs' hb ih h
    have hclosed := h.of_append_blank hb
    rw [← ih hclosed]
    refine parse_congr ?_ (words_append_blank hb cs') (atoms_append_blank hb hclosed)
    simp [hparen b hb]

end TypeUse

namespace Query

/-! ### Balanced brackets -/

theorem Balanced.of_not_mem {opening closing : Char} {cs : List Char} (hopening : opening ∉ cs)
    (hclosing : closing ∉ cs) : Balanced opening closing cs := by
  refine ⟨?_, ?_⟩
  · intro before hbefore
    rw [List.count_eq_zero_of_not_mem fun hmem => hclosing (hbefore.subset hmem)]
    exact Nat.zero_le _
  · rw [List.count_eq_zero_of_not_mem hclosing, List.count_eq_zero_of_not_mem hopening]

theorem Balanced.append {opening closing : Char} {us vs : List Char}
    (hus : Balanced opening closing us) (hvs : Balanced opening closing vs) :
    Balanced opening closing (us ++ vs) := by
  refine ⟨?_, ?_⟩
  · rintro before ⟨after, heq⟩
    rcases List.append_eq_append_iff.mp heq with ⟨us', rfl, -⟩ | ⟨vs', rfl, hafter⟩
    · exact hus.opened before (List.prefix_append before us')
    · have hle := hvs.opened vs' ⟨after, hafter.symm⟩
      have heq := hus.closed
      simp only [List.count_append]
      omega
  · rw [List.count_append, List.count_append, hus.closed, hvs.closed]

theorem Balanced.join {opening closing : Char} {separator : List Char} {items : List (List Char)}
    (hseparator : Balanced opening closing separator)
    (hitems : ∀ item ∈ items, Balanced opening closing item) :
    Balanced opening closing (Text.join separator items) := by
  induction items with
  | nil => exact Balanced.of_not_mem (by simp [Text.join]) (by simp [Text.join])
  | cons item items ih =>
      obtain ⟨hitem, hrest⟩ := List.forall_mem_cons.mp hitems
      cases items with
      | nil => exact hitem
      | cons next items => exact (hitem.append hseparator).append (ih hrest)

theorem Balanced.closesExtents {cs : List Char} (h : Balanced '[' ']' cs) :
    TypeUse.ClosesExtents cs := by
  rintro before after rfl
  by_contra hnone
  have hle := h.opened before (List.prefix_append _ _)
  have heq := h.closed
  have hne : '[' ≠ ']' := by decide
  simp only [List.count_append, List.count_cons_self, List.count_cons_of_ne hne,
    List.count_eq_zero_of_not_mem hnone] at heq
  omega

/-! ### Types of parameters -/

/-- A type is not taken for one with the name of a parameter behind it: its last word, if it
has several, is a word of the language or no identifier. -/
def EndsAsType (t : TypeUse) : Prop :=
  ∀ head last, t.name.toList = head ++ ' ' :: last → ' ' ∉ last →
    String.ofList last ∈ builtinWords ∨ ∃ c ∈ last, isNameChar c = false

/-- A spelling of a type that can stand in a parameter list. -/
structure IsSpelling (cs : List Char) : Prop where
  nonblank : ∃ c ∈ cs, isBlank c = false
  angles : Balanced '<' '>' cs
  parens : Balanced '(' ')' cs
  squares : Balanced '[' ']' cs
  /-- A comma stands inside of brackets of some kind. -/
  commas : ∀ before, before ++ [','] <+: cs →
    before.count '>' < before.count '<' ∨ before.count ')' < before.count '(' ∨
      before.count ']' < before.count '['
  noDefault : '=' ∉ cs
  noOperator : ¬ HasWord operatorWord cs
  endsAsType : EndsAsType (TypeUse.parse (String.ofList cs))

theorem cut?_singleton {c : Char} {cs before after : List Char} :
    cut? [c] cs = some (before, after) ↔ cs = before ++ c :: after ∧ c ∉ before := by
  induction cs generalizing before with
  | nil => simp [cut?]
  | cons d cs ih =>
      rw [cut?]
      by_cases hd : c = d
      · have hdrop : dropStart? [c] (d :: cs) = some cs := dropStart?_eq_some.mpr (by simp [hd])
        rw [hdrop, ← hd]
        cases before with
        | nil => simp
        | cons x before =>
            refine ⟨fun hcut => by simp at hcut, ?_⟩
            rintro ⟨heq, hnot⟩
            obtain rfl : c = x := (List.cons.inj heq).1
            simp at hnot
      · have hdrop : dropStart? [c] (d :: cs) = none := by rw [dropStart?, if_neg hd]
        rw [hdrop]
        cases before with
        | nil => simp [Ne.symm hd]
        | cons x before =>
            simp only [Option.map_eq_some_iff, Prod.exists, Prod.mk.injEq, List.cons.injEq,
              List.cons_append, List.mem_cons, not_or]
            grind

/-- The last word of a text is what follows its last space. -/
theorem cutLastSpace?_eq_some {cs head last : List Char} :
    cutLastSpace? cs = some (head, last) ↔ cs = head ++ ' ' :: last ∧ ' ' ∉ last := by
  have hreverse : cutLastSpace? cs = some (head, last) ↔
      cut? [' '] cs.reverse = some (last.reverse, head.reverse) := by
    simp only [cutLastSpace?, Option.map_eq_some_iff, Prod.exists, Prod.mk.injEq,
      List.reverse_eq_iff]
    grind
  rw [hreverse, cut?_singleton, List.reverse_eq_iff]
  simp

/-! ### Deciding whether a text is a spelling -/

instance decidableForallStarts (cs : List Char) (p : List Char → Prop) [DecidablePred p] :
    Decidable (∀ before, before <+: cs → p before) :=
  decidable_of_iff (∀ before ∈ cs.inits, p before) (by simp only [List.mem_inits])

instance (opening closing : Char) (cs : List Char) : Decidable (Balanced opening closing cs) :=
  decidable_of_iff ((∀ before, before <+: cs → before.count closing ≤ before.count opening) ∧
      cs.count closing = cs.count opening)
    ⟨fun h => ⟨h.1, h.2⟩, fun h => ⟨h.opened, h.closed⟩⟩

instance (word cs : List Char) : Decidable (HasWord word cs) :=
  have hborder : ∀ border : Option Char, border.all (!isNameChar ·) = true ↔
      ∀ c, border = some c → isNameChar c = false := by
    intro border
    cases border <;> simp
  decidable_of_iff (∃ before ∈ cs.inits, ∃ after ∈ cs.tails, cs = before ++ word ++ after ∧
      before.getLast?.all (!isNameChar ·) = true ∧ after.head?.all (!isNameChar ·) = true) <| by
    simp only [hborder]
    constructor
    · rintro ⟨before, -, after, -, h⟩
      exact ⟨before, after, h⟩
    · rintro ⟨before, after, heq, h⟩
      refine ⟨before, ?_, after, ?_, heq, h⟩
      · exact (List.mem_inits _ _).mpr ⟨word ++ after, by rw [heq, List.append_assoc]⟩
      · exact (List.mem_tails _ _).mpr ⟨before ++ word, heq.symm⟩

instance (t : TypeUse) : Decidable (EndsAsType t) :=
  decidable_of_iff (∀ words ∈ cutLastSpace? t.name.toList,
      String.ofList words.2 ∈ builtinWords ∨ words.2.any (!isNameChar ·) = true) <| by
    simp only [List.any_eq_true, Bool.not_eq_true']
    constructor
    · exact fun h head last heq hlast => h (head, last) (cutLastSpace?_eq_some.mpr ⟨heq, hlast⟩)
    · rintro h ⟨head, last⟩ hcut
      obtain ⟨heq, hlast⟩ := cutLastSpace?_eq_some.mp hcut
      exact h head last heq hlast

instance (cs : List Char) : Decidable (IsSpelling cs) :=
  decidable_of_iff (cs.any (!isBlank ·) = true ∧ Balanced '<' '>' cs ∧ Balanced '(' ')' cs ∧
      Balanced '[' ']' cs ∧
      (∀ before, before <+: cs → before ++ [','] <+: cs →
        before.count '>' < before.count '<' ∨ before.count ')' < before.count '(' ∨
          before.count ']' < before.count '[') ∧
      '=' ∉ cs ∧ ¬ HasWord operatorWord cs ∧ EndsAsType (TypeUse.parse (String.ofList cs))) <| by
    simp only [List.any_eq_true, Bool.not_eq_true']
    constructor
    · rintro ⟨hblank, hangles, hparens, hsquares, hcommas, hrest⟩
      refine ⟨hblank, hangles, hparens, hsquares, ?_, hrest.1, hrest.2.1, hrest.2.2⟩
      exact fun before hcomma => hcommas before ((List.prefix_append _ _).trans hcomma) hcomma
    · rintro ⟨hblank, hangles, hparens, hsquares, hcommas, hdefault, hoperator, htype⟩
      exact ⟨hblank, hangles, hparens, hsquares, fun before _ => hcommas before, hdefault,
        hoperator, htype⟩

/-! ### Reading the list -/

theorem EndsAsType.dropParameterName_eq {t : TypeUse} (h : EndsAsType t) :
    dropParameterName t = t := by
  unfold dropParameterName
  split
  · rename_i head last hcut
    obtain ⟨hname, hnot⟩ := cutLastSpace?_eq_some.mp hcut
    rw [if_neg]
    intro hboth
    rw [Bool.and_eq_true, Bool.not_eq_true', List.all_eq_true, List.contains_eq_mem,
      decide_eq_false_iff_not] at hboth
    rcases h head last hname hnot with hbuiltin | ⟨c, hc, hchar⟩
    · exact hboth.2 hbuiltin
    · exact absurd (hboth.1 c hc) (by simp [hchar])
  · rfl

theorem IsSpelling.isItem {cs : List Char} (h : IsSpelling cs) : IsItem cs := by
  refine ⟨?_, ?_⟩
  · rw [bracketSum_eq_count, h.angles.closed, h.parens.closed, h.squares.closed]
    omega
  · rintro before after heq hsum
    have hbefore : before <+: cs := ⟨_, heq.symm⟩
    have hangles := h.angles.opened before hbefore
    have hparens := h.parens.opened before hbefore
    have hsquares := h.squares.opened before hbefore
    have hinside := h.commas before ⟨after, by rw [heq, List.append_assoc, List.singleton_append]⟩
    rw [bracketSum_eq_count] at hsum
    omega

theorem not_hasWord_join {items : List (List Char)}
    (h : ∀ item ∈ items, ¬ HasWord operatorWord item) :
    ¬ HasWord operatorWord (Text.join [',', ' '] items) := by
  have hnil : ¬ HasWord operatorWord [] := not_hasWord_nil (by decide)
  induction items with
  | nil => exact hnil
  | cons item items ih =>
      obtain ⟨hitem, hrest⟩ := List.forall_mem_cons.mp h
      cases items with
      | nil => exact hitem
      | cons next items =>
          rw [join_cons_cons, List.append_assoc]
          exact not_hasWord_append isNameChar_of_mem_operatorWord hitem (by decide)
            (not_hasWord_append isNameChar_of_mem_operatorWord hnil (by decide) (ih hrest))

theorem mem_of_mem_trim {cs : List Char} {c : Char} (h : c ∈ trim cs) : c ∈ cs := by
  rw [trim, trimEnd, List.mem_reverse] at h
  have hstart : c ∈ trimStart cs := List.mem_reverse.mp ((List.dropWhile_sublist _).subset h)
  exact (List.dropWhile_sublist _).subset hstart

theorem IsSpelling.argumentType_trim {cs : List Char} (h : IsSpelling cs) :
    argumentType (trim cs) = TypeUse.parse (String.ofList cs) := by
  have hwhole : (trim cs).takeWhile (· != '=') = trim cs := by
    rw [List.takeWhile_eq_self_iff]
    intro c hc
    rw [bne_iff_ne]
    rintro rfl
    exact h.noDefault (mem_of_mem_trim hc)
  rw [argumentType, hwhole, ← TypeUse.parse_trim h.squares.closesExtents,
    h.endsAsType.dropParameterName_eq]

/-- **A parameter list gives the types that its spellings give.** -/
theorem argumentTypes_join {spellings : List (List Char)} (h : ∀ s ∈ spellings, IsSpelling s)
    (hvoid : spellings.map trim ≠ ["void".toList]) :
    argumentTypes (Text.join [',', ' '] spellings) =
      spellings.map fun s => TypeUse.parse (String.ofList s) := by
  have hitems : commaItems (Text.join [',', ' '] spellings) = spellings.map trim :=
    commaItems_join_space (fun s hs => (h s hs).isItem)
      fun s hs => DocText.trim_ne_nil_iff.mpr (h s hs).nonblank
  unfold argumentTypes
  dsimp only
  rw [hitems, if_neg hvoid, List.map_map]
  refine List.map_congr_left ?_
  intro s hs
  rw [Function.comp_apply, (h s hs).argumentType_trim]

end Query

end DocForest
