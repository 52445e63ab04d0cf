/-
A documentation text is split into a short description and the rest.

The border is the end of a line or a blank line, both of which are blank, so that no word stands
across it; and all that is done to the two parts is done to their blanks.  The rest is trimmed.
The short description is trimmed, taken apart into lines and put together again as one, and each
of these steps leaves the words what they are: cutting and joining at blanks are the same to
`words` (`words_append_cons_blank`).
-/
import DocForest.DocText.Brief
import DocForest.Proofs.Spellings

namespace DocForest

open Text

namespace Text

/-! ### Words of what is cut and joined -/

theorem words_append_of_blank {bs : List Char} (hbs : ∀ b ∈ bs, isBlank b = true)
    (cs : List Char) : words (bs ++ cs) = words cs := by
  induction bs with
  | nil => rfl
  | cons b bs ih =>
      obtain ⟨hb, hbs⟩ := List.forall_mem_cons.mp hbs
      rw [List.cons_append, words_cons_blank hb, ih hbs]

theorem words_trim (cs : List Char) : words (trim cs) = words cs := by
  refine trim_induction (motive := fun ds => words (trim cs) = words ds) rfl ?_ ?_
  · intro b ds hb ih
    rw [ih, words_cons_blank hb]
  · intro b ds hb ih
    rw [ih, words_append_blank hb]

/-- Cutting a text at a blank separator leaves its words. -/
theorem words_cutOrAll {separator : List Char} (hne : separator ≠ [])
    (hblank : ∀ b ∈ separator, isBlank b = true) (cs : List Char) :
    words (cutOrAll separator cs).1 ++ words (cutOrAll separator cs).2 = words cs := by
  unfold cutOrAll
  cases hcut : cut? separator cs with
  | none => exact List.append_nil _
  | some parts =>
      obtain ⟨b, bs, rfl⟩ := List.exists_cons_of_ne_nil hne
      obtain ⟨hb, hbs⟩ := List.forall_mem_cons.mp hblank
      rw [append_of_cut? hcut, List.append_assoc, List.cons_append, words_append_cons_blank hb,
        words_append_of_blank hbs]
      rfl

theorem words_join {b : Char} (hb : isBlank b = true) (ps : List (List Char)) :
    words (join [b] ps) = ps.flatMap words := by
  induction ps with
  | nil => rfl
  | cons p ps ih =>
      cases ps with
      | nil => simp [join]
      | cons q ps =>
          rw [join_cons_cons, List.append_assoc, List.singleton_append,
            words_append_cons_blank hb, ih, ← List.flatMap_cons]

/-- The pieces between the places of a character give the text back. -/
theorem join_pieces (c : Char) (cs : List Char) : join [c] (pieces (· == c) cs) = cs := by
  induction cs with
  | nil => rfl
  | cons d cs ih =>
      obtain ⟨piece, rest, heq⟩ := exists_pieces_eq_cons (· == c) cs
      rw [heq] at ih
      rw [pieces, heq]
      split
      · rename_i hd
        rw [join_cons_cons, ih, beq_iff_eq.mp hd]
        rfl
      · rw [consFirst, join_cons, ih]

/-! ### Lines -/

theorem dropReturn_cases (line : List Char) :
    dropReturn line = line ∨ line = dropReturn line ++ ['\r'] := by
  unfold dropReturn dropStop?
  cases hdrop : dropStart? ['\r'].reverse line.reverse with
  | none => exact Or.inl rfl
  | some rest =>
      have hline := dropStart?_eq_some.mp hdrop
      refine Or.inr ?_
      rw [← List.reverse_reverse line, hline]
      simp

theorem words_dropReturn (line : List Char) : words (dropReturn line) = words line := by
  rcases dropReturn_cases line with heq | heq
  · rw [heq]
  · conv_rhs => rw [heq]
    rw [words_append_blank (by decide)]

theorem flatMap_words_linesOfPieces (ps : List (List Char)) :
    (linesOfPieces ps).flatMap words = ps.flatMap words := by
  fun_induction linesOfPieces ps with
  | case1 => rfl
  | case2 last hempty =>
      rw [List.isEmpty_iff.mp hempty]
      rfl
  | case3 last hempty => rfl
  | case4 piece rest hmore ih => rw [List.flatMap_cons, List.flatMap_cons, ih, words_dropReturn]

/-- **The words of a text** are those of its lines. -/
theorem flatMap_words_lines (cs : List Char) : (lines cs).flatMap words = words cs := by
  rw [lines, flatMap_words_linesOfPieces, ← words_join (by decide : isBlank '\n' = true),
    join_pieces]

theorem not_mem_of_mem_pieces {p : Char → Bool} {c : Char} (hc : p c = true) {cs : List Char} :
    ∀ piece ∈ pieces p cs, c ∉ piece := by
  induction cs with
  | nil => simp [pieces]
  | cons d cs ih =>
      rw [pieces]
      split
      · exact List.forall_mem_cons.mpr ⟨by simp, ih⟩
      · rename_i hd
        obtain ⟨piece, rest, heq⟩ := exists_pieces_eq_cons p cs
        rw [heq] at ih ⊢
        obtain ⟨hpiece, hrest⟩ := List.forall_mem_cons.mp ih
        refine List.forall_mem_cons.mpr ⟨?_, hrest⟩
        rintro (_ | ⟨_, hmem⟩)
        · exact hd hc
        · exact hpiece hmem

theorem exists_piece_of_mem_linesOfPieces {ps : List (List Char)} {line : List Char}
    (h : line ∈ linesOfPieces ps) : ∃ p ∈ ps, line ⊆ p := by
  fun_induction linesOfPieces ps with
  | case1 => simp at h
  | case2 last hempty => simp at h
  | case3 last hempty =>
      refine ⟨last, List.mem_singleton_self last, ?_⟩
      rw [List.mem_singleton.mp h]
      exact List.Subset.refl last
  | case4 piece rest hmore ih =>
      rcases List.mem_cons.mp h with rfl | hrest
      · refine ⟨piece, List.mem_cons_self, ?_⟩
        rcases dropReturn_cases piece with heq | heq
        · rw [heq]
          exact List.Subset.refl piece
        · conv_rhs => rw [heq]
          exact List.subset_append_left _ _
      · obtain ⟨p, hp, hsub⟩ := ih hrest
        exact ⟨p, List.mem_cons_of_mem piece hp, hsub⟩

theorem newline_not_mem_of_mem_lines {cs line : List Char} (h : line ∈ lines cs) :
    '\n' ∉ line := by
  obtain ⟨p, hp, hsub⟩ := exists_piece_of_mem_linesOfPieces h
  exact fun hmem => not_mem_of_mem_pieces (by decide) p hp (hsub hmem)

/-! ### Blanks at the ends -/

/-- No blank stands at either end of a text. -/
structure IsTrimmed (cs : List Char) : Prop where
  head : ∀ c, cs.head? = some c → isBlank c = false
  last : ∀ c, cs.getLast? = some c → isBlank c = false

theorem isTrimmed_trim (cs : List Char) : IsTrimmed (trim cs) := by
  refine ⟨fun c hc => ?_, fun c hc => ?_⟩
  · obtain ⟨bs, -, heq⟩ := DocText.exists_trimEnd (trimStart cs)
    refine DocText.stops_dropWhile isBlank cs c ?_
    rw [← trimStart, heq, List.head?_append, ← trim, hc]
    rfl
  · rw [trim, trimEnd, List.getLast?_reverse] at hc
    exact DocText.stops_dropWhile isBlank _ c hc

/-- Texts with spaces between them have a blank at neither end if none of them has. -/
theorem isTrimmed_join {ps : List (List Char)} (h : ∀ p ∈ ps, p ≠ [] ∧ IsTrimmed p) :
    IsTrimmed (join [' '] ps) := by
  induction ps with
  | nil => exact ⟨by simp [join], by simp [join]⟩
  | cons p ps ih =>
      obtain ⟨⟨hne, hp⟩, hps⟩ := List.forall_mem_cons.mp h
      cases ps with
      | nil => exact hp
      | cons q ps =>
          have hq : join [' '] (q :: ps) ≠ [] := by
            obtain ⟨c, cs, hcs⟩ := List.exists_cons_of_ne_nil (hps q List.mem_cons_self).1
            rw [hcs, join_cons]
            exact List.cons_ne_nil c _
          rw [join_cons_cons]
          refine ⟨fun c hc => hp.head c ?_, fun c hc => (ih hps).last c ?_⟩
          · rwa [List.append_assoc, List.head?_append_of_ne_nil _ hne] at hc
          · rwa [List.getLast?_append_of_ne_nil _ hq] at hc

end Text

namespace DocText

/-! ### The two parts of a description -/

theorem words_oneLine (cs : List Char) : words (oneLine cs) = words cs := by
  have hempty : ∀ ls : List (List Char),
      (ls.filter (!·.isEmpty)).flatMap words = ls.flatMap words := by
    intro ls
    induction ls with
    | nil => rfl
    | cons line ls ih => cases line <;> simp [ih, show words [] = [] from rfl]
  rw [oneLine, words_join (by decide), hempty, List.flatMap_map]
  simp only [words_trim]
  exact flatMap_words_lines cs

theorem newline_not_mem_oneLine (cs : List Char) : '\n' ∉ oneLine cs := by
  intro hmem
  rcases mem_join hmem with hspace | ⟨p, hp, hc⟩
  · simp at hspace
  · obtain ⟨line, hline, rfl⟩ := List.mem_map.mp (List.mem_filter.mp hp).1
    exact newline_not_mem_of_mem_lines hline (Query.mem_of_mem_trim hc)

theorem isTrimmed_oneLine (cs : List Char) : IsTrimmed (oneLine cs) := by
  refine isTrimmed_join fun p hp => ?_
  obtain ⟨hmem, hne⟩ := List.mem_filter.mp hp
  obtain ⟨line, -, rfl⟩ := List.mem_map.mp hmem
  exact ⟨by simpa using hne, isTrimmed_trim line⟩

/-- What a text has to say: the text from its first character on that is no blank, without the
command that introduces a short description. -/
def content (text : String) : List Char :=
  (afterBriefCommand? (trimStart text.toList)).getD (trimStart text.toList)

/-- What ends a short description: a blank line if a command introduces it, or else the end of
its line. -/
def border (text : String) : List Char :=
  if (afterBriefCommand? (trimStart text.toList)).isSome then ['\n', '\n'] else ['\n']

theorem describe_eq (text : String) :
    describe text =
      { brief := String.ofList (oneLine (trim (cutOrAll (border text) (content text)).1))
        doc := String.ofList (trim (cutOrAll (border text) (content text)).2) } := by
  simp only [describe, border, content]
  cases afterBriefCommand? (trimStart text.toList) <;> rfl

theorem border_blank (text : String) : border text ≠ [] ∧ ∀ b ∈ border text, isBlank b = true := by
  have hnewline : isBlank '\n' = true := by decide
  unfold border
  split <;> simp [hnewline]

/-- **Splitting a text loses no word.**  The words of the short description and then those of the
rest are the words of the text in their order, the short description is one line, and neither
has a blank at an end. -/
theorem describe_keeps_words (text : String) :
    words (describe text).brief.toList ++ words (describe text).doc.toList =
        words (content text) ∧
      '\n' ∉ (describe text).brief.toList ∧
      IsTrimmed (describe text).brief.toList ∧ IsTrimmed (describe text).doc.toList := by
  obtain ⟨hne, hblank⟩ := border_blank text
  simp only [describe_eq, String.toList_ofList]
  refine ⟨?_, newline_not_mem_oneLine _, isTrimmed_oneLine _, isTrimmed_trim _⟩
  rw [words_oneLine, words_trim, words_trim, words_cutOrAll hne hblank]

-- A blank line ends the short description, and the lines in it are trimmed and joined.
example :
    describe " \\brief One\r\n\t two \n\nThree\n\n four " =
      ⟨"One two", "Three\n\n four"⟩ := by
  decide +kernel

end DocText

end DocForest
