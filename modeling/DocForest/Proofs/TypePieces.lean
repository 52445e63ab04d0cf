/-
The pieces of a type spelling are read as pieces again.

A name is put together from pieces with spaces between them, and each piece from atoms without
any.  Reading such a piece does not give the same atoms: words that were glued together are one
word now.  So a piece is described by the atoms that it is read as (`Whole`), where every atom
continues those before it and is cut off from them whatever it continues with.

Between two pieces the second one did not continue the first (`Parted`).  It still does not,
except in one case.  A lone colon is a word that continues nothing, but glued to a word that
starts with `::` it does.
-/
import DocForest.Proofs.TemplateArguments
import Mathlib.Data.List.Chain

namespace DocForest.TypeUse

open Text

/-! ### Atoms -/

/-- An atom that is over, whatever follows it behind a space. -/
inductive Atom.Closed : Atom → Prop
  | star : Closed (.mark ['*'])
  | amp : Closed (.mark ['&'])
  | ampAmp : Closed (.mark ['&', '&'])
  | extent {inside : List Char} (h : ']' ∉ inside) : Closed (.mark ('[' :: (inside ++ [']'])))
  | arguments {inside : List Char} (h : Query.Balanced '<' '>' inside)
      (order : InOrder (inside ++ ['>'])) : Closed (.arguments ('<' :: (inside ++ ['>'])))
  | word {t : List Char} (hne : t ≠ []) (h : ∀ c ∈ t, isWordChar c = true) : Closed (.word t)

/-- An atom that goes on to the end of the spelling, for want of a bracket. -/
inductive Atom.Open : Atom → Prop
  | extent {inside : List Char} (h : ']' ∉ inside) : Open (.mark ('[' :: inside))
  | arguments {inside : List Char} (h : Opened inside) (order : InOrder inside) :
      Open (.arguments ('<' :: inside))

/-- Atoms of which at most the last one is open. -/
inductive Spelled : List Atom → Prop
  | nil : Spelled []
  | last {a : Atom} (h : a.Open) : Spelled [a]
  | cons {a : Atom} {as : List Atom} (h : a.Closed) (rest : Spelled as) : Spelled (a :: as)

theorem cutExtent_closed {inside : List Char} (h : ']' ∉ inside) (rest : List Char) :
    cutExtent (inside ++ ']' :: rest) = (inside ++ [']'], rest) := by
  induction inside with
  | nil => rfl
  | cons c cs ih =>
      simp only [List.mem_cons, not_or] at h
      rw [List.cons_append, cutExtent, if_neg (by simpa using Ne.symm h.1), ih h.2]
      rfl

theorem cutExtent_open {inside : List Char} (h : ']' ∉ inside) :
    cutExtent inside = (inside, []) := by
  induction inside with
  | nil => rfl
  | cons c cs ih =>
      simp only [List.mem_cons, not_or] at h
      rw [cutExtent, if_neg (by simpa using Ne.symm h.1), ih h.2]

theorem cutExtent_cases (cs : List Char) :
    (∃ inside rest, ']' ∉ inside ∧ cutExtent cs = (inside ++ [']'], rest)) ∨
      ']' ∉ cs ∧ cutExtent cs = (cs, []) := by
  by_cases h : ']' ∈ cs
  · obtain ⟨inside, rest, rfl, hinside⟩ := List.eq_append_cons_of_mem h
    exact Or.inl ⟨inside, rest, hinside, cutExtent_closed hinside rest⟩
  · exact Or.inr ⟨h, cutExtent_open h⟩

/-- Only the last atom of a spelling can be open. -/
theorem spelled_atoms (cs : List Char) : Spelled (atoms cs) := by
  fun_induction atoms cs with
  | case1 => exact .nil
  | case2 c cs hc ih => exact ih
  | case3 c cs hc hstar ih => exact .cons .star ih
  | case4 c cs hc hstar hamp hnext ih => exact .cons .ampAmp ih
  | case5 c cs hc hstar hamp hnext ih => exact .cons .amp ih
  | case6 c cs hc hstar hamp hopen ih =>
      obtain rfl : c = '[' := by simpa using hopen
      rcases cutExtent_cases cs with ⟨inside, rest, hinside, hcut⟩ | ⟨hinside, hcut⟩
      · rw [hcut] at ih ⊢
        exact .cons (.extent hinside) ih
      · rw [hcut, atoms]
        exact .last (.extent hinside)
  | case7 c cs hc hstar hamp hextent hopen ih =>
      obtain rfl : c = '<' := by simpa using hopen
      rcases cutAngles_cases cs with ⟨inside, rest, hinside, hcut⟩ | ⟨hinside, hcut⟩
      · obtain ⟨inside', htidy, hinside', horder⟩ := exists_tidyArguments_balanced hinside
        rw [hcut] at ih ⊢
        rw [htidy]
        exact .cons (.arguments hinside' horder) ih
      · obtain ⟨inside', htidy, hinside', horder⟩ := exists_tidyArguments_opened hinside
        rw [hcut, htidy, atoms]
        exact .last (.arguments hinside' horder)
  | case8 c cs hc hstar hamp hextent hopen ih =>
      refine .cons (.word (by simp) (List.forall_mem_cons.mpr ⟨?_, ?_⟩)) ih
      · simp only [isWordChar, hc, hstar, hamp, hextent, hopen, Bool.or_self, Bool.not_false]
      · exact fun d hd => List.mem_takeWhile_imp hd

/-! ### Reading an atom -/

theorem atoms_blank {b : Char} (hb : isBlank b = true) (cs : List Char) :
    atoms (b :: cs) = atoms cs := by
  rw [atoms, if_pos hb]

theorem atoms_star (cs : List Char) : atoms ('*' :: cs) = .mark ['*'] :: atoms cs := by
  rw [atoms, if_neg (by decide), if_pos (by decide)]

theorem atoms_ampAmp (cs : List Char) :
    atoms ('&' :: '&' :: cs) = .mark ['&', '&'] :: atoms cs := by
  rw [atoms, if_neg (by decide), if_neg (by decide), if_pos (by decide), List.head?_cons,
    if_pos rfl, List.tail_cons]

theorem atoms_amp {cs : List Char} (h : cs.head? ≠ some '&') :
    atoms ('&' :: cs) = .mark ['&'] :: atoms cs := by
  rw [atoms, if_neg (by decide), if_neg (by decide), if_pos (by decide), if_neg h]

theorem atoms_extent (cs : List Char) :
    atoms ('[' :: cs) = .mark ('[' :: (cutExtent cs).1) :: atoms (cutExtent cs).2 := by
  rw [atoms, if_neg (by decide), if_neg (by decide), if_neg (by decide), if_pos (by decide)]

theorem atoms_arguments (cs : List Char) :
    atoms ('<' :: cs) =
      .arguments (tidyArguments ('<' :: (cutAngles 1 cs).1)) :: atoms (cutAngles 1 cs).2 := by
  rw [atoms, if_neg (by decide), if_neg (by decide), if_neg (by decide), if_neg (by decide),
    if_pos (by decide)]

theorem atoms_word {c : Char} (hc : isWordChar c = true) (cs : List Char) :
    atoms (c :: cs) =
      .word (c :: cs.takeWhile isWordChar) :: atoms (cs.dropWhile isWordChar) := by
  simp only [isWordChar, Bool.not_eq_true', Bool.or_eq_false_iff] at hc
  obtain ⟨⟨⟨⟨hblank, hstar⟩, hamp⟩, hextent⟩, hopen⟩ := hc
  rw [atoms, if_neg (by simp [hblank]), if_neg (by simp [hstar]), if_neg (by simp [hamp]),
    if_neg (by simp [hextent]), if_neg (by simp [hopen])]

/-- An atom is cut off from the text behind it. -/
def Atom.Cut (a : Atom) (rest : List Char) : Prop :=
  atoms (a.text ++ rest) = a :: atoms rest

theorem cut_word {t rest : List Char} (hne : t ≠ []) (ht : ∀ c ∈ t, isWordChar c = true)
    (hrest : ∀ c ∈ rest.head?, isWordChar c = false) : (Atom.word t).Cut rest := by
  obtain ⟨c, cs, rfl⟩ := List.exists_cons_of_ne_nil hne
  obtain ⟨hc, hcs⟩ := List.forall_mem_cons.mp ht
  have hstop : rest.takeWhile isWordChar = [] ∧ rest.dropWhile isWordChar = rest := by
    cases rest with
    | nil => exact ⟨rfl, rfl⟩
    | cons d rest => simp [hrest d rfl]
  rw [Atom.Cut, Atom.text, List.cons_append, atoms_word hc, List.takeWhile_append_of_pos hcs,
    List.dropWhile_append_of_pos hcs, hstop.1, hstop.2, List.append_nil]

theorem Atom.Closed.cut_of_not_word {a : Atom} (h : a.Closed) (hword : ∀ t, a ≠ .word t)
    {rest : List Char} (hrest : rest.head? ≠ some '&') : a.Cut rest := by
  cases h with
  | star => exact atoms_star rest
  | amp => exact atoms_amp hrest
  | ampAmp => exact atoms_ampAmp rest
  | @extent inside h =>
      have hcut := cutExtent_closed h rest
      rw [Cut, text, List.cons_append, List.append_assoc, List.singleton_append, atoms_extent, hcut]
  | @arguments inside h order =>
      have hcut := cutAngles_balanced h rest
      rw [Cut, text, List.cons_append, List.append_assoc, List.singleton_append, atoms_arguments,
        hcut, order.tidyArguments_eq]
  | word hne h => exact absurd rfl (hword _)

/-- An atom that is over ends before a space, before arguments and before the end of a text. -/
theorem Atom.Closed.cut {a : Atom} (h : a.Closed) {rest : List Char}
    (hrest : ∀ c ∈ rest.head?, c = ' ' ∨ c = '<') : a.Cut rest := by
  by_cases hword : ∃ t, a = .word t
  · obtain ⟨t, rfl⟩ := hword
    obtain _ | _ | _ | _ | _ | ⟨hne, hchars⟩ := h
    refine cut_word hne hchars fun c hc => ?_
    rcases hrest c hc with rfl | rfl <;> decide
  · refine h.cut_of_not_word (fun t heq => hword ⟨t, heq⟩) fun hhead => ?_
    rcases hrest '&' hhead with hspace | hopen
    · cases hspace
    · cases hopen

theorem Atom.Open.cut {a : Atom} (h : a.Open) : a.Cut [] := by
  cases h with
  | extent h =>
      have hcut := cutExtent_open h
      rw [Cut, text, List.append_nil, atoms_extent, hcut]
  | arguments h order =>
      have hcut := cutAngles_opened h
      rw [Cut, text, List.append_nil, atoms_arguments, hcut, order.tidyArguments_eq]

/-! ### Pieces that are read as one -/

/-- The text of some atoms. -/
def atomsText (as : List Atom) : List Char :=
  as.flatMap Atom.text

/-- Atoms that are read off their text and glued together: each continues the text of those
before it, and begins in a way that cuts it off from them. -/
inductive Whole : List Atom → Atom → Prop
  | one (a : Atom) : Whole [] a
  | more {init : List Atom} {last a : Atom} (h : Whole init last)
      (continues : a.continues (atomsText (init ++ [last])) = true)
      (cut : ∀ rest, last.Cut (a.text ++ rest)) : Whole (init ++ [last]) a

theorem atomsText_concat (init : List Atom) (last : Atom) :
    atomsText (init ++ [last]) = atomsText init ++ last.text := by
  simp [atomsText]

theorem Whole.atoms_eq {init : List Atom} {last : Atom} (h : Whole init last) :
    ∀ {rest : List Char}, last.Cut rest →
      atoms (atomsText (init ++ [last]) ++ rest) = init ++ last :: atoms rest := by
  induction h with
  | one a =>
      intro rest hcut
      rw [atomsText_concat, atomsText, List.flatMap_nil, List.nil_append, hcut]
      rfl
  | @more init last a h continues cut ih =>
      intro rest hcut
      rw [atomsText_concat, List.append_assoc, ih (cut rest), hcut, List.append_assoc]
      rfl

theorem Whole.glue_eq {init : List Atom} {last : Atom} (h : Whole init last) :
    ∀ rest, glue (init ++ last :: rest) = glueOnto (atomsText (init ++ [last])) rest := by
  induction h with
  | one a =>
      intro rest
      simp [glue, atomsText]
  | @more init last a h continues cut ih =>
      intro rest
      rw [List.append_assoc, List.singleton_append, ih, glueOnto, if_pos continues,
        atomsText_concat (init ++ [last])]

/-- **A piece is read as what it is**, and what follows it may continue it. -/
theorem Whole.pieces_eq {init : List Atom} {last : Atom} (h : Whole init last) {rest : List Char}
    (hcut : last.Cut rest) :
    pieces (atomsText (init ++ [last]) ++ rest) =
      glueOnto (atomsText (init ++ [last])) (atoms rest) := by
  rw [pieces, h.atoms_eq hcut, h.glue_eq]

/-! ### Gluing -/

/-- More characters go into the last word. -/
theorem Whole.extend {init : List Atom} {u : List Char} (h : Whole init (.word u))
    (t : List Char) : Whole init (.word (u ++ t)) := by
  obtain _ | ⟨h, continues, cut⟩ := h
  · exact .one _
  · refine .more h ?_ fun rest => ?_
    · simp only [Atom.continues, Bool.or_eq_true, List.isPrefixOf_iff_prefix] at continues ⊢
      exact continues.imp_left fun hbegin => hbegin.trans (List.prefix_append u t)
    · have hcut := cut (t ++ rest)
      rwa [Atom.text, ← List.append_assoc] at hcut

/-- A spelling that is read as one piece, and is over when a space follows. -/
def Done (p : List Char) : Prop :=
  ∃ init last, Whole init last ∧ last.Closed ∧ atomsText (init ++ [last]) = p

/-- A spelling that is read as one piece when nothing follows. -/
def Final (p : List Char) : Prop :=
  ∃ init last, Whole init last ∧ last.Cut [] ∧ atomsText (init ++ [last]) = p

theorem Atom.Closed.done {a : Atom} (h : a.Closed) : Done a.text :=
  ⟨[], a, .one a, h, by simp [atomsText]⟩

theorem Atom.Open.final {a : Atom} (h : a.Open) : Final a.text :=
  ⟨[], a, .one a, h.cut, by simp [atomsText]⟩

theorem Done.final {p : List Char} (h : Done p) : Final p := by
  obtain ⟨init, last, hwhole, hclosed, htext⟩ := h
  exact ⟨init, last, hwhole, hclosed.cut (by simp), htext⟩

theorem Final.pieces_eq {p : List Char} (h : Final p) : pieces p = [p] := by
  obtain ⟨init, last, hwhole, hcut, rfl⟩ := h
  have hpieces := hwhole.pieces_eq hcut
  rwa [List.append_nil, atoms, glueOnto] at hpieces

theorem Done.pieces_eq {p : List Char} (h : Done p) (rest : List Char) :
    pieces (p ++ ' ' :: rest) = glueOnto p (atoms rest) := by
  obtain ⟨init, last, hwhole, hclosed, rfl⟩ := h
  rw [hwhole.pieces_eq (hclosed.cut (by simp)), atoms_blank (by decide)]

/-- An atom that starts arguments goes behind any piece that is over. -/
theorem Done.whole_arguments {p t : List Char} (h : Done p) :
    ∃ init, Whole init (.arguments ('<' :: t)) ∧
      atomsText (init ++ [.arguments ('<' :: t)]) = p ++ '<' :: t := by
  obtain ⟨init, last, hwhole, hclosed, rfl⟩ := h
  exact ⟨init ++ [last], hwhole.more rfl fun rest => hclosed.cut (by simp [Atom.text]),
    atomsText_concat (init ++ [last]) _⟩

/-- **Gluing**: a piece is over when the atom that continues it is. -/
theorem Done.glue {p : List Char} (h : Done p) {a : Atom} (ha : a.Closed)
    (continues : a.continues p = true) : Done (p ++ a.text) := by
  cases ha with
  | star => cases continues
  | amp => cases continues
  | ampAmp => cases continues
  | extent => cases continues
  | arguments hbalanced order =>
      obtain ⟨init, hwhole, htext⟩ := h.whole_arguments
      exact ⟨init, _, hwhole, .arguments hbalanced order, htext⟩
  | @word t hne hchars =>
      obtain ⟨init, last, hwhole, hclosed, rfl⟩ := h
      by_cases hword : ∃ u, last = .word u
      · -- Two words that touch are one word from now on.
        obtain ⟨u, rfl⟩ := hword
        obtain _ | _ | _ | _ | _ | ⟨hu, huchars⟩ := hclosed
        refine ⟨init, .word (u ++ t), hwhole.extend t, .word (by simp [hu]) ?_, ?_⟩
        · exact fun c hc => (List.mem_append.mp hc).elim (huchars c) (hchars c)
        · simp [atomsText_concat, Atom.text]
      · refine ⟨init ++ [last], .word t, hwhole.more continues fun rest => ?_, .word hne hchars,
          atomsText_concat (init ++ [last]) _⟩
        refine hclosed.cut_of_not_word (fun u heq => hword ⟨u, heq⟩) ?_
        obtain ⟨c, cs, rfl⟩ := List.exists_cons_of_ne_nil hne
        rintro hhead
        obtain rfl : c = '&' := by simpa [Atom.text] using hhead
        exact absurd (hchars '&' (by simp)) (by decide)

theorem Done.glue_open {p : List Char} (h : Done p) {a : Atom} (ha : a.Open)
    (continues : a.continues p = true) : Final (p ++ a.text) := by
  cases ha with
  | extent => cases continues
  | arguments hopened order =>
      obtain ⟨init, hwhole, htext⟩ := h.whole_arguments
      exact ⟨init, _, hwhole, (Atom.Open.arguments hopened order).cut, htext⟩

/-! ### What pieces hold -/

theorem eraseBlanks_atomsText (cs : List Char) :
    eraseBlanks (atomsText (atoms cs)) = eraseBlanks cs := by
  have hcons : ∀ (a : Atom) {as : List Atom} (us : List Char) {vs : List Char},
      eraseBlanks a.text = eraseBlanks us → eraseBlanks (atomsText as) = eraseBlanks vs →
      eraseBlanks (atomsText (a :: as)) = eraseBlanks (us ++ vs) := by
    intro a as us vs ha has
    rw [atomsText, List.flatMap_cons, eraseBlanks_append, ha, eraseBlanks_append, ← has, atomsText]
  fun_induction atoms cs with
  | case1 => rfl
  | case2 c cs hc ih => rw [ih, eraseBlanks, eraseBlanks, List.filter_cons_of_neg (by simp [hc])]
  | case3 c cs hc hstar ih =>
      obtain rfl : c = '*' := by simpa using hstar
      exact hcons _ ['*'] rfl ih
  | case4 c cs hc hstar hamp hnext ih =>
      obtain rfl : c = '&' := by simpa using hamp
      obtain ⟨rest, rfl⟩ := List.head?_eq_some_iff.mp hnext
      exact hcons _ ['&', '&'] rfl ih
  | case5 c cs hc hstar hamp hnext ih =>
      obtain rfl : c = '&' := by simpa using hamp
      exact hcons _ ['&'] rfl ih
  | case6 c cs hc hstar hamp hopen ih =>
      rw [hcons _ (c :: (cutExtent cs).1) rfl ih, List.cons_append, cutExtent_append]
  | case7 c cs hc hstar hamp hextent hopen ih =>
      have herase := eraseBlanks_tidyArguments (c :: (cutAngles 1 cs).1)
      rw [hcons (.arguments (tidyArguments _)) _ herase ih, List.cons_append, cutAngles_append]
  | case8 c cs hc hstar hamp hextent hopen ih =>
      rw [hcons _ (c :: cs.takeWhile isWordChar) rfl ih, List.cons_append,
        List.takeWhile_append_dropWhile]

theorem flatten_glueOnto (p : List Char) (as : List Atom) :
    (glueOnto p as).flatten = p ++ atomsText as := by
  induction as generalizing p with
  | nil => simp [glueOnto, atomsText]
  | cons a as ih =>
      rw [glueOnto]
      split
      · rw [ih, List.append_assoc]
        rfl
      · rw [List.flatten_cons, ih]
        rfl

theorem flatten_pieces (cs : List Char) : (pieces cs).flatten = atomsText (atoms cs) := by
  rw [pieces]
  cases atoms cs with
  | nil => rfl
  | cons a as => exact flatten_glueOnto a.text as

/-! ### Pieces next to each other -/

theorem exists_glueOnto (p : List Char) (as : List Atom) :
    ∃ z qs, glueOnto p as = (p ++ z) :: qs := by
  induction as generalizing p with
  | nil => exact ⟨[], [], by simp [glueOnto]⟩
  | cons a as ih =>
      rw [glueOnto]
      split
      · obtain ⟨z, qs, heq⟩ := ih (p ++ a.text)
        exact ⟨a.text ++ z, qs, by rw [heq, List.append_assoc]⟩
      · exact ⟨[], _, by rw [List.append_nil]⟩

/-- Two pieces of which the second does not continue the first by the way it begins, unless it
begins with `::`. -/
structure Parted (p q : List Char) : Prop where
  done : Done p
  head : ∃ c cs, q = c :: cs ∧ isBlank c = false ∧ c ≠ '<' ∧
    (isWordChar c = true → ¬ [':', ':'] <:+ p)

/-- A piece that begins with a word can be taken out between two others. -/
theorem Parted.trans {p q r : List Char} (hp : Parted p q)
    (hq : ∀ c ∈ q.head?, isWordChar c = true) (hr : Parted q r) : Parted p r := by
  obtain ⟨hdone, c, cs, rfl, -, -, hopen⟩ := hp
  obtain ⟨-, d, ds, rfl, hblank, hangle, -⟩ := hr
  exact ⟨hdone, d, ds, rfl, hblank, hangle, fun _ => hopen (hq c rfl)⟩

theorem Done.parted {p : List Char} (h : Done p) {a : Atom} (ha : a.Closed ∨ a.Open)
    (hnot : a.continues p = false) (z : List Char) : Parted p (a.text ++ z) := by
  refine ⟨h, ?_⟩
  have hmark : ∀ {c : Char} (cs : List Char),
      isBlank c = false ∧ c ≠ '<' ∧ isWordChar c = false →
      ∃ d ds, c :: cs = d :: ds ∧ isBlank d = false ∧ d ≠ '<' ∧
        (isWordChar d = true → ¬ [':', ':'] <:+ p) :=
    fun cs ⟨hblank, hangle, hword⟩ => ⟨_, cs, rfl, hblank, hangle, by simp [hword]⟩
  rcases ha with ha | ha
  · cases ha with
    | star => exact hmark z (by decide)
    | amp => exact hmark z (by decide)
    | ampAmp => exact hmark ('&' :: z) (by decide)
    | extent => exact hmark _ (by decide)
    | arguments => cases hnot
    | @word t hne hchars =>
        obtain ⟨c, cs, rfl⟩ := List.exists_cons_of_ne_nil hne
        have hc := hchars c (by simp)
        simp only [isWordChar, Bool.not_eq_true', Bool.or_eq_false_iff, beq_eq_false_iff_ne] at hc
        simp only [Atom.continues, Bool.or_eq_false_iff] at hnot
        refine ⟨c, cs ++ z, rfl, hc.1.1.1.1, hc.2, fun _ hsuffix => ?_⟩
        rw [List.isSuffixOf_iff_suffix.mpr hsuffix] at hnot
        cases hnot.2
  · cases ha with
    | extent => exact hmark _ (by decide)
    | arguments => cases hnot

/-- Pieces that are each read as one, and do not continue each other. -/
structure Laid (ps : List (List Char)) : Prop where
  final : ∀ p ∈ ps, Final p
  parted : ps.IsChain Parted

theorem Laid.cons {p : List Char} {ps : List (List Char)} (hp : Final p)
    (hparted : ∀ q ∈ ps.head?, Parted p q) (h : Laid ps) : Laid (p :: ps) :=
  ⟨List.forall_mem_cons.mpr ⟨hp, h.final⟩, h.parted.cons hparted⟩

theorem Done.laid_glueOnto {as : List Atom} (has : Spelled as) :
    ∀ {p : List Char}, Done p → Laid (glueOnto p as) := by
  have hhead : ∀ {p : List Char} {a : Atom} {as : List Atom}, Done p → a.Closed ∨ a.Open →
      a.continues p = false → ∀ q ∈ (glueOnto a.text as).head?, Parted p q := by
    intro p a as hp ha hnot q hq
    obtain ⟨z, qs, heq⟩ := exists_glueOnto a.text as
    obtain rfl : a.text ++ z = q := by simpa [heq] using hq
    exact hp.parted ha hnot z
  induction has with
  | nil =>
      intro p hp
      exact .cons hp.final (by simp) ⟨by simp, .nil⟩
  | @last a ha =>
      intro p hp
      rw [glueOnto]
      split
      · rename_i hcontinues
        exact .cons (hp.glue_open ha hcontinues) (by simp) ⟨by simp, .nil⟩
      · rename_i hcontinues
        refine .cons hp.final (hhead hp (Or.inr ha) (by simpa using hcontinues)) ?_
        exact .cons ha.final (by simp) ⟨by simp, .nil⟩
  | @cons a as ha _ ih =>
      intro p hp
      rw [glueOnto]
      split
      · rename_i hcontinues
        exact ih (hp.glue ha hcontinues)
      · rename_i hcontinues
        exact .cons hp.final (hhead hp (Or.inl ha) (by simpa using hcontinues)) (ih ha.done)

/-- **Every piece of a spelling is read as one piece again**, and no two neighbours continue each
other by the way they begin. -/
theorem laid_pieces (cs : List Char) : Laid (pieces cs) := by
  have hspelled := spelled_atoms cs
  rw [pieces]
  generalize atoms cs = as at hspelled ⊢
  cases hspelled with
  | nil => exact ⟨by simp [glue], .nil⟩
  | last ha => exact .cons ha.final (by simp) ⟨by simp, .nil⟩
  | cons ha hrest => exact ha.done.laid_glueOnto hrest

/-! ### Pieces with spaces between them -/

theorem atoms_cons_cases {c : Char} (hblank : isBlank c = false) (hangle : c ≠ '<')
    (cs : List Char) :
    (∃ t as, atoms (c :: cs) = .mark t :: as) ∨
      isWordChar c = true ∧
        ∃ as, atoms (c :: cs) = .word (c :: cs.takeWhile isWordChar) :: as := by
  cases hword : isWordChar c with
  | true => exact Or.inr ⟨rfl, _, atoms_word hword cs⟩
  | false =>
      rw [isWordChar, hblank, Bool.not_eq_false'] at hword
      simp only [Bool.or_eq_true, beq_iff_eq, Bool.false_or] at hword
      rcases hword with ((rfl | rfl) | rfl) | rfl
      · exact Or.inl ⟨_, _, atoms_star cs⟩
      · by_cases hnext : cs.head? = some '&'
        · obtain ⟨rest, rfl⟩ := List.head?_eq_some_iff.mp hnext
          exact Or.inl ⟨_, _, atoms_ampAmp rest⟩
        · exact Or.inl ⟨_, _, atoms_amp hnext⟩
      · exact Or.inl ⟨_, _, atoms_extent cs⟩
      · exact absurd rfl hangle

/-- A piece is over before a text that does not continue it. -/
theorem Parted.glueOnto_atoms {p q : List Char} (h : Parted p q) {z : List Char}
    (hscope : ¬ [':', ':'] <+: q ++ z) :
    glueOnto p (atoms (q ++ z)) = p :: pieces (q ++ z) := by
  obtain ⟨-, c, cs, rfl, hblank, hangle, hopen⟩ := h
  rw [List.cons_append] at hscope ⊢
  rcases atoms_cons_cases hblank hangle (cs ++ z) with ⟨t, as, hatoms⟩ | ⟨hword, as, hatoms⟩
  · rw [pieces, hatoms, glueOnto, if_neg (by simp [Atom.continues]), glue]
  · have hnot : (Atom.word (c :: (cs ++ z).takeWhile isWordChar)).continues p = false := by
      have hbegin : ¬ [':', ':'] <+: c :: (cs ++ z).takeWhile isWordChar := fun hbegin =>
        hscope (hbegin.trans ((List.prefix_cons_inj c).mpr (List.takeWhile_prefix _)))
      rw [Atom.continues, Bool.or_eq_false_iff, ← Bool.not_eq_true, ← Bool.not_eq_true,
        List.isPrefixOf_iff_prefix, List.isSuffixOf_iff_suffix]
      exact ⟨hbegin, hopen hword⟩
    rw [pieces, hatoms, glueOnto, if_neg (by simp [hnot]), glue]

/-- Text that starts with `::` goes on in the piece before it. -/
theorem exists_glueOnto_scope (p cs : List Char) :
    ∃ z qs, glueOnto p (atoms (':' :: ':' :: cs)) = (p ++ ':' :: ':' :: z) :: qs := by
  have hword : isWordChar ':' = true := by decide
  rw [atoms_word hword, List.takeWhile_cons_of_pos hword, glueOnto,
    if_pos (by simp [Atom.continues])]
  obtain ⟨z, qs, heq⟩ := exists_glueOnto
    (p ++ ':' :: ':' :: cs.takeWhile isWordChar) (atoms ((':' :: cs).dropWhile isWordChar))
  exact ⟨cs.takeWhile isWordChar ++ z, qs, by simpa [Atom.text] using heq⟩

theorem exists_join (q : List Char) (qs : List (List Char)) :
    ∃ z, join [' '] (q :: qs) = q ++ z ∧ ∀ c ∈ z.head?, c = ' ' := by
  cases qs with
  | nil => exact ⟨[], by simp [join], by simp⟩
  | cons r qs => exact ⟨' ' :: join [' '] (r :: qs), by simp [join_cons_cons], by simp⟩

theorem scope_prefix_append {q z : List Char} (hne : q ≠ []) (hz : ∀ c ∈ z.head?, c = ' ') :
    [':', ':'] <+: q ++ z ↔ [':', ':'] <+: q := by
  refine ⟨fun h => ?_, fun h => h.trans (List.prefix_append q z)⟩
  obtain _ | ⟨c, _ | ⟨d, cs⟩⟩ := q
  · exact absurd rfl hne
  · obtain _ | ⟨e, z⟩ := z
    · simp at h
    · obtain rfl := hz e rfl
      simp at h
  · simpa using h

/-- Texts that begin with the same pieces are joined alike up to the first other piece. -/
theorem exists_join_append (us : List (List Char)) :
    ∃ y, ∀ q ws, join [' '] (us ++ q :: ws) = y ++ join [' '] (q :: ws) := by
  induction us with
  | nil => exact ⟨[], fun _ _ => rfl⟩
  | cons u us ih =>
      obtain ⟨y, hy⟩ := ih
      refine ⟨u ++ [' '] ++ y, fun q ws => ?_⟩
      obtain ⟨v, vs, heq⟩ := List.exists_cons_of_ne_nil (l := us ++ q :: ws) (by simp)
      rw [List.cons_append, heq, join_cons_cons, ← heq, hy]
      simp

/-- Only text that ends with a colon ends with `::`. -/
theorem not_scope_suffix_concat (cs : List Char) {c : Char} (hc : c ≠ ':') :
    ¬ [':', ':'] <:+ cs ++ [c] := by
  rintro ⟨us, hus⟩
  rw [List.append_cons] at hus
  exact hc (List.singleton_inj.mp (List.append_inj' hus rfl).2).symm

/-- What is read of pieces with spaces between them begins with the first piece. -/
theorem Laid.pieces_join_cons {p q : List Char} {ps : List (List Char)}
    (h : Laid (p :: q :: ps)) :
    pieces (join [' '] (p :: q :: ps)) = glueOnto p (atoms (join [' '] (q :: ps))) := by
  have hparted : Parted p q := (List.isChain_cons_cons.mp h.parted).1
  rw [join_cons_cons, List.append_assoc, List.singleton_append, hparted.done.pieces_eq]

theorem Laid.tail {p : List Char} {ps : List (List Char)} (h : Laid (p :: ps)) : Laid ps :=
  ⟨(List.forall_mem_cons.mp h.final).2, h.parted.tail⟩

theorem Laid.pieces_join_of_not_scope {p q : List Char} {ps : List (List Char)}
    (h : Laid (p :: q :: ps)) (hscope : ¬ [':', ':'] <+: q) :
    pieces (join [' '] (p :: q :: ps)) = p :: pieces (join [' '] (q :: ps)) := by
  have hparted : Parted p q := (List.isChain_cons_cons.mp h.parted).1
  obtain ⟨z, hjoin, hz⟩ := exists_join q ps
  have hne : q ≠ [] := by
    obtain ⟨c, cs, rfl, -⟩ := hparted.head
    simp
  rw [h.pieces_join_cons, hjoin, hparted.glueOnto_atoms]
  rwa [scope_prefix_append hne hz]

/-- **Pieces are read again as they are** when none but the first begins with `::`. -/
theorem Laid.pieces_join {ps : List (List Char)} (h : Laid ps)
    (hscope : ∀ q ∈ ps.tail, ¬ [':', ':'] <+: q) : pieces (join [' '] ps) = ps := by
  induction ps with
  | nil => rw [join, pieces, atoms, glue]
  | cons p ps ih =>
      cases ps with
      | nil => exact (h.final p (by simp)).pieces_eq
      | cons q ps =>
          obtain ⟨hq, hps⟩ := List.forall_mem_cons.mp hscope
          rw [h.pieces_join_of_not_scope hq, ih h.tail hps]

/-- Where a piece begins with `::`, it goes on the one before it. -/
theorem Laid.pieces_join_scope {ps : List (List Char)} (h : Laid ps)
    (hscope : ∃ q ∈ ps.tail, [':', ':'] <+: q) :
    ∃ us p q vs z qs, ps = us ++ p :: q :: vs ∧
      pieces (join [' '] ps) = us ++ (p ++ ':' :: ':' :: z) :: qs := by
  induction ps with
  | nil => simp at hscope
  | cons p ps ih =>
      obtain ⟨r, hr, hbegin⟩ := hscope
      cases ps with
      | nil => simp at hr
      | cons q ps =>
          by_cases hq : [':', ':'] <+: q
          · obtain ⟨t, rfl⟩ := hq
            obtain ⟨y, hjoin, -⟩ := exists_join ([':', ':'] ++ t) ps
            obtain ⟨z, qs, heq⟩ := exists_glueOnto_scope p (t ++ y)
            refine ⟨[], p, _, ps, z, qs, rfl, ?_⟩
            rw [h.pieces_join_cons, hjoin]
            exact heq
          · have hmem : r ∈ ps := by
              rcases List.mem_cons.mp hr with rfl | hmem
              · exact absurd hbegin hq
              · exact hmem
            obtain ⟨us, p', q', vs, z, qs, heq, hpieces⟩ := ih h.tail ⟨r, hmem, hbegin⟩
            refine ⟨p :: us, p', q', vs, z, qs, by rw [heq]; rfl, ?_⟩
            rw [h.pieces_join_of_not_scope hq, hpieces]
            rfl

end DocForest.TypeUse
