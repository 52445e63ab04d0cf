/-
The name of a type as a normal form.

Reading a name again gives the name and no qualifiers.  The words of a name are pieces of the
spelling that it was read from, with nothing between them but the `volatile`s that are dropped
(`isName_foldl_step`), and pieces with spaces between them are read as they are.

There is one exception, and it is the only one.  A word other than the first may begin with
`::`, and when the name is read again it goes on the word before it.  Such a word comes from a
lone colon with a `::` some blanks behind it.
-/
import DocForest.Proofs.TypePieces

namespace DocForest.TypeUse

open Text

/-! ### One piece of a reading -/

/-- A piece that is no qualifier, and so may be a word of a name. -/
structure Plain (p : List Char) : Prop where
  const : p ≠ "const".toList
  volatile : p ≠ "volatile".toList
  star : p ≠ ['*']
  amp : p ≠ ['&']
  ampAmp : p ≠ ['&', '&']
  extent : p.head? ≠ some '['

/-- A piece that adds nothing to a name when it stands before it. -/
def IsElaboration (p : List Char) : Prop :=
  elaborations.contains (String.ofList p) = true

/-- Words that are not read as the first word of a name. -/
def reserved : List String :=
  "const" :: "volatile" :: elaborations

theorem ne_of_not_reserved {p : List Char} (h : String.ofList p ∉ reserved) :
    p ≠ "const".toList ∧ p ≠ "volatile".toList ∧ ¬ IsElaboration p := by
  have hne : ∀ s ∈ reserved, p ≠ s.toList := by
    rintro s hs rfl
    exact h (by simpa using hs)
  refine ⟨hne _ (by decide), hne _ (by decide), fun helaboration => h ?_⟩
  exact List.mem_cons_of_mem _ (List.mem_cons_of_mem _ (List.contains_iff_mem.mp helaboration))

theorem plain_of_head {p : List Char} (hhead : ∀ c ∈ p.head?, isWordChar c = true)
    (hreserved : String.ofList p ∉ reserved) : Plain p ∧ ¬ IsElaboration p := by
  obtain ⟨hconst, hvolatile, helaboration⟩ := ne_of_not_reserved hreserved
  refine ⟨⟨hconst, hvolatile, ?_, ?_, ?_, ?_⟩, helaboration⟩
  · rintro rfl
    exact absurd (hhead '*' rfl) (by decide)
  · rintro rfl
    exact absurd (hhead '&' rfl) (by decide)
  · rintro rfl
    exact absurd (hhead '&' rfl) (by decide)
  · intro hextent
    exact absurd (hhead '[' hextent) (by decide)

/-- A word with a colon or a bracket in it is not reserved. -/
theorem not_reserved_of_mem {p : List Char} {c : Char} (hc : c = ':' ∨ c = '<') (hp : c ∈ p) :
    String.ofList p ∉ reserved := by
  intro hreserved
  have hall : ∀ s ∈ reserved, ':' ∉ s.toList ∧ '<' ∉ s.toList := by decide
  have hnot := hall _ hreserved
  rw [String.toList_ofList] at hnot
  rcases hc with rfl | rfl
  · exact hnot.1 hp
  · exact hnot.2 hp

/-- A piece either becomes a word, or it leaves the words alone.  In the second case the name is
over, has not begun, or the piece is a `volatile`. -/
theorem Reading.step_cases (r : Reading) (p : List Char) :
    (Plain p ∧ (r.words = [] → ¬ IsElaboration p) ∧
        r.step p = { r with words := r.words ++ [p] }) ∨
      (r.step p).words = r.words ∧
        ((r.step p).nameOver = true ∨ r.words = [] ∨ p = "volatile".toList) := by
  fun_cases Reading.step r p with
  | case1 hconst hempty => exact Or.inr ⟨rfl, Or.inr (Or.inl (by simpa using hempty))⟩
  | case3 hconst hvolatile => exact Or.inr ⟨rfl, Or.inr (Or.inr hvolatile)⟩
  | case8 hconst hvolatile hstar hamp hampAmp hextent helaboration =>
      simp only [Bool.and_eq_true, List.isEmpty_iff] at helaboration
      exact Or.inr ⟨rfl, Or.inr (Or.inl helaboration.1)⟩
  | case9 hconst hvolatile hstar hamp hampAmp hextent helaboration hover =>
      exact Or.inr ⟨rfl, Or.inl hover⟩
  | case10 hconst hvolatile hstar hamp hampAmp hextent helaboration hover =>
      refine Or.inl ⟨⟨hconst, hvolatile, hstar, hamp, hampAmp, hextent⟩, fun hempty hp => ?_, rfl⟩
      exact helaboration (by rw [hempty]; exact hp)
  | _ => exact Or.inr ⟨rfl, Or.inl rfl⟩

theorem Plain.step_eq {p : List Char} (h : Plain p) {r : Reading} (hover : r.nameOver = false)
    (hfirst : r.words = [] → ¬ IsElaboration p) :
    r.step p = { r with words := r.words ++ [p] } := by
  rw [Reading.step, if_neg h.const, if_neg h.volatile, if_neg h.star, if_neg h.amp,
    if_neg h.ampAmp, if_neg h.extent, if_neg, if_neg (by simp [hover])]
  simpa [IsElaboration] using hfirst

theorem Reading.step_of_nameOver {r : Reading} (h : r.nameOver = true) (p : List Char) :
    (r.step p).words = r.words ∧ (r.step p).nameOver = true := by
  fun_cases Reading.step r p with
  | case10 hconst hvolatile hstar hamp hampAmp hextent helaboration hover => exact absurd h hover
  | _ => exact ⟨rfl, by first | rfl | exact h⟩

/-! ### The words of a reading -/

theorem words_foldl_of_nameOver {r : Reading} (h : r.nameOver = true) (ps : List (List Char)) :
    (ps.foldl Reading.step r).words = r.words := by
  induction ps generalizing r with
  | nil => rfl
  | cons p ps ih =>
      obtain ⟨hwords, hover⟩ := Reading.step_of_nameOver h p
      rw [List.foldl_cons, ih hover, hwords]

/-- Reading on only adds to the words, and the pieces it adds keep their order. -/
theorem exists_words_foldl (ps : List (List Char)) (r : Reading) :
    ∃ ws, (ps.foldl Reading.step r).words = r.words ++ ws ∧ ws.Sublist ps := by
  induction ps generalizing r with
  | nil => exact ⟨[], by simp, .slnil⟩
  | cons p ps ih =>
      obtain ⟨ws, hfold, hws⟩ := ih (r.step p)
      rw [List.foldl_cons, hfold]
      rcases r.step_cases p with ⟨-, -, hstep⟩ | ⟨hstep, -⟩
      · exact ⟨p :: ws, by rw [hstep, List.append_assoc]; rfl, hws.cons_cons p⟩
      · exact ⟨ws, by rw [hstep], hws.cons p⟩

/-- The words that the name of a spelling is made of. -/
def nameWords (cs : List Char) : List (List Char) :=
  ((pieces cs).foldl Reading.step {}).words

theorem nameWords_sublist (cs : List Char) : (nameWords cs).Sublist (pieces cs) := by
  obtain ⟨ws, heq, hws⟩ := exists_words_foldl (pieces cs) {}
  rwa [nameWords, heq]

/-- Words that are a name when they are read in this order. -/
structure IsName (ws : List (List Char)) : Prop where
  laid : Laid ws
  plain : ∀ w ∈ ws, Plain w
  first : ∀ w ∈ ws.head?, ¬ IsElaboration w

theorem IsName.nil : IsName [] :=
  ⟨⟨by simp, .nil⟩, by simp, by simp⟩

theorem IsName.concat {ws : List (List Char)} (h : IsName ws) {p : List Char} (hp : Plain p)
    (hfirst : ws = [] → ¬ IsElaboration p) (hlaid : Laid (ws ++ [p])) : IsName (ws ++ [p]) := by
  refine ⟨hlaid, ?_, fun w hw => ?_⟩
  · exact fun w hw => (List.mem_append.mp hw).elim (h.plain w) fun hsingle => by
      rwa [List.mem_singleton.mp hsingle]
  · cases ws with
    | nil =>
        obtain rfl : p = w := by simpa using hw
        exact hfirst rfl
    | cons v ws => exact h.first w hw

/-- A word between pieces can be taken out. -/
theorem Laid.erase {us : List (List Char)} {p : List Char} {vs : List (List Char)}
    (h : Laid (us ++ p :: vs)) (hp : ∀ c ∈ p.head?, isWordChar c = true) : Laid (us ++ vs) := by
  induction us with
  | nil => exact h.tail
  | cons u us ih =>
      refine .cons (h.final u (by simp)) (fun q hq => ?_) (ih h.tail)
      have hparted := h.parted
      cases us with
      | nil =>
          obtain ⟨vs, rfl⟩ := List.head?_eq_some_iff.mp hq
          obtain ⟨hup, hpq⟩ := List.isChain_cons_cons.mp hparted
          exact hup.trans hp (List.isChain_cons_cons.mp hpq).1
      | cons v us =>
          obtain rfl : v = q := by simpa using hq
          exact (List.isChain_cons_cons.mp hparted).1

theorem Laid.of_append {us vs : List (List Char)} (h : Laid (us ++ vs)) : Laid us :=
  ⟨fun p hp => h.final p (List.mem_append_left vs hp), h.parted.left_of_append⟩

/-- **One more piece** keeps the words a name, and they fit in with the pieces to come unless the
name is over. -/
theorem IsName.step {r : Reading} (h : IsName r.words) {p : List Char} {ps : List (List Char)}
    (hlaid : Laid (r.words ++ p :: ps)) :
    IsName (r.step p).words ∧
      ((r.step p).nameOver = true ∨ Laid ((r.step p).words ++ ps)) := by
  rcases r.step_cases p with ⟨hplain, hfirst, hstep⟩ | ⟨hwords, hcause⟩
  · have hlaid' : Laid ((r.words ++ [p]) ++ ps) := by simpa using hlaid
    rw [hstep]
    exact ⟨h.concat hplain hfirst hlaid'.of_append, Or.inr hlaid'⟩
  · rw [hwords]
    refine ⟨h, hcause.imp_right ?_⟩
    rintro (hempty | rfl)
    · rw [hempty] at hlaid ⊢
      exact hlaid.tail
    · refine hlaid.erase fun c hc => ?_
      obtain rfl : 'v' = c := by simpa using hc
      decide

/-- The words of a whole reading are a name. -/
theorem isName_foldl_step {ps : List (List Char)} {r : Reading} (h : IsName r.words)
    (hlaid : Laid (r.words ++ ps)) : IsName (ps.foldl Reading.step r).words := by
  induction ps generalizing r with
  | nil => exact h
  | cons p ps ih =>
      obtain ⟨hstep, hover | hlaid'⟩ := h.step hlaid
      · rw [List.foldl_cons, words_foldl_of_nameOver hover]
        exact hstep
      · exact ih hstep hlaid'

theorem isName_nameWords (cs : List Char) : IsName (nameWords cs) :=
  isName_foldl_step .nil (laid_pieces cs)

/-! ### Reading a name -/

theorem foldl_step_of_plain {ps : List (List Char)} {r : Reading} (hover : r.nameOver = false)
    (hplain : ∀ p ∈ ps, Plain p) (hfirst : r.words = [] → ∀ p ∈ ps.head?, ¬ IsElaboration p) :
    ps.foldl Reading.step r = { r with words := r.words ++ ps } := by
  induction ps generalizing r with
  | nil => rw [List.append_nil]; rfl
  | cons p ps ih =>
      obtain ⟨hp, hps⟩ := List.forall_mem_cons.mp hplain
      rw [List.foldl_cons, hp.step_eq hover fun hempty => hfirst hempty p rfl,
        ih (by exact hover) hps (by simp)]
      simp

theorem IsName.foldl_step {ws : List (List Char)} (h : IsName ws) :
    ws.foldl Reading.step {} = { words := ws } :=
  foldl_step_of_plain rfl h.plain fun _ => h.first

theorem parse_of_not_mem {cs : List Char} (h : '(' ∉ cs) :
    parse (String.ofList cs) = ((pieces cs).foldl Reading.step {}).use := by
  rw [parse, String.toList_ofList, if_neg (by simpa using h)]

/-- **A name is read as itself** when no word but the first begins with `::`. -/
theorem IsName.parse_eq {ws : List (List Char)} (h : IsName ws) (hparen : '(' ∉ join [' '] ws)
    (hscope : ∀ w ∈ ws.tail, ¬ [':', ':'] <+: w) :
    parse (String.ofList (join [' '] ws)) = { name := String.ofList (join [' '] ws) } := by
  rw [parse_of_not_mem hparen, h.laid.pieces_join hscope, h.foldl_step]
  rfl

/-- A piece that `::` goes on is a word still. -/
theorem Plain.append_scope {p : List Char} (h : Plain p) (z : List Char) :
    Plain (p ++ ':' :: z) ∧ ¬ IsElaboration (p ++ ':' :: z) := by
  have hcolon : ':' ∈ p ++ ':' :: z := by simp
  have hne : ∀ {t : List Char}, ':' ∉ t → p ++ ':' :: z ≠ t := fun ht heq => ht (heq ▸ hcolon)
  obtain ⟨hconst, hvolatile, helaboration⟩ :=
    ne_of_not_reserved (not_reserved_of_mem (Or.inl rfl) hcolon)
  refine ⟨⟨hconst, hvolatile, hne (by decide), hne (by decide), hne (by decide), ?_⟩, helaboration⟩
  cases p with
  | nil => simp
  | cons c cs => exact h.extent

/-- A name is read as another one when a word other than the first begins with `::`. -/
theorem IsName.parse_name_ne {ws : List (List Char)} (h : IsName ws)
    (hparen : '(' ∉ join [' '] ws) (hscope : ∃ w ∈ ws.tail, [':', ':'] <+: w) :
    (parse (String.ofList (join [' '] ws))).name ≠ String.ofList (join [' '] ws) := by
  obtain ⟨us, p, q, vs, z, qs, rfl, hpieces⟩ := h.laid.pieces_join_scope hscope
  obtain ⟨hplain, hfirst⟩ := (h.plain p (by simp)).append_scope (':' :: z)
  have hread : (us ++ [p ++ ':' :: ':' :: z]).foldl Reading.step {} =
      { words := us ++ [p ++ ':' :: ':' :: z] } := by
    refine foldl_step_of_plain rfl (fun w hw => ?_) fun _ w hw => ?_
    · rcases List.mem_append.mp hw with hmem | hlast
      · exact h.plain w (List.mem_append_left _ hmem)
      · rwa [List.mem_singleton.mp hlast]
    · cases us with
      | nil =>
          obtain rfl : p ++ ':' :: ':' :: z = w := by simpa using hw
          exact hfirst
      | cons u us => exact h.first w hw
  obtain ⟨more, hmore, -⟩ :=
    exists_words_foldl qs { words := us ++ [p ++ ':' :: ':' :: z] }
  obtain ⟨y, hy⟩ := exists_join_append us
  obtain ⟨t, ht, -⟩ := exists_join (p ++ ':' :: ':' :: z) more
  rw [parse_of_not_mem hparen, hpieces, List.append_cons, List.foldl_append, hread]
  intro hname
  have hjoin := String.ofList_injective hname
  -- Both texts begin with the same words and `p`, and then they differ.
  rw [hmore, List.append_assoc, List.singleton_append, hy, hy, List.append_cancel_left_eq, ht,
    join_cons_cons, List.append_assoc, List.append_assoc, List.append_cancel_left_eq] at hjoin
  exact absurd (List.cons.inj hjoin).1 (by decide)

/-! ### Which names are not read as themselves -/

theorem not_mem_join_nameWords {c : Char} (hc : isBlank c = false) {cs : List Char}
    (h : c ∉ cs) : c ∉ join [' '] (nameWords cs) := by
  intro hmem
  have hword : c ∈ (nameWords cs).flatten := by
    rw [← mem_eraseBlanks hc, eraseBlanks_join, mem_eraseBlanks hc] at hmem
    exact hmem
  obtain ⟨w, hw, hcw⟩ := List.mem_flatten.mp hword
  have hpieces : c ∈ (pieces cs).flatten :=
    List.mem_flatten.mpr ⟨w, (nameWords_sublist cs).mem hw, hcw⟩
  rw [flatten_pieces, ← mem_eraseBlanks hc, eraseBlanks_atomsText, mem_eraseBlanks hc] at hpieces
  exact h hpieces

/-- A lone colon has a `::` behind it, with blanks in between: the character before it, if there
is one, is no colon, and the one behind it is a blank. -/
def SplitScope (cs : List Char) : Prop :=
  ∃ before blanks after, cs = before ++ ':' :: (blanks ++ ':' :: ':' :: after) ∧
    before.getLast? ≠ some ':' ∧ blanks ≠ [] ∧ ∀ b ∈ blanks, isBlank b = true

/-- A spelling is taken apart, and a word of its name other than the first begins with `::`. -/
def StrayScope (cs : List Char) : Prop :=
  '(' ∉ cs ∧ ∃ w ∈ (nameWords cs).tail, [':', ':'] <+: w

/-- A colon stays lone behind another text, if no two colons meet. -/
theorem SplitScope.append_left {cs : List Char} (h : SplitScope cs) (us : List Char)
    (hmeet : us.getLast? = some ':' → cs.head? ≠ some ':') : SplitScope (us ++ cs) := by
  obtain ⟨before, blanks, after, rfl, hlone, hne, hblanks⟩ := h
  refine ⟨us ++ before, blanks, after, by simp, ?_, hne, hblanks⟩
  rw [List.getLast?_append]
  cases hlast : before.getLast? with
  | none =>
      obtain rfl := List.getLast?_eq_none_iff.mp hlast
      exact fun hus => hmeet hus rfl
  | some c => rwa [hlast] at hlone

/-- Only a `::` that follows makes a lone colon begin with `::`. -/
theorem exists_blanks_of_scope {cs q : List Char}
    (h : (glueOnto [':'] (atoms cs)).head? = some q) (hq : [':', ':'] <+: q) :
    ∃ blanks after, cs = blanks ++ ':' :: ':' :: after ∧ ∀ b ∈ blanks, isBlank b = true := by
  induction cs with
  | nil =>
      obtain rfl : [':'] = q := by simpa [atoms, glueOnto] using h
      exact absurd hq (by decide)
  | cons c cs ih =>
      have hcontinues : ∀ a as, atoms (c :: cs) = a :: as → a.continues [':'] = true := by
        intro a as hatoms
        rw [hatoms, glueOnto] at h
        split at h
        · assumption
        · obtain rfl : [':'] = q := by simpa using h
          exact absurd hq (by decide)
      cases hc : isBlank c with
      | true =>
          rw [atoms_blank hc] at h
          obtain ⟨blanks, after, rfl, hblanks⟩ := ih h
          exact ⟨c :: blanks, after, rfl, List.forall_mem_cons.mpr ⟨hc, hblanks⟩⟩
      | false =>
          by_cases hangle : c = '<'
          · obtain ⟨inside, htidy, -⟩ := exists_tidyArguments (cutAngles 1 cs).1
            obtain ⟨z, qs, heq⟩ := exists_glueOnto (':' :: '<' :: inside)
              (atoms (cutAngles 1 cs).2)
            rw [hangle, atoms_arguments, htidy, glueOnto, if_pos (by rfl)] at h
            obtain rfl : ':' :: '<' :: (inside ++ z) = q := by
              simpa [Atom.text, heq] using h
            simp at hq
          · rcases atoms_cons_cases hc hangle cs with ⟨t, as, hatoms⟩ | ⟨-, as, hatoms⟩
            · exact absurd (hcontinues _ _ hatoms) (by simp [Atom.continues])
            · have hbegin := hcontinues _ _ hatoms
              rw [Atom.continues, Bool.or_eq_true, List.isPrefixOf_iff_prefix,
                or_iff_left (by decide)] at hbegin
              obtain ⟨after, hafter⟩ := hbegin.trans
                ((List.prefix_cons_inj c).mpr (List.takeWhile_prefix isWordChar))
              exact ⟨[], after, hafter.symm, by simp⟩

/-- A piece whose first atom does not continue the one before it begins with `::` only if that
atom is a colon. -/
theorem eq_colon_of_scope {a : Atom} (hne : a.text ≠ [])
    (hmark : ∀ t, a = .mark t → t.head? ≠ some ':') {p q : List Char}
    (hnot : a.continues p = false) {as : List Atom}
    (h : (glueOnto a.text as).head? = some q) (hq : [':', ':'] <+: q) : a = .word [':'] := by
  obtain ⟨z, qs, heq⟩ := exists_glueOnto a.text as
  obtain rfl : a.text ++ z = q := by simpa [heq] using h
  cases a with
  | mark t =>
      obtain ⟨c, cs, rfl⟩ := List.exists_cons_of_ne_nil hne
      obtain rfl : ':' = c := (List.cons_prefix_cons.mp hq).1
      exact absurd rfl (hmark _ rfl)
  | arguments t => cases hnot
  | word t =>
      obtain ⟨c, cs, rfl⟩ := List.exists_cons_of_ne_nil hne
      obtain ⟨rfl, hrest⟩ := List.cons_prefix_cons.mp hq
      cases cs with
      | nil => rfl
      | cons d cs =>
          obtain rfl : ':' = d := (List.cons_prefix_cons.mp hrest).1
          simp [Atom.continues] at hnot

/-- A piece behind the first begins with `::` in the rest of a text, or with its first atom. -/
theorem splitScope_cons {a : Atom} (us : List Char) {rest cs : List Char}
    (hcs : us ++ rest = cs) (hmeet : us.getLast? = some ':' → rest.head? ≠ some ':') (hne : a.text ≠ []) (hmark : ∀ t, a = .mark t → t.head? ≠ some ':')
    (hcolon : a = .word [':'] → ∀ q, (glueOnto [':'] (atoms rest)).head? = some q →
      [':', ':'] <+: q → SplitScope cs)
    (ih : ∀ p, (∃ q ∈ (glueOnto p (atoms rest)).tail, [':', ':'] <+: q) → SplitScope rest)
    (p : List Char) (h : ∃ q ∈ (glueOnto p (a :: atoms rest)).tail, [':', ':'] <+: q) :
    SplitScope cs := by
  obtain ⟨q, hmem, hq⟩ := h
  subst hcs
  rw [glueOnto] at hmem
  split at hmem
  · exact (ih _ ⟨q, hmem, hq⟩).append_left us hmeet
  · rename_i hnot
    rw [Bool.not_eq_true] at hnot
    obtain ⟨z, qs, heq⟩ := exists_glueOnto a.text (atoms rest)
    rw [List.tail_cons, heq] at hmem
    rcases List.mem_cons.mp hmem with rfl | hmem
    · have hhead : (glueOnto a.text (atoms rest)).head? = some (a.text ++ z) := by rw [heq]; rfl
      obtain rfl := eq_colon_of_scope hne hmark hnot hhead hq
      exact hcolon rfl _ hhead hq
    · exact (ih a.text ⟨q, by rwa [heq], hq⟩).append_left us hmeet

/-- **Where stray pieces come from**: a piece behind the first begins with `::` only if a lone
colon has a `::` behind it. -/
theorem splitScope_of_glueOnto (cs : List Char) :
    ∀ p, (∃ q ∈ (glueOnto p (atoms cs)).tail, [':', ':'] <+: q) → SplitScope cs := by
  fun_induction atoms cs with
  | case1 => simp [glueOnto]
  | case2 c cs hc ih =>
      have hother : c ≠ ':' := by rintro rfl; exact absurd hc (by decide)
      exact fun p h => (ih p h).append_left [c] (by simp [hother])
  | case3 c cs hc hstar ih =>
      obtain rfl : c = '*' := by simpa using hstar
      exact splitScope_cons ['*'] rfl (by simp) (by simp [Atom.text]) (by simp) (by simp) ih
  | case4 c cs hc hstar hamp hnext ih =>
      obtain ⟨rest, rfl⟩ := List.head?_eq_some_iff.mp hnext
      exact splitScope_cons [c, '&'] rfl (by simp) (by simp [Atom.text]) (by simp) (by simp) ih
  | case5 c cs hc hstar hamp hnext ih =>
      obtain rfl : c = '&' := by simpa using hamp
      exact splitScope_cons ['&'] rfl (by simp) (by simp [Atom.text]) (by simp) (by simp) ih
  | case6 c cs hc hstar hamp hopen ih =>
      obtain rfl : c = '[' := by simpa using hopen
      refine splitScope_cons ('[' :: (cutExtent cs).1) (by rw [List.cons_append, cutExtent_append])
        ?_ (by simp [Atom.text]) (by simp) (by simp) ih
      rcases cutExtent_cases cs with ⟨inside, rest, -, hcut⟩ | ⟨-, hcut⟩ <;> rw [hcut]
      · simp [List.getLast?_cons]
      · simp
  | case7 c cs hc hstar hamp hextent hopen ih =>
      obtain rfl : c = '<' := by simpa using hopen
      obtain ⟨inside, htidy, -⟩ := exists_tidyArguments (cutAngles 1 cs).1
      refine splitScope_cons ('<' :: (cutAngles 1 cs).1)
        (by rw [List.cons_append, cutAngles_append]) ?_ (by simp [Atom.text, htidy]) (by simp)
        (by simp) ih
      rcases cutAngles_cases cs with ⟨inside, rest, -, hcut⟩ | ⟨-, hcut⟩ <;> rw [hcut]
      · simp [List.getLast?_cons]
      · simp
  | case8 c cs hc hstar hamp hextent hopen ih =>
      refine splitScope_cons (c :: cs.takeWhile isWordChar)
        (by rw [List.cons_append, List.takeWhile_append_dropWhile]) (fun _ hrest => ?_)
        (by simp [Atom.text]) (by simp) (fun hcolon q hhead hq => ?_) ih
      · -- A word ends before a character that belongs to no word.
        have hend := List.head?_dropWhile_not isWordChar cs
        rw [hrest] at hend
        exact absurd hend (by decide)
      -- The colon is lone: what stands behind it is blank, or it would belong to the word.
      obtain ⟨rfl, hlone⟩ := List.cons.inj (Atom.word.inj hcolon)
      obtain ⟨blanks, after, hrest, hblanks⟩ := exists_blanks_of_scope hhead hq
      have hcs : cs = blanks ++ ':' :: ':' :: after := by
        rw [← List.takeWhile_append_dropWhile (p := isWordChar) (l := cs), hlone, hrest]
        rfl
      refine ⟨[], blanks, after, by rw [hcs]; rfl, by simp, ?_, hblanks⟩
      rintro rfl
      have hcolonChar : isWordChar ':' = true := by decide
      rw [hcs, List.nil_append, List.takeWhile_cons_of_pos hcolonChar] at hlone
      cases hlone

theorem StrayScope.splitScope {cs : List Char} (h : StrayScope cs) : SplitScope cs := by
  obtain ⟨-, w, hw, hscope⟩ := h
  have hmem : w ∈ (pieces cs).tail := (nameWords_sublist cs).tail.mem hw
  -- An empty piece in front takes no piece away from those behind the first.
  refine splitScope_of_glueOnto cs [] ⟨w, ?_, hscope⟩
  rw [pieces] at hmem
  cases hatoms : atoms cs with
  | nil => simp [hatoms, glue] at hmem
  | cons a as =>
      rw [hatoms, glue] at hmem
      rw [glueOnto]
      split
      · exact hmem
      · exact List.mem_of_mem_tail hmem

/-- **The name of a type is a normal form**, except where a word of it that is not the first
begins with `::`, for which a lone colon with a `::` behind it has to be in the spelling. -/
theorem parse_name_eq_iff (s : String) :
    (parse (parse s).name = { name := (parse s).name } ↔ ¬ StrayScope s.toList) ∧
      (StrayScope s.toList → SplitScope s.toList) := by
  refine ⟨?_, StrayScope.splitScope⟩
  obtain ⟨cs, rfl⟩ : ∃ cs, s = String.ofList cs := ⟨s.toList, by simp⟩
  rw [String.toList_ofList]
  by_cases hparen : '(' ∈ cs
  · -- A function type is not taken apart, neither the first time nor the second.
    have hwhole : ∀ {us : List Char}, '(' ∈ us →
        parse (String.ofList us) = { name := String.ofList (squeeze us) } := by
      intro us hus
      rw [parse, String.toList_ofList, if_pos (by simpa using hus)]
    rw [hwhole hparen, hwhole ((mem_squeeze (by decide)).mpr hparen), squeeze_squeeze]
    simp [StrayScope, hparen]
  · have hname : (parse (String.ofList cs)).name = String.ofList (join [' '] (nameWords cs)) := by
      rw [parse_of_not_mem hparen]
      rfl
    have hwords := isName_nameWords cs
    have hjoin := not_mem_join_nameWords (c := '(') (by decide) hparen
    rw [hname]
    constructor
    · rintro hparse ⟨-, hscope⟩
      exact hwords.parse_name_ne hjoin hscope (by rw [hparse])
    · intro hstray
      refine hwords.parse_eq hjoin fun w hw hscope => hstray ⟨hparen, w, hw, hscope⟩

/-- A lone colon takes in the `::` behind it, and the name that results is not read again. -/
theorem colon_parse_name_ne :
    parse (parse "a : ::x").name ≠ { name := (parse "a : ::x").name } := by
  decide +kernel

end DocForest.TypeUse
