/-
How a written reference is read.

A reference is a path of names, perhaps with a parameter list.  The reader looks for the
keyword of operator functions first, then for the first parenthesis, and cuts what is before it
at every `::`.  If the names are identifiers, none of this can go wrong: no bracket stands in
the path, and the keyword cannot appear across a border, since it has characters of names only
and there is none of them at a border (`HasWord`).

So the path comes out as it was put in, and behind it the reader is at the parameter list.
There it looks for the closing parenthesis, which is the last one if those inside are balanced.
-/
import DocForest.Lookup.Query
import DocForest.Proofs.Padding

namespace DocForest

open Text

namespace Text

theorem dropStart?_eq_some {start cs rest : List Char} :
    dropStart? start cs = some rest ↔ cs = start ++ rest := by
  induction start generalizing cs with
  | nil => simp [dropStart?]
  | cons s start ih =>
      cases cs with
      | nil => simp [dropStart?]
      | cons c cs =>
          rw [dropStart?]
          by_cases h : s = c
          · rw [if_pos h, ih, h]
            simp
          · rw [if_neg h]
            simp [Ne.symm h]

theorem dropStart?_eq_none {start cs : List Char} :
    dropStart? start cs = none ↔ ¬ start <+: cs := by
  rw [Option.eq_none_iff_forall_ne_some]
  refine ⟨fun h ⟨rest, hrest⟩ => h rest (dropStart?_eq_some.mpr hrest.symm), fun h rest hrest => ?_⟩
  exact h ⟨rest, (dropStart?_eq_some.mp hrest).symm⟩

/-- What satisfies `p` first, with nothing in front of it that does. -/
theorem exists_first {α : Type} {p : α → Bool} {l : List α} (h : ∃ a ∈ l, p a = true) :
    ∃ us a vs, l = us ++ a :: vs ∧ p a = true ∧ ∀ b ∈ us, p b = false := by
  cases hfind : l.find? p with
  | none =>
      obtain ⟨a, ha, hp⟩ := h
      exact absurd hp (List.find?_eq_none.mp hfind a ha)
  | some a =>
      obtain ⟨hp, us, vs, hl, hus⟩ := List.find?_eq_some_iff_append.mp hfind
      exact ⟨us, a, vs, hl, hp, fun b hb => by simpa using hus b hb⟩

theorem exists_last {α : Type} {p : α → Bool} {l : List α} (h : ∃ a ∈ l, p a = true) :
    ∃ us a vs, l = us ++ a :: vs ∧ p a = true ∧ ∀ b ∈ vs, p b = false := by
  have hreverse : ∃ a ∈ l.reverse, p a = true := by simpa using h
  obtain ⟨vs, a, us, hl, hp, hvs⟩ := exists_first hreverse
  refine ⟨us.reverse, a, vs.reverse, ?_, hp, fun b hb => hvs b (List.mem_reverse.mp hb)⟩
  rw [← List.reverse_reverse l, hl]
  simp

/-- A text that was cut is its two parts with the separator between them. -/
theorem append_of_cut? {separator cs before after : List Char}
    (h : cut? separator cs = some (before, after)) : cs = before ++ separator ++ after := by
  induction cs generalizing before with
  | nil =>
      rw [cut?] at h
      split at h
      · rename_i hempty
        simp_all
      · simp at h
  | cons c cs ih =>
      rw [cut?] at h
      split at h
      · rename_i rest hdrop
        obtain ⟨rfl, rfl⟩ := Prod.mk.inj (Option.some.inj h)
        exact dropStart?_eq_some.mp hdrop
      · obtain ⟨⟨us, vs⟩, hcut, hpair⟩ := Option.map_eq_some_iff.mp h
        obtain ⟨rfl, rfl⟩ := Prod.mk.inj hpair
        rw [ih hcut]
        rfl

theorem cut?_eq_none_iff {part cs : List Char} : cut? part cs = none ↔ ¬ part <:+: cs := by
  induction cs with
  | nil => simp [cut?]
  | cons c cs ih =>
      rw [List.infix_cons_iff, not_or, ← ih, ← dropStart?_eq_none, cut?]
      cases dropStart? part (c :: cs) <;> simp

/-- A text with no blank at its ends is trimmed. -/
theorem trim_eq_self {cs : List Char} (hhead : ∀ c, cs.head? = some c → isBlank c = false)
    (hlast : ∀ c, cs.getLast? = some c → isBlank c = false) : trim cs = cs := by
  have hstart : trimStart cs = cs := by
    cases cs with
    | nil => rfl
    | cons c cs => exact List.dropWhile_cons_of_neg (by simp [hhead c rfl])
  have hend : trimEnd cs = cs := by
    rw [← List.head?_reverse] at hlast
    unfold trimEnd
    cases hrev : cs.reverse with
    | nil => rw [← List.reverse_reverse cs, hrev]; rfl
    | cons c rest =>
        rw [hrev] at hlast
        rw [List.dropWhile_cons_of_neg (by simp [hlast c rfl]), ← hrev, List.reverse_reverse]
  rw [trim, hstart, hend]

theorem trim_of_no_blank {cs : List Char} (h : ∀ c ∈ cs, isBlank c = false) : trim cs = cs :=
  trim_eq_self (fun c hc => h c (List.mem_of_head? hc)) (fun c hc => h c (List.mem_of_getLast? hc))

theorem join_cons_cons (separator piece next : List Char) (rest : List (List Char)) :
    join separator (piece :: next :: rest) = piece ++ separator ++ join separator (next :: rest) :=
  rfl

theorem join_cons {separator : List Char} (c : Char) (piece : List Char) (rest : List (List Char)) :
    join separator ((c :: piece) :: rest) = c :: join separator (piece :: rest) := by
  cases rest <;> rfl

theorem mem_join {separator : List Char} {pieces : List (List Char)} {c : Char}
    (h : c ∈ join separator pieces) : c ∈ separator ∨ ∃ p ∈ pieces, c ∈ p := by
  induction pieces with
  | nil => simp [join] at h
  | cons p rest ih =>
      cases rest with
      | nil => exact Or.inr ⟨p, by simp, h⟩
      | cons p' rest =>
          simp only [join_cons_cons, List.mem_append] at h
          rcases h with (hp | hs) | hrest
          · exact Or.inr ⟨p, by simp, hp⟩
          · exact Or.inl hs
          · rcases ih hrest with hs | ⟨x, hx, hc⟩
            · exact Or.inl hs
            · exact Or.inr ⟨x, by simp [hx], hc⟩

end Text

namespace Query

/-! ### Characters of names -/

/-- The code points of blanks. -/
def blankCodes : List Nat :=
  [9, 10, 11, 12, 13, 0x20, 0x85, 0xA0, 0x1680, 0x2000, 0x2001, 0x2002, 0x2003, 0x2004, 0x2005,
    0x2006, 0x2007, 0x2008, 0x2009, 0x200A, 0x2028, 0x2029, 0x202F, 0x205F, 0x3000]

theorem toNat_mem_blankCodes {c : Char} (h : isBlank c = true) : c.toNat ∈ blankCodes := by
  simp only [isBlank, Bool.or_eq_true, Bool.and_eq_true, decide_eq_true_eq, beq_iff_eq] at h
  simp only [blankCodes, List.mem_cons, List.not_mem_nil, or_false]
  omega

/-- No blank is a character of a name. -/
theorem not_isNameChar_of_isBlank {c : Char} (h : isBlank c = true) : isNameChar c = false := by
  have hall : ∀ n ∈ blankCodes, isNameChar (Char.ofNat n) = false := by decide +kernel
  have hc := hall c.toNat (toNat_mem_blankCodes h)
  rwa [Char.ofNat_toNat] at hc

theorem not_isBlank_of_isNameChar {c : Char} (h : isNameChar c = true) : isBlank c = false := by
  cases hb : isBlank c with
  | false => rfl
  | true => rw [not_isNameChar_of_isBlank hb] at h; cases h

/-- An identifier that is not the keyword of operator functions. -/
structure IsName (cs : List Char) : Prop where
  nonempty : cs ≠ []
  chars : ∀ c ∈ cs, isNameChar c = true
  plain : cs ≠ operatorWord

instance (cs : List Char) : Decidable (IsName cs) :=
  decidable_of_iff (cs ≠ [] ∧ cs.all isNameChar = true ∧ cs ≠ operatorWord)
    ⟨fun h => ⟨h.1, List.all_eq_true.mp h.2.1, h.2.2⟩,
      fun h => ⟨h.nonempty, List.all_eq_true.mpr h.chars, h.plain⟩⟩

theorem IsName.not_mem {cs : List Char} (h : IsName cs) {c : Char} (hc : isNameChar c = false) :
    c ∉ cs := by
  intro hmem
  rw [h.chars c hmem] at hc
  cases hc

theorem IsName.trim_eq {cs : List Char} (h : IsName cs) : trim cs = cs :=
  trim_of_no_blank fun c hc => not_isBlank_of_isNameChar (h.chars c hc)

/-! ### Words -/

/-- A word stands somewhere in a text, with no character of a name next to it. -/
def HasWord (word cs : List Char) : Prop :=
  ∃ before after, cs = before ++ word ++ after ∧
    (∀ c, before.getLast? = some c → isNameChar c = false) ∧
    ∀ c, after.head? = some c → isNameChar c = false

/-- **A word does not stand across a border.** -/
theorem HasWord.split {word u v : List Char} {c : Char} (hword : ∀ d ∈ word, isNameChar d = true)
    (hc : isNameChar c = false) (h : HasWord word (u ++ c :: v)) :
    HasWord word u ∨ HasWord word v := by
  obtain ⟨before, after, heq, hbefore, hafter⟩ := h
  have hnot : c ∉ word := by
    intro hmem
    rw [hword c hmem] at hc
    cases hc
  rw [List.append_assoc] at heq
  rcases List.append_eq_append_iff.mp heq with ⟨a, rfl, hrest⟩ | ⟨b, rfl, hrest⟩
  · cases a with
    | nil =>
        -- The border would be the first character of the word, unless that is empty.
        cases word with
        | nil => exact Or.inl ⟨u, [], by simp, by simpa using hbefore, by simp⟩
        | cons d word => exact absurd (by simp [(List.cons.inj hrest).1]) hnot
    | cons d a =>
        obtain ⟨rfl, hv⟩ := List.cons.inj hrest
        refine Or.inr ⟨a, after, by rw [hv, List.append_assoc]; rfl, ?_, hafter⟩
        intro d hd
        refine hbefore d ?_
        rw [List.getLast?_append, List.getLast?_cons, hd]
        rfl
  · rcases List.append_eq_append_iff.mp hrest with ⟨a, rfl, hafter'⟩ | ⟨a, rfl, hv⟩
    · refine Or.inl ⟨before, a, by simp, hbefore, ?_⟩
      intro d hd
      refine hafter d ?_
      rw [hafter', List.head?_append, hd]
      rfl
    · cases a with
      | nil => exact Or.inl ⟨before, [], by simp, hbefore, by simp⟩
      | cons d a => exact absurd (by simp [(List.cons.inj hv).1]) hnot

theorem not_hasWord_append {word u v : List Char} {c : Char}
    (hword : ∀ d ∈ word, isNameChar d = true) (hu : ¬ HasWord word u) (hc : isNameChar c = false)
    (hv : ¬ HasWord word v) : ¬ HasWord word (u ++ c :: v) :=
  fun h => (h.split hword hc).elim hu hv

theorem not_hasWord_nil {word : List Char} (hword : word ≠ []) : ¬ HasWord word [] := by
  rintro ⟨before, after, heq, -, -⟩
  simp [hword] at heq

/-- Inside a name stands no other one as a word. -/
theorem IsName.not_hasWord {cs : List Char} (h : IsName cs) : ¬ HasWord operatorWord cs := by
  rintro ⟨before, after, rfl, hbefore, hafter⟩
  have hb : before = [] := by
    rcases before.eq_nil_or_concat with hb | ⟨init, d, rfl⟩
    · exact hb
    · have hd := hbefore d (by simp)
      exact absurd (h.chars d (by simp)) (by simp [hd])
  have ha : after = [] := by
    cases after with
    | nil => rfl
    | cons d rest =>
        have hd := hafter d rfl
        exact absurd (h.chars d (by simp)) (by simp [hd])
  exact h.plain (by simp [hb, ha])

theorem isNameChar_of_mem_operatorWord : ∀ c ∈ operatorWord, isNameChar c = true :=
  List.all_eq_true.mp (by decide)

/-- What is cut at the keyword of operators has it as a word. -/
theorem hasWord_of_cutOperator? {cs : List Char} {before : Option Char} {r : List Char × List Char}
    (h : cutOperator? before cs = some r) :
    cs = r.1 ++ operatorWord ++ r.2 ∧
      (∀ c, r.1.getLast?.or before = some c → isNameChar c = false) ∧
      ∀ c, r.2.head? = some c → isNameChar c = false := by
  induction cs generalizing before r with
  | nil => simp [cutOperator?] at h
  | cons c cs ih =>
      have hlater : (cutOperator? (some c) cs).map (fun p => (c :: p.1, p.2)) = some r →
          c :: cs = r.1 ++ operatorWord ++ r.2 ∧
            (∀ d, r.1.getLast?.or before = some d → isNameChar d = false) ∧
            ∀ d, r.2.head? = some d → isNameChar d = false := by
        intro hmap
        obtain ⟨p, hp, rfl⟩ := Option.map_eq_some_iff.mp hmap
        obtain ⟨heq, hhead, hafter⟩ := ih hp
        refine ⟨by simp [heq], ?_, hafter⟩
        intro d hd
        refine hhead d ?_
        rw [List.getLast?_cons] at hd
        cases hlast : p.1.getLast? with
        | none => rw [hlast] at hd; simpa using hd
        | some x => rw [hlast] at hd; simpa using hd
      rw [cutOperator?] at h
      cases hdrop : dropStart? operatorWord (c :: cs) with
      | none =>
          rw [hdrop] at h
          exact hlater h
      | some after =>
          rw [hdrop] at h
          dsimp only at h
          split at h
          · rename_i hborder
            obtain rfl := Option.some.inj h
            rw [Bool.and_eq_true, Bool.not_eq_true'] at hborder
            refine ⟨dropStart?_eq_some.mp hdrop, ?_, ?_⟩
            · intro d hd
              have hd' : before = some d := by simpa using hd
              simpa [hd'] using hborder.1
            · intro d hd
              simpa [hd] using hborder.2
          · exact hlater h

theorem cutOperator?_eq_none {cs : List Char} (h : ¬ HasWord operatorWord cs) :
    cutOperator? none cs = none := by
  cases hcut : cutOperator? none cs with
  | none => rfl
  | some r =>
      obtain ⟨heq, hbefore, hafter⟩ := hasWord_of_cutOperator? hcut
      exact absurd ⟨r.1, r.2, heq, by simpa using hbefore, hafter⟩ h

/-! ### The path -/

/-- The names of a path are identifiers, and there is at least one. -/
structure IsPath (names : List (List Char)) : Prop where
  nonempty : names ≠ []
  names : ∀ n ∈ names, IsName n

/-- A path as it is written. -/
def written (names : List (List Char)) : List Char :=
  join [':', ':'] names

theorem written_cons (n : List Char) {rest : List (List Char)} (hrest : rest ≠ []) :
    written (n :: rest) = n ++ ':' :: ':' :: written rest := by
  cases rest with
  | nil => exact absurd rfl hrest
  | cons m rest =>
      rw [written, join_cons_cons, List.append_assoc]
      rfl

/-- What holds of single names and goes over to longer paths holds of all paths. -/
@[elab_as_elim]
theorem IsPath.induction {motive : List (List Char) → Prop} {names : List (List Char)}
    (h : IsPath names) (one : ∀ n, IsName n → motive [n])
    (more : ∀ n rest, IsName n → IsPath rest → motive rest → motive (n :: rest)) :
    motive names := by
  obtain ⟨hne, hnames⟩ := h
  induction names with
  | nil => exact absurd rfl hne
  | cons n rest ih =>
      obtain ⟨hn, hrest⟩ := List.forall_mem_cons.mp hnames
      cases rest with
      | nil => exact one n hn
      | cons m rest => exact more n _ hn ⟨by simp, hrest⟩ (ih (by simp) hrest)

/-- A written path has characters of names in it, and colons. -/
theorem IsPath.mem_written {names : List (List Char)} (h : IsPath names) {c : Char}
    (hc : c ∈ written names) : isNameChar c = true ∨ c = ':' := by
  rcases mem_join hc with hcolon | ⟨n, hn, hcn⟩
  · exact Or.inr (by simpa using hcolon)
  · exact Or.inl ((h.names n hn).chars c hcn)

theorem IsPath.not_mem_written {names : List (List Char)} (h : IsPath names) {c : Char}
    (hname : isNameChar c = false) (hcolon : c ≠ ':') : c ∉ written names := by
  intro hc
  rcases h.mem_written hc with hyes | rfl
  · rw [hyes] at hname
    cases hname
  · exact hcolon rfl

theorem IsPath.not_isBlank {names : List (List Char)} (h : IsPath names) :
    ∀ c ∈ written names, isBlank c = false := by
  intro c hc
  rcases h.mem_written hc with hname | rfl
  · exact not_isBlank_of_isNameChar hname
  · decide

theorem IsPath.not_hasWord {names : List (List Char)} (h : IsPath names) :
    ¬ HasWord operatorWord (written names) := by
  have hcolon : isNameChar ':' = false := by decide
  have hnil : ¬ HasWord operatorWord [] := not_hasWord_nil (by decide)
  refine h.induction (fun n hn => hn.not_hasWord) ?_
  intro n rest hn hrest ih
  rw [written_cons n hrest.nonempty]
  exact not_hasWord_append isNameChar_of_mem_operatorWord hn.not_hasWord hcolon
    (not_hasWord_append isNameChar_of_mem_operatorWord hnil hcolon ih)

/-- A written path starts with a character of a name. -/
theorem IsPath.written_eq_cons {names : List (List Char)} (h : IsPath names) :
    ∃ c cs, written names = c :: cs ∧ isNameChar c = true := by
  have hfirst : ∀ {n : List Char}, IsName n → ∃ c cs, n = c :: cs ∧ isNameChar c = true := by
    intro n hn
    cases n with
    | nil => exact absurd rfl hn.nonempty
    | cons c cs => exact ⟨c, cs, rfl, hn.chars c (by simp)⟩
  refine h.induction (fun n hn => hfirst hn) ?_
  intro n rest hn hrest _
  obtain ⟨c, cs, rfl, hc⟩ := hfirst hn
  exact ⟨c, _, written_cons _ hrest.nonempty, hc⟩

/-- A character of a name lengthens the stretch that it starts. -/
theorem stretchesAt_nameChar {c : Char} (hc : isNameChar c = true) (cs : List Char) :
    stretchesAt 0 (c :: cs) = consFirst c (stretchesAt 0 cs) := by
  have hne : ∀ d, isNameChar d = false → (c == d) = false := by
    intro d hd
    rw [beq_eq_false_iff_ne]
    rintro rfl
    rw [hc] at hd
    cases hd
  rw [stretchesAt]
  simp [hne ':' (by decide), hne '<' (by decide), hne '(' (by decide), hne '>' (by decide),
    hne ')' (by decide)]

theorem stretchesAt_name {n : List Char} (hn : ∀ c ∈ n, isNameChar c = true) :
    stretchesAt 0 n = [n] := by
  induction n with
  | nil => rw [stretchesAt]
  | cons c n ih =>
      obtain ⟨hc, hn⟩ := List.forall_mem_cons.mp hn
      rw [stretchesAt_nameChar hc, ih hn, consFirst]

theorem stretchesAt_name_append {n : List Char} (hn : ∀ c ∈ n, isNameChar c = true)
    (cs : List Char) : stretchesAt 0 (n ++ ':' :: ':' :: cs) = n :: stretchesAt 0 cs := by
  induction n with
  | nil =>
      rw [List.nil_append, stretchesAt]
      simp
  | cons c n ih =>
      obtain ⟨hc, hn⟩ := List.forall_mem_cons.mp hn
      rw [List.cons_append, stretchesAt_nameChar hc, ih hn, consFirst]

/-- **A written path is cut into its names.** -/
theorem IsPath.segments_written {names : List (List Char)} (h : IsPath names) :
    segments (written names) = names := by
  have hcut : stretchesAt 0 (written names) = names := by
    refine h.induction (fun n hn => stretchesAt_name hn.chars) ?_
    intro n rest hn hrest ih
    rw [written_cons n hrest.nonempty, stretchesAt_name_append hn.chars, ih]
  rw [segments, hcut, List.map_congr_left fun n hn => (h.names n hn).trim_eq, List.map_id']

/-! ### The parameter list -/

/-- No bracket is closed before it is opened, and none is left open. -/
structure Balanced (opening closing : Char) (cs : List Char) : Prop where
  opened : ∀ before, before <+: cs → before.count closing ≤ before.count opening
  closed : cs.count closing = cs.count opening

/-- A path ends before its first parenthesis. -/
theorem cutParen?_append {cs : List Char} (hparen : '(' ∉ cs) (hopen : '<' ∉ cs) (hclose : '>' ∉ cs)
    (rest : List Char) : cutParen? 0 (cs ++ '(' :: rest) = some (cs, '(' :: rest) := by
  induction cs with
  | nil => rfl
  | cons c cs ih =>
      simp only [List.mem_cons, not_or] at hparen hopen hclose
      rw [List.cons_append, cutParen?]
      simp [Ne.symm hparen.1, Ne.symm hopen.1, Ne.symm hclose.1, ih hparen.2 hopen.2 hclose.2]

theorem cutParen?_eq_none {cs : List Char} (hparen : '(' ∉ cs) (depth : Int) :
    cutParen? depth cs = none := by
  induction cs generalizing depth with
  | nil => rfl
  | cons c cs ih =>
      simp only [List.mem_cons, not_or] at hparen
      rw [cutParen?]
      simp [Ne.symm hparen.1, ih hparen.2]

/-- The closing parenthesis is the first at which one less than at the start is open. -/
theorem cutClosing_append {cs : List Char} (rest : List Char) :
    ∀ {depth : Int},
      (∀ before, before <+: cs → 1 ≤ depth + before.count '(' - before.count ')') →
      depth + cs.count '(' - cs.count ')' = 1 →
      cutClosing depth (cs ++ ')' :: rest) = (cs, ')' :: rest) := by
  induction cs with
  | nil =>
      intro depth _ hend
      have hdepth : depth = 1 := by simpa using hend
      rw [List.nil_append, cutClosing, if_pos (by simp [hdepth])]
  | cons c cs ih =>
      intro depth hopen hend
      have hfirst := hopen [c] (by simp)
      have hnot : ¬ (c == ')' && depth == 1) = true := by
        rintro hboth
        simp only [Bool.and_eq_true, beq_iff_eq] at hboth
        obtain ⟨rfl, rfl⟩ := hboth
        simp at hfirst
      have hstep : ∀ before : List Char,
          (if c == '(' then depth + 1 else if c == ')' then depth - 1 else depth) +
              before.count '(' - before.count ')' =
            depth + (c :: before).count '(' - (c :: before).count ')' := by
        intro before
        simp only [List.count_cons, beq_iff_eq]
        by_cases hopening : c = '('
        · simp [hopening]
          omega
        · by_cases hclosing : c = ')'
          · simp [hclosing]
            omega
          · simp [hopening, hclosing]
      rw [List.cons_append, cutClosing, if_neg hnot]
      dsimp only
      rw [ih]
      · intro before hbefore
        rw [hstep]
        exact hopen (c :: before) (by simpa using hbefore)
      · rw [hstep]
        exact hend

theorem Balanced.cutClosing_eq {cs : List Char} (h : Balanced '(' ')' cs) (rest : List Char) :
    cutClosing 1 (cs ++ ')' :: rest) = (cs, ')' :: rest) := by
  refine cutClosing_append rest ?_ ?_
  · intro before hbefore
    have hle := h.opened before hbefore
    omega
  · have hcount := h.closed
    omega

/-! ### Whole references -/

theorem IsPath.splitArguments_written {names : List (List Char)} (h : IsPath names) :
    splitArguments (written names) = (written names, none) := by
  unfold splitArguments
  rw [cutOperator?_eq_none h.not_hasWord]
  dsimp only
  rw [cutParen?_eq_none (h.not_mem_written (by decide) (by decide))]
  dsimp only
  rw [trim_of_no_blank h.not_isBlank]

theorem IsPath.splitArguments_call {names : List (List Char)} (h : IsPath names)
    {list : List Char} (hlist : ¬ HasWord operatorWord list) :
    splitArguments (written names ++ '(' :: list) = (written names, some ('(' :: list)) := by
  have hword : ¬ HasWord operatorWord (written names ++ '(' :: list) :=
    not_hasWord_append isNameChar_of_mem_operatorWord h.not_hasWord (by decide) hlist
  unfold splitArguments
  rw [cutOperator?_eq_none hword]
  dsimp only
  rw [cutParen?_append (h.not_mem_written (by decide) (by decide))
    (h.not_mem_written (by decide) (by decide)) (h.not_mem_written (by decide) (by decide))]
  dsimp only
  rw [trim_of_no_blank h.not_isBlank]

theorem IsPath.not_any_isEmpty {names : List (List Char)} (h : IsPath names) :
    names.any List.isEmpty = false := by
  rw [List.any_eq_false]
  intro n hn
  simpa using (h.names n hn).nonempty

/-- **A path is read as it is written**, from the outermost scope if it starts with colons. -/
theorem IsPath.parse?_written {names : List (List Char)} (h : IsPath names) :
    parse? (String.ofList (written names)) = some { path := names.map String.ofList } ∧
      parse? (String.ofList (':' :: ':' :: written names)) =
        some { isGlobal := true, path := names.map String.ofList } := by
  obtain ⟨c, cs, hcons, hc⟩ := h.written_eq_cons
  have hlocal : dropStart? [':', ':'] (written names) = none := by
    rw [hcons, dropStart?, if_neg]
    rintro rfl
    exact absurd hc (by decide)
  have hglobal : trim (':' :: ':' :: written names) = ':' :: ':' :: written names := by
    refine trim_of_no_blank ?_
    intro d hd
    simp only [List.mem_cons] at hd
    rcases hd with rfl | rfl | hd
    · decide
    · decide
    · exact h.not_isBlank d hd
  refine ⟨?_, ?_⟩
  · unfold parse?
    rw [String.toList_ofList, trim_of_no_blank h.not_isBlank]
    simp only [hlocal, Option.getD_none, h.splitArguments_written, h.segments_written,
      h.not_any_isEmpty]
    rfl
  · unfold parse?
    rw [String.toList_ofList, hglobal]
    simp only [dropStart?, if_true, Option.getD_some, h.splitArguments_written,
      h.segments_written, h.not_any_isEmpty]
    rfl

/-- **A call is read as it is written**: the path, and the types of the list between the
parentheses. -/
theorem IsPath.parse?_call {names : List (List Char)} (h : IsPath names) {inside : List Char}
    (hword : ¬ HasWord operatorWord inside) (hbalanced : Balanced '(' ')' inside) :
    parse? (String.ofList (':' :: ':' :: (written names ++ '(' :: (inside ++ [')'])))) =
      some { isGlobal := true, path := names.map String.ofList,
             arguments := some (argumentTypes inside) } := by
  have hlist : ¬ HasWord operatorWord (inside ++ [')']) :=
    not_hasWord_append isNameChar_of_mem_operatorWord hword (by decide)
      (not_hasWord_nil (by decide))
  have htrim : trim (':' :: ':' :: (written names ++ '(' :: (inside ++ [')']))) =
      ':' :: ':' :: (written names ++ '(' :: (inside ++ [')'])) := by
    refine trim_eq_self ?_ ?_
    · intro c hc
      obtain rfl : ':' = c := by simpa using hc
      decide
    · intro c hc
      obtain rfl : ')' = c := by simpa [List.getLast?_cons, List.getLast?_append] using hc
      decide
  unfold parse?
  rw [String.toList_ofList, htrim]
  simp only [dropStart?, if_true, Option.getD_some, h.splitArguments_call hlist,
    h.segments_written, h.not_any_isEmpty, List.tail_cons, hbalanced.cutClosing_eq]
  rfl

end Query

end DocForest
