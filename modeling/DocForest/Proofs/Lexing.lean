/-
The lexer looks one character ahead.

Where a token ends depends on its own characters and on the one that follows, and not on
anything further on.  So the text behind a token can be exchanged, as long as the new text
starts alike.  How alike it must be depends on the token: mostly it is enough that neither
start could continue a word.  `Follows` collects the cases that occur, and `Cut.of_follows`
is what all later statements about changed texts rest on.
-/
import DocForest.DocText.Token
import Mathlib.Data.List.TakeWhile

namespace DocForest.DocText

/-! ### Runs of characters -/

/-- Nothing that satisfies `p` comes first. -/
def Stops (p : Char → Bool) (cs : List Char) : Prop :=
  ∀ c, cs.head? = some c → p c = false

theorem stops_nil (p : Char → Bool) : Stops p [] := by
  intro c hc
  simp at hc

theorem stops_cons {p : Char → Bool} {c : Char} {cs : List Char} :
    Stops p (c :: cs) ↔ p c = false := by
  simp [Stops]

theorem Stops.mono {p q : Char → Bool} {cs : List Char} (h : Stops q cs)
    (hpq : ∀ c, p c = true → q c = true) : Stops p cs := by
  intro c hc
  have hq := h c hc
  cases hp : p c with
  | false => rfl
  | true => rw [hpq c hp] at hq; exact hq

theorem Stops.of_head? {p : Char → Bool} {cs cs' : List Char} (h : Stops p cs)
    (hhead : cs'.head? = cs.head?) : Stops p cs' := by
  intro c hc
  exact h c (hhead ▸ hc)

/-- A run is exactly `w` if `w` satisfies `p` and what follows stops it. -/
theorem runLength_append_eq {p : Char → Bool} {w cs : List Char} :
    runLength p (w ++ cs) = w.length ↔ (∀ c ∈ w, p c = true) ∧ Stops p cs := by
  unfold runLength
  induction w with
  | nil =>
      cases cs with
      | nil => simp [stops_nil]
      | cons c rest =>
          rw [List.nil_append, stops_cons, List.takeWhile_cons]
          cases p c <;> simp
  | cons c rest ih =>
      rw [List.cons_append, List.takeWhile_cons]
      cases hc : p c with
      | false => simp [hc]
      | true => simp [hc, ih]

theorem runLength_eq_zero {p : Char → Bool} {cs : List Char} :
    runLength p cs = 0 ↔ Stops p cs := by
  have h : runLength p ([] ++ cs) = ([] : List Char).length ↔ _ := runLength_append_eq
  simpa using h

theorem stops_dropWhile (p : Char → Bool) (cs : List Char) : Stops p (cs.dropWhile p) := by
  intro c hc
  have h := List.head?_dropWhile_not p cs
  rw [hc] at h
  simpa using h

theorem runLength_le (p : Char → Bool) (cs : List Char) : runLength p cs ≤ cs.length :=
  (List.takeWhile_sublist p).length_le

/-! ### Kinds of characters -/

/-- A character that could start a command. -/
def isMark (c : Char) : Bool :=
  c == '\\' || c == '@'

theorem eq_of_isMark {c : Char} (h : isMark c = true) : c = '\\' ∨ c = '@' := by
  simpa [isMark] using h

theorem ne_of_isMark {c d : Char} (hc : isMark c = true) (hd : isMark d = false) : c ≠ d := by
  rintro rfl
  rw [hd] at hc
  exact absurd hc (by decide)

theorem not_isWordChar_of_isMark {c : Char} (h : isMark c = true) : isWordChar c = false := by
  rcases eq_of_isMark h with rfl | rfl <;> decide

theorem not_isBlank_of_isMark {c : Char} (h : isMark c = true) : Text.isBlank c = false := by
  rcases eq_of_isMark h with rfl | rfl <;> decide

theorem not_isMark_of_isBlank {c : Char} (h : Text.isBlank c = true) : isMark c = false := by
  cases hmark : isMark c with
  | false => rfl
  | true =>
      rw [not_isBlank_of_isMark hmark] at h
      exact absurd h (by decide)

theorem isBlank_of_isSpace {c : Char} (h : isSpace c = true) : Text.isBlank c = true := by
  rcases (by simpa [isSpace, or_assoc] using h : c = ' ' ∨ c = '\t' ∨ c = '\r') with
    rfl | rfl | rfl <;> decide

theorem isWordChar_of_isLetter {c : Char} (h : isLetter c = true) : isWordChar c = true := by
  unfold isLetter at h
  have hn : (65 ≤ c.toNat ∧ c.toNat ≤ 90) ∨ (97 ≤ c.toNat ∧ c.toNat ≤ 122) := by
    have hrange : (decide (c.val ≥ 65 ∧ c.val ≤ 90) || c.val ≥ 97 && c.val ≤ 122) = true := h
    simp only [Bool.or_eq_true, Bool.and_eq_true, decide_eq_true_eq] at hrange
    exact hrange
  have hne : ∀ d : Char, c = d → (65 ≤ d.toNat ∧ d.toNat ≤ 90) ∨ (97 ≤ d.toNat ∧ d.toNat ≤ 122) :=
    fun d hd => hd ▸ hn
  unfold isWordChar
  have hblank : Text.isBlank c = false := by
    unfold Text.isBlank
    simp only [Bool.or_eq_false_iff, Bool.and_eq_false_iff, beq_eq_false_iff_ne, ne_eq,
      decide_eq_false_iff_not]
    omega
  have h1 : c ≠ '\\' := fun hd => absurd (hne _ hd) (by decide)
  have h2 : c ≠ '@' := fun hd => absurd (hne _ hd) (by decide)
  have h3 : c ≠ backtick := fun hd => absurd (hne _ hd) (by decide)
  have h4 : c ≠ '"' := fun hd => absurd (hne _ hd) (by decide)
  have h5 : c ≠ ',' := fun hd => absurd (hne _ hd) (by decide)
  simp [hblank, h1, h2, h3, h4, h5]

theorem not_isLetter_of_isBlank {c : Char} (h : Text.isBlank c = true) : isLetter c = false := by
  cases hletter : isLetter c with
  | false => rfl
  | true =>
      have hword := isWordChar_of_isLetter hletter
      simp [isWordChar, h] at hword

/-! ### What the first character decides -/

/-- What the lexer does behind a first character. -/
inductive Opens (c : Char) : Prop
  | mark (hc : isMark c = true)
      (hlex : ∀ cs, lexeme c cs =
        if 0 < runLength isLetter cs then (.command, runLength isLetter cs)
        else if c == '\\' && (cs.head? == some '\\' || cs.head? == some '@') then (.escape, 1)
        else (.stray, 0))
  | delimiter (kind : TokenKind) (hkind : kind = .codeSpan ∨ kind = .quoted)
      (hc : Text.isBlank c = false) (hlex : ∀ cs, lexeme c cs = delimited kind c cs)
  | space (hc : isSpace c = true) (hlex : ∀ cs, lexeme c cs = (.space, runLength isSpace cs))
  | word (hc : isWordChar c = true) (hlex : ∀ cs, lexeme c cs = (.word, runLength isWordChar cs))
  | single (kind : TokenKind)
      (hkind : kind = .newline ∧ c = '\n' ∨ kind = .comma ∧ c = ',' ∨ kind = .stray)
      (hc : isSpace c = false ∧ isWordChar c = false) (hlex : ∀ cs, lexeme c cs = (kind, 0))

theorem opens (c : Char) : Opens c := by
  by_cases hmark : (c == '\\' || c == '@') = true
  · exact .mark hmark fun cs => by rw [lexeme, if_pos hmark]
  have hlex : ∀ cs, lexeme c cs = _ := fun cs => by rw [lexeme, if_neg hmark]
  by_cases htick : (c == backtick) = true
  · refine .delimiter .codeSpan (Or.inl rfl) ?_ fun cs => by rw [hlex, if_pos htick]
    rw [beq_iff_eq.mp htick]
    decide
  replace hlex := fun cs => (hlex cs).trans (if_neg htick)
  by_cases hquote : (c == '"') = true
  · refine .delimiter .quoted (Or.inr rfl) ?_ fun cs => by rw [hlex, if_pos hquote]
    rw [beq_iff_eq.mp hquote]
    decide
  replace hlex := fun cs => (hlex cs).trans (if_neg hquote)
  by_cases hspace : isSpace c = true
  · exact .space hspace fun cs => by rw [hlex, if_pos hspace]
  replace hlex := fun cs => (hlex cs).trans (if_neg hspace)
  rw [Bool.not_eq_true] at hspace
  by_cases hnewline : (c == '\n') = true
  · have hc : c = '\n' := beq_iff_eq.mp hnewline
    refine .single .newline (Or.inl ⟨rfl, hc⟩) ⟨hspace, ?_⟩ fun cs => by rw [hlex, if_pos hnewline]
    rw [hc]
    decide
  replace hlex := fun cs => (hlex cs).trans (if_neg hnewline)
  by_cases hcomma : (c == ',') = true
  · have hc : c = ',' := beq_iff_eq.mp hcomma
    refine .single .comma (Or.inr (Or.inl ⟨rfl, hc⟩)) ⟨hspace, ?_⟩
      fun cs => by rw [hlex, if_pos hcomma]
    rw [hc]
    decide
  replace hlex := fun cs => (hlex cs).trans (if_neg hcomma)
  by_cases hword : isWordChar c = true
  · exact .word hword fun cs => by rw [hlex, if_pos hword]
  · exact .single .stray (Or.inr (Or.inr rfl)) ⟨hspace, by simpa using hword⟩
      fun cs => by rw [hlex, if_neg hword]

/-- Neither the mark nor the end of the line. -/
def isInside (mark : Char) (c : Char) : Bool :=
  c != mark && c != '\n'

/-- A delimited token ends with its mark, or else with its line. -/
theorem delimited_cases {kind k : TokenKind} {mark : Char} {w rest : List Char}
    (h : delimited kind mark (w ++ rest) = (k, w.length)) :
    (∃ u, w = u ++ [mark] ∧ k = kind ∧ ∀ c ∈ u, isInside mark c = true) ∨
      k = .stray ∧ (∀ c ∈ w, isInside mark c = true) ∧ Stops (· != '\n') rest := by
  unfold delimited at h
  dsimp only at h
  split at h
  · rename_i hclosed
    obtain ⟨rfl, hlen⟩ := Prod.mk.inj h
    refine Or.inl ?_
    rcases List.eq_nil_or_concat w with rfl | ⟨u, c, rfl⟩
    · simp at hlen
    rw [List.concat_eq_append] at hclosed hlen ⊢
    rw [List.length_append, List.length_singleton, Nat.add_right_cancel_iff] at hlen
    rw [hlen, List.append_assoc, List.getElem?_append_right (Nat.le_refl _)] at hclosed
    obtain rfl : c = mark := by simpa using hclosed
    rw [List.append_assoc] at hlen
    exact ⟨u, rfl, rfl, (runLength_append_eq.mp hlen).1⟩
  · rename_i hopen
    obtain ⟨rfl, hlen⟩ := Prod.mk.inj h
    obtain ⟨hall, hstop⟩ := runLength_append_eq.mp hlen
    refine Or.inr ⟨rfl, hall, fun c hc => ?_⟩
    rw [hlen, List.getElem?_append_right (Nat.le_refl _), Nat.sub_self,
      ← List.head?_eq_getElem?, hc] at hopen
    have hne : c ≠ mark := fun heq => hopen (by rw [heq])
    simpa [hne] using hstop c hc

theorem delimited_closed (kind : TokenKind) {mark : Char} {u : List Char}
    (hu : ∀ c ∈ u, isInside mark c = true) (rest : List Char) :
    delimited kind mark (u ++ [mark] ++ rest) = (kind, (u ++ [mark]).length) := by
  have hlen : runLength (fun c => c != mark && c != '\n') (u ++ [mark] ++ rest) = u.length := by
    rw [List.append_assoc, runLength_append_eq]
    exact ⟨hu, by simp [stops_cons]⟩
  simp only [delimited, hlen]
  simp

theorem delimited_open (kind : TokenKind) {mark : Char} (hmark : mark ≠ '\n') {w rest : List Char}
    (hw : ∀ c ∈ w, isInside mark c = true) (hrest : Stops (· != '\n') rest) :
    delimited kind mark (w ++ rest) = (.stray, w.length) := by
  have hlen : runLength (fun c => c != mark && c != '\n') (w ++ rest) = w.length :=
    runLength_append_eq.mpr ⟨hw, hrest.mono fun c hc => by simp_all⟩
  have hnot : ¬rest.head? = some mark := fun hc => hmark (by simpa using hrest mark hc)
  simp only [delimited, hlen]
  rw [List.getElem?_append_right (Nat.le_refl _), Nat.sub_self, ← List.head?_eq_getElem?,
    if_neg hnot]

theorem lexeme_le (c : Char) (cs : List Char) : (lexeme c cs).2 ≤ cs.length := by
  cases opens c with
  | mark _ hlex =>
      rw [hlex]
      split
      · exact runLength_le _ _
      split
      · rename_i hescape
        cases cs with
        | nil => simp at hescape
        | cons d cs => simp
      · exact Nat.zero_le _
  | delimiter _ _ _ hlex =>
      rw [hlex]
      unfold delimited
      dsimp only
      split
      · rename_i hclosed
        exact (List.getElem?_eq_some_iff.mp hclosed).1
      · exact runLength_le _ _
  | space _ hlex => rw [hlex]; exact runLength_le _ _
  | word _ hlex => rw [hlex]; exact runLength_le _ _
  | single _ _ _ hlex => rw [hlex]; exact Nat.zero_le _

/-! ### What a token is cut off from -/

/-- The token is what the lexer cuts off from its own text with `rest` behind it. -/
def Cut (t : Token) (rest : List Char) : Prop :=
  ∃ c w, t.text = c :: w ∧ lexeme c (w ++ rest) = (t.kind, w.length)

theorem Cut.tokens_eq {t : Token} {rest : List Char} (h : Cut t rest) :
    tokens (t.text ++ rest) = t :: tokens rest := by
  obtain ⟨c, w, htext, hlex⟩ := h
  rw [htext, List.cons_append, tokens, hlex]
  simp only [List.take_left', List.drop_left', List.cons.injEq, and_true]
  rw [← htext]

theorem Cut.text_ne_nil {t : Token} {rest : List Char} (h : Cut t rest) : t.text ≠ [] := by
  obtain ⟨c, w, htext, -⟩ := h
  simp [htext]

/-- Every text that is not empty starts with a token. -/
theorem exists_cut {cs : List Char} (h : cs ≠ []) : ∃ t rest, cs = t.text ++ rest ∧ Cut t rest := by
  cases cs with
  | nil => exact absurd rfl h
  | cons c cs =>
      refine ⟨⟨(lexeme c cs).1, c :: cs.take (lexeme c cs).2⟩, cs.drop (lexeme c cs).2, ?_,
        c, cs.take (lexeme c cs).2, rfl, ?_⟩
      · simp
      · rw [List.take_append_drop, List.length_take, Nat.min_eq_left (lexeme_le c cs)]

/-- Texts are built up from tokens. -/
theorem cut_induction {motive : List Char → Prop} (nil : motive [])
    (cut : ∀ t rest, Cut t rest → motive rest → motive (t.text ++ rest)) :
    ∀ cs, motive cs := by
  intro cs
  induction hn : cs.length using Nat.strongRecOn generalizing cs with
  | _ n ih =>
      by_cases hcs : cs = []
      · rw [hcs]
        exact nil
      · obtain ⟨t, rest, rfl, hcut⟩ := exists_cut hcs
        refine cut t rest hcut (ih rest.length ?_ rest rfl)
        have hpos := List.length_pos_iff.mpr hcut.text_ne_nil
        rw [List.length_append] at hn
        omega

/-! ### Where a token ends -/

/-- The token ends where `p` first fails behind it. -/
inductive Ends (t : Token) : (Char → Bool) → Prop
  /-- Its own last character ends it. -/
  | closed (hkind : t.kind ≠ .command ∧ t.kind ≠ .space ∧ t.kind ≠ .word) : Ends t fun _ => false
  | command (hkind : t.kind = .command) (hmark : ∃ c, t.text.head? = some c ∧ isMark c = true) :
      Ends t isLetter
  | space (hkind : t.kind = .space) (hall : ∀ c ∈ t.text, isSpace c = true) : Ends t isSpace
  | word (hkind : t.kind = .word) (hall : ∀ c ∈ t.text, isWordChar c = true) : Ends t isWordChar
  /-- A mark without a command. -/
  | mark (hkind : t.kind = .stray) : Ends t isLetter
  | backslash (hkind : t.kind = .stray) : Ends t fun c => isLetter c || isMark c
  /-- The closing mark is missing. -/
  | unclosed (hkind : t.kind = .stray)
      (hlonger : ∀ c, Text.isBlank c = true → c ≠ '\n' → Cut ⟨.stray, t.text ++ [c]⟩ []) :
      Ends t (· != '\n')

/-- What ends the token is all that matters of what follows. -/
def Ended (t : Token) (rest : List Char) : Prop :=
  ∃ p, Ends t p ∧ Stops p rest ∧ ∀ rest', Stops p rest' → Cut t rest'

section

variable {c : Char} {kind : TokenKind} {w rest : List Char}

/-- A mark that starts neither a command nor an escape. -/
theorem ended_stray
    (hlex : ∀ rest', Stops isLetter rest' →
      (c == '\\' && (rest'.head? == some '\\' || rest'.head? == some '@')) = false →
        Cut ⟨.stray, [c]⟩ rest')
    (hnone : Stops isLetter rest)
    (hescape : (c == '\\' && (rest.head? == some '\\' || rest.head? == some '@')) = false) :
    Ended ⟨.stray, [c]⟩ rest := by
  by_cases hslash : c = '\\'
  · refine ⟨_, .backslash rfl, ?_, fun rest' hstop' => ?_⟩
    · intro d hd
      have hletter := hnone d hd
      rw [hd] at hescape
      simpa [hletter, isMark, hslash] using hescape
    · refine hlex rest' (hstop'.mono fun d hd => by simp [hd]) ?_
      cases hhead : rest'.head? with
      | none => simp
      | some d =>
          have hd := hstop' d hhead
          simp only [isMark, Bool.or_eq_false_iff] at hd
          simp [hd.2]
  · exact ⟨_, .mark rfl, hnone, fun rest' hnone' => hlex rest' hnone' (by simp [hslash])⟩

theorem ended_of_mark (hc : isMark c = true)
    (hopen : ∀ cs, lexeme c cs =
      if 0 < runLength isLetter cs then (.command, runLength isLetter cs)
      else if c == '\\' && (cs.head? == some '\\' || cs.head? == some '@') then (.escape, 1)
      else (.stray, 0))
    (hlex : lexeme c (w ++ rest) = (kind, w.length)) : Ended ⟨kind, c :: w⟩ rest := by
  rw [hopen] at hlex
  split at hlex
  · rename_i hletters
    obtain ⟨rfl, hlen⟩ := Prod.mk.inj hlex
    obtain ⟨hall, hstop⟩ := runLength_append_eq.mp hlen
    refine ⟨_, .command rfl ⟨c, rfl, hc⟩, hstop, fun rest' hstop' => ⟨c, w, rfl, ?_⟩⟩
    have hlen' := runLength_append_eq.mpr ⟨hall, hstop'⟩
    rw [hopen, hlen', ← hlen, if_pos hletters]
  rename_i hletters
  have hnone := runLength_eq_zero.mp (Nat.eq_zero_of_not_pos hletters)
  split at hlex
  · rename_i hescape
    obtain ⟨rfl, hlen⟩ := Prod.mk.inj hlex
    obtain ⟨d, rfl⟩ := List.length_eq_one_iff.mp hlen.symm
    refine ⟨_, .closed (by simp), fun _ _ => rfl, fun rest' _ => ⟨c, [d], rfl, ?_⟩⟩
    have hnone' : Stops isLetter ([d] ++ rest') := hnone.of_head? rfl
    rw [List.singleton_append, List.head?_cons] at hescape
    rw [hopen, runLength_eq_zero.mpr hnone', if_neg (Nat.lt_irrefl 0), List.singleton_append,
      List.head?_cons, if_pos hescape]
    rfl
  · rename_i hescape
    obtain ⟨rfl, hlen⟩ := Prod.mk.inj hlex
    obtain rfl := List.length_eq_zero_iff.mp hlen.symm
    refine ended_stray (fun rest' hnone' hescape' => ⟨c, [], rfl, ?_⟩) hnone
      (by simpa using hescape)
    rw [List.nil_append, hopen, runLength_eq_zero.mpr hnone', if_neg (Nat.lt_irrefl 0),
      if_neg (by simp [hescape'])]
    rfl

theorem ended_of_delimiter {kind' : TokenKind} (hkind : kind' = .codeSpan ∨ kind' = .quoted)
    (hc : Text.isBlank c = false) (hopen : ∀ cs, lexeme c cs = delimited kind' c cs)
    (hlex : lexeme c (w ++ rest) = (kind, w.length)) : Ended ⟨kind, c :: w⟩ rest := by
  have hnewline : c ≠ '\n' := by
    rintro rfl
    exact absurd hc (by decide)
  rw [hopen] at hlex
  rcases delimited_cases hlex with ⟨u, rfl, rfl, hu⟩ | ⟨rfl, hw, hrest⟩
  · refine ⟨_, .closed (by rcases hkind with rfl | rfl <;> simp), fun _ _ => rfl,
      fun rest' _ => ⟨c, u ++ [c], rfl, ?_⟩⟩
    rw [hopen, delimited_closed _ hu]
  · refine ⟨_, .unclosed rfl fun d hd hd' => ⟨c, w ++ [d], rfl, ?_⟩, hrest,
      fun rest' hrest' => ⟨c, w, rfl, ?_⟩⟩
    · -- A blank is neither the mark nor the end of the line.
      have hne : d ≠ c := by
        rintro rfl
        rw [hd] at hc
        exact absurd hc (by decide)
      have hw' : ∀ e ∈ w ++ [d], isInside c e = true := by
        intro e he
        rcases List.mem_append.mp he with he | he
        · exact hw e he
        · rw [List.mem_singleton.mp he]
          simp [isInside, hne, hd']
      rw [hopen, delimited_open _ hnewline hw' (stops_nil _)]
    · rw [hopen, delimited_open _ hnewline hw hrest']

/-- A token that is a run of characters ends with them. -/
theorem ended_of_run {kind' : TokenKind} {p : Char → Bool} (hc : p c = true)
    (hends : ∀ {text : List Char}, (∀ d ∈ text, p d = true) → Ends ⟨kind', text⟩ p)
    (hopen : ∀ cs, lexeme c cs = (kind', runLength p cs))
    (hlex : lexeme c (w ++ rest) = (kind, w.length)) : Ended ⟨kind, c :: w⟩ rest := by
  rw [hopen] at hlex
  obtain ⟨rfl, hlen⟩ := Prod.mk.inj hlex
  obtain ⟨hall, hstop⟩ := runLength_append_eq.mp hlen
  refine ⟨_, hends (List.forall_mem_cons.mpr ⟨hc, hall⟩), hstop,
    fun rest' hstop' => ⟨c, w, rfl, ?_⟩⟩
  rw [hopen, runLength_append_eq.mpr ⟨hall, hstop'⟩]

end

/-- **What ends a token** is one character, and that is all that matters of what follows. -/
theorem Cut.ended {t : Token} {rest : List Char} (h : Cut t rest) : Ended t rest := by
  obtain ⟨kind, text⟩ := t
  obtain ⟨c, w, rfl, hlex⟩ := h
  cases opens c with
  | mark hc hopen => exact ended_of_mark hc hopen hlex
  | delimiter kind' hkind hc hopen => exact ended_of_delimiter hkind hc hopen hlex
  | space hc hopen => exact ended_of_run hc (fun hall => .space rfl hall) hopen hlex
  | word hc hopen => exact ended_of_run hc (fun hall => .word rfl hall) hopen hlex
  | single kind' hkind hc hopen =>
      rw [hopen] at hlex
      obtain ⟨rfl, hlen⟩ := Prod.mk.inj hlex
      obtain rfl := List.length_eq_zero_iff.mp hlen.symm
      refine ⟨_, .closed ?_, fun _ _ => rfl, fun rest' _ => ⟨c, [], rfl, hopen _⟩⟩
      rcases hkind with ⟨rfl, -⟩ | ⟨rfl, -⟩ | rfl <;> simp

/-- The characters of a word start no other token. -/
theorem lexeme_of_isWordChar {c : Char} (h : isWordChar c = true) (cs : List Char) :
    lexeme c cs = (.word, runLength isWordChar cs) := by
  have hchar := h
  simp only [isWordChar, Bool.not_eq_true', Bool.or_eq_false_iff, beq_eq_false_iff_ne,
    ne_eq] at hchar
  obtain ⟨⟨⟨⟨⟨hblank, h1⟩, h2⟩, h3⟩, h4⟩, h5⟩ := hchar
  have hne : ∀ d : Char, Text.isBlank d = true → c ≠ d := by
    intro d hd hcd
    rw [hcd, hd] at hblank
    exact absurd hblank (by decide)
  have hspace : isSpace c = false := by
    simp [isSpace, hne ' ' (by decide), hne '\t' (by decide), hne '\r' (by decide)]
  simp [lexeme, h1, h2, h3, h4, h5, hspace, hne '\n' (by decide), h]

theorem lexeme_of_isSpace {c : Char} (h : isSpace c = true) (cs : List Char) :
    lexeme c cs = (.space, runLength isSpace cs) := by
  have hc : c = ' ' ∨ c = '\t' ∨ c = '\r' := by
    simpa [isSpace, or_assoc] using h
  rcases hc with rfl | rfl | rfl <;> rfl

/-- A word goes as far as its characters do. -/
theorem cut_word_iff {w rest : List Char} :
    Cut ⟨.word, w⟩ rest ↔ w ≠ [] ∧ (∀ c ∈ w, isWordChar c = true) ∧ Stops isWordChar rest := by
  constructor
  · intro h
    obtain ⟨p, hends, hstop, -⟩ := h.ended
    cases hends with
    | closed hkind => exact absurd rfl hkind.2.2
    | word _ hall => exact ⟨h.text_ne_nil, hall, hstop⟩
    | command h | space h | mark h | backslash h | unclosed h => cases h
  · rintro ⟨hne, hall, hstop⟩
    obtain ⟨c, w, rfl⟩ := List.exists_cons_of_ne_nil hne
    obtain ⟨hc, hall⟩ := List.forall_mem_cons.mp hall
    exact ⟨c, w, rfl, by
      rw [lexeme_of_isWordChar hc, runLength_append_eq.mpr ⟨hall, hstop⟩]⟩

theorem cut_space_iff {w rest : List Char} :
    Cut ⟨.space, w⟩ rest ↔ w ≠ [] ∧ (∀ c ∈ w, isSpace c = true) ∧ Stops isSpace rest := by
  constructor
  · intro h
    obtain ⟨p, hends, hstop, -⟩ := h.ended
    cases hends with
    | closed hkind => exact absurd rfl hkind.2.1
    | space _ hall => exact ⟨h.text_ne_nil, hall, hstop⟩
    | command h | word h | mark h | backslash h | unclosed h => cases h
  · rintro ⟨hne, hall, hstop⟩
    obtain ⟨c, w, rfl⟩ := List.exists_cons_of_ne_nil hne
    obtain ⟨hc, hall⟩ := List.forall_mem_cons.mp hall
    exact ⟨c, w, rfl, by rw [lexeme_of_isSpace hc, runLength_append_eq.mpr ⟨hall, hstop⟩]⟩

theorem Cut.text_of_newline {t : Token} {rest : List Char} (h : Cut t rest)
    (hkind : t.kind = .newline) : t.text = ['\n'] := by
  obtain ⟨c, w, htext, hlex⟩ := h
  rw [hkind] at hlex
  cases opens c with
  | mark _ hopen =>
      rw [hopen] at hlex
      split at hlex
      · cases hlex
      split at hlex <;> cases hlex
  | delimiter kind hkind _ hopen =>
      rw [hopen] at hlex
      rcases delimited_cases hlex with ⟨-, -, hk, -⟩ | ⟨hk, -⟩
      · rcases hkind with rfl | rfl <;> cases hk
      · cases hk
  | space _ hopen => rw [hopen] at hlex; cases hlex
  | word _ hopen => rw [hopen] at hlex; cases hlex
  | single kind hkind _ hopen =>
      rw [hopen] at hlex
      obtain ⟨rfl, hlen⟩ := Prod.mk.inj hlex
      rcases hkind with ⟨-, rfl⟩ | ⟨hk, -⟩ | hk
      · rw [htext, List.length_eq_zero_iff.mp hlen.symm]
      · cases hk
      · cases hk

/-- A blank that no space token holds is a token by itself. -/
theorem cut_of_isBlank {c : Char} (h : Text.isBlank c = true) (hspace : isSpace c = false)
    (cs : List Char) :
    ∃ kind, (kind = .newline ∧ c = '\n' ∨ kind = .stray) ∧ Cut ⟨kind, [c]⟩ cs := by
  cases opens c with
  | mark hc => rw [not_isMark_of_isBlank h] at hc; cases hc
  | delimiter _ _ hc => rw [h] at hc; cases hc
  | space hc => rw [hspace] at hc; cases hc
  | word hc => simp [isWordChar, h] at hc
  | single kind hkind _ hlex =>
      refine ⟨kind, ?_, c, [], rfl, hlex _⟩
      rcases hkind with hkind | ⟨-, rfl⟩ | hkind
      · exact Or.inl hkind
      · cases h
      · exact Or.inr hkind

theorem Cut.head?_of_command {t : Token} {rest : List Char} (h : Cut t rest)
    (hkind : t.kind = .command) : ∃ c, t.text.head? = some c ∧ isMark c = true := by
  obtain ⟨p, hends, -, -⟩ := h.ended
  cases hends with
  | closed hne => exact absurd hkind hne.1
  | command _ hmark => exact hmark
  | space h | word h | mark h | backslash h | unclosed h => rw [hkind] at h; cases h

/-! ### Exchanging what follows -/

/-- The text `rest'` may stand behind a token of this kind in place of `rest`: it starts with
the same character, or a line ends where a text did, or a command made way for something
that continues no word. -/
def Follows (kind : TokenKind) (rest rest' : List Char) : Prop :=
  rest'.head? = rest.head? ∨ (rest = [] ∧ rest'.head? = some '\n') ∨
    (kind ≠ .space ∧ (∃ c, rest.head? = some c ∧ isMark c = true) ∧ Stops isWordChar rest')

/-- **What follows a token can be exchanged** for a text that may stand in its place. -/
theorem Cut.of_follows {t : Token} {rest rest' : List Char} (h : Cut t rest)
    (hfollows : Follows t.kind rest rest') : Cut t rest' := by
  obtain ⟨p, hends, hstop, hcut⟩ := h.ended
  refine hcut rest' ?_
  rcases hfollows with hhead | ⟨-, hhead⟩ | ⟨hspace, ⟨c, hhead, hc⟩, hword⟩
  · exact hstop.of_head? hhead
  · intro d hd
    rw [hhead] at hd
    rw [← Option.some.inj hd]
    cases hends <;> decide
  · have hmark := hstop c hhead
    cases hends with
    | closed => exact fun _ _ => rfl
    | command | mark => exact hword.mono fun d => isWordChar_of_isLetter
    | space hkind => exact absurd hkind hspace
    | word => exact hword
    | backslash =>
        dsimp only at hmark
        rw [hc, Bool.or_true] at hmark
        exact absurd hmark (by decide)
    | unclosed =>
        dsimp only at hmark
        rw [bne_eq_false_iff_eq] at hmark
        rw [hmark] at hc
        exact absurd hc (by decide)
/-! ### Lists of tokens -/

@[simp] theorem textOf_nil : textOf [] = [] := rfl

@[simp] theorem textOf_cons (t : Token) (ts : List Token) :
    textOf (t :: ts) = t.text ++ textOf ts := rfl

@[simp] theorem textOf_append (ts us : List Token) :
    textOf (ts ++ us) = textOf ts ++ textOf us := by
  simp [textOf]

/-- The tokens are what the lexer makes of their own text. -/
def Lexed : List Token → Prop
  | [] => True
  | t :: ts => Cut t (textOf ts) ∧ Lexed ts

theorem lexed_tokens (cs : List Char) : Lexed (tokens cs) := by
  induction cs using cut_induction with
  | nil => rw [tokens]; trivial
  | cut t rest hcut ih =>
      rw [hcut.tokens_eq]
      exact ⟨by rw [textOf_tokens]; exact hcut, ih⟩

theorem Lexed.tokens_textOf {ts : List Token} (h : Lexed ts) : tokens (textOf ts) = ts := by
  induction ts with
  | nil => simp [tokens]
  | cons t ts ih => rw [textOf_cons, h.1.tokens_eq, ih h.2]

theorem Lexed.of_append {us vs : List Token} (h : Lexed (us ++ vs)) : Lexed vs := by
  induction us with
  | nil => exact h
  | cons t us ih => exact ih h.2

theorem Lexed.drop {ts : List Token} (h : Lexed ts) (n : Nat) : Lexed (ts.drop n) := by
  rw [← List.take_append_drop n ts] at h
  exact h.of_append

theorem Lexed.text_ne_nil {ts : List Token} (h : Lexed ts) {t : Token} (ht : t ∈ ts) :
    t.text ≠ [] := by
  induction ts with
  | nil => simp at ht
  | cons u ts ih =>
      rcases List.mem_cons.mp ht with rfl | ht
      · exact h.1.text_ne_nil
      · exact ih h.2 ht

theorem Lexed.exists_cut {ts : List Token} (h : Lexed ts) {t : Token} (ht : t ∈ ts) :
    ∃ rest, Cut t rest := by
  induction ts with
  | nil => simp at ht
  | cons u ts ih =>
      rcases List.mem_cons.mp ht with rfl | ht
      · exact ⟨_, h.1⟩
      · exact ih h.2 ht

theorem Lexed.isSpace_of_mem {ts : List Token} (h : Lexed ts) {t : Token} (ht : t ∈ ts)
    (hkind : t.kind = .space) : ∀ c ∈ t.text, isSpace c = true := by
  obtain ⟨rest, hcut⟩ := h.exists_cut ht
  obtain ⟨kind, text⟩ := t
  obtain rfl : kind = .space := hkind
  exact (cut_space_iff.mp hcut).2.1

theorem Lexed.isBlank_of_mem {ts : List Token} (h : Lexed ts) {t : Token} (ht : t ∈ ts)
    (hkind : t.kind = .space ∨ t.kind = .newline) : ∀ c ∈ t.text, Text.isBlank c = true := by
  rcases hkind with hkind | hkind
  · exact fun c hc => isBlank_of_isSpace (h.isSpace_of_mem ht hkind c hc)
  · obtain ⟨rest, hcut⟩ := h.exists_cut ht
    rw [hcut.text_of_newline hkind]
    simp [show Text.isBlank '\n' = true from rfl]

/-- The text behind the last of some tokens can be exchanged: the others do not reach it. -/
theorem Lexed.exchange {us vs : List Token} {t : Token} {cs : List Char}
    (h : Lexed (us ++ t :: vs)) (hcut : Cut t cs) :
    tokens (textOf (us ++ [t]) ++ cs) = us ++ t :: tokens cs := by
  induction us with
  | nil => simpa using hcut.tokens_eq
  | cons u us ih =>
      have hsame : Follows u.kind (textOf (us ++ t :: vs)) (textOf (us ++ [t]) ++ cs) := by
        have hne : textOf (us ++ [t]) ≠ [] := by
          have ht := h.2.text_ne_nil (t := t) (by simp)
          simp [ht]
        obtain ⟨c, w, hw⟩ := List.exists_cons_of_ne_nil hne
        refine Or.inl ?_
        rw [List.append_cons us t vs, textOf_append _ vs, hw]
        rfl
      rw [List.cons_append, textOf_cons, List.append_assoc, (h.1.of_follows hsame).tokens_eq,
        ih h.2, List.cons_append]

/-- The end of a line. -/
def lineBreak : Token :=
  ⟨.newline, ['\n']⟩

theorem cut_lineBreak (cs : List Char) : Cut lineBreak cs :=
  ⟨'\n', [], rfl, rfl⟩

/-- No token reaches over the end of a line. -/
theorem tokens_append_newline (cs ds : List Char) :
    tokens (cs ++ '\n' :: ds) = tokens cs ++ lineBreak :: tokens ds := by
  induction cs using cut_induction with
  | nil => rw [tokens, List.nil_append, List.nil_append]; exact (cut_lineBreak ds).tokens_eq
  | cut t rest hcut ih =>
      have hfollows : Follows t.kind rest (rest ++ '\n' :: ds) := by
        cases rest with
        | nil => exact Or.inr (Or.inl ⟨rfl, rfl⟩)
        | cons c rest => exact Or.inl rfl
      rw [List.append_assoc, (hcut.of_follows hfollows).tokens_eq, ih, hcut.tokens_eq,
        List.cons_append]

end DocForest.DocText
