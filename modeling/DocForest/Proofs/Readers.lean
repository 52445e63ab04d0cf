/-
How far the readers of commands look.

A reader stops at the end of its line at the latest, so what follows the line is of no
account to it: `CommandWord.read?_append`.  Mostly it stops earlier, and then all it still
looks at is whether a quoted text comes next, which a link would show.
`CommandWord.read?_stopsAt` says where a reader stopped and what may be put behind that place.
-/
import DocForest.DocText.Command
import DocForest.Proofs.Lexing

namespace DocForest.DocText

/-! ### The end of a line -/

/-- Nothing more stands on the line. -/
def AtEnd (ts : List Token) : Prop :=
  ∀ t, ts.head? = some t → t.kind = .newline

theorem atEnd_nil : AtEnd [] := by
  intro t ht
  simp at ht

theorem atEnd_cons {t : Token} {ts : List Token} : AtEnd (t :: ts) ↔ t.kind = .newline := by
  simp [AtEnd]

theorem atEnd_drop_lineLength (ts : List Token) : AtEnd (ts.drop (lineLength ts)) := by
  unfold lineLength
  induction ts with
  | nil => exact atEnd_nil
  | cons t ts ih =>
      rw [List.takeWhile_cons]
      split
      · exact ih
      · rename_i ht
        rw [List.length_nil, List.drop_zero, atEnd_cons]
        simpa using ht

theorem AtEnd.takeWhile_append {vs : List Token} (h : AtEnd vs) {p : Token → Bool}
    (hp : ∀ t, t.kind = .newline → p t = false) (ts : List Token) :
    (ts ++ vs).takeWhile p = ts.takeWhile p := by
  induction ts with
  | nil =>
      cases vs with
      | nil => rfl
      | cons t vs => simp [hp t (atEnd_cons.mp h)]
  | cons t ts ih => rw [List.cons_append, List.takeWhile_cons, List.takeWhile_cons, ih]

theorem AtEnd.lineLength_append {vs : List Token} (h : AtEnd vs) (ts : List Token) :
    lineLength (ts ++ vs) = lineLength ts := by
  unfold lineLength
  rw [h.takeWhile_append (by simp)]

theorem lineLength_le (ts : List Token) : lineLength ts ≤ ts.length :=
  (List.takeWhile_sublist _).length_le

theorem take_lineLength (ts : List Token) :
    ts.take (lineLength ts) = ts.takeWhile (·.kind != .newline) :=
  (List.prefix_iff_eq_take.mp (List.takeWhile_prefix _)).symm

theorem AtEnd.take_lineLength {vs : List Token} (h : AtEnd vs) (ts : List Token) :
    (ts ++ vs).take (lineLength (ts ++ vs)) = ts.take (lineLength ts) := by
  rw [h.lineLength_append, List.take_append_of_le_length (lineLength_le ts)]

/-! ### The next token that is no space -/

/-- All of these tokens are spaces. -/
def Spaces (ts : List Token) : Prop :=
  ∀ t ∈ ts, t.kind = .space

/-- The first token that is no space. -/
def next? (ts : List Token) : Option Token :=
  ts[spaces ts]?

theorem spaces_append {sp : List Token} (hsp : Spaces sp) (ts : List Token) :
    spaces (sp ++ ts) = sp.length + spaces ts := by
  unfold spaces
  rw [List.takeWhile_append_of_pos (by simpa [Spaces] using hsp), List.length_append]

theorem next?_append {sp : List Token} (hsp : Spaces sp) (ts : List Token) :
    next? (sp ++ ts) = next? ts := by
  unfold next?
  rw [spaces_append hsp, List.getElem?_append_right (Nat.le_add_right _ _),
    Nat.add_sub_cancel_left]

theorem spaces_cons {t : Token} (ht : t.kind ≠ .space) (ts : List Token) :
    spaces (t :: ts) = 0 := by
  simp [spaces, ht]

theorem next?_cons {t : Token} (ht : t.kind ≠ .space) (ts : List Token) :
    next? (t :: ts) = some t := by
  simp [next?, spaces_cons ht]

/-- Every list of tokens is some spaces, and then nothing or a token that is none. -/
theorem exists_spaces (ts : List Token) :
    ∃ sp, Spaces sp ∧ (ts = sp ∨ ∃ t vs, t.kind ≠ .space ∧ ts = sp ++ t :: vs) := by
  induction ts with
  | nil => exact ⟨[], by simp [Spaces], Or.inl rfl⟩
  | cons t ts ih =>
      by_cases ht : t.kind = .space
      · obtain ⟨sp, hsp, hts⟩ := ih
        refine ⟨t :: sp, by simpa [Spaces, ht] using hsp, ?_⟩
        rcases hts with rfl | ⟨u, vs, hu, rfl⟩
        · exact Or.inl rfl
        · exact Or.inr ⟨u, vs, hu, rfl⟩
      · exact ⟨[], by simp [Spaces], Or.inr ⟨t, ts, ht, rfl⟩⟩

theorem next?_eq_none {sp : List Token} (hsp : Spaces sp) : next? sp = none := by
  have h := next?_append hsp []
  rw [List.append_nil] at h
  rw [h]
  rfl

theorem next?_eq_some {ts : List Token} {t : Token} (h : next? ts = some t) :
    ∃ sp vs, Spaces sp ∧ t.kind ≠ .space ∧ ts = sp ++ t :: vs ∧ spaces ts = sp.length := by
  obtain ⟨sp, hsp, rfl | ⟨u, vs, hu, rfl⟩⟩ := exists_spaces ts
  · rw [next?_eq_none hsp] at h
    exact absurd h (by simp)
  · rw [next?_append hsp, next?_cons hu] at h
    obtain rfl := Option.some.inj h
    exact ⟨sp, vs, hsp, hu, rfl, by rw [spaces_append hsp, spaces_cons hu, Nat.add_zero]⟩

/-- The end of a line is the next token only if there is no other. -/
theorem AtEnd.next?_append {vs : List Token} (h : AtEnd vs) (ts : List Token) :
    next? (ts ++ vs) = next? ts ∨
      next? ts = none ∧ ∃ t, next? (ts ++ vs) = some t ∧ t.kind = .newline := by
  obtain ⟨sp, hsp, rfl | ⟨t, us, ht, rfl⟩⟩ := exists_spaces ts
  · rw [DocText.next?_append hsp, next?_eq_none hsp]
    cases vs with
    | nil => exact Or.inl rfl
    | cons t vs =>
        have hkind := atEnd_cons.mp h
        exact Or.inr ⟨rfl, t, next?_cons (by simp [hkind]) vs, hkind⟩
  · rw [List.append_assoc, DocText.next?_append hsp, DocText.next?_append hsp, List.cons_append,
      next?_cons ht, next?_cons ht]
    exact Or.inl rfl

theorem AtEnd.spaces_append {vs : List Token} (h : AtEnd vs) (ts : List Token) :
    spaces (ts ++ vs) = spaces ts := by
  unfold spaces
  rw [h.takeWhile_append (fun t ht => by simp [ht])]

/-! ### Arguments -/

theorem take_argument (us : List Token) (t : Token) (vs : List Token) :
    (us ++ t :: vs).take (us.length + 1) = us ++ [t] := by
  rw [List.append_cons, List.take_left' (by simp)]

theorem drop_argument (us : List Token) (t : Token) (vs : List Token) :
    (us ++ t :: vs).drop (us.length + 1) = vs := by
  rw [List.append_cons, List.drop_left' (by simp)]

theorem wordArgument?_eq (ts : List Token) :
    wordArgument? ts =
      match next? ts with
      | some ⟨.word, text⟩ => some (text, spaces ts + 1)
      | _ => none := rfl

/-- A word is an argument if spaces only stand before it. -/
theorem wordArgument?_eq_some {ts : List Token} {w : List Char} {n : Nat} :
    wordArgument? ts = some (w, n) ↔
      ∃ sp vs, Spaces sp ∧ ts = sp ++ ⟨.word, w⟩ :: vs ∧ n = sp.length + 1 := by
  rw [wordArgument?_eq]
  constructor
  · intro h
    split at h
    · rename_i text hnext
      obtain ⟨sp, vs, hsp, -, rfl, hlen⟩ := next?_eq_some hnext
      obtain ⟨rfl, rfl⟩ := Prod.mk.inj (Option.some.inj h)
      exact ⟨sp, vs, hsp, rfl, by rw [hlen]⟩
    · simp at h
  · rintro ⟨sp, vs, hsp, rfl, rfl⟩
    rw [next?_append hsp, next?_cons (by simp), spaces_append hsp, spaces_cons (by simp)]

theorem wordArgument?_eq_none {ts : List Token} :
    wordArgument? ts = none ↔ ∀ t, next? ts = some t → t.kind ≠ .word := by
  rw [wordArgument?_eq]
  cases hnext : next? ts with
  | none => simp
  | some t =>
      obtain ⟨kind, text⟩ := t
      cases kind <;> simp

theorem linkText?_eq (ts : List Token) :
    linkText? ts =
      match next? ts with
      | some ⟨.quoted, text⟩ => some (Text.stripQuotes text, spaces ts + 1)
      | _ => none := rfl

/-- A quoted text is shown for a link if spaces only stand before it. -/
theorem linkText?_eq_some {ts : List Token} {shown : List Char} {n : Nat} :
    linkText? ts = some (shown, n) ↔
      ∃ sp q vs, Spaces sp ∧ ts = sp ++ ⟨.quoted, q⟩ :: vs ∧ shown = Text.stripQuotes q ∧
        n = sp.length + 1 := by
  rw [linkText?_eq]
  constructor
  · intro h
    split at h
    · rename_i q hnext
      obtain ⟨sp, vs, hsp, -, rfl, hlen⟩ := next?_eq_some hnext
      obtain ⟨rfl, rfl⟩ := Prod.mk.inj (Option.some.inj h)
      exact ⟨sp, q, vs, hsp, rfl, rfl, by rw [hlen]⟩
    · simp at h
  · rintro ⟨sp, q, vs, hsp, rfl, rfl, rfl⟩
    rw [next?_append hsp, next?_cons (by simp), spaces_append hsp, spaces_cons (by simp)]

theorem linkText?_eq_none {ts : List Token} :
    linkText? ts = none ↔ ∀ t, next? ts = some t → t.kind ≠ .quoted := by
  rw [linkText?_eq]
  cases hnext : next? ts with
  | none => simp
  | some t =>
      obtain ⟨kind, text⟩ := t
      cases kind <;> simp

theorem AtEnd.wordArgument?_append {vs : List Token} (h : AtEnd vs) (ts : List Token) :
    wordArgument? (ts ++ vs) = wordArgument? ts := by
  rw [wordArgument?_eq, wordArgument?_eq, h.spaces_append]
  rcases h.next?_append ts with hnext | ⟨hnone, ⟨kind, text⟩, hnext, rfl⟩
  · rw [hnext]
  · rw [hnone, hnext]

theorem AtEnd.linkText?_append {vs : List Token} (h : AtEnd vs) (ts : List Token) :
    linkText? (ts ++ vs) = linkText? ts := by
  rw [linkText?_eq, linkText?_eq, h.spaces_append]
  rcases h.next?_append ts with hnext | ⟨hnone, ⟨kind, text⟩, hnext, rfl⟩
  · rw [hnext]
  · rw [hnone, hnext]

/-! ### Names with parentheses -/

theorem AtEnd.openTokens_append {vs : List Token} (h : AtEnd vs) (depth : Int) (ts : List Token) :
    openTokens depth (ts ++ vs) = openTokens depth ts := by
  induction ts generalizing depth with
  | nil =>
      cases vs with
      | nil => rfl
      | cons t vs => simp [openTokens, atEnd_cons.mp h]
  | cons t ts ih => rw [List.cons_append, openTokens, openTokens, ih]

theorem openTokens_le (depth : Int) (ts : List Token) : openTokens depth ts ≤ ts.length := by
  induction ts generalizing depth with
  | nil => exact Nat.le_refl _
  | cons t ts ih =>
      rw [openTokens]
      split
      · exact Nat.succ_le_succ (ih _)
      · exact Nat.zero_le _

theorem exists_append_openTokens (depth : Int) (ts : List Token) :
    ∃ xs vs, ts = xs ++ vs ∧ openTokens depth ts = xs.length :=
  ⟨_, _, (List.take_append_drop (openTokens depth ts) ts).symm,
    (List.length_take_of_le (openTokens_le depth ts)).symm⟩

/-- No token that ends here is a space. -/
def EndsSolid (ts : List Token) : Prop :=
  ∀ t, ts.getLast? = some t → t.kind ≠ .space

/-- A name goes on to the end of its line, or to a token that closes a parenthesis; then it
ends there whatever follows. -/
theorem exists_openTokens {ts : List Token}
    (hspace : ∀ t ∈ ts, t.kind = .space → parenBalance t.text = 0) (depth : Int) :
    ∃ xs vs, ts = xs ++ vs ∧ openTokens depth ts = xs.length ∧
      (AtEnd vs ∨ EndsSolid xs ∧ ∀ vs', openTokens depth (xs ++ vs') = xs.length) := by
  induction ts generalizing depth with
  | nil => exact ⟨[], [], rfl, rfl, Or.inl atEnd_nil⟩
  | cons t ts ih =>
      by_cases hdepth : 0 < depth
      · by_cases hkind : t.kind = .newline
        · exact ⟨[], t :: ts, rfl, by simp [openTokens, hkind], Or.inl (atEnd_cons.mpr hkind)⟩
        · obtain ⟨xs, vs, rfl, hlen, hend⟩ :=
            ih (fun u hu => hspace u (List.mem_cons_of_mem _ hu)) (depth + parenBalance t.text)
          have hopen : ∀ us, openTokens depth (t :: us) =
              openTokens (depth + parenBalance t.text) us + 1 := by
            intro us
            simp [openTokens, hdepth, hkind]
          refine ⟨t :: xs, vs, rfl, by rw [hopen, hlen, List.length_cons], ?_⟩
          rcases hend with hend | ⟨hsolid, hany⟩
          · exact Or.inl hend
          · refine Or.inr ⟨?_, fun vs' => by rw [List.cons_append, hopen, hany, List.length_cons]⟩
            intro u hu
            cases xs with
            | cons x xs => exact hsolid u (by simpa using hu)
            | nil =>
                -- The name ends behind `t`, so `t` brought the depth down to zero.
                obtain rfl : t = u := by simpa using hu
                intro hsp
                have h0 := hany [⟨.stray, []⟩]
                rw [hspace t (List.mem_cons_self) hsp, Int.add_zero] at h0
                simp [openTokens, hdepth] at h0
      · refine ⟨[], t :: ts, rfl, by simp [openTokens, hdepth], Or.inr ⟨by simp [EndsSolid], ?_⟩⟩
        intro vs'
        cases vs' with
        | nil => rfl
        | cons u vs' => simp [openTokens, hdepth]

/-! ### Links -/

/-- The link to a target that was read up to here, `used` tokens of it. -/
def linkTo (make : String → Option String → Command) (target tail : List Char) (used : Nat)
    (ts : List Token) : Found :=
  match tail, linkText? ts with
  | [], some (text, more) =>
    { command := make (String.ofList target) (some (String.ofList text)), used := used + more }
  | _, _ => { command := make (String.ofList target) none, used, tail }

theorem link?_eq (make : String → Option String → Command) (ts : List Token) :
    link? make ts = (linkTarget? ts).map fun (target, used, tail) =>
      linkTo make target tail used (ts.drop used) := rfl

theorem linkTarget?_eq (ts : List Token) :
    linkTarget? ts =
      match next? ts with
      | some ⟨.quoted, text⟩ => some (Text.stripQuotes text, spaces ts + 1, [])
      | some ⟨.word, _⟩ =>
        (referenceName? (ts.drop (spaces ts))).map fun (name, used, tail) =>
          (name, spaces ts + used, tail)
      | _ => none := rfl

/-- A quoted target is the quoted text. -/
theorem link?_quoted (make : String → Option String → Command) {sp : List Token}
    (hsp : Spaces sp) (q : List Char) (vs : List Token) :
    link? make (sp ++ ⟨.quoted, q⟩ :: vs) =
      some (linkTo make (Text.stripQuotes q) [] (sp.length + 1) vs) := by
  rw [link?_eq, linkTarget?_eq, next?_append hsp, next?_cons (by simp), spaces_append hsp,
    spaces_cons (by simp)]
  dsimp only [Option.map_some]
  rw [drop_argument]

/-- A name is a target with all that its parentheses hold. -/
theorem link?_word (make : String → Option String → Command) {sp : List Token}
    (hsp : Spaces sp) {w : List Char} {xs vs : List Token}
    (hopen : openTokens (parenBalance w) (xs ++ vs) = xs.length) :
    link? make (sp ++ ⟨.word, w⟩ :: (xs ++ vs)) =
      some (linkTo make (splitPunctuation (w ++ textOf xs)).1 (splitPunctuation (w ++ textOf xs)).2
        (sp.length + (xs.length + 1)) vs) := by
  have hname : referenceName? (⟨.word, w⟩ :: (xs ++ vs)) =
      some ((splitPunctuation (w ++ textOf xs)).1, xs.length + 1,
        (splitPunctuation (w ++ textOf xs)).2) := by
    simp only [referenceName?, hopen, List.take_left']
  rw [link?_eq, linkTarget?_eq, next?_append hsp, next?_cons (by simp), spaces_append hsp,
    spaces_cons (by simp)]
  dsimp only [Nat.add_zero]
  rw [List.drop_left' rfl, hname]
  dsimp only [Option.map_some]
  rw [← List.cons_append, ← List.append_assoc, List.drop_left' (by simp)]

/-- Nothing but a word or a quoted text can be a target. -/
theorem link?_eq_none (make : String → Option String → Command) {ts : List Token} :
    link? make ts = none ↔ ∀ t, next? ts = some t → t.kind ≠ .word ∧ t.kind ≠ .quoted := by
  rw [link?_eq, Option.map_eq_none_iff, linkTarget?_eq]
  constructor
  · rintro h ⟨kind, text⟩ hnext
    rw [hnext] at h
    constructor
    · rintro rfl
      obtain ⟨sp, vs, -, -, hts, hlen⟩ := next?_eq_some hnext
      rw [hlen, hts, List.drop_left' rfl] at h
      simp [referenceName?] at h
    · rintro rfl
      simp at h
  · intro h
    split
    · rename_i text hnext
      exact absurd rfl (h _ hnext).2
    · rename_i text hnext
      exact absurd rfl (h _ hnext).1
    · rfl

/-- What a link starts with, if there is one. -/
theorem next?_cases (ts : List Token) :
    (∃ sp q vs, Spaces sp ∧ ts = sp ++ ⟨.quoted, q⟩ :: vs) ∨
      (∃ sp w vs, Spaces sp ∧ ts = sp ++ ⟨.word, w⟩ :: vs) ∨
      ∀ t, next? ts = some t → t.kind ≠ .word ∧ t.kind ≠ .quoted := by
  cases hnext : next? ts with
  | none => exact Or.inr (Or.inr (by simp))
  | some t =>
      obtain ⟨sp, vs, hsp, -, rfl, -⟩ := next?_eq_some hnext
      obtain ⟨kind, text⟩ := t
      by_cases hword : kind = .word
      · subst hword
        exact Or.inr (Or.inl ⟨sp, text, vs, hsp, rfl⟩)
      · by_cases hquoted : kind = .quoted
        · subst hquoted
          exact Or.inl ⟨sp, text, vs, hsp, rfl⟩
        · refine Or.inr (Or.inr fun t ht => ?_)
          obtain rfl := Option.some.inj ht
          exact ⟨hword, hquoted⟩

theorem AtEnd.link?_append {vs : List Token} (h : AtEnd vs)
    (make : String → Option String → Command) (ts : List Token) :
    link? make (ts ++ vs) = link? make ts := by
  have hto : ∀ target tail used us,
      linkTo make target tail used (us ++ vs) = linkTo make target tail used us := by
    intro target tail used us
    unfold linkTo
    rw [h.linkText?_append]
  rcases next?_cases ts with ⟨sp, q, us, hsp, rfl⟩ | ⟨sp, w, us, hsp, rfl⟩ | hother
  · rw [List.append_assoc, List.cons_append, link?_quoted make hsp, link?_quoted make hsp, hto]
  · obtain ⟨xs, ys, rfl, hopen⟩ := exists_append_openTokens (parenBalance w) us
    have hopen' : openTokens (parenBalance w) (xs ++ (ys ++ vs)) = xs.length := by
      rw [← List.append_assoc, h.openTokens_append, hopen]
    rw [List.append_assoc, List.cons_append, List.append_assoc, link?_word make hsp hopen',
      link?_word make hsp hopen, hto]
  · rw [(link?_eq_none make).mpr hother, link?_eq_none]
    intro t ht
    rcases h.next?_append ts with hnext | ⟨-, u, hnext, hu⟩
    · exact hother t (hnext ▸ ht)
    · rw [hnext] at ht
      rw [← Option.some.inj ht, hu]
      simp

/-! ### What was read -/

theorem withWord?_eq_some {make : String → Command} {ts : List Token} {found : Found}
    (h : withWord? make ts = some found) :
    ∃ sp w vs, Spaces sp ∧ ts = sp ++ ⟨.word, w⟩ :: vs ∧
      found = { command := make (String.ofList w), used := sp.length + 1 } := by
  obtain ⟨⟨w, n⟩, harg, rfl⟩ := Option.map_eq_some_iff.mp h
  obtain ⟨sp, vs, hsp, rfl, rfl⟩ := wordArgument?_eq_some.mp harg
  exact ⟨sp, w, vs, hsp, rfl, rfl⟩

theorem seeAlso?_eq_some {ts : List Token} {found : Found} (h : seeAlso? ts = some found) :
    ∃ targets, found = { command := .seeAlso targets, used := lineLength ts } := by
  simp only [seeAlso?] at h
  split at h
  · exact absurd h (by simp)
  · exact ⟨_, (Option.some.inj h).symm⟩

theorem heading?_eq_some {level : Nat} {ts : List Token} {found : Found}
    (h : heading? level ts = some found) :
    ∃ sp w vs title, Spaces sp ∧ ts = sp ++ ⟨.word, w⟩ :: vs ∧
      found = { command := .heading level (String.ofList w) title
                used := sp.length + 1 + lineLength vs } := by
  obtain ⟨⟨w, n⟩, harg, hread⟩ := Option.bind_eq_some_iff.mp h
  obtain ⟨sp, vs, hsp, rfl, rfl⟩ := wordArgument?_eq_some.mp harg
  dsimp only at hread
  rw [drop_argument] at hread
  split at hread
  · exact absurd hread (by simp)
  · exact ⟨sp, w, vs, _, hsp, rfl, (Option.some.inj hread).symm⟩

theorem link?_command {make : String → Option String → Command} {ts : List Token} {found : Found}
    (h : link? make ts = some found) : ∃ target text, found.command = make target text := by
  obtain ⟨⟨target, used, tail⟩, -, rfl⟩ := Option.map_eq_some_iff.mp h
  dsimp only
  split <;> exact ⟨_, _, rfl⟩

/-! ### Readers -/

/-- **A reader does not look beyond its line.** -/
theorem CommandWord.read?_append (word : CommandWord) {vs : List Token} (h : AtEnd vs)
    (ts : List Token) : word.read? (ts ++ vs) = word.read? ts := by
  have hword : ∀ make, withWord? make (ts ++ vs) = withWord? make ts := by
    intro make
    rw [withWord?, withWord?, h.wordArgument?_append]
  cases word with
  | ref => exact h.link?_append _ ts
  | subpage => exact h.link?_append _ ts
  | relates => exact hword _
  | ingroup => exact hword _
  | anchor => exact hword _
  | see =>
      simp only [read?, seeAlso?]
      rw [h.take_lineLength, h.lineLength_append]
  | heading level =>
      simp only [read?, heading?]
      rw [h.wordArgument?_append]
      cases harg : wordArgument? ts with
      | none => rfl
      | some arg =>
          obtain ⟨id, n⟩ := arg
          obtain ⟨sp, us, -, rfl, rfl⟩ := wordArgument?_eq_some.mp harg
          simp only [Option.bind_some]
          rw [List.append_assoc, List.cons_append, drop_argument, drop_argument,
            h.take_lineLength, h.lineLength_append]

/-- Whether a command would take more of what follows if it could. -/
def Command.awaits : Command → Bool
  | ref _ none => true
  | subpage _ none => true
  | malformed _ => true
  | _ => false

/-- Where a reader stopped: at the end of the line, or behind tokens that it would read in the
same way whatever followed, were it not for a text to show that a link may still take. -/
def StopsAt (read : List Token → Option Found) (found : Found) (us vs : List Token) : Prop :=
  found.used = us.length ∧
    (AtEnd vs ∨ us ≠ [] ∧ EndsSolid us ∧
      ∀ vs', (found.command.awaits = true → found.tail = [] → linkText? vs' = linkText? vs) →
        read (us ++ vs') = some found)

theorem endsSolid_nil : EndsSolid [] := by
  intro t ht
  simp at ht

theorem endsSolid_concat {ts : List Token} {t : Token} :
    EndsSolid (ts ++ [t]) ↔ t.kind ≠ .space := by
  simp [EndsSolid]

theorem EndsSolid.append {ts us : List Token} (hts : EndsSolid ts) (hus : EndsSolid us) :
    EndsSolid (ts ++ us) := by
  rcases List.eq_nil_or_concat us with rfl | ⟨us, u, rfl⟩
  · rwa [List.append_nil]
  · rw [List.concat_eq_append] at hus ⊢
    rw [← List.append_assoc]
    exact endsSolid_concat.mpr (endsSolid_concat.mp hus)

theorem AtEnd.linkText?_eq_none {vs : List Token} (h : AtEnd vs) : linkText? vs = none := by
  have happend := h.linkText?_append []
  rwa [List.nil_append] at happend

theorem linkTo_of_none {make : String → Option String → Command} {target tail : List Char}
    {used : Nat} {ts : List Token} (h : linkText? ts = none) :
    linkTo make target tail used ts =
      { command := make (String.ofList target) none, used, tail } := by
  cases tail <;> simp [linkTo, h]

/-- Behind its target a link takes a quoted text or nothing. -/
theorem linkTo_cases {make : String → Option String → Command}
    (hmake : ∀ target, (make target none).awaits = true) (target tail : List Char) (used : Nat)
    (ts : List Token) :
    ∃ us vs, ts = us ++ vs ∧ (linkTo make target tail used ts).used = used + us.length ∧
      EndsSolid us ∧
      ∀ vs', ((linkTo make target tail used ts).command.awaits = true →
          (linkTo make target tail used ts).tail = [] → linkText? vs' = linkText? vs) →
        linkTo make target tail used (us ++ vs') = linkTo make target tail used ts := by
  cases tail with
  | cons c tail =>
      exact ⟨[], ts, rfl, rfl, endsSolid_nil, fun vs' _ => rfl⟩
  | nil =>
      cases hshown : linkText? ts with
      | none =>
          refine ⟨[], ts, rfl, by simp [linkTo, hshown], endsSolid_nil, fun vs' hvs' => ?_⟩
          have hnone : linkText? vs' = none := by
            refine (hvs' ?_ ?_).trans hshown
            · simp [linkTo, hshown, hmake]
            · simp [linkTo, hshown]
          simp [linkTo, hshown, hnone]
      | some shown =>
          obtain ⟨text, more⟩ := shown
          obtain ⟨sp, q, vs, hsp, rfl, rfl, rfl⟩ := linkText?_eq_some.mp hshown
          refine ⟨sp ++ [⟨.quoted, q⟩], vs, by simp, by simp [linkTo, hshown],
            endsSolid_concat.mpr (by simp), fun vs' _ => ?_⟩
          have hshown' : linkText? (sp ++ [⟨.quoted, q⟩] ++ vs') =
              some (Text.stripQuotes q, sp.length + 1) :=
            linkText?_eq_some.mpr ⟨sp, q, vs', hsp, by simp, rfl, rfl⟩
          simp only [linkTo]
          rw [hshown, hshown']

theorem link?_stopsAt {make : String → Option String → Command}
    (hmake : ∀ target, (make target none).awaits = true) {ts : List Token} {found : Found}
    (hspace : ∀ t ∈ ts, t.kind = .space → parenBalance t.text = 0)
    (h : link? make ts = some found) :
    ∃ us vs, ts = us ++ vs ∧ StopsAt (link? make) found us vs := by
  rcases next?_cases ts with ⟨sp, q, rest, hsp, rfl⟩ | ⟨sp, w, rest, hsp, rfl⟩ | hother
  · rw [link?_quoted make hsp] at h
    obtain rfl := Option.some.inj h
    obtain ⟨us, vs, rfl, hused, hsolid, hany⟩ :=
      linkTo_cases hmake (Text.stripQuotes q) [] (sp.length + 1) rest
    refine ⟨sp ++ ⟨.quoted, q⟩ :: us, vs, by simp, ?_, Or.inr ⟨by simp, ?_, fun vs' hvs' => ?_⟩⟩
    · rw [hused]
      simp only [List.length_append, List.length_cons]
      omega
    · rw [List.append_cons]
      exact (endsSolid_concat.mpr (by simp)).append hsolid
    · rw [List.append_assoc, List.cons_append, link?_quoted make hsp, hany vs' hvs']
  · obtain ⟨xs, rest, rfl, hopen, hend⟩ := exists_openTokens
      (fun t ht => hspace t (List.mem_append_right _ (List.mem_cons_of_mem _ ht))) (parenBalance w)
    rw [link?_word make hsp hopen] at h
    obtain rfl := Option.some.inj h
    rcases hend with hend | ⟨hxs, hcut⟩
    · refine ⟨sp ++ ⟨.word, w⟩ :: xs, rest, by simp, ?_, Or.inl hend⟩
      rw [linkTo_of_none hend.linkText?_eq_none, List.length_append, List.length_cons]
    · obtain ⟨us, vs, rfl, hused, hsolid, hany⟩ :=
        linkTo_cases hmake (splitPunctuation (w ++ textOf xs)).1
          (splitPunctuation (w ++ textOf xs)).2 (sp.length + (xs.length + 1)) rest
      refine ⟨sp ++ ⟨.word, w⟩ :: (xs ++ us), vs, by simp, ?_,
        Or.inr ⟨by simp, ?_, fun vs' hvs' => ?_⟩⟩
      · rw [hused]
        simp only [List.length_append, List.length_cons]
        omega
      · rw [List.append_cons]
        exact (endsSolid_concat.mpr (by simp)).append (hxs.append hsolid)
      · rw [List.append_assoc, List.cons_append, List.append_assoc, link?_word make hsp (hcut _),
          hany vs' hvs']
  · rw [(link?_eq_none make).mpr hother] at h
    exact absurd h (by simp)

theorem linkTo_tail (make : String → Option String → Command) (target : List Char) (used : Nat)
    (ts : List Token) : (linkTo make target [] used ts).tail = [] := by
  unfold linkTo
  split <;> rfl

/-- The tail of a link is the end of what it was read from. -/
theorem link?_tail {make : String → Option String → Command} {ts : List Token} {found : Found}
    (h : link? make ts = some found) : found.tail <:+ textOf (ts.take found.used) := by
  rcases next?_cases ts with ⟨sp, q, rest, hsp, rfl⟩ | ⟨sp, w, rest, hsp, rfl⟩ | hother
  · rw [link?_quoted make hsp] at h
    obtain rfl := Option.some.inj h
    rw [linkTo_tail]
    exact List.nil_suffix
  · obtain ⟨xs, rest, rfl, hopen⟩ := exists_append_openTokens (parenBalance w) rest
    rw [link?_word make hsp hopen] at h
    obtain rfl := Option.some.inj h
    have hsuffix : (splitPunctuation (w ++ textOf xs)).2 <:+ w ++ textOf xs := by
      unfold splitPunctuation
      dsimp only
      split
      · exact List.nil_suffix
      · exact List.drop_suffix _ _
    generalize (splitPunctuation (w ++ textOf xs)).1 = target
    generalize (splitPunctuation (w ++ textOf xs)).2 = tail at hsuffix
    cases tail with
    | nil =>
        rw [linkTo_tail]
        exact List.nil_suffix
    | cons d tail =>
        have htake : (sp ++ ⟨.word, w⟩ :: (xs ++ rest)).take (sp.length + (xs.length + 1)) =
            sp ++ ⟨.word, w⟩ :: xs := by
          rw [← List.cons_append, ← List.append_assoc, List.take_left' (by simp)]
        simp only [linkTo, htake]
        rw [textOf_append, textOf_cons]
        exact hsuffix.trans (List.suffix_append _ _)
  · rw [(link?_eq_none make).mpr hother] at h
    exact absurd h (by simp)

theorem CommandWord.read?_tail {word : CommandWord} {ts : List Token} {found : Found}
    (h : word.read? ts = some found) : found.tail <:+ textOf (ts.take found.used) := by
  cases word with
  | ref => exact link?_tail h
  | subpage => exact link?_tail h
  | relates | ingroup | anchor =>
      obtain ⟨sp, w, vs, -, -, rfl⟩ := withWord?_eq_some h
      exact List.nil_suffix
  | see =>
      obtain ⟨targets, rfl⟩ := seeAlso?_eq_some h
      exact List.nil_suffix
  | heading level =>
      obtain ⟨sp, w, vs, title, -, -, rfl⟩ := heading?_eq_some h
      exact List.nil_suffix

/-- **Where a reader stops.** -/
theorem CommandWord.read?_stopsAt {word : CommandWord} {ts : List Token} {found : Found}
    (hspace : ∀ t ∈ ts, t.kind = .space → parenBalance t.text = 0)
    (h : word.read? ts = some found) :
    ∃ us vs, ts = us ++ vs ∧ StopsAt word.read? found us vs := by
  have hword : ∀ make, withWord? make ts = some found →
      ∃ us vs, ts = us ++ vs ∧ StopsAt (withWord? make) found us vs := by
    intro make h
    obtain ⟨sp, w, vs, hsp, rfl, rfl⟩ := withWord?_eq_some h
    refine ⟨sp ++ [⟨.word, w⟩], vs, by simp, by simp, Or.inr ⟨by simp, ?_, fun vs' _ => ?_⟩⟩
    · exact endsSolid_concat.mpr (by simp)
    · have harg' : wordArgument? (sp ++ [⟨.word, w⟩] ++ vs') = some (w, sp.length + 1) :=
        wordArgument?_eq_some.mpr ⟨sp, vs', hsp, by simp, rfl⟩
      rw [withWord?, harg', Option.map_some]
  cases word with
  | ref => exact link?_stopsAt (fun _ => rfl) hspace h
  | subpage => exact link?_stopsAt (fun _ => rfl) hspace h
  | relates => exact hword _ h
  | ingroup => exact hword _ h
  | anchor => exact hword _ h
  | see =>
      obtain ⟨targets, rfl⟩ := seeAlso?_eq_some h
      exact ⟨_, _, (List.take_append_drop (lineLength ts) ts).symm,
        (List.length_take_of_le (lineLength_le ts)).symm, Or.inl (atEnd_drop_lineLength ts)⟩
  | heading level =>
      obtain ⟨sp, w, vs, title, -, rfl, rfl⟩ := heading?_eq_some h
      refine ⟨sp ++ ⟨.word, w⟩ :: vs.take (lineLength vs), vs.drop (lineLength vs), by simp, ?_,
        Or.inl (atEnd_drop_lineLength vs)⟩
      simp only [List.length_append, List.length_cons, List.length_take_of_le (lineLength_le vs)]
      omega

/-! ### Why a reader fails -/

theorem mem_dropWhile {p : Char → Bool} {c : Char} (hc : p c = false) {cs : List Char}
    (h : c ∈ cs) : c ∈ cs.dropWhile p := by
  rw [← List.takeWhile_append_dropWhile (p := p) (l := cs)] at h
  rcases List.mem_append.mp h with h | h
  · rw [List.mem_takeWhile_imp h] at hc
    exact absurd hc (by decide)
  · exact h

theorem mem_dropEnd {p : Char → Bool} {c : Char} (hc : p c = false) {cs : List Char}
    (h : c ∈ cs) : c ∈ dropEnd p cs :=
  List.mem_reverse.mpr (mem_dropWhile hc (List.mem_reverse.mpr h))

theorem mem_trim {c : Char} (hc : Text.isBlank c = false) {cs : List Char} (h : c ∈ cs) :
    c ∈ Text.trim cs :=
  mem_dropEnd hc (mem_dropWhile hc h)

theorem trim_of_blank {cs : List Char} (h : ∀ c ∈ cs, Text.isBlank c = true) :
    Text.trim cs = [] := by
  have hstart : Text.trimStart cs = [] := List.dropWhile_eq_nil_iff.mpr h
  rw [Text.trim, hstart]
  rfl

theorem trim_eq_nil_iff {cs : List Char} :
    Text.trim cs = [] ↔ ∀ c ∈ cs, Text.isBlank c = true := by
  refine ⟨fun htrim c hc => ?_, trim_of_blank⟩
  by_contra hblank
  have hmem := mem_trim (by simpa using hblank) hc
  simp [htrim] at hmem

theorem trim_ne_nil_iff {cs : List Char} :
    Text.trim cs ≠ [] ↔ ∃ c ∈ cs, Text.isBlank c = false := by
  simp [trim_eq_nil_iff]

theorem mem_stripQuotes {c : Char} (hc : c ≠ '"') {cs : List Char} (h : c ∈ cs) :
    c ∈ Text.stripQuotes cs := by
  unfold Text.stripQuotes
  split
  · rename_i rest
    have hrest : c ∈ rest := (List.mem_cons.mp h).resolve_left hc
    split
    · rename_i hlast
      obtain ⟨init, rfl⟩ := List.getLast?_eq_some_iff.mp hlast
      rw [List.dropLast_concat]
      exact (List.mem_append.mp hrest).resolve_right (by simpa using hc)
    · exact h
  · exact h

theorem mem_stretchesFrom {c : Char} (hc : c ≠ ',') (depth : Int) {cs : List Char}
    (h : c ∈ cs) : ∃ piece ∈ Text.stretchesFrom depth cs, c ∈ piece := by
  have hconsFirst : ∀ (d : Char) {pieces : List (List Char)},
      (c = d ∨ ∃ piece ∈ pieces, c ∈ piece) → ∃ piece ∈ Text.consFirst d pieces, c ∈ piece := by
    intro d pieces hmem
    cases pieces with
    | nil => simpa [Text.consFirst] using hmem
    | cons first rest =>
        rcases hmem with rfl | ⟨piece, hpiece, hmem⟩
        · exact ⟨_, List.mem_cons_self, List.mem_cons_self⟩
        · rcases List.mem_cons.mp hpiece with rfl | hpiece
          · exact ⟨_, List.mem_cons_self, List.mem_cons_of_mem _ hmem⟩
          · exact ⟨piece, List.mem_cons_of_mem _ hpiece, hmem⟩
  induction cs generalizing depth with
  | nil => simp at h
  | cons d cs ih =>
      rw [Text.stretchesFrom]
      split
      · rename_i hcomma
        simp only [Bool.and_eq_true, beq_iff_eq] at hcomma
        have hrest : c ∈ cs := (List.mem_cons.mp h).resolve_left fun heq => hc (heq.trans hcomma.1)
        obtain ⟨piece, hpiece, hmem⟩ := ih depth hrest
        exact ⟨piece, List.mem_cons_of_mem _ hpiece, hmem⟩
      · refine hconsFirst d ?_
        rcases List.mem_cons.mp h with heq | h
        · exact Or.inl heq
        · exact Or.inr (ih _ h)

/-- A list of targets is empty only on a line without a mark. -/
theorem seeAlso?_eq_none {ts : List Token} (h : seeAlso? ts = none) {c : Char}
    (hc : isMark c = true) : c ∉ textOf (ts.take (lineLength ts)) := by
  intro hmem
  obtain ⟨piece, hpiece, hmem⟩ := mem_stretchesFrom (ne_of_isMark hc rfl) 0 hmem
  have hblank := not_isBlank_of_isMark hc
  have hitem := mem_trim hblank hmem
  have htarget : c ∈ Text.trimEnd (dropEnd (· == '.') (Text.trim piece)) :=
    mem_dropEnd hblank (mem_dropEnd (by simpa using ne_of_isMark (d := '.') hc rfl) hitem)
  simp only [seeAlso?] at h
  split at h
  · rename_i hempty
    rw [List.isEmpty_iff] at hempty
    refine List.filter_eq_nil_iff.mp hempty _ (List.mem_map.mpr ⟨Text.trim piece, ?_, rfl⟩) ?_
    · refine List.mem_filter.mpr ⟨List.mem_map.mpr ⟨piece, hpiece, rfl⟩, ?_⟩
      simpa using List.ne_nil_of_mem hitem
    · simpa using List.ne_nil_of_mem htarget
  · exact absurd h (by simp)

/-- A title is empty only on a line without a mark. -/
theorem heading?_eq_none {level : Nat} {ts : List Token} (h : heading? level ts = none) :
    wordArgument? ts = none ∨ ∃ sp w vs, Spaces sp ∧ ts = sp ++ ⟨.word, w⟩ :: vs ∧
      ∀ c, isMark c = true → c ∉ textOf (vs.take (lineLength vs)) := by
  cases harg : wordArgument? ts with
  | none => exact Or.inl rfl
  | some arg =>
      obtain ⟨w, n⟩ := arg
      obtain ⟨sp, vs, hsp, rfl, rfl⟩ := wordArgument?_eq_some.mp harg
      refine Or.inr ⟨sp, w, vs, hsp, rfl, fun c hc hmem => ?_⟩
      have htrim := mem_trim (not_isBlank_of_isMark hc) hmem
      have htitle := mem_stripQuotes (ne_of_isMark hc rfl) htrim
      simp only [heading?, harg, Option.bind_some] at h
      rw [drop_argument] at h
      split at h
      · rename_i hempty
        rw [List.isEmpty_iff] at hempty
        rw [hempty] at htitle
        simp at htitle
      · exact absurd h (by simp)

theorem Lexed.kind_ne_command {ts us : List Token} (hts : Lexed ts) (hus : ∀ t ∈ us, t ∈ ts)
    (h : ∀ c, isMark c = true → c ∉ textOf us) : ∀ t ∈ us, t.kind ≠ .command := by
  intro t ht hkind
  obtain ⟨rest, hcut⟩ := hts.exists_cut (hus t ht)
  obtain ⟨c, hhead, hc⟩ := hcut.head?_of_command hkind
  exact h c hc (List.mem_flatMap.mpr ⟨t, ht, List.mem_of_head? hhead⟩)

/-- **Why a reader fails**: what comes next is of no use to it, or else there is no command on
the rest of the line. -/
theorem CommandWord.read?_eq_none {word : CommandWord} {ts : List Token} (hts : Lexed ts)
    (h : word.read? ts = none) :
    (∀ us, next? us = next? ts → word.read? us = none) ∨
      ∀ t ∈ ts.take (lineLength ts), t.kind ≠ .command := by
  have hlink : ∀ make, link? make ts = none → ∀ us, next? us = next? ts → link? make us = none := by
    intro make h us hus
    rw [link?_eq_none] at h ⊢
    rwa [hus]
  have harg : wordArgument? ts = none → ∀ us, next? us = next? ts → wordArgument? us = none := by
    intro h us hus
    rw [wordArgument?_eq_none] at h ⊢
    rwa [hus]
  have hword : ∀ make, withWord? make ts = none →
      ∀ us, next? us = next? ts → withWord? make us = none := by
    intro make h us hus
    rw [withWord?, Option.map_eq_none_iff] at h ⊢
    exact harg h us hus
  cases word with
  | ref => exact Or.inl (hlink _ h)
  | subpage => exact Or.inl (hlink _ h)
  | relates | ingroup | anchor => exact Or.inl (hword _ h)
  | see =>
      exact Or.inr (hts.kind_ne_command (fun t ht => List.mem_of_mem_take ht)
        fun c hc => seeAlso?_eq_none h hc)
  | heading level =>
      rcases heading?_eq_none h with hnone | ⟨sp, w, vs, hsp, rfl, hvs⟩
      · refine Or.inl fun us hus => ?_
        show (wordArgument? us).bind _ = none
        rw [harg hnone us hus, Option.bind_none]
      · refine Or.inr fun t ht => ?_
        rw [take_lineLength, List.takeWhile_append_of_pos (fun u hu => by simp [hsp u hu]),
          List.takeWhile_cons_of_pos (by simp), ← take_lineLength] at ht
        have hplain := hts.of_append.2.kind_ne_command (fun t ht => List.mem_of_mem_take ht) hvs
        rcases List.mem_append.mp ht with ht | ht
        · simp [hsp t ht]
        rcases List.mem_cons.mp ht with rfl | ht
        · simp
        · exact hplain t ht

end DocForest.DocText
