/-
Template arguments that are in order stay as they are.

Arguments are put in order in two ways: the blanks in them are squeezed, and then the spaces
next to brackets and commas are taken out, one kind after another.  All of that is about which
characters may stand around a space, so that one relation covers each step (`Spaced`): squeezing
brings in spaces between words only, every replacement rules out one more neighbour, and where
the neighbour of a pattern is ruled out the replacement finds nothing to do.

Only blanks come and go (`eraseBlanks_tidyArguments`), so that brackets close each other as
before.
-/
import DocForest.Proofs.Spellings

namespace DocForest

open Text

namespace Text

/-! ### What is left without blanks -/

theorem eraseBlanks_append (us vs : List Char) :
    eraseBlanks (us ++ vs) = eraseBlanks us ++ eraseBlanks vs :=
  List.filter_append ..

theorem eraseBlanks_cons {c : Char} (hc : isBlank c = false) (cs : List Char) :
    eraseBlanks (c :: cs) = c :: eraseBlanks cs :=
  List.filter_cons_of_pos (by simp [hc])

theorem mem_eraseBlanks {c : Char} (hc : isBlank c = false) {cs : List Char} :
    c ∈ eraseBlanks cs ↔ c ∈ cs := by
  simp [eraseBlanks, hc]

theorem eraseBlanks_replace {old new : List Char} (hne : old ≠ [])
    (herase : eraseBlanks old = eraseBlanks new) (cs : List Char) :
    eraseBlanks (replace old new cs) = eraseBlanks cs := by
  fun_induction replace old new cs with
  | case1 => rfl
  | case2 c cs hbegin ih =>
      obtain ⟨rest, hrest⟩ := List.isPrefixOf_iff_prefix.mp hbegin
      obtain ⟨o, os, rfl⟩ := List.exists_cons_of_ne_nil hne
      obtain ⟨rfl, rfl⟩ := List.cons.inj hrest
      rw [eraseBlanks_append, ih, ← herase, ← eraseBlanks_append]
      simp
  | case3 c cs hbegin ih =>
      rw [← List.singleton_append, eraseBlanks_append, ih, ← eraseBlanks_append]
      rfl

theorem flatten_consFirst (c : Char) (ps : List (List Char)) :
    (consFirst c ps).flatten = c :: ps.flatten := by
  cases ps <;> rfl

theorem flatten_words (cs : List Char) : (words cs).flatten = eraseBlanks cs := by
  rw [words, List.flatten_filter_not_isEmpty]
  induction cs with
  | nil => rfl
  | cons c cs ih =>
      rw [pieces]
      cases hc : isBlank c with
      | true => simpa [eraseBlanks, hc] using ih
      | false => simpa [flatten_consFirst, eraseBlanks_cons hc] using ih

theorem eraseBlanks_join (ps : List (List Char)) :
    eraseBlanks (join [' '] ps) = eraseBlanks ps.flatten := by
  induction ps with
  | nil => rfl
  | cons p ps ih =>
      cases ps with
      | nil => simp [join]
      | cons q ps =>
          rw [join_cons_cons, eraseBlanks_append, eraseBlanks_append, ih, ← eraseBlanks_append,
            List.flatten_cons, ← eraseBlanks_append]
          simp [eraseBlanks, isBlank]

theorem eraseBlanks_squeeze (cs : List Char) : eraseBlanks (squeeze cs) = eraseBlanks cs := by
  rw [squeeze, eraseBlanks_join, flatten_words]
  simp [eraseBlanks]

/-! ### What stands around spaces -/

/-- A text may stand behind a character: all its blanks are spaces, none is at its end, none
follows a character of `ls` and none precedes a character of `rs`. -/
inductive Spaced (ls rs : List Char) : Char → List Char → Prop
  | nil {p : Char} (h : p ≠ ' ') : Spaced ls rs p []
  | cons {p c : Char} {cs : List Char} (blank : isBlank c = true → c = ' ')
      (left : c = ' ' → p ∉ ls) (right : p = ' ' → c ∉ rs) (rest : Spaced ls rs c cs) :
      Spaced ls rs p (c :: cs)

variable {ls rs : List Char}

theorem Spaced.cons_of_not_isBlank {p c : Char} {cs : List Char} (hc : isBlank c = false)
    (right : p = ' ' → c ∉ rs) (rest : Spaced ls rs c cs) : Spaced ls rs p (c :: cs) := by
  refine .cons (fun hblank => ?_) (fun hspace => ?_) right rest
  · rw [hc] at hblank
    cases hblank
  · rw [hspace] at hc
    cases hc

/-- A word stands behind any character, and what stands behind characters may follow it. -/
theorem spaced_word {w cs : List Char} (hw : ∀ c ∈ w, isBlank c = false)
    (hcs : ∀ c, c ≠ ' ' → Spaced [' '] [' '] c cs) :
    ∀ {p : Char}, (w = [] → p ≠ ' ') → Spaced [' '] [' '] p (w ++ cs) := by
  induction w with
  | nil => exact fun hp => hcs _ (hp rfl)
  | cons c w ih =>
      intro p _
      obtain ⟨hc, hw⟩ := List.forall_mem_cons.mp hw
      have hne : c ≠ ' ' := by
        rintro rfl
        cases hc
      exact .cons_of_not_isBlank hc (fun _ => by simpa using hne) (ih hw fun _ => hne)

/-- Words are joined by spaces that stand between two characters. -/
theorem spaced_join {ws : List (List Char)}
    (hws : ∀ w ∈ ws, w ≠ [] ∧ ∀ c ∈ w, isBlank c = false) :
    ∀ {w : List Char} {p : Char}, (∀ c ∈ w, isBlank c = false) → (w = [] → p ≠ ' ') →
      Spaced [' '] [' '] p (join [' '] (w :: ws)) := by
  induction ws with
  | nil =>
      intro w p hw hp
      rw [join, ← List.append_nil w]
      exact spaced_word hw (fun _ => .nil) (by simpa using hp)
  | cons q ws ih =>
      intro w p hw hp
      obtain ⟨⟨hne, hq⟩, hws⟩ := List.forall_mem_cons.mp hws
      rw [join_cons_cons, List.append_assoc]
      refine spaced_word hw (fun c hc => ?_) hp
      exact .cons (fun _ => rfl) (fun _ => by simpa using hc) (fun hspace => absurd hspace hc)
        (ih hws hq fun hnil => absurd hnil hne)

theorem not_isBlank_of_mem_words {cs w : List Char} (hw : w ∈ words cs) :
    w ≠ [] ∧ ∀ c ∈ w, isBlank c = false := by
  obtain ⟨hpiece, hne⟩ := List.mem_filter.mp hw
  refine ⟨by simpa using hne, fun c hc => ?_⟩
  have hmem : c ∈ (words cs).flatten := List.mem_flatten.mpr ⟨w, hw, hc⟩
  rw [flatten_words] at hmem
  simpa using (List.mem_filter.mp hmem).2

/-- **Squeezing** leaves single spaces between the characters that stay. -/
theorem squeeze_cons {p : Char} (hp : isBlank p = false) (cs : List Char) :
    ∃ cs', squeeze (p :: cs) = p :: cs' ∧ Spaced [' '] [' '] p cs' := by
  obtain ⟨piece, rest, hpieces⟩ := exists_pieces_eq_cons isBlank cs
  have hwords : words (p :: cs) = (p :: piece) :: rest.filter (!·.isEmpty) := by
    rw [words, pieces, if_neg (by simp [hp]), hpieces, consFirst, List.filter_cons_of_pos (by simp)]
  have hmem : ∀ w ∈ words (p :: cs), w ≠ [] ∧ ∀ c ∈ w, isBlank c = false :=
    fun w hw => not_isBlank_of_mem_words hw
  rw [hwords] at hmem
  obtain ⟨⟨-, hfirst⟩, hrest⟩ := List.forall_mem_cons.mp hmem
  have hne : p ≠ ' ' := by
    rintro rfl
    cases hp
  refine ⟨join [' '] (piece :: rest.filter (!·.isEmpty)), ?_,
    spaced_join hrest (List.forall_mem_cons.mp hfirst).2 fun _ => hne⟩
  rw [squeeze, hwords, join_cons]

/-- A text with single spaces is its words, joined by spaces. -/
theorem Spaced.exists_pieces {p : Char} {cs : List Char} (h : Spaced [' '] [' '] p cs) :
    ∃ piece rest, pieces isBlank cs = piece :: rest ∧ (p = ' ' → piece ≠ []) ∧
      (∀ q ∈ rest, q ≠ []) ∧ join [' '] (piece :: rest) = cs := by
  induction h with
  | nil hp => exact ⟨[], [], rfl, fun hspace => absurd hspace hp, by simp, rfl⟩
  | @cons p c cs blank left right _ ih =>
      obtain ⟨piece, rest, hpieces, hpiece, hrest, hjoin⟩ := ih
      cases hc : isBlank c with
      | true =>
          obtain rfl := blank hc
          refine ⟨[], piece :: rest, by rw [pieces, if_pos hc, hpieces], ?_, ?_, ?_⟩
          · exact fun hspace => absurd (by simp) (right hspace)
          · exact List.forall_mem_cons.mpr ⟨hpiece rfl, hrest⟩
          · rw [join_cons_cons, hjoin]
            rfl
      | false =>
          refine ⟨c :: piece, rest, by simp [pieces, hc, hpieces, consFirst], by simp, hrest, ?_⟩
          rw [join_cons, hjoin]

/-- A text that is squeezed already stays as it is. -/
theorem Spaced.squeeze_eq {p : Char} (hp : isBlank p = false) {cs : List Char}
    (h : Spaced [' '] [' '] p cs) : squeeze (p :: cs) = p :: cs := by
  obtain ⟨piece, rest, hpieces, -, hrest, hjoin⟩ := h.exists_pieces
  have hall : ∀ q ∈ (p :: piece) :: rest, (!q.isEmpty) = true := by
    simpa using hrest
  rw [squeeze, words, pieces, if_neg (by simp [hp]), hpieces, consFirst,
    List.filter_eq_self.mpr hall, join_cons, hjoin]

theorem squeeze_squeeze (cs : List Char) : squeeze (squeeze cs) = squeeze cs := by
  induction cs with
  | nil => rfl
  | cons c cs ih =>
      cases hc : isBlank c with
      | true =>
          have hskip : squeeze (c :: cs) = squeeze cs := by
            rw [squeeze, words_cons_blank hc, ← squeeze]
          rw [hskip, ih]
      | false =>
          obtain ⟨cs', hsqueeze, hspaced⟩ := squeeze_cons hc cs
          rw [hsqueeze, hspaced.squeeze_eq hc]

theorem mem_squeeze {c : Char} (hc : isBlank c = false) {cs : List Char} :
    c ∈ squeeze cs ↔ c ∈ cs := by
  rw [← mem_eraseBlanks hc, eraseBlanks_squeeze, mem_eraseBlanks hc]

/-! ### Spaces that are taken out -/

theorem Spaced.mono {ls' rs' : List Char} (hls : ls' ⊆ ls) (hrs : rs' ⊆ rs) {p : Char}
    {cs : List Char} (h : Spaced ls rs p cs) : Spaced ls' rs' p cs := by
  induction h with
  | nil hp => exact .nil hp
  | cons blank left right _ ih =>
      exact .cons blank (fun hspace hmem => left hspace (hls hmem))
        (fun hspace hmem => right hspace (hrs hmem)) ih

theorem isPrefixOf_pair {a b d : Char} {cs : List Char} :
    [a, b].isPrefixOf (d :: cs) = true ↔ d = a ∧ cs.head? = some b := by
  rw [List.isPrefixOf_iff_prefix, List.cons_prefix_cons, List.head?_eq_some_iff]
  exact and_congr eq_comm ⟨fun ⟨rest, h⟩ => ⟨rest, h.symm⟩, fun ⟨rest, h⟩ => ⟨rest, h.symm⟩⟩

/-- Taking out the spaces before a character rules it out behind a space. -/
theorem Spaced.replace_before {c : Char} (hc : c ≠ ' ') (hls : ' ' ∈ ls) {cs : List Char} :
    ∀ {p : Char}, Spaced ls rs p cs → (p = ' ' → cs.head? ≠ some c) →
      Spaced ls (c :: rs) p (replace [' ', c] [c] cs) := by
  fun_induction replace [' ', c] [c] cs with
  | case1 =>
      rintro p (h | _) _
      exact .nil h
  | case2 d cs hbegin ih =>
      obtain ⟨rfl, hhead⟩ := isPrefixOf_pair.mp hbegin
      obtain ⟨rest, rfl⟩ := List.head?_eq_some_iff.mp hhead
      rintro p (_ | ⟨-, left, -, h⟩) _
      obtain _ | ⟨blank, -, -, h⟩ := h
      have hp : p ≠ ' ' := fun hspace => left rfl (hspace ▸ hls)
      exact .cons blank (fun hspace => absurd hspace hc) (fun hspace => absurd hspace hp)
        (ih h fun hspace => absurd hspace hc)
  | case3 d cs hbegin ih =>
      rintro p (_ | ⟨blank, left, right, h⟩) hp
      refine .cons blank left (fun hspace hmem => ?_) (ih h fun hspace hhead => ?_)
      · rcases List.mem_cons.mp hmem with rfl | hmem
        · exact hp hspace rfl
        · exact right hspace hmem
      · exact hbegin (isPrefixOf_pair.mpr ⟨hspace, hhead⟩)

/-- What stands behind a space may stand behind any character. -/
theorem Spaced.of_space (hrs : ' ' ∈ rs) {cs : List Char} (h : Spaced ls rs ' ' cs) {c : Char}
    (hc : c ≠ ' ') : Spaced ls rs c cs ∧ cs.head? ≠ some ' ' := by
  obtain h | ⟨blank, -, right, h⟩ := h
  · exact absurd rfl h
  · rename_i d cs
    have hd : d ≠ ' ' := fun hspace => right rfl (hspace ▸ hrs)
    exact ⟨.cons blank (fun hspace => absurd hspace hd) (fun hspace => absurd hspace hc) h,
      by simpa using hd⟩

/-- Taking out the spaces behind a character rules it out before a space. -/
theorem Spaced.replace_behind {c : Char} (hc : c ≠ ' ') (hrs : ' ' ∈ rs) {cs : List Char} :
    ∀ {p : Char}, Spaced ls rs p cs → (p = c → cs.head? ≠ some ' ') →
      Spaced (c :: ls) rs p (replace [c, ' '] [c] cs) := by
  fun_induction replace [c, ' '] [c] cs with
  | case1 =>
      rintro p (h | _) _
      exact .nil h
  | case2 d cs hbegin ih =>
      obtain ⟨rfl, hhead⟩ := isPrefixOf_pair.mp hbegin
      obtain ⟨rest, rfl⟩ := List.head?_eq_some_iff.mp hhead
      rintro p (_ | ⟨blank, -, right, h⟩) _
      obtain _ | ⟨-, -, -, h⟩ := h
      obtain ⟨hrest, hhead⟩ := h.of_space hrs hc
      exact .cons blank (fun hspace => absurd hspace hc) right (ih hrest fun _ => hhead)
  | case3 d cs hbegin ih =>
      rintro p (_ | ⟨blank, left, right, h⟩) hp
      refine .cons blank (fun hspace hmem => ?_) right (ih h fun hsame hhead => ?_)
      · rcases List.mem_cons.mp hmem with rfl | hmem
        · exact hp rfl (by rw [hspace]; rfl)
        · exact left hspace hmem
      · exact hbegin (isPrefixOf_pair.mpr ⟨hsame, hhead⟩)

theorem Spaced.replace_before_cons {c p : Char} (hc : c ≠ ' ') (hp : p ≠ ' ') (hls : ' ' ∈ ls)
    {cs : List Char} (h : Spaced ls rs p cs) :
    ∃ cs', replace [' ', c] [c] (p :: cs) = p :: cs' ∧ Spaced ls (c :: rs) p cs' := by
  refine ⟨replace [' ', c] [c] cs, ?_, h.replace_before hc hls fun hspace => absurd hspace hp⟩
  rw [replace, if_neg]
  exact fun hbegin => hp (isPrefixOf_pair.mp hbegin).1

theorem Spaced.replace_behind_cons {c p : Char} (hc : c ≠ ' ') (hrs : ' ' ∈ rs)
    {cs : List Char} (h : Spaced ls rs p cs) :
    ∃ cs', replace [c, ' '] [c] (p :: cs) = p :: cs' ∧ Spaced (c :: ls) rs p cs' := by
  rw [replace]
  split
  · rename_i hbegin
    obtain ⟨rfl, hhead⟩ := isPrefixOf_pair.mp hbegin
    obtain ⟨rest, rfl⟩ := List.head?_eq_some_iff.mp hhead
    obtain _ | ⟨-, -, -, h⟩ := h
    obtain ⟨hrest, hnot⟩ := h.of_space hrs hc
    exact ⟨_, rfl, hrest.replace_behind hc hrs fun _ => hnot⟩
  · rename_i hbegin
    refine ⟨_, rfl, h.replace_behind hc hrs fun hsame hhead => ?_⟩
    exact hbegin (isPrefixOf_pair.mpr ⟨hsame, hhead⟩)

/-- There are no spaces to take out before a character that follows none. -/
theorem Spaced.replace_before_eq {c : Char} (hc : c ∈ rs) {p : Char} {cs : List Char}
    (h : Spaced ls rs p cs) : replace [' ', c] [c] cs = cs := by
  induction h with
  | nil => rw [replace]
  | @cons p d cs _ _ _ h ih =>
      rw [replace, if_neg, ih]
      rintro hbegin
      obtain ⟨rfl, hhead⟩ := isPrefixOf_pair.mp hbegin
      obtain ⟨rest, rfl⟩ := List.head?_eq_some_iff.mp hhead
      obtain _ | ⟨-, -, right, -⟩ := h
      exact right rfl hc

/-- There are no spaces to take out behind a character that none follows. -/
theorem Spaced.replace_behind_eq {c : Char} (hc : c ∈ ls) {p : Char} {cs : List Char}
    (h : Spaced ls rs p cs) : replace [c, ' '] [c] cs = cs := by
  induction h with
  | nil => rw [replace]
  | @cons p d cs _ _ _ h ih =>
      rw [replace, if_neg, ih]
      rintro hbegin
      obtain ⟨rfl, hhead⟩ := isPrefixOf_pair.mp hbegin
      obtain ⟨rest, rfl⟩ := List.head?_eq_some_iff.mp hhead
      obtain _ | ⟨-, left, -, -⟩ := h
      exact left rfl hc

end Text

namespace TypeUse

/-! ### Arguments in order -/

/-- Template arguments behind their opening bracket are in order: there are single spaces
between words only, and none next to a bracket or a comma. -/
def InOrder (inside : List Char) : Prop :=
  Spaced [',', '<', ' '] [',', '>', '<', ' '] '<' inside

/-- Arguments are put in order, and their first bracket stays. -/
theorem exists_tidyArguments (cs : List Char) :
    ∃ inside, tidyArguments ('<' :: cs) = '<' :: inside ∧ InOrder inside := by
  obtain ⟨cs, hsqueeze, h⟩ := squeeze_cons (p := '<') (by decide) cs
  obtain ⟨cs, hfirst, h⟩ := h.replace_before_cons (c := '<') (by decide) (by decide) (by simp)
  obtain ⟨cs, hsecond, h⟩ := h.replace_behind_cons (c := '<') (by decide) (by simp)
  obtain ⟨cs, hthird, h⟩ := h.replace_before_cons (c := '>') (by decide) (by decide) (by simp)
  obtain ⟨cs, hfourth, h⟩ := h.replace_behind_cons (c := ',') (by decide) (by simp)
  obtain ⟨cs, hlast, h⟩ := h.replace_before_cons (c := ',') (by decide) (by decide) (by simp)
  refine ⟨cs, ?_, h⟩
  simp only [tidyArguments]
  rw [hsqueeze, hfirst, hsecond, hthird, hfourth, hlast]

theorem InOrder.tidyArguments_eq {inside : List Char} (h : InOrder inside) :
    tidyArguments ('<' :: inside) = '<' :: inside := by
  have hspaced : Spaced [' '] [' '] '<' inside := Spaced.mono (by simp) (by simp) h
  have hwhole : Spaced [',', '<', ' '] [',', '>', '<', ' '] '<' ('<' :: inside) :=
    .cons_of_not_isBlank (by decide) (fun hspace => absurd hspace (by decide)) h
  simp only [tidyArguments]
  rw [hspaced.squeeze_eq (by decide), hwhole.replace_before_eq (by simp),
    hwhole.replace_behind_eq (by simp), hwhole.replace_before_eq (by simp),
    hwhole.replace_behind_eq (by simp), hwhole.replace_before_eq (by simp)]

theorem eraseBlanks_tidyArguments (cs : List Char) :
    eraseBlanks (tidyArguments cs) = eraseBlanks cs := by
  have hreplace : ∀ {old new : List Char} (cs : List Char), old ≠ [] →
      eraseBlanks old = eraseBlanks new → eraseBlanks (replace old new cs) = eraseBlanks cs :=
    fun cs hne herase => eraseBlanks_replace hne herase cs
  simp only [tidyArguments]
  rw [hreplace _ (by simp) (by decide), hreplace _ (by simp) (by decide),
    hreplace _ (by simp) (by decide), hreplace _ (by simp) (by decide),
    hreplace _ (by simp) (by decide), eraseBlanks_squeeze]

/-! ### Brackets that close each other -/

/-- No bracket of a text closes one that was opened before it. -/
def Opened (cs : List Char) : Prop :=
  ∀ before, before <+: cs → before.count '>' ≤ before.count '<'

theorem count_eraseBlanks {c : Char} (hc : isBlank c = false) (cs : List Char) :
    (eraseBlanks cs).count c = cs.count c :=
  List.count_filter (by simp [hc])

/-- Blanks between brackets do not matter. -/
theorem Opened.of_eraseBlanks {cs cs' : List Char} (h : Opened cs)
    (heq : eraseBlanks cs' = eraseBlanks cs) : Opened cs' := by
  rintro before ⟨after, rfl⟩
  rw [eraseBlanks_append, eq_comm] at heq
  obtain ⟨us, vs, rfl, hus, -⟩ := List.filter_eq_append_iff.mp heq
  have hcount : ∀ c, isBlank c = false → before.count c = us.count c := by
    intro c hc
    rw [← count_eraseBlanks hc before, ← hus]
    exact count_eraseBlanks hc us
  rw [hcount '>' (by decide), hcount '<' (by decide)]
  exact h us (List.prefix_append us vs)

/-- One character changes the number of open brackets by what it counts. -/
theorem depth_step {c : Char} {depth : Nat} (hnot : ¬ (c == '>' && decide (depth ≤ 1)) = true)
    (before : List Char) :
    (if c == '<' then depth + 1 else if c == '>' then depth - 1 else depth) +
        before.count '<' + (c :: before).count '>' =
      depth + (c :: before).count '<' + before.count '>' := by
  simp only [Bool.and_eq_true, beq_iff_eq, decide_eq_true_eq, not_and, Nat.not_le] at hnot
  simp only [List.count_cons, beq_iff_eq]
  by_cases hopening : c = '<'
  · simp [hopening]
    omega
  · by_cases hclosing : c = '>'
    · have hdepth := hnot hclosing
      simp [hclosing]
      omega
    · simp [hopening, hclosing]

/-- A stretch that closes none of the brackets open before it is cut off whole. -/
theorem cutAngles_stretch {cs : List Char} (rest : List Char) : ∀ {depth : Nat},
    (∀ before, before <+: cs → before.count '>' < depth + before.count '<') →
      cutAngles depth (cs ++ rest) =
        (cs ++ (cutAngles (depth + cs.count '<' - cs.count '>') rest).1,
          (cutAngles (depth + cs.count '<' - cs.count '>') rest).2) := by
  induction cs with
  | nil => intro depth _; rfl
  | cons c cs ih =>
      intro depth h
      have hnot : ¬ (c == '>' && decide (depth ≤ 1)) = true := by
        rintro hboth
        simp only [Bool.and_eq_true, beq_iff_eq, decide_eq_true_eq] at hboth
        obtain ⟨rfl, hdepth⟩ := hboth
        have hfirst := h ['>'] (by simp)
        simp at hfirst
        omega
      have hdepth : (if c == '<' then depth + 1 else if c == '>' then depth - 1 else depth) +
          cs.count '<' - cs.count '>' = depth + (c :: cs).count '<' - (c :: cs).count '>' := by
        have hwhole := depth_step hnot cs
        have hlt := h (c :: cs) (List.prefix_refl _)
        omega
      rw [List.cons_append, cutAngles, if_neg hnot]
      dsimp only
      rw [ih, hdepth]
      · rfl
      · intro before hbefore
        have hlt := h (c :: before) (by simpa using hbefore)
        have hwhole := depth_step hnot before
        omega

/-- A text goes on without closing a bracket opened before it, or there is a first one that
it closes. -/
theorem exists_closing (cs : List Char) : ∀ {depth : Nat}, 0 < depth →
    (∀ before, before <+: cs → before.count '>' < depth + before.count '<') ∨
      ∃ inside rest, cs = inside ++ '>' :: rest ∧
        (∀ before, before <+: inside → before.count '>' < depth + before.count '<') ∧
        inside.count '>' + 1 = depth + inside.count '<' := by
  induction cs with
  | nil =>
      intro depth hdepth
      refine Or.inl fun before hbefore => ?_
      rw [List.prefix_nil.mp hbefore]
      simpa using hdepth
  | cons c cs ih =>
      intro depth hdepth
      by_cases hclose : (c == '>' && decide (depth ≤ 1)) = true
      · simp only [Bool.and_eq_true, beq_iff_eq, decide_eq_true_eq] at hclose
        obtain ⟨rfl, hle⟩ := hclose
        refine Or.inr ⟨[], cs, rfl, fun before hbefore => ?_, by simp; omega⟩
        rw [List.prefix_nil.mp hbefore]
        simpa using hdepth
      · have hstep := depth_step hclose
        -- What holds of the starts behind the first character holds of all starts.
        have hstarts : ∀ {us : List Char}, (∀ before, before <+: us → before.count '>' <
            (if c == '<' then depth + 1 else if c == '>' then depth - 1 else depth) +
              before.count '<') →
            ∀ before, before <+: c :: us → before.count '>' < depth + before.count '<' := by
          intro us hus before hbefore
          rcases List.prefix_cons_iff.mp hbefore with rfl | ⟨start, rfl, hstart⟩
          · simpa using hdepth
          · have hlt := hus start hstart
            have hwhole := hstep start
            omega
        have hdepth' :
            0 < if c == '<' then depth + 1 else if c == '>' then depth - 1 else depth := by
          simp only [Bool.and_eq_true, decide_eq_true_eq, not_and, Nat.not_le] at hclose
          split
          · exact Nat.succ_pos depth
          · split
            · rename_i hclosing
              exact Nat.sub_pos_of_lt (hclose hclosing)
            · exact hdepth
        rcases ih hdepth' with hopened | ⟨inside, rest, rfl, hinside, hcount⟩
        · exact Or.inl (hstarts hopened)
        · refine Or.inr ⟨c :: inside, rest, rfl, hstarts hinside, ?_⟩
          have hwhole := hstep inside
          omega

/-- Balanced text is followed by the bracket that closes the one in front of it. -/
theorem cutAngles_balanced {inside : List Char} (h : Query.Balanced '<' '>' inside)
    (rest : List Char) : cutAngles 1 (inside ++ '>' :: rest) = (inside ++ ['>'], rest) := by
  have hstretch : ∀ before, before <+: inside → before.count '>' < 1 + before.count '<' := by
    intro before hbefore
    have hle := h.opened before hbefore
    omega
  rw [cutAngles_stretch _ hstretch, ← h.closed, Nat.add_sub_cancel]
  rfl

theorem cutAngles_opened {inside : List Char} (h : Opened inside) :
    cutAngles 1 inside = (inside, []) := by
  have hstretch : ∀ before, before <+: inside → before.count '>' < 1 + before.count '<' := by
    intro before hbefore
    have hle := h before hbefore
    omega
  have hcut := cutAngles_stretch [] hstretch
  simpa [cutAngles] using hcut

/-- Arguments end with the bracket that closes them, or they are not closed and go on to the end
of the spelling. -/
theorem cutAngles_cases (cs : List Char) :
    (∃ inside rest, Query.Balanced '<' '>' inside ∧ cutAngles 1 cs = (inside ++ ['>'], rest)) ∨
      Opened cs ∧ cutAngles 1 cs = (cs, []) := by
  rcases exists_closing cs Nat.one_pos with hopened | ⟨inside, rest, rfl, hinside, hcount⟩
  · have hopened' : Opened cs := fun before hbefore => by
      have hlt := hopened before hbefore
      omega
    exact Or.inr ⟨hopened', cutAngles_opened hopened'⟩
  · have hbalanced : Query.Balanced '<' '>' inside := by
      refine ⟨fun before hbefore => ?_, by omega⟩
      have hlt := hinside before hbefore
      omega
    exact Or.inl ⟨inside, rest, hbalanced, cutAngles_balanced hbalanced rest⟩

/-! ### Arguments that are put in order -/

theorem Spaced.exists_concat {ls rs : List Char} {p : Char} {cs : List Char}
    (h : Spaced ls rs p cs) (hne : cs ≠ []) :
    ∃ init last, cs = init ++ [last] ∧ isBlank last = false := by
  induction h with
  | nil => exact absurd rfl hne
  | @cons p c cs blank _ _ h ih =>
      by_cases hcs : cs = []
      · subst hcs
        obtain hc | _ := h
        refine ⟨[], c, rfl, ?_⟩
        cases hblank : isBlank c with
        | true => exact absurd (blank hblank) hc
        | false => rfl
      · obtain ⟨init, last, rfl, hlast⟩ := ih hcs
        exact ⟨c :: init, last, rfl, hlast⟩

theorem exists_tidyArguments_opened {inside : List Char} (h : Opened inside) :
    ∃ inside', tidyArguments ('<' :: inside) = '<' :: inside' ∧ Opened inside' ∧
      InOrder inside' := by
  obtain ⟨inside', htidy, horder⟩ := exists_tidyArguments inside
  refine ⟨inside', htidy, h.of_eraseBlanks ?_, horder⟩
  have herase := eraseBlanks_tidyArguments ('<' :: inside)
  rw [htidy, eraseBlanks_cons (by decide), eraseBlanks_cons (by decide)] at herase
  exact (List.cons.inj herase).2

/-- The bracket that closes arguments is behind them still when they are put in order. -/
theorem exists_tidyArguments_balanced {inside : List Char} (h : Query.Balanced '<' '>' inside) :
    ∃ inside', tidyArguments ('<' :: (inside ++ ['>'])) = '<' :: (inside' ++ ['>']) ∧
      Query.Balanced '<' '>' inside' ∧ InOrder (inside' ++ ['>']) := by
  obtain ⟨cs, htidy, horder⟩ := exists_tidyArguments (inside ++ ['>'])
  have herase : eraseBlanks cs = eraseBlanks (inside ++ ['>']) := by
    have hwhole := eraseBlanks_tidyArguments ('<' :: (inside ++ ['>']))
    rw [htidy, eraseBlanks_cons (by decide), eraseBlanks_cons (by decide)] at hwhole
    exact (List.cons.inj hwhole).2
  have hlast : eraseBlanks ['>'] = ['>'] := by decide
  have hne : cs ≠ [] := by
    rintro rfl
    rw [eraseBlanks_append, hlast] at herase
    simp [eraseBlanks] at herase
  obtain ⟨inside', last, rfl, hblank⟩ := Spaced.exists_concat horder hne
  have hsingle : eraseBlanks [last] = [last] := by simp [eraseBlanks, hblank]
  rw [eraseBlanks_append, eraseBlanks_append, hlast, hsingle] at herase
  obtain ⟨hinside, hclose⟩ := List.append_inj' herase rfl
  obtain rfl := List.singleton_inj.mp hclose
  have hcount : ∀ c, isBlank c = false → inside'.count c = inside.count c := by
    intro c hc
    rw [← count_eraseBlanks hc inside', hinside, count_eraseBlanks hc]
  refine ⟨inside', htidy, ⟨Opened.of_eraseBlanks h.opened hinside, ?_⟩, horder⟩
  rw [hcount '>' (by decide), hcount '<' (by decide)]
  exact h.closed

end TypeUse

end DocForest
