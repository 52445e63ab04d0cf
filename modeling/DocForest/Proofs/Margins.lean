/-
The margin of a comment over several lines.

The lines behind the first one that say something lose what they all start with, as far as it is
margin.  Only two of them are compared for that, the smallest and the largest in the order of
code points.  In this order what two texts both start with is also the start of every text
between them (`prefix_of_between`), so that what the two lines share is shared by all, and the
margin is the longest one that all lines have (`prefix_marginOf_iff`).  Taking it off leaves each
line the rest of its own margin, and with it the place it has relative to the others.
-/
import DocForest.Comment.Text
import DocForest.Proofs.References
import Mathlib.Data.Char
import Mathlib.Data.List.Lex
import Mathlib.Order.MinMax

namespace DocForest.Comment

open Text

/-! ### What texts start with -/

theorem prefix_commonStart_iff {start a b : List Char} :
    start <+: commonStart a b ↔ start <+: a ∧ start <+: b := by
  induction start generalizing a b with
  | nil => simp
  | cons c start ih =>
      cases a with
      | nil => simp [commonStart]
      | cons d a =>
          cases b with
          | nil => simp [commonStart]
          | cons e b =>
              rw [commonStart]
              by_cases hde : d = e
              · rw [if_pos hde, List.cons_prefix_cons, List.cons_prefix_cons,
                  List.cons_prefix_cons, ih, hde]
                tauto
              · rw [if_neg hde, List.cons_prefix_cons, List.cons_prefix_cons]
                constructor
                · intro h
                  simp at h
                · rintro ⟨⟨rfl, -⟩, rfl, -⟩
                  exact absurd rfl hde

theorem prefix_takeWhile_iff {p : Char → Bool} {start cs : List Char} :
    start <+: cs.takeWhile p ↔ (∀ c ∈ start, p c = true) ∧ start <+: cs := by
  constructor
  · intro h
    exact ⟨fun c hc => List.mem_takeWhile_imp (h.subset hc), h.trans (List.takeWhile_prefix p)⟩
  · rintro ⟨hall, rest, rfl⟩
    rw [List.takeWhile_append_of_pos hall]
    exact List.prefix_append _ _

/-- **Between two texts that share a start** in the order of code points, every text has it. -/
theorem prefix_of_between {start a b cs : List Char} (ha : start <+: a) (hb : start <+: b)
    (hac : a ≤ cs) (hcb : cs ≤ b) : start <+: cs := by
  rw [← not_lt] at hac hcb
  induction start generalizing a b cs with
  | nil => exact List.nil_prefix
  | cons c start ih =>
      obtain ⟨a, rfl⟩ := ha
      obtain ⟨b, rfl⟩ := hb
      cases cs with
      | nil => exact absurd (List.nil_lt_cons _ _) hac
      | cons d cs =>
          rw [List.cons_append, List.cons_lt_cons_iff] at hac hcb
          push Not at hac hcb
          -- The first character is between two that are the same.
          obtain rfl : c = d := le_antisymm hac.1 hcb.1
          rw [List.cons_prefix_cons]
          refine ⟨rfl, ih (List.prefix_append start a) (List.prefix_append start b) ?_ ?_⟩
          · exact not_lt.mpr (hac.2 rfl)
          · exact not_lt.mpr (hcb.2 rfl)

/-! ### The smallest and the largest line -/

theorem smaller_eq_min : smaller = min := by
  funext a b
  rw [smaller, min_def]
  by_cases h : b < a
  · rw [if_pos h, if_neg (not_le.mpr h)]
  · rw [if_neg h, if_pos (not_lt.mp h)]

theorem larger_eq_max : larger = max := by
  funext a b
  rw [larger, max_def]
  by_cases h : a < b
  · rw [if_pos h, if_pos h.le]
  · rw [if_neg h]
    by_cases hle : a ≤ b
    · rw [if_pos hle]
      exact le_antisymm hle (not_lt.mp h)
    · rw [if_neg hle]

theorem foldl_smaller_least (line : List Char) (lines : List (List Char)) :
    lines.foldl smaller line ∈ line :: lines ∧
      ∀ other ∈ line :: lines, lines.foldl smaller line ≤ other := by
  rw [smaller_eq_min]
  exact List.min?_eq_some_iff.mp List.min?_cons'

theorem foldl_larger_greatest (line : List Char) (lines : List (List Char)) :
    lines.foldl larger line ∈ line :: lines ∧
      ∀ other ∈ line :: lines, other ≤ lines.foldl larger line := by
  rw [larger_eq_max]
  exact List.max?_eq_some_iff.mp List.max?_cons'

/-! ### The margin -/

/-- Some lines all start with a text that is margin throughout. -/
def ShareMargin (ls : List (List Char)) (start : List Char) : Prop :=
  (∀ c ∈ start, isMargin c = true) ∧ ∀ line ∈ ls, start <+: line

/-- **The margin of some lines is the longest one that they share.** -/
theorem prefix_marginOf_iff {ls : List (List Char)} (hne : ls ≠ []) {start : List Char} :
    start <+: marginOf ls ↔ ShareMargin ls start := by
  cases ls with
  | nil => exact absurd rfl hne
  | cons line lines =>
      rw [marginOf, prefix_takeWhile_iff, prefix_commonStart_iff, ShareMargin]
      obtain ⟨hsmallest, hleast⟩ := foldl_smaller_least line lines
      obtain ⟨hlargest, hgreatest⟩ := foldl_larger_greatest line lines
      refine and_congr_right fun _ => ⟨?_, ?_⟩
      · rintro ⟨hsmall, hlarge⟩ other hother
        exact prefix_of_between hsmall hlarge (hleast other hother) (hgreatest other hother)
      · intro hall
        exact ⟨hall _ hsmallest, hall _ hlargest⟩

theorem shareMargin_marginOf (ls : List (List Char)) : ShareMargin ls (marginOf ls) := by
  cases ls with
  | nil => simp [marginOf, ShareMargin]
  | cons line lines => exact (prefix_marginOf_iff (by simp)).mp List.prefix_rfl

theorem isDecoration_of_isMargin {c : Char} (h : isMargin c = true) :
    (isBlank c || c == '*') = true := by
  simp only [isMargin, Bool.or_eq_true, beq_iff_eq] at h
  rcases h with (rfl | rfl) | rfl <;> decide

/-! ### A line without its margin -/

theorem dropMargin_eq {margin line : List Char} (h : isDecoration line = false → margin <+: line) :
    dropMargin margin line =
      if isDecoration line then [] else trimEnd (line.drop margin.length) := by
  rw [dropMargin]
  cases hline : isDecoration line with
  | true => rfl
  | false =>
      obtain ⟨rest, rfl⟩ := h hline
      rw [dropStart?_eq_some.mpr rfl, Option.getD_some, List.drop_left' rfl]

theorem takeWhile_trimEnd {p : Char → Bool} {cs : List Char}
    (h : ∃ c ∈ cs, isBlank c = false ∧ p c = false) :
    (trimEnd cs).takeWhile p = cs.takeWhile p := by
  obtain ⟨c, hc, hblank, hp⟩ := h
  obtain ⟨bs, hbs, hcs⟩ := DocText.exists_trimEnd cs
  have hmem : c ∈ trimEnd cs := by
    rw [hcs] at hc
    refine (List.mem_append.mp hc).resolve_right fun hend => ?_
    rw [hbs c hend] at hblank
    cases hblank
  -- The run ends at `c` at the latest, in front of the blanks that are cut off.
  conv_rhs => rw [hcs]
  rw [List.takeWhile_append, if_neg]
  intro hlength
  have hall := List.takeWhile_eq_self_iff.mp
    ((List.takeWhile_prefix p).eq_of_length hlength) c hmem
  rw [hp] at hall
  cases hall

/-- **A line keeps its place**: behind the shared margin it has the rest of its own. -/
theorem takeWhile_isMargin_eq {start line : List Char}
    (hstart : ∀ c ∈ start, isMargin c = true) (hshared : start <+: line)
    (hline : isDecoration line = false) :
    line.takeWhile isMargin =
      start ++ (trimEnd (line.drop start.length)).takeWhile isMargin := by
  obtain ⟨rest, rfl⟩ := hshared
  rw [List.drop_left' rfl, List.takeWhile_append_of_pos hstart, takeWhile_trimEnd]
  rw [isDecoration, List.all_eq_false] at hline
  obtain ⟨c, hc, hnot⟩ := hline
  rw [Bool.not_eq_true] at hnot
  have hmargin : isMargin c = false := by
    by_contra hmargin
    rw [isDecoration_of_isMargin (by simpa using hmargin)] at hnot
    cases hnot
  have hrest : c ∈ rest := by
    refine (List.mem_append.mp hc).resolve_left fun hin => ?_
    rw [hstart c hin] at hmargin
    cases hmargin
  exact ⟨c, hrest, (Bool.or_eq_false_iff.mp hnot).1, hmargin⟩

/-! ### The lines of a comment -/

/-- The lines of a comment between two marks, as they are written. -/
def bodyLines (cs : List Char) : List (List Char) :=
  lines ((dropStop? ['*', '/'] (afterMark cs)).getD (afterMark cs))

/-- The lines behind the first one that hold more than blanks and asterisks. -/
def contentLines (cs : List Char) : List (List Char) :=
  (bodyLines cs).tail.filter (!isDecoration ·)

/-- What all content lines lose. -/
def margin (cs : List Char) : List Char :=
  marginOf (contentLines cs)

theorem blockLines_eq (cs : List Char) :
    blockLines cs =
      trim ((bodyLines cs).headD []) :: (bodyLines cs).tail.map (dropMargin (margin cs)) := by
  rw [margin, contentLines, bodyLines, blockLines]
  cases lines ((dropStop? ['*', '/'] (afterMark cs)).getD (afterMark cs)) <;> rfl

/-- **The lines of a comment lose one margin.**  Every content line starts with it, and it is the
longest margin of which this is true.  The content lines are left without it and without the
blanks at their ends, and what they had as margin of their own is the shared one and the margin
that they still have, so that they keep their places relative to each other. -/
theorem blockLines_lose_margin (cs : List Char) :
    ShareMargin (contentLines cs) (margin cs) ∧
      (contentLines cs ≠ [] →
        ∀ start, ShareMargin (contentLines cs) start → start <+: margin cs) ∧
      blockLines cs = trim ((bodyLines cs).headD []) ::
        (bodyLines cs).tail.map (fun line =>
          if isDecoration line then [] else trimEnd (line.drop (margin cs).length)) ∧
      ∀ line ∈ contentLines cs,
        line.takeWhile isMargin =
          margin cs ++ (trimEnd (line.drop (margin cs).length)).takeWhile isMargin := by
  have hshare : ShareMargin (contentLines cs) (margin cs) := shareMargin_marginOf (contentLines cs)
  refine ⟨hshare, fun hne start hstart => (prefix_marginOf_iff hne).mpr hstart, ?_, ?_⟩
  · rw [blockLines_eq]
    congr 1
    refine List.map_congr_left fun line hline => dropMargin_eq fun hcontent => ?_
    exact hshare.2 line (List.mem_filter.mpr ⟨hline, by simp [hcontent]⟩)
  · intro line hline
    have hcontent := (List.mem_filter.mp hline).2
    exact takeWhile_isMargin_eq hshare.1 (hshare.2 line hline) (by simpa using hcontent)

/-- A comment with a line that is indented further than its neighbours. -/
def listComment : List Char :=
  "/** Steps.\n     * - first\n     *\n     *    * more \n     * - last\n     */".toList

theorem blockLines_listComment :
    contentLines listComment =
        ["     * - first".toList, "     *    * more ".toList, "     * - last".toList] ∧
      margin listComment = "     * ".toList ∧
      (∀ start, ShareMargin (contentLines listComment) start → start <+: "     * ".toList) ∧
      blockLines listComment =
        ["Steps.".toList, "- first".toList, [], "   * more".toList, "- last".toList, []] ∧
      "     *    * more ".toList.takeWhile isMargin =
        "     * ".toList ++ "   * more".toList.takeWhile isMargin := by
  have hcontent : contentLines listComment =
      ["     * - first".toList, "     *    * more ".toList, "     * - last".toList] := by
    decide +kernel
  have hmargin : margin listComment = "     * ".toList := by decide +kernel
  obtain ⟨-, hlongest, hlines, hplaces⟩ := blockLines_lose_margin listComment
  rw [hmargin] at hlongest hlines hplaces
  have hplace := hplaces "     *    * more ".toList (by simp [hcontent])
  refine ⟨hcontent, hmargin, hlongest (by simp [hcontent]), ?_, hplace⟩
  rw [hlines]
  decide +kernel

end DocForest.Comment
