/-
The blocks of a file are what its comments say when they are cut into segments.

A segment is a longest stretch of tokens in which each is a comment on the line behind the one
before it; only comments that end with their line and document what follows them hang together
like that, and any other token is a segment of its own.  A segment has lines, and becomes one
block unless they are blank.

The pass goes token by token, with a run of lines that is open and blocks that wait for the
token behind them.  Seen a segment at a time it is simpler: whatever the segment is, the pass
ends the run before it and leaves its block among those that wait (`Scan.Takes.segment`).  What
the next token is matters to all that wait in the same way, so that it can be said afterwards
(`meetFirst`).
-/
import DocForest.Proofs.Comments
import DocForest.Proofs.Readers
import Mathlib.Data.List.SplitBy

namespace DocForest.Comment

open Source Text

/-! ### Segments -/

/-- The style of a token: what is no comment documents nothing. -/
def tokenStyle (t : Token) : Style :=
  if t.isComment then styleOf (trim t.spelling.toList) else .plain

/-- The lines of documentation that a token holds. -/
def tokenLines (t : Token) : List (List Char) :=
  match tokenStyle t with
  | .line _ => [lineText (trim t.spelling.toList)]
  | .block _ => blockLines (trim t.spelling.toList)
  | .plain => []

/-- Whether a token documents what stands on its own line. -/
def isTrailing (t : Token) : Bool :=
  match tokenStyle t with
  | .line trailing => trailing
  | .block trailing => trailing
  | .plain => false

/-- Whether a comment goes on where another one ended, as line numbers are counted. -/
def continues (t u : Token) : Bool :=
  tokenStyle t == .line false && tokenStyle u == .line false &&
    u.extent.start.line == nextLine t.extent.stop.line

/-- The longest stretches of tokens that hang together. -/
def segments (ts : List Token) : List (List Token) :=
  ts.splitBy continues

/-- Where the first token starts that is no comment. -/
def firstToken? (ts : List Token) : Option Position :=
  (ts.find? (!·.isComment)).map (·.extent.start)

/-- The block of a segment that has `rest` behind it, unless its text is blank. -/
def segmentBlock? (segment rest : List Token) : Option Block :=
  let text := joinLines (segment.flatMap tokenLines)
  segment.head?.bind fun first =>
    if text.all isBlank then none
    else some {
      text := String.ofList text
      line := first.extent.start.line
      next := if isTrailing first then none else firstToken? rest
      trailing := isTrailing first }

/-- The blocks of a list of segments, in order. -/
def segmentBlocks : List (List Token) → List Block
  | [] => []
  | segment :: rest => (segmentBlock? segment rest.flatten).toList ++ segmentBlocks rest

/-! ### Blank text -/

theorem isBlankLine_iff {line : List Char} :
    isBlankLine line = true ↔ ∀ c ∈ line, isBlank c = true := by
  rw [isBlankLine, List.isEmpty_iff, DocText.trim_eq_nil_iff]

theorem mem_join_of_mem {separator piece : List Char} {pieces : List (List Char)} {c : Char}
    (hpiece : piece ∈ pieces) (hc : c ∈ piece) : c ∈ join separator pieces := by
  induction pieces with
  | nil => simp at hpiece
  | cons first rest ih =>
      cases rest with
      | nil =>
          obtain rfl : piece = first := by simpa using hpiece
          exact hc
      | cons next rest =>
          simp only [join, List.mem_append]
          rcases List.mem_cons.mp hpiece with rfl | hrest
          · exact Or.inl (Or.inl hc)
          · exact Or.inr (ih hrest)

/-- **Joined lines are blank only if they are empty**: blank lines are left out at the ends, so
that the last line that stays has something in it. -/
theorem all_isBlank_joinLines (ls : List (List Char)) :
    (joinLines ls).all isBlank = (joinLines ls).isEmpty := by
  unfold joinLines
  cases hkept : (ls.dropWhile isBlankLine).reverse.dropWhile isBlankLine with
  | nil => rfl
  | cons last kept =>
      have hlast : isBlankLine last = false := by
        simpa [hkept] using List.head?_dropWhile_not isBlankLine (ls.dropWhile isBlankLine).reverse
      obtain ⟨c, hc, hblank⟩ : ∃ c ∈ last, isBlank c = false := by
        by_contra hnone
        push Not at hnone
        rw [isBlankLine_iff.mpr fun c hc => by simpa using hnone c hc] at hlast
        cases hlast
      have hmem : c ∈ join ['\n'] (last :: kept).reverse := mem_join_of_mem (by simp) hc
      rw [List.isEmpty_eq_false_iff.mpr (List.ne_nil_of_mem hmem), List.all_eq_false]
      exact ⟨c, hmem, by simp [hblank]⟩

/-! ### What follows a block -/

/-- Tells a block that waits which token follows it, if any does. -/
def meetFirst (ts : List Token) (b : Block) : Block :=
  match firstToken? ts with
  | none => b
  | some p => Scan.meet p b

theorem meetFirst_token {t : Token} (ht : t.isComment = false) (ts : List Token) :
    meetFirst (t :: ts) = Scan.meet t.extent.start := by
  funext b
  simp [meetFirst, firstToken?, ht]

theorem meetFirst_comments {us : List Token} (hus : ∀ u ∈ us, u.isComment = true)
    (ts : List Token) : meetFirst (us ++ ts) = meetFirst ts := by
  have hfirst : firstToken? (us ++ ts) = firstToken? ts := by
    have hnone : us.find? (!·.isComment) = none :=
      List.find?_eq_none.mpr fun u hu => by simp [hus u hu]
    rw [firstToken?, List.find?_append, hnone, Option.none_or, firstToken?]
  funext b
  rw [meetFirst, meetFirst, hfirst]

/-- The block of a segment as it is before the token behind it is known. -/
theorem segmentBlock?_eq_map (segment rest : List Token) :
    segmentBlock? segment rest = (segmentBlock? segment []).map (meetFirst rest) := by
  cases segment with
  | nil => rfl
  | cons first others =>
      simp only [segmentBlock?, List.head?_cons, Option.bind_some]
      split
      · rfl
      · rw [Option.map_some, meetFirst]
        cases firstToken? rest with
        | none => cases isTrailing first <;> rfl
        | some p => cases isTrailing first <;> rfl

/-- The block of a segment in the words of the pass. -/
theorem segmentBlock?_nil (first : Token) (others : List Token) :
    segmentBlock? (first :: others) [] =
      block? ((first :: others).flatMap tokenLines) first.extent.start.line (isTrailing first) := by
  simp only [segmentBlock?, List.head?_cons, Option.bind_some, block?, all_isBlank_joinLines]
  simp [firstToken?]

/-! ### One segment -/

theorem isComment_of_tokenStyle {t : Token} {trailing : Bool} (h : tokenStyle t = .line trailing) :
    t.isComment = true := by
  by_contra hcomment
  rw [tokenStyle, if_neg hcomment] at h
  cases h

theorem continues_iff {t u : Token} : continues t u = true ↔ tokenStyle t = .line false ∧
    tokenStyle u = .line false ∧ u.extent.start.line = nextLine t.extent.stop.line := by
  simp [continues, and_assoc]

/-- What hangs together with a comment that ends with its line is such a comment too. -/
theorem tokenStyle_of_isChain {t : Token} {ts : List Token} (ht : tokenStyle t = .line false)
    (hchain : (t :: ts).IsChain fun t u => continues t u) :
    ∀ u ∈ t :: ts, tokenStyle u = .line false := by
  induction ts generalizing t with
  | nil => simpa using ht
  | cons u ts ih =>
      obtain ⟨hcontinues, hchain⟩ := List.isChain_cons_cons.mp hchain
      exact List.forall_mem_cons.mpr ⟨ht, ih (continues_iff.mp hcontinues).2.1 hchain⟩

theorem isComment_of_isChain {t : Token} {ts : List Token} (ht : t.isComment = true)
    (hchain : (t :: ts).IsChain fun t u => continues t u) :
    ∀ u ∈ t :: ts, u.isComment = true := by
  cases ts with
  | nil => simpa using ht
  | cons u ts =>
      have hstyle := (continues_iff.mp (List.isChain_cons_cons.mp hchain).1).1
      exact fun v hv => isComment_of_tokenStyle (tokenStyle_of_isChain hstyle hchain v hv)

namespace Scan

theorem close_of_run_eq_none {s : Scan} (h : s.run = none) : s.close = s := by
  rw [close, h]

@[simp] theorem run_close (s : Scan) : s.close.run = none := by
  unfold close
  split
  · assumption
  · rfl

@[simp] theorem close_close (s : Scan) : s.close.close = s.close :=
  close_of_run_eq_none (run_close s)

@[simp] theorem done_close (s : Scan) : s.close.done = s.done := by
  unfold close
  split <;> rfl

/-- The comment that comes next does not continue the run that is open. -/
def Interrupted (s : Scan) (ts : List Token) : Prop :=
  ∀ r ∈ s.run, ∀ t ∈ ts.head?, tokenStyle t = .line false →
    t.extent.start.line ≠ nextLine r.last

/-- A pass that has taken a segment of comments in: the block of the segment waits, as soon as
the run is ended, and only the last line of the segment can be continued. -/
structure Takes (s s' : Scan) (segment : List Token) : Prop where
  done : s'.done = s.done
  waiting : s'.close.waiting = s.close.waiting ++ (segmentBlock? segment []).toList
  last : ∀ r ∈ s'.run, ∃ t ∈ segment.getLast?, tokenStyle t = .line false ∧
    r.last = t.extent.stop.line

theorem step_line {s : Scan} {t : Token} (ht : tokenStyle t = .line false) :
    s.step t = s.addLine (lineText (trim t.spelling.toList)) t.extent := by
  have hcomment := isComment_of_tokenStyle ht
  rw [tokenStyle, if_pos hcomment] at ht
  simp only [step, hcomment, if_true, ht]

/-- A run is as long as comments continue it. -/
theorem foldl_step_run {s : Scan} {t : Token} {ts : List Token} {r : Run} (hrun : s.run = some r)
    (hlast : r.last = t.extent.stop.line) (hchain : (t :: ts).IsChain fun t u => continues t u) :
    ts.foldl step s = { s with run := some {
      lines := r.lines ++ ts.flatMap tokenLines
      start := r.start
      last := ((t :: ts).getLast (by simp)).extent.stop.line } } := by
  induction ts generalizing s t r with
  | nil => simp [← hlast, ← hrun]
  | cons u ts ih =>
      obtain ⟨hcontinues, hchain⟩ := List.isChain_cons_cons.mp hchain
      obtain ⟨-, hstyle, hline⟩ := continues_iff.mp hcontinues
      have hlines : tokenLines u = [lineText (trim u.spelling.toList)] := by
        rw [tokenLines, hstyle]
      have hstep : s.step u = { s with run := some {
          r with lines := r.lines ++ tokenLines u, last := u.extent.stop.line } } := by
        rw [step_line hstyle, addLine, hrun, hlines]
        simp only [hlast, if_pos hline]
      rw [List.foldl_cons, hstep, ih rfl rfl hchain]
      simp

/-- Comments that hang together are taken in as one block. -/
theorem Takes.run {s : Scan} {t : Token} {ts : List Token} (ht : tokenStyle t = .line false)
    (hchain : (t :: ts).IsChain fun t u => continues t u) (hfree : s.Interrupted (t :: ts)) :
    Takes s ((t :: ts).foldl step s) (t :: ts) := by
  have hstep : s.step t = { s.close with
      run := some ⟨tokenLines t, t.extent.start.line, t.extent.stop.line⟩ } := by
    have hlines : tokenLines t = [lineText (trim t.spelling.toList)] := by rw [tokenLines, ht]
    rw [step_line ht, addLine, hlines]
    cases hrun : s.run with
    | none => simp only [close, hrun]
    | some r => simp only [if_neg (hfree r hrun t rfl ht)]
  have htrailing : isTrailing t = false := by rw [isTrailing, ht]
  rw [List.foldl_cons, hstep, foldl_step_run rfl rfl hchain]
  refine ⟨done_close s, ?_, ?_⟩
  · rw [segmentBlock?_nil, htrailing, List.flatMap_cons]
    rfl
  · intro r hr
    obtain rfl := Option.some.inj hr
    refine ⟨_, List.getLast?_eq_some_getLast (by simp), ?_, rfl⟩
    exact tokenStyle_of_isChain ht hchain _ (List.getLast_mem _)

/-- Any other comment is taken in as a block of its own. -/
theorem Takes.single {s : Scan} {t : Token} (hcomment : t.isComment = true)
    (ht : tokenStyle t ≠ .line false) : Takes s (s.step t) [t] := by
  have hpush : ∀ b, (s.push b).done = s.done ∧
      (s.push b).close.waiting = s.close.waiting ++ b.toList ∧ (s.push b).run = none := by
    intro b
    have hrun : (s.push b).run = none := run_close s
    refine ⟨done_close s, ?_, hrun⟩
    rw [close_of_run_eq_none hrun]
    rfl
  have htakes : ∀ {lines trailing}, tokenLines t = lines → isTrailing t = trailing →
      Takes s (s.push (block? lines t.extent.start.line trailing)) [t] := by
    rintro lines trailing rfl rfl
    obtain ⟨hdone, hwaiting, hrun⟩ :=
      hpush (block? (tokenLines t) t.extent.start.line (isTrailing t))
    refine ⟨hdone, ?_, by simp [hrun]⟩
    rw [hwaiting, segmentBlock?_nil, List.flatMap_singleton]
  cases hstyle : styleOf (trim t.spelling.toList) with
  | line trailing =>
      cases trailing with
      | true =>
          have hstep : s.step t = s.push (block? [lineText (trim t.spelling.toList)]
              t.extent.start.line true) := by
            simp only [step, hcomment, if_true, hstyle]
          rw [hstep]
          exact htakes (by simp only [tokenLines, tokenStyle, hcomment, if_true, hstyle])
            (by simp only [isTrailing, tokenStyle, hcomment, if_true, hstyle])
      | false => exact absurd (by simp only [tokenStyle, hcomment, if_true, hstyle]) ht
  | block trailing =>
      have hstep : s.step t = s.push (block? (blockLines (trim t.spelling.toList))
          t.extent.start.line trailing) := by
        simp only [step, hcomment, if_true, hstyle]
      rw [hstep]
      exact htakes (by simp only [tokenLines, tokenStyle, hcomment, if_true, hstyle])
        (by simp only [isTrailing, tokenStyle, hcomment, if_true, hstyle])
  | plain =>
      have hstep : s.step t = s.close := by simp only [step, hcomment, if_true, hstyle]
      have hlines : tokenLines t = [] := by
        simp only [tokenLines, tokenStyle, hcomment, if_true, hstyle]
      rw [hstep]
      refine ⟨done_close s, ?_, by simp [run_close]⟩
      rw [close_close, segmentBlock?_nil, List.flatMap_singleton, hlines]
      simp [block?, joinLines, join]

/-- **A segment of comments is taken in as one block.** -/
theorem Takes.segment {s : Scan} {t : Token} {ts : List Token} (hcomment : t.isComment = true)
    (hchain : (t :: ts).IsChain fun t u => continues t u) (hfree : s.Interrupted (t :: ts)) :
    Takes s ((t :: ts).foldl step s) (t :: ts) := by
  by_cases ht : tokenStyle t = .line false
  · exact Takes.run ht hchain hfree
  · cases ts with
    | nil => exact Takes.single hcomment ht
    | cons u ts =>
        exact absurd (continues_iff.mp (List.isChain_cons_cons.mp hchain).1).1 ht

end Scan

/-! ### All segments -/

/-- Segments that are cut as `segments` cuts them. -/
structure AreSegments (segs : List (List Token)) : Prop where
  nonempty : [] ∉ segs
  joined : ∀ segment ∈ segs, segment.IsChain fun t u => continues t u
  apart : segs.IsChain fun a b => ∃ ha hb, continues (a.getLast ha) (b.head hb) = false

theorem areSegments (ts : List Token) : AreSegments (segments ts) :=
  ⟨List.nil_notMem_splitBy _ ts, fun _ => List.isChain_of_mem_splitBy,
    List.isChain_getLast_head_splitBy _ ts⟩

theorem AreSegments.tail {segment : List Token} {segs : List (List Token)}
    (h : AreSegments (segment :: segs)) : AreSegments segs :=
  ⟨fun hmem => h.nonempty (List.mem_cons_of_mem _ hmem), (List.forall_mem_cons.mp h.joined).2,
    h.apart.tail⟩

/-- The end of a segment is not continued by what comes next. -/
theorem AreSegments.continues_eq_false {segment : List Token} {segs : List (List Token)}
    (h : AreSegments (segment :: segs)) {t u : Token} (ht : t ∈ segment.getLast?)
    (hu : u ∈ segs.flatten.head?) : continues t u = false := by
  cases segs with
  | nil => simp at hu
  | cons next segs =>
      obtain ⟨⟨ha, hb, hfalse⟩, -⟩ := List.isChain_cons_cons.mp h.apart
      rw [List.flatten_cons, List.head?_append_of_ne_nil _ hb, List.head?_eq_some_head hb] at hu
      rw [List.getLast?_eq_some_getLast ha] at ht
      rw [← Option.some.inj ht, ← Option.some.inj hu]
      exact hfalse

namespace Scan

theorem Takes.interrupted {s s' : Scan} {segment : List Token} {segs : List (List Token)}
    (h : Takes s s' segment) (hsegs : AreSegments (segment :: segs)) :
    s'.Interrupted segs.flatten := by
  intro r hr u hu hstyle hline
  obtain ⟨t, ht, htstyle, hlast⟩ := h.last r hr
  have hfalse := hsegs.continues_eq_false ht hu
  rw [continues_iff.mpr ⟨htstyle, hstyle, hlast ▸ hline⟩] at hfalse
  cases hfalse

theorem foldl_step_token {t : Token} {ts : List Token} (ht : t.isComment = false)
    (hchain : (t :: ts).IsChain fun t u => continues t u) (s : Scan) :
    (t :: ts).foldl step s = s.arrive t.extent.start ∧ ts = [] := by
  cases ts with
  | nil => exact ⟨by simp [step, ht], rfl⟩
  | cons u ts =>
      have hstyle := (continues_iff.mp (List.isChain_cons_cons.mp hchain).1).1
      rw [isComment_of_tokenStyle hstyle] at ht
      cases ht

/-- What a pass makes of the segments that are still to come: the blocks that wait are followed
by theirs. -/
theorem blocks_foldl_step {segs : List (List Token)} :
    ∀ {s : Scan}, AreSegments segs → s.Interrupted segs.flatten →
      (segs.flatten.foldl step s).blocks =
        s.done ++ s.close.waiting.map (meetFirst segs.flatten) ++ segmentBlocks segs := by
  induction segs with
  | nil =>
      intro s _ _
      have hmeet : meetFirst [] = id := rfl
      simp [blocks, segmentBlocks, hmeet]
  | cons segment segs ih =>
      intro s hsegs hfree
      cases segment with
      | nil => exact absurd (List.mem_cons_self ..) hsegs.nonempty
      | cons t ts =>
          have hchain := hsegs.joined (t :: ts) (by simp)
          rw [List.flatten_cons, List.foldl_append, segmentBlocks, segmentBlock?_eq_map]
          cases ht : t.isComment with
          | true =>
              have htakes := Takes.segment ht hchain (s := s) (by simpa [Interrupted] using hfree)
              rw [ih hsegs.tail (htakes.interrupted hsegs), htakes.done, htakes.waiting,
                meetFirst_comments (isComment_of_isChain ht hchain), List.map_append,
                Option.toList_map, List.append_assoc, List.append_assoc, List.append_assoc]
          | false =>
              obtain ⟨hstep, rfl⟩ := foldl_step_token ht hchain s
              have hlines : tokenLines t = [] := by simp [tokenLines, tokenStyle, ht]
              have hnone : segmentBlock? [t] [] = none := by
                rw [segmentBlock?_nil, List.flatMap_singleton, hlines]
                rfl
              rw [hstep, ih hsegs.tail (by simp [Interrupted, arrive]), List.singleton_append,
                meetFirst_token ht, hnone, close_of_run_eq_none rfl]
              simp [arrive]

end Scan

/-- **The blocks of a file are those of its segments.** -/
theorem blocksOf_eq (ts : List Token) : blocksOf ts = segmentBlocks (segments ts) := by
  have hblocks := Scan.blocks_foldl_step (s := {}) (areSegments ts) (by simp [Scan.Interrupted])
  rw [segments, List.flatten_splitBy] at hblocks
  rw [blocksOf, hblocks]
  rfl

/-! ### Line numbers that do not wrap -/

/-- Whether a comment stands on the line behind another one, and both are of the kind that hangs
together. -/
def adjoins (t u : Token) : Bool :=
  tokenStyle t == .line false && tokenStyle u == .line false &&
    u.extent.start.line == t.extent.stop.line + 1

theorem splitBy_congr {α : Type} {r r' : α → α → Bool} {l : List α}
    (h : ∀ a ∈ l, ∀ b, r a b = r' a b) : l.splitBy r = l.splitBy r' := by
  have hloop : ∀ (l : List α) (a : α) (group : List α) (groups : List (List α)),
      (∀ x ∈ a :: l, ∀ y, r x y = r' x y) →
      List.splitBy.loop r l a group groups = List.splitBy.loop r' l a group groups := by
    intro l
    induction l with
    | nil => intro a group groups _; rfl
    | cons b l ih =>
        intro a group groups hl
        obtain ⟨ha, hl⟩ := List.forall_mem_cons.mp hl
        rw [List.splitBy.loop, List.splitBy.loop, ha b]
        split
        · exact ih b _ _ hl
        · exact ih b _ _ hl
  cases l with
  | nil => rfl
  | cons a l => exact hloop l a [] [] h

/-- **A file has one block for each segment of its tokens that is not blank**, in the order of
the file, if the number of no line is the greatest one. -/
theorem blocksOf_eq_blocks_of_segments (ts : List Token)
    (hlines : ∀ t ∈ ts, t.extent.stop.line < Nat.pow 2 32 - 1) :
    blocksOf ts = segmentBlocks (ts.splitBy adjoins) := by
  have hcontinues : ∀ t ∈ ts, ∀ u, continues t u = adjoins t u := by
    intro t ht u
    have hline : nextLine t.extent.stop.line = t.extent.stop.line + 1 := by
      exact Nat.mod_eq_of_lt (Nat.add_lt_of_lt_sub (hlines t ht))
    rw [continues, adjoins, hline]
  rw [blocksOf_eq, segments, splitBy_congr hcontinues]

/-- Two lines that hang together, a blank line apart from them, and a comment behind a token. -/
def pairedLines : List Token :=
  [⟨.comment, "/// One.", ⟨⟨1, 1⟩, ⟨1, 9⟩⟩⟩,
   ⟨.comment, "/// Two.", ⟨⟨2, 1⟩, ⟨2, 9⟩⟩⟩,
   ⟨.comment, "///", ⟨⟨4, 1⟩, ⟨4, 4⟩⟩⟩,
   ⟨.identifier, "x", ⟨⟨5, 1⟩, ⟨5, 2⟩⟩⟩,
   ⟨.comment, "///< Behind.", ⟨⟨5, 3⟩, ⟨5, 15⟩⟩⟩,
   ⟨.comment, "/// Last.", ⟨⟨6, 1⟩, ⟨6, 10⟩⟩⟩]

theorem pairedLines_blocks :
    (∀ t ∈ pairedLines, t.extent.stop.line < Nat.pow 2 32 - 1) ∧
      blocksOf pairedLines =
        [{ text := "One.\nTwo.", line := 1, next := some ⟨5, 1⟩, trailing := false },
          { text := "Behind.", line := 5, trailing := true },
          { text := "Last.", line := 6, trailing := false }] := by
  have hlines : ∀ t ∈ pairedLines, t.extent.stop.line < Nat.pow 2 32 - 1 := by decide
  refine ⟨hlines, (blocksOf_eq_blocks_of_segments pairedLines hlines).trans ?_⟩
  decide +kernel

end DocForest.Comment
