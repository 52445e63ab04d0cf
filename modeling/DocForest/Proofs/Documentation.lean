/-
Documentation does not cross a token.

A block in front of a declaration documents it if nothing but comments stands between the two.
A token that is no comment settles all blocks that wait, so that it parts the pass over a file
in two (`blocksOf_append_token`), and the comments right in front of a token are read as if they
were all there is.  A block further away was told of another token; if no two tokens start at
one place, it is never taken for one in front of this token.
-/
import DocForest.Proofs.CommentBlocks
import Mathlib.Data.List.DropRight

namespace DocForest.Comment

open Source

/-! ### A token parts the pass in two -/

namespace Scan

theorem done_step {t : Token} (ht : t.isComment = true) (s : Scan) : (s.step t).done = s.done := by
  have hadd : ∀ text extent, (s.addLine text extent).done = s.done := by
    intro text extent
    unfold addLine
    split
    · split
      · rfl
      · exact done_close s
    · rfl
  simp only [step, ht, if_true]
  split
  · exact done_close s
  · exact hadd _ _
  · exact done_close s
  · exact done_close s

theorem done_foldl_step {ts : List Token} (hts : ∀ t ∈ ts, t.isComment = true) (s : Scan) :
    (ts.foldl step s).done = s.done := by
  induction ts generalizing s with
  | nil => rfl
  | cons t ts ih =>
      obtain ⟨ht, hts⟩ := List.forall_mem_cons.mp hts
      rw [List.foldl_cons, ih hts, done_step ht]

end Scan

theorem foldl_step_concat {t : Token} (ht : t.isComment = false) (us : List Token) :
    (us ++ [t]).foldl Scan.step {} = (us.foldl Scan.step {}).arrive t.extent.start := by
  rw [List.foldl_append, List.foldl_cons, List.foldl_nil, Scan.step, if_neg (by simp [ht])]

theorem blocksOf_concat {t : Token} (ht : t.isComment = false) (us : List Token) :
    blocksOf (us ++ [t]) = ((us.foldl Scan.step {}).arrive t.extent.start).done := by
  rw [blocksOf, foldl_step_concat ht, Scan.blocks, Scan.close_of_run_eq_none rfl]
  exact List.append_nil _

/-- **The blocks around a token** are those up to it and those behind it, each for themselves. -/
theorem blocksOf_append_token {t : Token} (ht : t.isComment = false) (us vs : List Token) :
    blocksOf (us ++ t :: vs) = blocksOf (us ++ [t]) ++ blocksOf vs := by
  have hrest := Scan.blocks_foldl_step (s := (us ++ [t]).foldl Scan.step {}) (areSegments vs)
    (by simp [foldl_step_concat ht, Scan.Interrupted, Scan.arrive])
  rw [← blocksOf_eq, segments, List.flatten_splitBy, foldl_step_concat ht,
    Scan.close_of_run_eq_none rfl, ← blocksOf_concat ht] at hrest
  rw [List.append_cons, blocksOf, List.foldl_append, foldl_step_concat ht, hrest]
  simp [Scan.arrive]

/-- The blocks of some comments are all told of the token behind them. -/
theorem blocksOf_comments {us : List Token} (hus : ∀ u ∈ us, u.isComment = true) {t : Token}
    (ht : t.isComment = false) :
    blocksOf (us ++ [t]) = (blocksOf us).map (Scan.meet t.extent.start) := by
  have hdone := Scan.done_foldl_step hus {}
  rw [blocksOf_concat ht, blocksOf, Scan.blocks]
  simp [Scan.arrive, hdone]

/-! ### Where blocks are told of -/

/-- Where the tokens start that are no comments. -/
def tokenStarts (ts : List Token) : List Position :=
  (ts.filter (!·.isComment)).map (·.extent.start)

theorem tokenStarts_append (us vs : List Token) :
    tokenStarts (us ++ vs) = tokenStarts us ++ tokenStarts vs := by
  rw [tokenStarts, List.filter_append, List.map_append, tokenStarts, tokenStarts]

theorem tokenStarts_cons {t : Token} (ht : t.isComment = false) (ts : List Token) :
    tokenStarts (t :: ts) = t.extent.start :: tokenStarts ts := by
  simp [tokenStarts, ht]

theorem mem_tokenStarts_of_firstToken? {ts : List Token} {p : Position}
    (h : firstToken? ts = some p) : p ∈ tokenStarts ts := by
  obtain ⟨t, ht, rfl⟩ := Option.map_eq_some_iff.mp h
  have hmem := List.mem_filter.mpr ⟨List.mem_of_find?_eq_some ht, List.find?_some ht⟩
  exact List.mem_map_of_mem hmem

theorem next_segmentBlock? {segment rest : List Token} {b : Block}
    (h : b ∈ segmentBlock? segment rest) {p : Position} (hp : b.next = some p) :
    p ∈ tokenStarts rest := by
  cases segment with
  | nil => cases h
  | cons first others =>
      rw [Option.mem_def, segmentBlock?, List.head?_cons, Option.bind_some] at h
      split at h
      · cases h
      · rw [← Option.some.inj h] at hp
        dsimp only at hp
        split at hp
        · cases hp
        · exact mem_tokenStarts_of_firstToken? hp

/-- A block is told of a token of its file. -/
theorem next_mem_tokenStarts {ts : List Token} {b : Block} (hb : b ∈ blocksOf ts) {p : Position}
    (hp : b.next = some p) : p ∈ tokenStarts ts := by
  have hall : ∀ segs, b ∈ segmentBlocks segs → p ∈ tokenStarts segs.flatten := by
    intro segs
    induction segs with
    | nil => intro h; simp [segmentBlocks] at h
    | cons segment rest ih =>
        intro h
        rw [List.flatten_cons, tokenStarts_append, List.mem_append]
        rcases List.mem_append.mp h with hfirst | hrest
        · exact Or.inr (next_segmentBlock? (Option.mem_toList.mp hfirst) hp)
        · exact Or.inr (ih hrest)
  have hmem := hall (segments ts) (by rwa [← blocksOf_eq])
  rwa [segments, List.flatten_splitBy] at hmem

theorem filter_precedes_eq_nil {ts : List Token} {p : Position} (hp : p ∉ tokenStarts ts) :
    (blocksOf ts).filter (·.precedes p) = [] := by
  rw [List.filter_eq_nil_iff]
  intro b hb hprecedes
  simp only [Block.precedes, Bool.and_eq_true, beq_iff_eq] at hprecedes
  exact hp (next_mem_tokenStarts hb hprecedes.2)

/-! ### The comments in front of a token -/

theorem precedes_meet (p : Position) (b : Block) : (Scan.meet p b).precedes p = !b.trailing := by
  cases htrailing : b.trailing <;> simp [Scan.meet, Block.precedes, htrailing]

/-- The blocks in front of a token are those of the comments between it and the token before. -/
theorem filter_precedes {before after : List Token} {t : Token} (ht : t.isComment = false)
    (hdistinct : (tokenStarts (before ++ t :: after)).Nodup) :
    (blocksOf (before ++ t :: after)).filter (·.precedes t.extent.start) =
      ((blocksOf (before.rtakeWhile (·.isComment))).filter (!·.trailing)).map
        (Scan.meet t.extent.start) := by
  have hgap : ∀ u ∈ before.rtakeWhile (·.isComment), u.isComment = true :=
    fun u hu => List.mem_rtakeWhile_imp hu
  have hbefore : before.rdropWhile (·.isComment) ++ before.rtakeWhile (·.isComment) = before :=
    List.rdropWhile_append_rtakeWhile
  generalize before.rtakeWhile (·.isComment) = gap at hgap hbefore ⊢
  rw [tokenStarts_append, tokenStarts_cons ht] at hdistinct
  obtain ⟨-, hafter, hdisjoint⟩ := List.nodup_append.mp hdistinct
  have hgapBlocks : ((blocksOf (gap ++ [t])).filter (·.precedes t.extent.start)) =
      ((blocksOf gap).filter (!·.trailing)).map (Scan.meet t.extent.start) := by
    rw [blocksOf_comments hgap ht, List.filter_map]
    congr 1
    exact List.filter_congr fun b _ => precedes_meet _ b
  rw [blocksOf_append_token ht, List.filter_append,
    filter_precedes_eq_nil (List.nodup_cons.mp hafter).1, List.append_nil, ← hgapBlocks]
  rcases List.eq_nil_or_concat (before.rdropWhile (·.isComment)) with hinit | ⟨init, u, hinit⟩
  · rw [← hbefore, hinit, List.nil_append]
  · have hu : u.isComment = false := by
      have hlast := List.rdropWhile_last_not (·.isComment) before (by simp [hinit])
      simpa [hinit] using hlast
    rw [hinit, List.concat_eq_append] at hbefore
    have hstart : t.extent.start ∉ tokenStarts (init ++ [u]) := by
      intro hmem
      rw [← hbefore, tokenStarts_append] at hdisjoint
      exact hdisjoint _ (List.mem_append_left _ hmem) _ (List.mem_cons_self ..) rfl
    rw [← hbefore, List.append_assoc, List.append_assoc, List.singleton_append,
      blocksOf_append_token hu, List.filter_append, filter_precedes_eq_nil hstart, List.nil_append]

/-- **Documentation never crosses a token.**  The documentation of what starts at a token is
decided by the last block that the comments between it and the token before leave in front of
it: its text, or nothing if the block opens with a command.  Only where there is no such block
it is the first trailing comment on the line of the token. -/
theorem documentation?_of_token (before after : List Token) (t : Token)
    (ht : t.isComment = false) (hdistinct : (tokenStarts (before ++ t :: after)).Nodup) :
    documentation? (blocksOf (before ++ t :: after)) t.extent.start =
      let near := segmentBlocks (segments (before.rtakeWhile (·.isComment)))
      match (near.filter (!·.trailing)).getLast? with
      | some b => if b.isCommand then none else some b.text
      | none =>
        ((segmentBlocks (segments (before ++ t :: after))).find?
          (·.trails t.extent.start.line)).map (·.text) := by
  have htext : ∀ b, (Scan.meet t.extent.start b).text = b.text := by
    intro b
    unfold Scan.meet
    split <;> rfl
  have hcommand : ∀ b, (Scan.meet t.extent.start b).isCommand = b.isCommand := by
    intro b
    rw [Block.isCommand, htext, Block.isCommand]
  rw [documentation?, filter_precedes ht hdistinct, List.getLast?_map, ← blocksOf_eq, ← blocksOf_eq]
  dsimp only
  cases ((blocksOf (before.rtakeWhile (·.isComment))).filter (!·.trailing)).getLast? with
  | none => rfl
  | some b => simp only [Option.map_some, hcommand, htext]

/-- A comment in front of a token, one between that and the next token, and an empty one. -/
def betweenTokens : List Token :=
  [⟨.comment, "/// Far.", ⟨⟨1, 1⟩, ⟨1, 9⟩⟩⟩,
   ⟨.keyword, "int", ⟨⟨2, 1⟩, ⟨2, 4⟩⟩⟩,
   ⟨.comment, "/** Near. */", ⟨⟨2, 5⟩, ⟨2, 17⟩⟩⟩,
   ⟨.comment, "///", ⟨⟨3, 1⟩, ⟨3, 4⟩⟩⟩]

def documentedToken : Token :=
  ⟨.identifier, "x", ⟨⟨4, 1⟩, ⟨4, 2⟩⟩⟩

def behindToken : List Token :=
  [⟨.comment, "///< Behind.", ⟨⟨4, 3⟩, ⟨4, 15⟩⟩⟩]

/-- The nearest block that is not blank is taken, and not the one behind the token. -/
theorem betweenTokens_documentation :
    documentedToken.isComment = false ∧
      (tokenStarts (betweenTokens ++ documentedToken :: behindToken)).Nodup ∧
      documentation? (blocksOf (betweenTokens ++ documentedToken :: behindToken)) ⟨4, 1⟩ =
        some "Near." := by
  have hdistinct : (tokenStarts (betweenTokens ++ documentedToken :: behindToken)).Nodup := by
    decide
  refine ⟨rfl, hdistinct, (documentation?_of_token _ _ documentedToken rfl hdistinct).trans ?_⟩
  decide +kernel

end DocForest.Comment
