/-
What the text of one page comes to.

A text is rendered part by part against a document that does not change meanwhile.  So
whether a page may be taken in is decided for every command in the same way, whatever
stands before it, and `mem_subpages_text` can say which pages are taken in without
following the order of the commands.

The decision itself is `MayTake`: the page is there, nobody else has it, and the page at
hand is not inside it.  In the code the last of these is a bounded walk upwards, and
`isPageAbove_iff` says that the bound does no harm.
-/
import DocForest.Proofs.Hierarchy
import DocForest.Reference.Rendering
import Mathlib.Data.List.Forall2

namespace DocForest

open DocText Relation

namespace Document

/-- The pages name and list each other consistently, and none is part of itself. -/
def PagesArranged (d : Document) : Prop :=
  Hierarchy (d.pages.up Page.parent) (d.pages.parts Page.subpages)

/-! ### The walk upwards is long enough -/

theorem isAboveWithin_iff {d : Document} {ancestor : String} (hne : ancestor ≠ "") :
    ∀ (bound : Nat) (page : String),
      d.isAboveWithin ancestor bound ((d.pages.get? page).map (·.parent)) = true ↔
        ∃ n, n < bound ∧ Hierarchy.climb (d.pages.up Page.parent) (n + 1) page = some ancestor := by
  intro bound
  induction bound with
  | zero => intro page; simp [isAboveWithin]
  | succ bound ih =>
      intro page
      cases hget : d.pages.get? page with
      | none =>
          have hup : d.pages.up Page.parent page = none := by
            rw [Table.up, hget]
            rfl
          simp [isAboveWithin, Hierarchy.climb, hup]
      | some p =>
          rw [Option.map_some, isAboveWithin]
          by_cases hparent : p.parent = ancestor
          · have hup : d.pages.up Page.parent page = some ancestor :=
              Table.up_eq_some.mpr ⟨hne, p, hget, hparent⟩
            rw [if_pos hparent]
            refine ⟨fun _ => ⟨0, by omega, ?_⟩, fun _ => rfl⟩
            exact Hierarchy.climb_succ_eq_some.mpr ⟨ancestor, hup, rfl⟩
          rw [if_neg hparent]
          by_cases hroot : p.parent = ""
          · have hup : d.pages.up Page.parent page = none := by
              simp [Table.up, hget, hroot]
            simp [hroot, Hierarchy.climb, hup]
          · have hup : d.pages.up Page.parent page = some p.parent := Table.up_of_get? hget hroot
            rw [if_neg (by simpa using hroot), ih]
            constructor
            · intro hwalk
              obtain ⟨n, hn, hclimb⟩ := hwalk
              exact ⟨n + 1, by omega, Hierarchy.climb_succ_eq_some.mpr ⟨_, hup, hclimb⟩⟩
            · intro hwalk
              obtain ⟨n, hn, hclimb⟩ := hwalk
              obtain ⟨whole, hwhole, hrest⟩ := Hierarchy.climb_succ_eq_some.mp hclimb
              rw [hup] at hwhole
              obtain rfl := Option.some.inj hwhole
              cases n with
              | zero => exact absurd (by simpa [Hierarchy.climb] using hrest) hparent
              | succ n => exact ⟨n, by omega, hrest⟩

/-- **The look upwards misses no page.** -/
theorem isPageAbove_iff {d : Document} (h : d.PagesArranged) {ancestor page : String}
    (hne : ancestor ≠ "") :
    d.isPageAbove ancestor page = true ↔
      TransGen (PartOf (d.pages.up Page.parent)) page ancestor := by
  rw [isPageAbove, isAboveWithin_iff hne, Hierarchy.transGen_iff_climb]
  constructor
  · intro hwalk
    obtain ⟨n, -, hn⟩ := hwalk
    exact ⟨n, hn⟩
  · intro hwalk
    obtain ⟨n, hn⟩ := hwalk
    exact ⟨n, Table.climb_le_size h.acyclic hn, hn⟩

/-- A page may be taken in: it is there, it is free, and the one that takes it is not
inside it. -/
structure MayTake (d : Document) (whole part : String) : Prop where
  known : d.pages.contains part = true
  free : d.pages.up Page.parent part = none ∨ d.pages.up Page.parent part = some whole
  outside : ¬ ReflTransGen (PartOf (d.pages.up Page.parent)) whole part

/-- The text that stands for a page: the one that is given, its title, or its id. -/
def pageLabel (d : Document) (target : String) (text : Option String) : String :=
  text.getD (match d.pages.get? target with
    | some page => if page.title.isEmpty then target else page.title
    | none => target)

end Document

namespace Renderer

variable {w : Renderer} {cur : String}

/-! ### One command -/

theorem markdownLink_ne (shown id : String) : markdownLink shown id ≠ shown := by
  intro h
  have hlen := congrArg String.length h
  have hclose : ")".length = 1 := by decide
  simp only [markdownLink, String.length_append] at hlen
  omega

/-- **A page is refused exactly if it may not be taken in.** -/
theorem isClaimed_eq_false_iff (harr : w.document.PagesArranged) (hcur : cur ≠ "")
    {target : String} (htarget : target ≠ "") {page : Page}
    (hget : w.document.pages.get? target = some page) :
    w.isClaimed cur target page = false ↔ w.document.MayTake cur target := by
  have houtside : ¬ ReflTransGen (PartOf (w.document.pages.up Page.parent)) cur target ↔
      target ≠ cur ∧ w.document.isPageAbove target cur = false := by
    rw [reflTransGen_iff_eq_or_transGen, ← Document.isPageAbove_iff harr htarget, not_or,
      Bool.not_eq_true]
  have hfree : (w.document.pages.up Page.parent target = none ∨
      w.document.pages.up Page.parent target = some cur) ↔
        page.parent = "" ∨ page.parent = cur := by
    rw [Table.up_eq_none, Table.up_eq_some]
    simp [hget, hcur]
  have hclaimed : w.isClaimed cur target page = false ↔
      (target ≠ cur ∧ w.document.isPageAbove target cur = false) ∧
        (page.parent = "" ∨ page.parent = cur) := by
    simp only [isClaimed, Bool.or_eq_false_iff, Bool.and_eq_false_iff, beq_eq_false_iff_ne,
      Bool.not_eq_eq_eq_not, Bool.not_false, bne_eq_false_iff_eq, String.isEmpty_iff]
  rw [hclaimed, ← houtside, ← hfree]
  constructor
  · intro hboth
    obtain ⟨hout, hfr⟩ := hboth
    exact ⟨Table.contains_of_get? hget, hfr, hout⟩
  · intro h
    exact ⟨h.outside, h.free⟩

/-- What the command for a part of the page shows, and what it takes in. -/
theorem subpage_cases (harr : w.document.PagesArranged) (howner : w.owner = .page cur)
    (hcur : cur ≠ "") (hempty : w.document.pages.contains "" = false) (o : Outcome)
    (target : String) (text : Option String) :
    (w.document.MayTake cur target ∧
      (w.subpage o target text).1 = markdownLink (w.document.pageLabel target text) target ∧
      (w.subpage o target text).2.subpages =
        if target ∈ o.subpages then o.subpages else o.subpages ++ [target]) ∨
    (¬ w.document.MayTake cur target ∧
      (w.subpage o target text).1 = w.document.pageLabel target text ∧
      (w.subpage o target text).2.subpages = o.subpages) := by
  unfold subpage Document.pageLabel
  rw [howner]
  dsimp only
  cases hget : w.document.pages.get? target with
  | none =>
      refine Or.inr ⟨?_, rfl, rfl⟩
      intro h
      obtain ⟨page, hpage⟩ := Table.contains_iff_exists.mp h.known
      rw [hget] at hpage
      simp at hpage
  | some page =>
      have htarget : target ≠ "" := by
        intro heq
        obtain rfl := heq
        rw [Table.contains_of_get? hget] at hempty
        simp at hempty
      dsimp only
      by_cases hclaimed : w.isClaimed cur target page = true
      · rw [if_pos hclaimed]
        refine Or.inr ⟨?_, rfl, rfl⟩
        intro h
        rw [(isClaimed_eq_false_iff harr hcur htarget hget).mpr h] at hclaimed
        simp at hclaimed
      · rw [if_neg hclaimed]
        have htake := (isClaimed_eq_false_iff harr hcur htarget hget).mp (by simpa using hclaimed)
        refine Or.inl ⟨htake, rfl, ?_⟩
        dsimp only
        split <;> rfl

theorem command_subpage (w : Renderer) (o : Outcome) (raw : List Char) (target : String)
    (text : Option String) :
    w.command o raw (.subpage target text) = w.subpage o target text := rfl

theorem subpages_link (w : Renderer) (o : Outcome) (target : String) (text : Option String) :
    (w.link o target text).2.subpages = o.subpages := by
  unfold link
  dsimp only
  split <;> rfl

theorem subpages_links (w : Renderer) (targets : List String) :
    ∀ o : Outcome, (w.links o targets).2.subpages = o.subpages := by
  induction targets with
  | nil => intro o; rfl
  | cons target rest ih =>
      intro o
      simp only [links]
      rw [ih, subpages_link]

theorem subpages_relate (w : Renderer) (o : Outcome) (target : String) :
    (w.relate o target).subpages = o.subpages := by
  unfold relate
  cases w.owner with
  | entity id =>
      dsimp only
      split
      · rfl
      split
      · rfl
      split <;> rfl
  | header id => rfl
  | group id => rfl
  | page id => rfl

/-- No other command takes in a page. -/
theorem subpages_command (w : Renderer) (o : Outcome) (raw : List Char) {c : Command}
    (hc : ∀ target text, c ≠ .subpage target text) :
    (w.command o raw c).2.subpages = o.subpages := by
  cases c with
  | subpage target text => exact absurd rfl (hc target text)
  | ref target text => exact subpages_link w o target text
  | seeAlso targets => exact subpages_links w targets o
  | relates target => exact subpages_relate w o target
  | ingroup id => rfl
  | heading level id title => rfl
  | anchor id => rfl
  | malformed word => rfl

section

variable (harr : w.document.PagesArranged) (howner : w.owner = .page cur) (hcur : cur ≠ "")
  (hempty : w.document.pages.contains "" = false)

include harr howner hcur hempty

/-- A command takes in the page that it names as a part, if it may. -/
theorem mem_subpages_command (o : Outcome) (raw : List Char) (c : Command) (x : String) :
    x ∈ (w.command o raw c).2.subpages ↔
      x ∈ o.subpages ∨ ((∃ text, c = .subpage x text) ∧ w.document.MayTake cur x) := by
  by_cases hc : ∀ target text, c ≠ .subpage target text
  · rw [subpages_command w o raw hc]
    refine ⟨Or.inl, ?_⟩
    intro hcase
    rcases hcase with hx | ⟨⟨text, htext⟩, -⟩
    · exact hx
    · exact absurd htext (hc x text)
  obtain ⟨target, text, rfl⟩ : ∃ target text, c = .subpage target text := by
    simpa using hc
  have hname : (∃ text', Command.subpage target text = .subpage x text') ↔ target = x := by
    simp
  rw [hname, command_subpage]
  rcases subpage_cases harr howner hcur hempty o target text with
    ⟨htake, -, hsub⟩ | ⟨hrefused, -, hsub⟩
  · rw [hsub]
    by_cases hmem : target ∈ o.subpages
    · rw [if_pos hmem]
      refine ⟨Or.inl, ?_⟩
      intro hcase
      rcases hcase with hx | ⟨rfl, -⟩
      · exact hx
      · exact hmem
    · rw [if_neg hmem, List.mem_append, List.mem_singleton]
      refine or_congr_right ⟨?_, ?_⟩
      · intro heq
        obtain rfl := heq
        exact ⟨rfl, htake⟩
      · intro hboth
        obtain ⟨rfl, -⟩ := hboth
        rfl
  · rw [hsub]
    refine ⟨Or.inl, ?_⟩
    intro hcase
    rcases hcase with hx | ⟨rfl, htake⟩
    · exact hx
    · exact absurd htake hrefused

/-! ### A whole text -/

theorem mem_subpages_parts (ps : List Part) (x : String) :
    ∀ o : Outcome, x ∈ (w.parts o ps).2.subpages ↔
      x ∈ o.subpages ∨
        ((∃ text raw, .command (.subpage x text) raw ∈ ps) ∧ w.document.MayTake cur x) := by
  induction ps with
  | nil => intro o; simp [parts]
  | cons part rest ih =>
      intro o
      cases part with
      | text cs =>
          simp only [parts, ih, List.mem_cons, reduceCtorEq, false_or]
      | command c raw =>
          simp only [parts, ih, mem_subpages_command harr howner hcur hempty]
          constructor
          · intro hcase
            rcases hcase with (hx | ⟨⟨text, rfl⟩, htake⟩) | ⟨⟨text, raw', hmem⟩, htake⟩
            · exact Or.inl hx
            · exact Or.inr ⟨⟨text, raw, List.mem_cons_self⟩, htake⟩
            · exact Or.inr ⟨⟨text, raw', List.mem_cons_of_mem _ hmem⟩, htake⟩
          · intro hcase
            rcases hcase with hx | ⟨⟨text, raw', hmem⟩, htake⟩
            · exact Or.inl (Or.inl hx)
            · rcases List.mem_cons.mp hmem with heq | hmem
              · obtain ⟨rfl, -⟩ := Part.command.inj heq
                exact Or.inl (Or.inr ⟨⟨text, rfl⟩, htake⟩)
              · exact Or.inr ⟨⟨text, raw', hmem⟩, htake⟩

/-- **A text takes in the pages that it names as parts and that may be taken in.** -/
theorem mem_subpages_text (s : String) (x : String) :
    x ∈ (w.text {} s).2.subpages ↔
      (∃ text raw, .command (.subpage x text) raw ∈ DocText.parts s.toList) ∧
        w.document.MayTake cur x := by
  have hparts := mem_subpages_parts harr howner hcur hempty (DocText.parts s.toList) x {}
  show x ∈ (w.parts {} (DocText.parts s.toList)).2.subpages ↔ _
  simpa using hparts

end

theorem text_empty (w : Renderer) : w.text {} "" = ("", {}) := by
  have hparts : DocText.parts "".toList = [] := by
    simp [DocText.parts, DocText.tokens, partsFrom, textPart]
  unfold text
  rw [hparts]
  rfl

/-- A text is shown piece by piece. -/
theorem exists_pieces {w : Renderer} {P : Part → String → Prop}
    (htext : ∀ cs, P (.text cs) (String.ofList cs)) (ps : List Part) :
    ∀ o : Outcome, (∀ c raw, .command c raw ∈ ps → ∀ o, P (.command c raw) (w.command o raw c).1) →
      ∃ shown, (w.parts o ps).1 = String.join shown ∧ List.Forall₂ P ps shown := by
  induction ps with
  | nil => intro o _; exact ⟨[], by simp [parts], .nil⟩
  | cons part rest ih =>
      intro o hcommand
      have hrest := fun c raw hmem => hcommand c raw (List.mem_cons_of_mem _ hmem)
      cases part with
      | text cs =>
          obtain ⟨shown, hshown, hall⟩ := ih o hrest
          refine ⟨String.ofList cs :: shown, ?_, .cons (htext cs) hall⟩
          simp only [parts, hshown, String.join_cons]
      | command c raw =>
          obtain ⟨shown, hshown, hall⟩ := ih (w.command o raw c).2 hrest
          refine ⟨(w.command o raw c).1 :: shown, ?_,
            .cons (hcommand c raw List.mem_cons_self o) hall⟩
          simp only [parts, hshown, String.join_cons]

end Renderer

end DocForest
