/-
The changes that a file notes agree with what its commands do.

The group of a declaration is asked for when all commands of the file are done, and by then
the stack is that of the last line.  So every change is noted with its line, and the question
is answered from the notes.  The answer is the right one if it is what somebody would see who
stops before the line in question and looks at the stack itself.

Which groups exist does not matter for this.  A group is opened whether it could be made part
of another or not, so a scope follows the commands alone (`scope_apply`).  Two facts about one
command are then enough: the last note is what the stack shows (`Recorded`), and a command
notes nothing under a line other than its own (`Continues`).
-/
import DocForest.Proofs.Groups

namespace DocForest

open DocText

/-! ### What a command does to the open groups -/

/-- The group that a command opens, if its arguments are right. -/
def GroupCommand.opens? : GroupCommand → Option String
  | define args _ =>
    let (id, rest) := Text.splitFirstWord args.toList
    if id.isEmpty || (Text.stripQuotes (Text.trim rest)).isEmpty || !Text.isValidId id then none
    else some (String.ofList id)
  | extend args =>
    let (id, _) := Text.splitFirstWord args.toList
    if id.isEmpty || !Text.isValidId id then none else some (String.ofList id)
  | _ => none

namespace GroupScope

/-- The scope behind a command, whatever groups there are. -/
def follow (s : GroupScope) (command : GroupCommand) (line : Nat) : GroupScope :=
  match command with
  | .define _ _ | .extend _ => (command.opens?.map (s.enter · line)).getD s
  | .close => (s.leave line).1
  | .name args => s.enterMember args line
  | .endName => (s.leaveMember line).1

/-- **What a command can do to a scope**: nothing, or one change with one note of it. -/
theorem follow_cases (s : GroupScope) (command : GroupCommand) (line : Nat) :
    s.follow command line = s ∨
    (∃ stack, s.follow command line =
      { s with stack, changes := s.changes ++ [(line, stack.headD "")] }) ∨
    ∃ name, s.follow command line =
      { s with memberGroup := name, memberChanges := s.memberChanges ++ [(line, name)] } := by
  have hopen : (command.opens?.map (s.enter · line)).getD s = s ∨
      ∃ stack, (command.opens?.map (s.enter · line)).getD s =
        { s with stack, changes := s.changes ++ [(line, stack.headD "")] } := by
    cases command.opens? with
    | none => exact Or.inl rfl
    | some id => exact Or.inr ⟨id :: s.stack, rfl⟩
  cases command with
  | define args body => exact hopen.imp id Or.inl
  | extend args => exact hopen.imp id Or.inl
  | close =>
      have hfollow : s.follow .close line = (s.leave line).1 := rfl
      rw [hfollow, leave]
      cases s.stack with
      | nil => exact Or.inl rfl
      | cons _ outer => exact Or.inr (Or.inl ⟨outer, rfl⟩)
  | name args => exact Or.inr (Or.inr ⟨args, rfl⟩)
  | endName =>
      have hfollow : s.follow .endName line = (s.leaveMember line).1 := rfl
      rw [hfollow, leaveMember]
      split
      · exact Or.inl rfl
      · exact Or.inr (Or.inr ⟨"", rfl⟩)

/-! ### Notes and stack -/

/-- The last notes are what is open. -/
structure Recorded (s : GroupScope) : Prop where
  groups : (s.changes.getLast?.map (·.2)).getD "" = s.current
  members : (s.memberChanges.getLast?.map (·.2)).getD "" = s.memberGroup

theorem recorded_fresh (file : String) : Recorded { file } :=
  ⟨rfl, rfl⟩

theorem Recorded.follow {s : GroupScope} (h : s.Recorded) (command : GroupCommand) (line : Nat) :
    (s.follow command line).Recorded := by
  rcases s.follow_cases command line with hsame | ⟨stack, hstack⟩ | ⟨name, hname⟩
  · rw [hsame]
    exact h
  · rw [hstack]
    exact ⟨by simp [current], h.members⟩
  · rw [hname]
    exact ⟨h.groups, by simp⟩

/-- One scope came out of another, and the lines of all new notes are among those that `lines`
admits. -/
structure Continues (lines : Nat → Prop) (s s' : GroupScope) : Prop where
  changes : ∃ later, s'.changes = s.changes ++ later ∧ ∀ p ∈ later, lines p.1
  memberChanges : ∃ later, s'.memberChanges = s.memberChanges ++ later ∧ ∀ p ∈ later, lines p.1

theorem Continues.refl (lines : Nat → Prop) (s : GroupScope) : Continues lines s s :=
  ⟨⟨[], by simp, by simp⟩, ⟨[], by simp, by simp⟩⟩

theorem Continues.trans {lines : Nat → Prop} {s₁ s₂ s₃ : GroupScope}
    (h₁ : Continues lines s₁ s₂) (h₂ : Continues lines s₂ s₃) : Continues lines s₁ s₃ := by
  have hjoin : ∀ {a b c : Changes}, (∃ later, b = a ++ later ∧ ∀ p ∈ later, lines p.1) →
      (∃ later, c = b ++ later ∧ ∀ p ∈ later, lines p.1) →
      ∃ later, c = a ++ later ∧ ∀ p ∈ later, lines p.1 := by
    rintro a b c ⟨l, rfl, hl⟩ ⟨l', rfl, hl'⟩
    refine ⟨l ++ l', by simp, ?_⟩
    intro p hp
    rcases List.mem_append.mp hp with hp | hp
    · exact hl p hp
    · exact hl' p hp
  exact ⟨hjoin h₁.changes h₂.changes, hjoin h₁.memberChanges h₂.memberChanges⟩

theorem continues_follow {lines : Nat → Prop} (s : GroupScope) (command : GroupCommand)
    {line : Nat} (hline : lines line) : Continues lines s (s.follow command line) := by
  rcases s.follow_cases command line with hsame | ⟨stack, hstack⟩ | ⟨name, hname⟩
  · rw [hsame]
    exact Continues.refl lines s
  · rw [hstack]
    exact ⟨⟨_, rfl, by simpa using hline⟩, ⟨[], by simp, by simp⟩⟩
  · rw [hname]
    exact ⟨⟨[], by simp, by simp⟩, ⟨_, rfl, by simpa using hline⟩⟩

/-! ### Looking a line up in the notes -/

/-- Notes from the line in question on are not looked at. -/
theorem valueAt_append {early late : Changes} {line : Nat} (hearly : ∀ p ∈ early, p.1 < line)
    (hlate : ∀ p ∈ late, line ≤ p.1) :
    Changes.valueAt (early ++ late) line = (early.getLast?.map (·.2)).getD "" := by
  have hkept : (early ++ late).takeWhile (fun p => decide (p.1 < line)) = early := by
    rw [List.takeWhile_append_of_pos (by simpa using hearly)]
    cases late with
    | nil => simp
    | cons p rest =>
        have hstop : ¬ p.1 < line := Nat.not_lt.mpr (hlate p (by simp))
        simp [hstop]
  show (((early ++ late).takeWhile fun p => decide (p.1 < line)).getLast?.map (·.2)).getD "" = _
  rw [hkept]

/-- What the notes say of a line is what was open before it. -/
theorem Recorded.valueAt_eq {s s' : GroupScope} (h : s.Recorded) {line : Nat}
    (hearly : (∀ p ∈ s.changes, p.1 < line) ∧ ∀ p ∈ s.memberChanges, p.1 < line)
    (hlate : Continues (line ≤ ·) s s') :
    s'.groupAt line = s.current ∧ s'.memberGroupAt line = s.memberGroup := by
  obtain ⟨later, hchanges, hlater⟩ := hlate.changes
  obtain ⟨laterMembers, hmembers, hlaterMembers⟩ := hlate.memberChanges
  refine ⟨?_, ?_⟩
  · rw [groupAt, hchanges, valueAt_append hearly.1 hlater]
    exact h.groups
  · rw [memberGroupAt, hmembers, valueAt_append hearly.2 hlaterMembers]
    exact h.members

end GroupScope

/-! ### All commands of a file -/

namespace Grouping

/-- **The open groups follow the commands alone.** -/
theorem scope_apply (g : Grouping) (command : GroupCommand) (line : Nat) :
    (g.apply command line).1.scope = g.scope.follow command line := by
  cases command with
  | define args body =>
      unfold apply applyDefine GroupScope.follow GroupCommand.opens?
      dsimp only
      by_cases hgiven : ((Text.splitFirstWord args.toList).1.isEmpty ||
          (Text.stripQuotes (Text.trim (Text.splitFirstWord args.toList).2)).isEmpty) = true
      · simp [hgiven, refuse]
      · by_cases hvalid : Text.isValidId (Text.splitFirstWord args.toList).1 = true
        · simp [hgiven, hvalid, openUnder]
        · simp [hgiven, hvalid, refuse]
  | extend args =>
      unfold apply applyExtend GroupScope.follow GroupCommand.opens?
      dsimp only
      by_cases hgiven : (Text.splitFirstWord args.toList).1.isEmpty = true
      · simp [hgiven, refuse]
      · by_cases hvalid : Text.isValidId (Text.splitFirstWord args.toList).1 = true
        · simp [hgiven, hvalid, openUnder]
        · simp [hgiven, hvalid, refuse]
  | close => rfl
  | name args => rfl
  | endName => rfl

/-- The open groups of a file behind some commands, with the groups that there are before. -/
def scopeAfter (file : String) (groups : Groups) (steps : List (Opening × Nat)) : GroupScope :=
  (steps.foldl step { scope := { file }, groups }).scope

/-- The scope behind the command that a text opens with. -/
def followStep (s : GroupScope) (o : Opening × Nat) : GroupScope :=
  ((GroupCommand.ofOpening? o.1).map (s.follow · o.2)).getD s

theorem scope_step (g : Grouping) (o : Opening × Nat) :
    (g.step o).scope = followStep g.scope o := by
  unfold step followStep
  cases GroupCommand.ofOpening? o.1 with
  | none => rfl
  | some command => exact scope_apply g command o.2

theorem scope_foldl_step (steps : List (Opening × Nat)) :
    ∀ g : Grouping, (steps.foldl step g).scope = steps.foldl followStep g.scope := by
  induction steps with
  | nil => intro g; rfl
  | cons o rest ih =>
      intro g
      rw [List.foldl_cons, ih, scope_step, List.foldl_cons]

theorem followStep_recorded {s : GroupScope} (h : s.Recorded) (o : Opening × Nat) :
    (followStep s o).Recorded := by
  unfold followStep
  cases GroupCommand.ofOpening? o.1 with
  | none => exact h
  | some command => exact h.follow command o.2

theorem foldl_followStep_recorded (steps : List (Opening × Nat)) :
    ∀ s : GroupScope, s.Recorded → (steps.foldl followStep s).Recorded := by
  induction steps with
  | nil => intro s h; exact h
  | cons o rest ih => intro s h; exact ih _ (followStep_recorded h o)

theorem continues_followStep {lines : Nat → Prop} (s : GroupScope) {o : Opening × Nat}
    (ho : lines o.2) : GroupScope.Continues lines s (followStep s o) := by
  unfold followStep
  cases GroupCommand.ofOpening? o.1 with
  | none => exact GroupScope.Continues.refl lines s
  | some command => exact GroupScope.continues_follow s command ho

theorem continues_foldl_followStep {lines : Nat → Prop} (steps : List (Opening × Nat)) :
    ∀ s : GroupScope, (∀ o ∈ steps, lines o.2) →
      GroupScope.Continues lines s (steps.foldl followStep s) := by
  induction steps with
  | nil => intro s _; exact GroupScope.Continues.refl lines s
  | cons o rest ih =>
      intro s hlines
      exact (continues_followStep s (hlines o (by simp))).trans
        (ih _ fun o' ho' => hlines o' (by simp [ho']))

/-- Commands in the order of their lines come in two runs: those before a line, and the rest. -/
theorem exists_before {steps : List (Opening × Nat)}
    (hsorted : steps.Pairwise fun s t => s.2 ≤ t.2) (line : Nat) :
    ∃ rest, steps = steps.filter (·.2 < line) ++ rest ∧ ∀ o ∈ rest, line ≤ o.2 := by
  induction steps with
  | nil => exact ⟨[], rfl, by simp⟩
  | cons o steps ih =>
      obtain ⟨hfirst, hsteps⟩ := List.pairwise_cons.mp hsorted
      by_cases ho : o.2 < line
      · obtain ⟨rest, hsplit, hrest⟩ := ih hsteps
        refine ⟨rest, ?_, hrest⟩
        rw [List.filter_cons_of_pos (by simpa using ho), List.cons_append, ← hsplit]
      · -- From the first late command on, all are late.
        have hlate : ∀ o' ∈ o :: steps, line ≤ o'.2 := by
          intro o' ho'
          rcases List.mem_cons.mp ho' with rfl | hmem
          · exact Nat.le_of_not_lt ho
          · exact Nat.le_trans (Nat.le_of_not_lt ho) (hfirst o' hmem)
        refine ⟨o :: steps, ?_, hlate⟩
        rw [List.filter_eq_nil_iff.mpr, List.nil_append]
        intro o' ho'
        simpa using hlate o' ho'

/--
**What the notes say of a line is what the commands before it leave open.**

The commands come in the order of their lines, several of them perhaps on one line.  Whatever
groups there are, the group of a line and its member group are those of a file that starts
afresh and is given only the commands of earlier lines; and closing the file does not change
this.
-/
theorem groupAt_eq_current (file : String) (groups groups' : Groups)
    (steps : List (Opening × Nat)) (hsorted : steps.Pairwise fun s t => s.2 ≤ t.2) (line : Nat) :
    let done := scopeAfter file groups steps
    let before := scopeAfter file groups' (steps.filter (·.2 < line))
    (done.groupAt line = before.current ∧ done.memberGroupAt line = before.memberGroup) ∧
      done.finish.1.groupAt line = before.current ∧
      done.finish.1.memberGroupAt line = before.memberGroup := by
  intro done before
  have hfinish : done.finish.1.groupAt line = done.groupAt line ∧
      done.finish.1.memberGroupAt line = done.memberGroupAt line := ⟨rfl, rfl⟩
  rw [hfinish.1, hfinish.2, and_self]
  obtain ⟨rest, hsplit, hrest⟩ := exists_before hsorted line
  have hbefore : before = (steps.filter (·.2 < line)).foldl followStep { file } :=
    scope_foldl_step _ _
  have hdone : done = rest.foldl followStep before := by
    rw [hbefore, ← List.foldl_append, ← hsplit]
    exact scope_foldl_step _ _
  -- The notes so far all come from the commands before the line.
  have hearly : GroupScope.Continues (· < line) { file } before := by
    rw [hbefore]
    exact continues_foldl_followStep _ _ (by simp)
  obtain ⟨early, hchanges, hlines⟩ := hearly.changes
  obtain ⟨earlyMembers, hmembers, hmemberLines⟩ := hearly.memberChanges
  have hrecorded : before.Recorded := by
    rw [hbefore]
    exact foldl_followStep_recorded _ _ (GroupScope.recorded_fresh file)
  refine hrecorded.valueAt_eq ⟨?_, ?_⟩ ?_
  · rw [hchanges]
    exact hlines
  · rw [hmembers]
    exact hmemberLines
  · rw [hdone]
    exact continues_foldl_followStep rest before hrest

/-- A group inside another, which is closed on the line it is opened on, a definition without
a title, and a member group. -/
def nestedSteps : List (Opening × Nat) :=
  [(⟨"defgroup", "outer Outer", ""⟩, 1), (⟨"addtogroup", "inner", ""⟩, 2),
    (⟨"endgroup", "", ""⟩, 2), (⟨"defgroup", "untitled", ""⟩, 3), (⟨"name", "Helpers", ""⟩, 3),
    (⟨"endname", "", ""⟩, 4), (⟨"endgroup", "", ""⟩, 6)]

/-- Before line 4 the outer group and the member group are open. -/
theorem nestedSteps_groupAt :
    (nestedSteps.Pairwise fun s t => s.2 ≤ t.2) ∧
      (scopeAfter "a.h" {} nestedSteps).groupAt 4 = "outer" ∧
      (scopeAfter "a.h" {} nestedSteps).memberGroupAt 4 = "Helpers" := by
  have hsorted : nestedSteps.Pairwise fun s t => s.2 ≤ t.2 := by decide
  obtain ⟨⟨hgroup, hmember⟩, -⟩ := groupAt_eq_current "a.h" {} {} nestedSteps hsorted 4
  refine ⟨hsorted, ?_, ?_⟩
  · rw [hgroup]
    decide +kernel
  · rw [hmember]
    decide +kernel

end Grouping

end DocForest
