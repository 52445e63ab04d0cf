/-
Groups form a hierarchy, whatever the commands are.

A group can get its parent in two ways: from the group that is open where it is defined,
or from a name in its own text.  That name can be anything: a group that is not defined
yet, the group itself, or one that is part of it.  `nest` therefore looks before it links,
and the group is opened all the same when the link is refused, so that a later command may
find it on the stack.

None of this matters for the invariant.  Whatever the stack holds, the only command that
links two groups is `nest`, and `nest` links a free group to one that is not part of it;
`Hierarchy.attach` says that this is enough.  What remains is that the look is thorough:
`isDescendant` walks a bounded number of steps, and `isDescendant_iff` says that it never
stops too early.
-/
import DocForest.Group.Command
import DocForest.Proofs.Hierarchy

namespace DocForest

open DocText Relation

namespace Groups

/-- The groups name and list each other consistently, and none is part of itself. -/
def Arranged (groups : Groups) : Prop :=
  Hierarchy (groups.up Group.parent) (groups.parts Group.subgroups)

/-! ### The walk upwards is long enough -/

theorem isWithin_iff {groups : Groups} {ancestor : String} :
    ∀ (bound : Nat) (id : String), groups.isWithin ancestor bound id = true ↔
      ∃ n, n < bound ∧ Hierarchy.climb (groups.up Group.parent) n id = some ancestor := by
  intro bound
  induction bound with
  | zero => intro id; simp [isWithin]
  | succ bound ih =>
      intro id
      rw [isWithin]
      by_cases hid : id = ancestor
      · rw [if_pos hid]
        exact ⟨fun _ => ⟨0, by omega, by rw [hid]; rfl⟩, fun _ => rfl⟩
      rw [if_neg hid]
      -- The walk is not there yet, so it has at least one step.
      have hstep : (∃ n, n < bound + 1 ∧
            Hierarchy.climb (groups.up Group.parent) n id = some ancestor) ↔
          ∃ whole, groups.up Group.parent id = some whole ∧ ∃ n, n < bound ∧
            Hierarchy.climb (groups.up Group.parent) n whole = some ancestor := by
        constructor
        · intro hwalk
          obtain ⟨n, hn, hclimb⟩ := hwalk
          cases n with
          | zero => exact absurd (by simpa [Hierarchy.climb] using hclimb) hid
          | succ n =>
              obtain ⟨whole, hwhole, hrest⟩ := Hierarchy.climb_succ_eq_some.mp hclimb
              exact ⟨whole, hwhole, n, by omega, hrest⟩
        · intro hwalk
          obtain ⟨whole, hwhole, n, hn, hrest⟩ := hwalk
          exact ⟨n + 1, by omega, Hierarchy.climb_succ_eq_some.mpr ⟨whole, hwhole, hrest⟩⟩
      rw [hstep]
      cases hget : groups.get? id with
      | none =>
          have hup : groups.up Group.parent id = none := by
            rw [Table.up, hget]
            rfl
          simp [hup]
      | some group =>
          by_cases hroot : group.parent = ""
          · have hup : groups.up Group.parent id = none := by
              simp [Table.up, hget, hroot]
            simp [hup, hroot]
          · have hup : groups.up Group.parent id = some group.parent :=
              Table.up_of_get? hget hroot
            simp only [hup, String.isEmpty_iff, hroot, if_false, Option.some.injEq,
              exists_eq_left']
            exact ih group.parent

/-- **The look upwards misses no ancestor.** -/
theorem isDescendant_iff {groups : Groups} (h : groups.Arranged) {id ancestor : String} :
    groups.isDescendant id ancestor = true ↔
      ReflTransGen (PartOf (groups.up Group.parent)) id ancestor := by
  rw [isDescendant, isWithin_iff, Hierarchy.reflTransGen_iff_climb]
  constructor
  · intro hwalk
    obtain ⟨n, -, hn⟩ := hwalk
    exact ⟨n, hn⟩
  · intro hwalk
    obtain ⟨n, hn⟩ := hwalk
    exact ⟨n, Nat.lt_succ_of_le (Table.climb_le_size h.acyclic hn), hn⟩

/-! ### Linking two groups -/

@[simp] theorem parent_addSubgroup (g : Group) (id : String) :
    (g.addSubgroup id).parent = g.parent := by
  unfold Group.addSubgroup
  split <;> rfl

theorem subgroups_addSubgroup (g : Group) (id : String) :
    (g.addSubgroup id).subgroups = if id ∈ g.subgroups then g.subgroups else g.subgroups ++ [id] := by
  unfold Group.addSubgroup
  split <;> rfl

theorem up_attach {groups : Groups} {child parent : String} (hchild : groups.contains child = true)
    (hparent : parent ≠ "") (id : String) :
    (groups.attach child parent).up Group.parent id =
      if id = child then some parent else groups.up Group.parent id := by
  unfold attach Table.upsert
  rw [Table.up_modify_of_eq _ parent fun g => parent_addSubgroup g child,
    Table.up_insertNew _ parent rfl]
  exact Table.up_modify_set hparent (fun _ => rfl) hchild id

theorem parts_attach (groups : Groups) (child parent id : String) :
    (groups.attach child parent).parts Group.subgroups id =
      if id = parent then
        (if child ∈ groups.parts Group.subgroups id then groups.parts Group.subgroups id
         else groups.parts Group.subgroups id ++ [child])
      else groups.parts Group.subgroups id := by
  have hset : ((groups.modify child fun g => { g with parent := parent }).insertNew parent
      { id := parent }).parts Group.subgroups = groups.parts Group.subgroups := by
    rw [Table.parts_insertNew _ parent rfl]
    exact Table.parts_modify_of_eq groups child fun _ => rfl
  have hknown : ((groups.modify child fun g => { g with parent := parent }).insertNew parent
      { id := parent }).contains parent = true := by
    rw [Table.contains_iff_exists, Table.get?_insertNew, if_pos rfl]
    exact ⟨_, rfl⟩
  unfold attach Table.upsert
  rw [Table.parts_modify_add (fun g => subgroups_addSubgroup g child) hknown, hset]

/-- **Nesting keeps the groups arranged**, whether it links or refuses. -/
theorem nest_arranged {groups : Groups} (h : groups.Arranged) {child : String}
    (hchild : groups.contains child = true) (file parent : String) (line : Nat) :
    (groups.nest file child parent line).1.Arranged := by
  unfold nest
  by_cases hempty : parent = ""
  · rw [if_pos (by simpa using hempty)]
    exact h
  rw [if_neg (by simpa using hempty)]
  by_cases hcycle : groups.isDescendant parent child = true
  · rw [if_pos hcycle]
    exact h
  rw [if_neg hcycle]
  by_cases hclaimed : (!(groups.parentOf child).isEmpty && groups.parentOf child != parent) = true
  · simp only [hclaimed, if_true]
    exact h
  simp only [hclaimed]
  obtain ⟨g, hg⟩ := Table.contains_iff_exists.mp hchild
  have hfree : groups.up Group.parent child = none ∨ groups.up Group.parent child = some parent := by
    by_cases hroot : g.parent = ""
    · refine Or.inl (Table.up_eq_none.mpr fun g' hg' => ?_)
      rw [hg] at hg'
      exact Option.some.inj hg' ▸ hroot
    · have hsame : g.parent = parent := by simpa [parentOf, hg, hroot] using hclaimed
      exact Or.inr (hsame ▸ Table.up_of_get? hg hroot)
  exact Hierarchy.attach (up_attach hchild hempty) h hfree
    (fun hbelow => hcycle ((isDescendant_iff h).mpr hbelow)) (parts_attach groups child parent)

/-! ### New groups and their texts -/

theorem insertNew_arranged {groups : Groups} (h : groups.Arranged) (id : String) :
    Arranged (Table.insertNew groups id { id }) := by
  unfold Arranged
  rw [Table.up_insertNew groups id rfl, Table.parts_insertNew groups id rfl]
  exact h

theorem define_arranged {groups : Groups} (h : groups.Arranged) (id title : String)
    (d : Description) : Arranged (Grouping.define groups id title d) := by
  unfold Arranged Grouping.define Table.upsert
  rw [Table.up_modify_of_eq, Table.parts_modify_of_eq]
  · exact insertNew_arranged h id
  · intro g
    rfl
  · intro g
    rfl

theorem contains_insertNew (groups : Groups) (id : String) :
    (Table.insertNew groups id { id }).contains id = true := by
  rw [Table.contains_iff_exists, Table.get?_insertNew, if_pos rfl]
  exact ⟨_, rfl⟩

theorem contains_define (groups : Groups) (id title : String) (d : Description) :
    (Grouping.define groups id title d).contains id = true := by
  unfold Grouping.define
  rw [Table.contains_iff_exists, Table.get?_upsert, if_pos rfl]
  exact ⟨_, rfl⟩

end Groups

namespace Grouping

/-! ### One command -/

theorem openUnder_arranged {g : Grouping} (h : g.groups.Arranged) {id : String}
    (hid : g.groups.contains id = true) (parent : String) (line : Nat) :
    (g.openUnder id parent line).1.groups.Arranged :=
  Groups.nest_arranged h hid g.scope.file parent line

theorem applyDefine_arranged {g : Grouping} (h : g.groups.Arranged) (args body : String)
    (line : Nat) : (g.applyDefine args body line).1.groups.Arranged := by
  unfold applyDefine
  dsimp only
  split
  · exact h
  split
  · exact h
  · exact openUnder_arranged (Groups.define_arranged h _ _ _) (Groups.contains_define _ _ _ _) _ _

theorem applyExtend_arranged {g : Grouping} (h : g.groups.Arranged) (args : String)
    (line : Nat) : (g.applyExtend args line).1.groups.Arranged := by
  unfold applyExtend
  dsimp only
  split
  · exact h
  split
  · exact h
  · exact openUnder_arranged (Groups.insertNew_arranged h _) (Groups.contains_insertNew _ _) _ _

/-- Every command keeps the groups arranged. -/
theorem apply_arranged {g : Grouping} (h : g.groups.Arranged) (command : GroupCommand)
    (line : Nat) : (g.apply command line).1.groups.Arranged := by
  cases command with
  | define args body => exact applyDefine_arranged h args body line
  | extend args => exact applyExtend_arranged h args line
  | close => exact h
  | name args => exact h
  | endName => exact h

/-! ### All commands of all files -/

/-- Carries out the command that a text opens with; one that is not about groups changes
nothing. -/
def step (g : Grouping) (s : Opening × Nat) : Grouping :=
  match GroupCommand.ofOpening? s.1 with
  | none => g
  | some command => (g.apply command s.2).1

/-- Carries out the commands of one file, in which no group is open at first. -/
def runFile (groups : Groups) (file : String × List (Opening × Nat)) : Groups :=
  (file.2.foldl step { scope := { file := file.1 }, groups }).groups

/-- Carries out the commands of several files, which share their groups. -/
def runFiles (files : List (String × List (Opening × Nat))) : Groups :=
  files.foldl runFile {}

theorem step_arranged {g : Grouping} (h : g.groups.Arranged) (s : Opening × Nat) :
    (g.step s).groups.Arranged := by
  unfold step
  cases GroupCommand.ofOpening? s.1 with
  | none => exact h
  | some command => exact apply_arranged h command s.2

theorem foldl_step_arranged (steps : List (Opening × Nat)) :
    ∀ g : Grouping, g.groups.Arranged → (steps.foldl step g).groups.Arranged := by
  induction steps with
  | nil => intro g h; exact h
  | cons s rest ih => intro g h; exact ih _ (step_arranged h s)

theorem foldl_runFile_arranged (files : List (String × List (Opening × Nat))) :
    ∀ groups : Groups, groups.Arranged → (files.foldl runFile groups).Arranged := by
  induction files with
  | nil => intro groups h; exact h
  | cons file rest ih =>
      intro groups h
      exact ih _ (foldl_step_arranged file.2 _ h)

theorem empty_arranged : Groups.Arranged {} where
  linked := by intro part whole; simp [Table.up, Table.parts, Table.get?]
  once := by intro whole; simp [Table.parts, Table.get?]
  acyclic := by
    intro id hcycle
    obtain ⟨n, hn⟩ := Hierarchy.transGen_iff_climb.mp hcycle
    simp [Hierarchy.climb, Table.up, Table.get?] at hn

theorem runFiles_arranged (files : List (String × List (Opening × Nat))) :
    (runFiles files).Arranged :=
  foldl_runFile_arranged files {} empty_arranged

/--
**Groups form a hierarchy after any commands in any files.**

A group names a parent exactly when that parent lists it, every named parent is a group,
nothing is listed twice, no group is part of itself, and the bounded look upwards finds
every group that another one is part of.
-/
theorem groups_hierarchy (files : List (String × List (Opening × Nat))) :
    let groups := runFiles files
    (∀ child parent, parent ≠ "" →
      ((∃ g, groups.get? child = some g ∧ g.parent = parent) ↔
        ∃ g, groups.get? parent = some g ∧ child ∈ g.subgroups)) ∧
    (∀ id g, groups.get? id = some g → g.subgroups.Nodup) ∧
    (∀ id g, groups.get? id = some g → g.parent ≠ "" → groups.contains g.parent = true) ∧
    (∀ id, ¬ TransGen (PartOf (groups.up Group.parent)) id id) ∧
    (∀ id ancestor, groups.isDescendant id ancestor = true ↔
      ReflTransGen (PartOf (groups.up Group.parent)) id ancestor) := by
  intro groups
  have h : groups.Arranged := runFiles_arranged files
  refine ⟨?_, ?_, ?_, h.acyclic, fun id ancestor => Groups.isDescendant_iff h⟩
  · intro child parent hparent
    rw [← Table.mem_parts, ← h.linked, Table.up_eq_some]
    simp [hparent]
  · intro id g hg
    have honce := h.once id
    rwa [Table.parts, hg] at honce
  · intro id g hg hparent
    have hmem := (h.linked id g.parent).mp (Table.up_of_get? hg hparent)
    obtain ⟨p, hp, -⟩ := Table.mem_parts.mp hmem
    exact Table.contains_of_get? hp

end Grouping

end DocForest
