/-
Where the ids of groups come from.

A group is created in three places.  Two of them are the commands that open a group, and both
look at the id first.  The third is `nest`, which creates the parent of a group if it is not
known, and a parent comes from one of two sources: from the stack, where only ids are that were
looked at, or from the text of a definition, whose word is taken as it is.

So every group either was opened by a command, and then its id is valid, or was adopted: named
in the text of a definition that stands outside of all groups (`contains_runFiles_iff`).  The
groups have valid ids exactly if the adopted ones have.
-/
import DocForest.Proofs.Commands
import DocForest.Proofs.GroupLines

namespace DocForest

open DocText

namespace DocText

/-! ### The group that a text names -/

/-- A group is named by a word. -/
theorem CommandWord.read?_ingroup {word : CommandWord} {ts : List Token} {found : Found}
    (h : word.read? ts = some found) {id : String} (hid : found.command = .ingroup id) :
    ∃ t ∈ ts, id = String.ofList t.text := by
  cases word with
  | ref | subpage =>
      obtain ⟨target, text, hcommand⟩ := link?_command h
      rw [hcommand] at hid
      cases hid
  | see =>
      obtain ⟨targets, rfl⟩ := seeAlso?_eq_some h
      cases hid
  | relates | anchor =>
      obtain ⟨sp, w, vs, -, -, rfl⟩ := withWord?_eq_some h
      cases hid
  | heading level =>
      obtain ⟨sp, w, vs, title, -, -, rfl⟩ := heading?_eq_some h
      cases hid
  | ingroup =>
      obtain ⟨sp, w, vs, -, rfl, rfl⟩ := withWord?_eq_some h
      exact ⟨⟨.word, w⟩, by simp, (Command.ingroup.inj hid).symm⟩

theorem ne_empty_of_ingroup {ts : List Token} (hts : Lexed ts) {id : String} {raw : List Char}
    (h : (Command.ingroup id, raw) ∈ commandsIn ts) : id ≠ "" := by
  fun_induction commandsIn ts with
  | case1 => simp at h
  | case2 t ts hnone ih => exact ih hts.2 h
  | case3 t ts found hfound ih =>
      rcases List.mem_cons.mp h with heq | hrest
      · obtain ⟨hcommand, -⟩ := Prod.mk.inj heq
        obtain ⟨-, word, -, hread | ⟨-, rfl⟩⟩ := find?_cases hfound
        · obtain ⟨u, hu, rfl⟩ := CommandWord.read?_ingroup hread hcommand.symm
          simpa using hts.2.text_ne_nil hu
        · cases hcommand
      · exact ih (hts.2.drop _) hrest

/-- No text names a group without an id. -/
theorem takeGroup_ne_empty {text id : String} (h : (takeGroup text).1 = some id) : id ≠ "" := by
  have hfound : (parts text.toList).findSome? Part.group? = some id := by
    unfold takeGroup at h
    dsimp only at h
    split at h
    · cases h
    · rename_i hsome
      rw [hsome]
      exact h
  obtain ⟨p, hp, hgroup⟩ := List.exists_of_findSome?_eq_some hfound
  have hcommand : Command.ingroup id ∈ commands text.toList := by
    refine List.mem_filterMap.mpr ⟨p, hp, ?_⟩
    unfold Part.group? at hgroup
    split at hgroup
    · rw [← Option.some.inj hgroup]
      rfl
    · cases hgroup
  rw [commands_eq] at hcommand
  obtain ⟨⟨c, raw⟩, hmem, rfl⟩ := List.mem_map.mp hcommand
  exact ne_empty_of_ingroup (lexed_tokens _) hmem

end DocText

/-- A command opens groups with valid ids only. -/
theorem GroupCommand.isValidId_of_opens? {c : GroupCommand} {id : String}
    (h : c.opens? = some id) : Text.isValidId id.toList = true := by
  cases c with
  | define args _ | extend args =>
      simp only [opens?, Option.ite_none_left_eq_some, Bool.or_eq_true, not_or,
        Bool.not_eq_true', Bool.not_eq_false, Option.some.injEq] at h
      obtain ⟨⟨-, hvalid⟩, rfl⟩ := h
      rwa [String.toList_ofList]
  | close | name | endName => cases h

/-- A group that a command leaves open was open before, or the command opens it. -/
theorem GroupScope.mem_stack_follow {s : GroupScope} {command : GroupCommand} {line : Nat}
    {id : String} (h : id ∈ (s.follow command line).stack) :
    id ∈ s.stack ∨ command.opens? = some id := by
  have hopen : id ∈ ((command.opens?.map (s.enter · line)).getD s).stack →
      id ∈ s.stack ∨ command.opens? = some id := by
    intro hmem
    cases hopens : command.opens? with
    | none =>
        rw [hopens] at hmem
        exact Or.inl hmem
    | some new =>
        rw [hopens] at hmem
        rcases List.mem_cons.mp hmem with rfl | hold
        · exact Or.inr rfl
        · exact Or.inl hold
  cases command with
  | define args body => exact hopen h
  | extend args => exact hopen h
  | close =>
      have hstack : (s.leave line).1.stack ⊆ s.stack := by
        unfold leave
        split <;> simp_all
      exact Or.inl (hstack h)
  | name args => exact Or.inl h
  | endName =>
      have hstack : (s.leaveMember line).1.stack = s.stack := by
        unfold leaveMember
        split <;> rfl
      exact Or.inl (hstack ▸ h)

namespace Groups

/-! ### The groups behind a nesting -/

theorem contains_attach {groups : Groups} {child parent id : String} :
    (groups.attach child parent).contains id = true ↔
      groups.contains id = true ∨ id = parent := by
  unfold attach
  rw [Table.contains_upsert_iff, Table.contains_modify]

/-- What is part of a known group is known. -/
theorem contains_of_isDescendant {groups : Groups} {id ancestor : String}
    (hknown : groups.contains ancestor = true) (h : groups.isDescendant id ancestor = true) :
    groups.contains id = true := by
  rw [isDescendant, isWithin] at h
  split at h
  · rename_i hsame
    rwa [hsame]
  · split at h
    · rename_i hget
      exact Table.contains_of_get? hget
    · cases h

/-- The parent of a group is a group. -/
theorem Arranged.contains_parentOf {groups : Groups} (h : groups.Arranged) {id : String}
    (hparent : groups.parentOf id ≠ "") : groups.contains (groups.parentOf id) = true := by
  cases hget : groups.get? id with
  | none => simp [parentOf, hget] at hparent
  | some g =>
      have heq : groups.parentOf id = g.parent := by simp [parentOf, hget]
      rw [heq] at hparent ⊢
      obtain ⟨p, hp, -⟩ :=
        Table.mem_parts.mp ((h.linked id g.parent).mp (Table.up_of_get? hget hparent))
      exact Table.contains_of_get? hp

/-- **Nesting creates the parent**, if there is one and the group has none yet. -/
theorem contains_nest {groups : Groups} (h : groups.Arranged) {child : String}
    (hchild : groups.contains child = true) {file parent : String} {line : Nat} {id : String} :
    (groups.nest file child parent line).1.contains id = true ↔
      groups.contains id = true ∨ (id = parent ∧ parent ≠ "" ∧ groups.parentOf child = "") := by
  unfold nest
  by_cases hempty : parent = ""
  · simp [hempty]
  rw [if_neg (by simpa using hempty)]
  by_cases hcycle : groups.isDescendant parent child = true
  · -- A parent that is part of the group is known.
    have hparent := contains_of_isDescendant hchild hcycle
    rw [if_pos hcycle]
    refine ⟨Or.inl, ?_⟩
    intro hcase
    rcases hcase with hid | ⟨rfl, -, -⟩
    · exact hid
    · exact hparent
  rw [if_neg hcycle]
  by_cases hfree : groups.parentOf child = ""
  · simp [hfree, hempty, contains_attach]
  by_cases hclaimed : (!(groups.parentOf child).isEmpty && groups.parentOf child != parent) = true
  · simp [hclaimed, hfree]
  · -- The group has this parent already.
    have hsame : groups.parentOf child = parent := by simpa [hfree] using hclaimed
    have hparent : groups.contains parent = true := hsame ▸ h.contains_parentOf hfree
    simp only [hclaimed, Bool.false_eq_true, if_false, contains_attach, hfree, and_false, or_false]
    refine ⟨?_, Or.inl⟩
    intro hcase
    rcases hcase with hid | rfl
    · exact hid
    · exact hparent

end Groups

namespace Grouping

/-! ### One command -/

/-- The group that a definition becomes part of because its text names it.  The definition
stands outside of all groups, and the group is part of no other yet. -/
def adopts? (g : Grouping) : GroupCommand → Option String
  | .define args body =>
    (GroupCommand.define args body).opens?.bind fun id =>
      if g.scope.current.isEmpty && (g.groups.parentOf id).isEmpty then (takeGroup body).1 else none
  | _ => none

/-- The groups are arranged, and those that are open exist. -/
structure Standing (g : Grouping) : Prop where
  arranged : g.groups.Arranged
  known : ∀ id ∈ g.scope.stack, g.groups.contains id = true

theorem Standing.contains_current {g : Grouping} (h : g.Standing) (hopen : g.scope.current ≠ "") :
    g.groups.contains g.scope.current = true := by
  unfold GroupScope.current at hopen ⊢
  cases hstack : g.scope.stack with
  | nil => simp [hstack] at hopen
  | cons id outer => exact h.known id (by simp [hstack])

theorem parentOf_define (groups : Groups) (id title : String) (d : Description) :
    (define groups id title d).parentOf id = groups.parentOf id := by
  unfold Groups.parentOf define
  rw [Table.get?_upsert, if_pos rfl]
  cases groups.get? id <;> rfl

theorem contains_define_iff {groups : Groups} {id title : String} {d : Description} {k : String} :
    (define groups id title d).contains k = true ↔ groups.contains k = true ∨ k = id :=
  Table.contains_upsert_iff

/-- The parent of a group that is defined: the group that is open, or else the one that its text
names. -/
def parentFor (g : Grouping) (body : String) : String :=
  if g.scope.current = "" then ((takeGroup body).1).getD "" else g.scope.current

/-- What a definition does to the groups. -/
theorem groups_applyDefine (g : Grouping) (args body : String) (line : Nat) :
    ((GroupCommand.define args body).opens? = none ∧
      (g.applyDefine args body line).1.groups = g.groups) ∨
    ∃ id title d, (GroupCommand.define args body).opens? = some id ∧
      (g.applyDefine args body line).1.groups =
        ((define g.groups id title d).nest g.scope.file id (g.parentFor body) line).1 := by
  have hparent : (if g.scope.current.isEmpty then ((takeGroup body).1).getD g.scope.current
      else g.scope.current) = g.parentFor body := by
    unfold parentFor
    by_cases hopen : g.scope.current = ""
    · simp [hopen]
    · simp [hopen]
  unfold applyDefine GroupCommand.opens?
  dsimp only
  rw [hparent]
  by_cases hgiven : ((Text.splitFirstWord args.toList).1.isEmpty ||
      (Text.stripQuotes (Text.trim (Text.splitFirstWord args.toList).2)).isEmpty) = true
  · exact Or.inl (by simp [hgiven, refuse])
  by_cases hvalid : Text.isValidId (Text.splitFirstWord args.toList).1 = true
  · refine Or.inr ⟨String.ofList (Text.splitFirstWord args.toList).1,
      String.ofList (Text.stripQuotes (Text.trim (Text.splitFirstWord args.toList).2)),
      describe (takeGroup body).2, ?_, ?_⟩
    · simp [hgiven, hvalid]
    · simp [hgiven, hvalid, openUnder]
  · exact Or.inl (by simp [hgiven, hvalid, refuse])

/-- What opening a group again does to the groups. -/
theorem groups_applyExtend (g : Grouping) (args : String) (line : Nat) :
    ((GroupCommand.extend args).opens? = none ∧
      (g.applyExtend args line).1.groups = g.groups) ∨
    ∃ id, (GroupCommand.extend args).opens? = some id ∧
      (g.applyExtend args line).1.groups =
        (Groups.nest (Table.insertNew g.groups id { id }) g.scope.file id g.scope.current
          line).1 := by
  unfold applyExtend GroupCommand.opens?
  dsimp only
  by_cases hgiven : (Text.splitFirstWord args.toList).1.isEmpty = true
  · exact Or.inl (by simp [hgiven, refuse])
  by_cases hvalid : Text.isValidId (Text.splitFirstWord args.toList).1 = true
  · refine Or.inr ⟨String.ofList (Text.splitFirstWord args.toList).1, ?_, ?_⟩
    · simp [hgiven, hvalid]
    · simp [hgiven, hvalid, openUnder]
  · exact Or.inl (by simp [hgiven, hvalid, refuse])

/-- A definition in an open group adopts nothing: its parent is known. -/
theorem contains_applyDefine {g : Grouping} (h : g.Standing) {args body : String} {line : Nat}
    {id : String} :
    (g.applyDefine args body line).1.groups.contains id = true ↔
      g.groups.contains id = true ∨ (GroupCommand.define args body).opens? = some id ∨
        g.adopts? (.define args body) = some id := by
  rcases g.groups_applyDefine args body line with
    ⟨hnone, hgroups⟩ | ⟨new, title, d, hopens, hgroups⟩
  · rw [hgroups, adopts?, hnone]
    simp
  have hknown : (define g.groups new title d).contains new = true :=
    contains_define_iff.mpr (Or.inr rfl)
  rw [hgroups, Groups.contains_nest (Groups.define_arranged h.arranged _ _ _) hknown,
    contains_define_iff, parentOf_define, adopts?, hopens, parentFor, or_assoc]
  simp only [Option.some.injEq, Option.bind_some, String.isEmpty_iff, Bool.and_eq_true]
  rw [eq_comm (a := id) (b := new)]
  by_cases hopen : g.scope.current = ""
  · by_cases hfree : g.groups.parentOf new = ""
    · simp only [hopen, hfree, if_true, and_self, and_true]
      cases htake : (takeGroup body).1 with
      | none => simp
      | some parent =>
          have hparent : parent ≠ "" := takeGroup_ne_empty htake
          simp [hparent, eq_comm (a := id)]
    · simp [hfree]
  · -- The open group is its parent, and it is known.
    simp only [hopen, if_false, false_and, reduceCtorEq, or_false]
    refine ⟨?_, ?_⟩
    · rintro (hid | rfl | ⟨rfl, -, -⟩)
      · exact Or.inl hid
      · exact Or.inr rfl
      · exact Or.inl (h.contains_current hopen)
    · rintro (hid | rfl)
      · exact Or.inl hid
      · exact Or.inr (Or.inl rfl)

theorem contains_applyExtend {g : Grouping} (h : g.Standing) {args : String} {line : Nat}
    {id : String} :
    (g.applyExtend args line).1.groups.contains id = true ↔
      g.groups.contains id = true ∨ (GroupCommand.extend args).opens? = some id := by
  rcases g.groups_applyExtend args line with ⟨hnone, hgroups⟩ | ⟨new, hopens, hgroups⟩
  · rw [hgroups, hnone]
    simp
  have hknown : (g.groups.insertNew new { id := new }).contains new = true :=
    Table.contains_insertNew_iff.mpr (Or.inr rfl)
  rw [hgroups, Groups.contains_nest (Groups.insertNew_arranged h.arranged new) hknown,
    Table.contains_insertNew_iff, hopens, Option.some.injEq, or_assoc, eq_comm (a := id) (b := new)]
  refine ⟨?_, ?_⟩
  · rintro (hid | rfl | ⟨rfl, hopen, -⟩)
    · exact Or.inl hid
    · exact Or.inr rfl
    · exact Or.inl (h.contains_current hopen)
  · rintro (hid | rfl)
    · exact Or.inl hid
    · exact Or.inr (Or.inl rfl)

/-- **What a command enters**: the group that it opens, and the one that it adopts. -/
theorem contains_apply {g : Grouping} (h : g.Standing) (command : GroupCommand) (line : Nat)
    {id : String} :
    (g.apply command line).1.groups.contains id = true ↔
      g.groups.contains id = true ∨ command.opens? = some id ∨ g.adopts? command = some id := by
  cases command with
  | define args body => exact contains_applyDefine h
  | extend args =>
      have hnone : g.adopts? (.extend args) = none := rfl
      show (g.applyExtend args line).1.groups.contains id = true ↔ _
      rw [hnone, contains_applyExtend h]
      simp
  | close | name | endName => simp [apply, adopts?, GroupCommand.opens?]

theorem Standing.apply {g : Grouping} (h : g.Standing) (command : GroupCommand) (line : Nat) :
    (g.apply command line).1.Standing where
  arranged := apply_arranged h.arranged command line
  known := by
    intro id hid
    rw [scope_apply] at hid
    rw [contains_apply h]
    rcases GroupScope.mem_stack_follow hid with hold | hopens
    · exact Or.inl (h.known id hold)
    · exact Or.inr (Or.inl hopens)

/-! ### All commands of all files -/

/-- The group commands that texts open with, each with what it finds. -/
def moments (g : Grouping) : List (Opening × Nat) → List (Grouping × GroupCommand)
  | [] => []
  | s :: rest =>
    ((GroupCommand.ofOpening? s.1).map (g, ·)).toList ++ moments (g.step s) rest

/-- The group commands of several files, which share their groups. -/
def momentsOf (groups : Groups) :
    List (String × List (Opening × Nat)) → List (Grouping × GroupCommand)
  | [] => []
  | file :: rest =>
    moments { scope := { file := file.1 }, groups } file.2 ++ momentsOf (runFile groups file) rest

/-- Some command opens or adopts a group. -/
def Entered (ms : List (Grouping × GroupCommand)) (id : String) : Prop :=
  ∃ m ∈ ms, m.2.opens? = some id ∨ m.1.adopts? m.2 = some id

theorem entered_append {ms ms' : List (Grouping × GroupCommand)} {id : String} :
    Entered (ms ++ ms') id ↔ Entered ms id ∨ Entered ms' id := by
  simp [Entered, or_and_right, exists_or]

theorem Standing.step {g : Grouping} (h : g.Standing) (s : Opening × Nat) :
    (g.step s).Standing := by
  unfold Grouping.step
  cases GroupCommand.ofOpening? s.1 with
  | none => exact h
  | some command => exact h.apply command s.2

theorem contains_step {g : Grouping} (h : g.Standing) (s : Opening × Nat) {id : String} :
    (g.step s).groups.contains id = true ↔
      g.groups.contains id = true ∨
        Entered ((GroupCommand.ofOpening? s.1).map (g, ·)).toList id := by
  unfold Grouping.step Entered
  cases GroupCommand.ofOpening? s.1 with
  | none => simp
  | some command => simpa using contains_apply h command s.2

theorem contains_foldl_step (steps : List (Opening × Nat)) {id : String} :
    ∀ g : Grouping, g.Standing →
      ((steps.foldl step g).groups.contains id = true ↔
        g.groups.contains id = true ∨ Entered (moments g steps) id) := by
  induction steps with
  | nil => intro g _; simp [moments, Entered]
  | cons s rest ih =>
      intro g h
      rw [List.foldl_cons, ih _ (h.step s), contains_step h, moments, entered_append, or_assoc]

/-- In a new file no group is open. -/
theorem standing_fresh {groups : Groups} (h : groups.Arranged) (file : String) :
    Standing { scope := { file }, groups } :=
  ⟨h, by simp⟩

theorem contains_foldl_runFile (files : List (String × List (Opening × Nat))) {id : String} :
    ∀ groups : Groups, groups.Arranged →
      ((files.foldl runFile groups).contains id = true ↔
        groups.contains id = true ∨ Entered (momentsOf groups files) id) := by
  induction files with
  | nil => intro groups _; simp [momentsOf, Entered]
  | cons file rest ih =>
      intro groups h
      have hfile : (runFile groups file).contains id = true ↔
          groups.contains id = true ∨
            Entered (moments { scope := { file := file.1 }, groups } file.2) id :=
        contains_foldl_step file.2 _ (standing_fresh h file.1)
      have harranged : (runFile groups file).Arranged := foldl_step_arranged file.2 _ h
      rw [List.foldl_cons, ih _ harranged, hfile, momentsOf, entered_append, or_assoc]

/-- **The groups are those that some command opens or adopts.** -/
theorem contains_runFiles_iff (files : List (String × List (Opening × Nat))) {id : String} :
    (runFiles files).contains id = true ↔ Entered (momentsOf {} files) id := by
  have hempty : Table.contains ({} : Groups) id = false := rfl
  rw [runFiles, contains_foldl_runFile files {} empty_arranged, hempty]
  simp

/--
**The ids of groups are valid exactly if those of the adopted groups are.**

The commands of any files, in any order, with any arguments and texts, create no group with an
invalid id, but for one way: a definition outside of all groups, of a group that is part of no
other yet, whose text names a group by a word that is no valid id.
-/
theorem runFiles_valid_iff (files : List (String × List (Opening × Nat))) :
    (∀ id, (runFiles files).contains id = true → Text.isValidId id.toList = true) ↔
      ∀ m ∈ momentsOf {} files, ∀ id, m.1.adopts? m.2 = some id →
        Text.isValidId id.toList = true := by
  refine ⟨?_, ?_⟩
  · intro h m hm id hadopts
    exact h id ((contains_runFiles_iff files).mpr ⟨m, hm, Or.inr hadopts⟩)
  · intro h id hid
    obtain ⟨m, hm, hopens | hadopts⟩ := (contains_runFiles_iff files).mp hid
    · exact GroupCommand.isValidId_of_opens? hopens
    · exact h m hm id hadopts

/-- A definition whose text names a group by a path. -/
def pathFiles : List (String × List (Opening × Nat)) :=
  [("a.h", [(⟨"defgroup", "g Group", "\\ingroup a/b"⟩, 1)])]

/-- The group is created under this path, which is no valid id. -/
theorem pathFiles_invalid :
    ¬ ∀ id, (runFiles pathFiles).contains id = true → Text.isValidId id.toList = true := by
  intro h
  have hcontains : (runFiles pathFiles).contains "a/b" = true := by decide +kernel
  have hinvalid : Text.isValidId "a/b".toList = false := by decide +kernel
  rw [h "a/b" hcontains] at hinvalid
  cases hinvalid

end Grouping

end DocForest
