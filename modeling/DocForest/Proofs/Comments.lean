/-
Comments that document a declaration against comments that are acted upon.

A comment that opens with a command is carried out or put aside, and is to document nothing.
A block in front of a declaration is held to that; a trailing one is not looked at.
`ActedUpon` says that a block has some effect of its own, and `TrailingCommand` is the one case
in which such a block documents a declaration too.

The trailing blocks come one from each trailing comment, in their order: `Scan.step` adds the
block of its token and leaves the other trailing blocks alone.
-/
import DocForest.Run.Basic

namespace DocForest.Comment

open Source

/-! ### The trailing blocks of a file -/

/-- The block of a comment that documents what stands on its line. -/
def trailing? (t : Token) : Option Block :=
  if t.isComment then
    let cs := Text.trim t.spelling.toList
    match styleOf cs with
    | .line true => block? [lineText cs] t.extent.start.line true
    | .block true => block? (blockLines cs) t.extent.start.line true
    | _ => none
  else none

theorem trailing_of_block? {lines : List (List Char)} {line : Nat} {trailing : Bool} {b : Block}
    (h : block? lines line trailing = some b) : b.trailing = trailing := by
  unfold block? at h
  split at h
  · exact absurd h (by simp)
  · rw [← Option.some.inj h]

theorem filter_trailing_block? (lines : List (List Char)) (line : Nat) (trailing : Bool) :
    (block? lines line trailing).toList.filter (·.trailing) =
      if trailing then (block? lines line trailing).toList else [] := by
  cases h : block? lines line trailing with
  | none => simp
  | some b =>
      have hb := trailing_of_block? h
      cases trailing <;> simp [hb]

theorem trailing_meet (p : Position) (b : Block) : (Scan.meet p b).trailing = b.trailing := by
  unfold Scan.meet
  split <;> rfl

theorem filter_trailing_map_meet (p : Position) (bs : List Block) :
    (bs.map (Scan.meet p)).filter (·.trailing) = bs.filter (·.trailing) := by
  induction bs with
  | nil => rfl
  | cons b bs ih =>
      rw [List.map_cons, List.filter_cons, List.filter_cons, trailing_meet, ih]
      split
      · rename_i htrailing
        rw [Scan.meet, if_pos htrailing]
      · rfl

namespace Scan

/-- The trailing blocks that a pass has found. -/
def trailed (s : Scan) : List Block :=
  (s.done ++ s.waiting).filter (·.trailing)

-- The open run becomes a block in front of what follows it, so closing it adds nothing here.
@[simp] theorem trailed_close (s : Scan) : s.close.trailed = s.trailed := by
  unfold close
  split
  · rfl
  · simp only [trailed, List.filter_append, filter_trailing_block?]
    simp

theorem filter_trailing_blocks (s : Scan) : s.blocks.filter (·.trailing) = s.trailed := by
  rw [blocks, ← trailed_close, trailed]

theorem trailed_push (s : Scan) (b : Option Block) :
    (s.push b).trailed = s.trailed ++ b.toList.filter (·.trailing) := by
  rw [← trailed_close s]
  simp only [push, trailed, List.filter_append, List.append_assoc]

theorem trailed_arrive (s : Scan) (p : Position) : (s.arrive p).trailed = s.trailed := by
  rw [← trailed_close s]
  simp only [arrive, trailed, List.append_nil, List.filter_append, filter_trailing_map_meet]

theorem trailed_addLine (s : Scan) (text : List Char) (extent : Extent) :
    (s.addLine text extent).trailed = s.trailed := by
  unfold addLine
  split
  · split
    · rfl
    · exact trailed_close s
  · rfl

/-- A token adds its own trailing block, if it has one. -/
theorem trailed_step (s : Scan) (t : Token) :
    (s.step t).trailed = s.trailed ++ (trailing? t).toList := by
  unfold step trailing?
  split
  · cases hstyle : styleOf (Text.trim t.spelling.toList) with
    | line trailing =>
        cases trailing with
        | true => simp [hstyle, trailed_push, filter_trailing_block?]
        | false => simp [hstyle, trailed_addLine]
    | block trailing => cases trailing <;> simp [hstyle, trailed_push, filter_trailing_block?]
    | plain => simp [hstyle]
  · simp [trailed_arrive]

theorem trailed_foldl_step (s : Scan) (ts : List Token) :
    (ts.foldl step s).trailed = s.trailed ++ ts.filterMap trailing? := by
  induction ts generalizing s with
  | nil => simp
  | cons t ts ih =>
      rw [List.foldl_cons, ih, trailed_step, List.append_assoc]
      cases h : trailing? t with
      | none => simp [h]
      | some b => simp [h]

end Scan

/-- **The trailing blocks of a file** are those of its trailing comments, in order. -/
theorem filter_trailing_blocksOf (ts : List Token) :
    (blocksOf ts).filter (·.trailing) = ts.filterMap trailing? := by
  rw [blocksOf, Scan.filter_trailing_blocks, Scan.trailed_foldl_step]
  rfl

/-! ### Which blocks are acted upon -/

/-- Whether a block has an effect of its own: there is a build that it changes. -/
def ActedUpon (name : String) (b : Block) : Prop :=
  ∃ s : Build × GroupScope, Build.scanBlock name s b ≠ s

/-- A block command is one about groups, or it is put aside. -/
theorem isDeferred_of_isBlockCommand {o : DocText.Opening}
    (h : DocText.isBlockCommand o.name = true) (hgroup : GroupCommand.ofOpening? o = none) :
    Deferred.isDeferred o.name = true := by
  have hnames : ∀ n ∈ DocText.blockCommands,
      n ∈ ["defgroup", "addtogroup", "endgroup", "name", "endname"] ∨
        Deferred.isDeferred n = true := by decide
  rcases hnames o.name (by simpa [DocText.isBlockCommand] using h) with hname | hname
  · simp only [List.mem_cons, List.not_mem_nil, or_false] at hname
    rcases hname with hname | hname | hname | hname | hname <;>
      simp [GroupCommand.ofOpening?, hname] at hgroup
  · exact hname

theorem isBlockCommand_of_opening? {text : String} {o : DocText.Opening}
    (h : DocText.opening? text = some o) : DocText.isBlockCommand o.name = true := by
  obtain ⟨rest, -, hrest⟩ := Option.bind_eq_some_iff.mp h
  simp only at hrest
  split at hrest
  · rename_i hname
    rw [← Option.some.inj hrest]
    exact hname
  · exact absurd hrest (by simp)

/-- A group command is never without effect: it reports something or changes the scope. -/
theorem apply_has_effect (g : Grouping) (command : GroupCommand) (line : Nat) :
    (g.apply command line).2 ≠ [] ∨ (g.apply command line).1.scope ≠ g.scope := by
  have hopen : ∀ (groups : Groups) (id parent : String),
      (Grouping.openUnder ⟨g.scope, groups⟩ id parent line).1.scope ≠ g.scope := by
    intro groups id parent h
    have hlength := congrArg (·.stack.length) h
    simp [Grouping.openUnder, GroupScope.enter] at hlength
  have hrefuse : ∀ code message : String, (g.refuse code message line).2 ≠ [] := by
    simp [Grouping.refuse]
  cases command with
  | define args body =>
      simp only [Grouping.apply, Grouping.applyDefine]
      split
      · exact Or.inl (hrefuse _ _)
      · split
        · exact Or.inl (hrefuse _ _)
        · exact Or.inr (hopen _ _ _)
  | extend args =>
      simp only [Grouping.apply, Grouping.applyExtend]
      split
      · exact Or.inl (hrefuse _ _)
      · split
        · exact Or.inl (hrefuse _ _)
        · exact Or.inr (hopen _ _ _)
  | close =>
      simp only [Grouping.apply, GroupScope.leave]
      cases hstack : g.scope.stack with
      | nil => exact Or.inl (by simp)
      | cons id outer =>
          refine Or.inr fun h => ?_
          have hlength := congrArg (·.stack.length) h
          simp [hstack] at hlength
  | name args =>
      refine Or.inr fun h => ?_
      have hlength := congrArg (·.memberChanges.length) h
      simp [Grouping.apply, GroupScope.enterMember] at hlength
  | endName =>
      simp only [Grouping.apply, GroupScope.leaveMember]
      split
      · exact Or.inl (by simp)
      · refine Or.inr fun h => ?_
        have hlength := congrArg (·.memberChanges.length) h
        simp at hlength

theorem applyGrouping_ne (b : Build) (scope : GroupScope) (command : GroupCommand) (line : Nat) :
    Build.applyGrouping b scope command line ≠ (b, scope) := by
  intro h
  obtain ⟨hbuild, hscope⟩ := Prod.mk.inj h
  rcases apply_has_effect ⟨scope, b.document.groups⟩ command line with hnotes | hchanged
  · have hlength : (b.notes ++ (Grouping.apply ⟨scope, b.document.groups⟩ command line).2).length =
        b.notes.length := congrArg (·.notes.length) hbuild
    rw [List.length_append, Nat.add_eq_left, List.length_eq_zero_iff] at hlength
    exact hnotes hlength
  · exact hchanged hscope

theorem defer_ne (b : Build) (scope : GroupScope) (name : String) (o : DocText.Opening)
    (line : Nat) : b.defer scope name o line ≠ b := by
  intro h
  have hlength := congrArg (·.queue.length) h
  simp [Build.defer] at hlength

/-- **A block is acted upon exactly if it opens with a command.** -/
theorem actedUpon_iff (name : String) (b : Block) : ActedUpon name b ↔ b.isCommand = true := by
  unfold Block.isCommand
  cases hopening : DocText.opening? b.text with
  | none =>
      refine iff_of_false ?_ (by simp)
      rintro ⟨s, hs⟩
      exact hs (by rw [Build.scanBlock, hopening])
  | some o =>
      -- The empty build shows the effect, whatever the command is.
      refine iff_of_true ⟨({}, { file := name }), fun h => ?_⟩ rfl
      rw [Build.scanBlock, hopening] at h
      cases hgroup : GroupCommand.ofOpening? o with
      | some command =>
          simp only [hgroup] at h
          exact applyGrouping_ne _ _ _ _ h
      | none =>
          simp only [hgroup] at h
          split at h
          · have hheaders := congrArg (·.1.document.headers.size) h
            simp [Deferred.describeHeader, Table.upsert, Table.size, Table.modify, Table.insertNew,
              Table.contains, Table.get?] at hheaders
          · have hname := isDeferred_of_isBlockCommand (isBlockCommand_of_opening? hopening) hgroup
            rw [if_pos hname] at h
            exact defer_ne _ _ _ _ _ (Prod.mk.inj h).1

/-! ### Which blocks document a declaration -/

theorem getLast?_precedes_eq_none_iff {bs : List Block} {p : Position} :
    (bs.filter (·.precedes p)).getLast? = none ↔ ∀ b ∈ bs, b.precedes p = false := by
  rw [List.getLast?_eq_none_iff, List.filter_eq_nil_iff]
  simp only [Bool.not_eq_true]

theorem find?_trails (bs : List Block) (line : Nat) :
    bs.find? (·.trails line) = (bs.filter (·.trailing)).find? (·.line == line) := by
  rw [List.find?_filter]
  congr 1
  funext b
  rw [Bool.eq_iff_iff]
  simp [Block.trails]

/-- Where the documentation of a declaration comes from. -/
theorem documentation?_eq_some_iff {bs : List Block} {p : Position} {text : String} :
    documentation? bs p = some text ↔
      (∃ b, (bs.filter (·.precedes p)).getLast? = some b ∧ b.isCommand = false ∧ b.text = text) ∨
      (∀ b ∈ bs, b.precedes p = false) ∧
        ∃ b, (bs.filter (·.trailing)).find? (·.line == p.line) = some b ∧ b.text = text := by
  rw [← getLast?_precedes_eq_none_iff, ← find?_trails]
  unfold documentation?
  cases (bs.filter (·.precedes p)).getLast? with
  | some b => cases hcommand : b.isCommand <;> simp [hcommand]
  | none => simp

/-- A declaration at a position without a block in front of it, on whose line the first trailing
comment opens with a command. -/
def TrailingCommand (ts : List Token) (p : Position) : Prop :=
  (∀ b ∈ blocksOf ts, b.precedes p = false) ∧
    ∃ b, (ts.filterMap trailing?).find? (·.line == p.line) = some b ∧ b.isCommand = true

theorem documentation?_isCommand_iff {ts : List Token} {p : Position} :
    (∃ b ∈ blocksOf ts, b.isCommand = true ∧ documentation? (blocksOf ts) p = some b.text) ↔
      TrailingCommand ts p := by
  simp only [documentation?_eq_some_iff, filter_trailing_blocksOf]
  constructor
  · rintro ⟨b, -, hcommand, ⟨b', -, hplain, htext⟩ | ⟨hfront, b', hfind, htext⟩⟩
    · rw [Block.isCommand, htext, ← Block.isCommand, hcommand] at hplain
      exact absurd hplain (by simp)
    · refine ⟨hfront, b', hfind, ?_⟩
      rw [Block.isCommand, htext]
      exact hcommand
  · rintro ⟨hfront, b, hfind, hcommand⟩
    have hmem : b ∈ (blocksOf ts).filter (·.trailing) := by
      rw [filter_trailing_blocksOf]
      exact List.mem_of_find?_eq_some hfind
    exact ⟨b, (List.mem_filter.mp hmem).1, hcommand, Or.inr ⟨hfront, b, hfind, rfl⟩⟩

theorem exists_block_of_documentation? {bs : List Block} {p : Position} {text : String}
    (h : documentation? bs p = some text) : ∃ b ∈ bs, b.text = text := by
  rcases documentation?_eq_some_iff.mp h with ⟨b, hlast, -, htext⟩ | ⟨-, b, hfind, htext⟩
  · exact ⟨b, (List.mem_filter.mp (List.mem_of_getLast? hlast)).1, htext⟩
  · exact ⟨b, (List.mem_filter.mp (List.mem_of_find?_eq_some hfind)).1, htext⟩

/-- **Command or documentation.**  Over the blocks of any tokens, the documentation of a
declaration opens with a command exactly if no block stands in front of the declaration and the
first trailing comment on its line opens with one; and that is also exactly when a block
that is acted upon documents the declaration. -/
theorem documents_and_acted_upon_iff (name : String) (ts : List Token) (p : Position) :
    ((∃ text, documentation? (blocksOf ts) p = some text ∧
        (DocText.opening? text).isSome = true) ↔ TrailingCommand ts p) ∧
      ((∃ b ∈ blocksOf ts, ActedUpon name b ∧ documentation? (blocksOf ts) p = some b.text) ↔
        TrailingCommand ts p) := by
  simp only [actedUpon_iff]
  refine ⟨?_, documentation?_isCommand_iff⟩
  rw [← documentation?_isCommand_iff]
  constructor
  · rintro ⟨text, hdoc, hopens⟩
    obtain ⟨b, hb, rfl⟩ := exists_block_of_documentation? hdoc
    exact ⟨b, hb, hopens, hdoc⟩
  · rintro ⟨b, -, hcommand, hdoc⟩
    exact ⟨b.text, hdoc, hcommand⟩

/-- A variable, and behind it a comment that defines a group. -/
def groupBehindVariable : List Token :=
  [⟨.identifier, "x", ⟨⟨1, 1⟩, ⟨1, 2⟩⟩⟩,
   ⟨.comment, "///< \\defgroup g Group", ⟨⟨1, 8⟩, ⟨1, 30⟩⟩⟩]

/-- The comment defines the group and documents the variable. -/
theorem groupBehindVariable_documents :
    documentation? (blocksOf groupBehindVariable) ⟨1, 1⟩ = some "\\defgroup g Group" ∧
      (DocText.opening? "\\defgroup g Group").isSome = true ∧
      (Build.scanComments {} "a.h" (blocksOf groupBehindVariable)).1.document.groups.keys =
        ["g"] := by
  decide +kernel

end DocForest.Comment
