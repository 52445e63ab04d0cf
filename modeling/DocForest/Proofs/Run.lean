/-
The forest of every run is well linked.

A run reads files in any number, and for each of them records the header, looks at the
comments and walks over the declarations.  `Build.Reachable` holds of whatever a run has
gathered at any moment; the files, the comments, the declarations and their order are
left open.  Only the walk touches the forest, and `Walk.visitAll_grows` says what it does.

When all files are read, the commands that were put aside are carried out and all names
are looked up.  The commands can be anything too.  A macro is the one thing among them
that becomes an entity, and it stands at the outermost level.
-/
import DocForest.Proofs.Registry
import DocForest.Run.Basic

namespace DocForest

/-! ### Commands that were put aside -/

namespace Deferred

/-- The description of a macro is rejected, or makes an entity, or is merged into one. -/
theorem applyMacro_cases (d : Document) (c : DeferredCommand) :
    (∃ code message, applyMacro d c = (d, [error c code message])) ∨
    (∃ e, e.children = [] ∧ e.parent = "" ∧
      applyMacro d c = ({ d with forest := d.forest.insert e }, [])) ∨
    (∃ e name old new, e.children = [] ∧ applyMacro d c =
      ({ d with forest := d.forest.modify e.id (·.merge e) }, parameterNotes c name old new)) := by
  unfold applyMacro
  dsimp only
  split
  · exact Or.inl ⟨_, _, rfl⟩
  cases d.forest.get? _ with
  | none => exact Or.inr (Or.inl ⟨_, rfl, rfl, rfl⟩)
  | some existing =>
      dsimp only
      split
      · exact Or.inr (Or.inr ⟨_, _, _, _, rfl, rfl⟩)
      · exact Or.inl ⟨_, _, rfl⟩

/-- A page gets a text if it is given a title, and an id that can stand in a link. -/
theorem applyPage_cases (d : Document) (c : DeferredCommand) {id title : List Char}
    (hid : (Text.splitFirstWord c.args.toList).1 = id)
    (htitle : Text.stripQuotes (Text.trim (Text.splitFirstWord c.args.toList).2) = title) :
    ((id ≠ [] ∧ title ≠ [] ∧ Text.isValidId id = true) ∧
      applyPage d c = (appendPage d (String.ofList id) (String.ofList title) c.body, [])) ∨
    (¬ (id ≠ [] ∧ title ≠ [] ∧ Text.isValidId id = true) ∧
      ∃ code message, applyPage d c = (d, [error c code message])) := by
  unfold applyPage
  dsimp only
  rw [hid, htitle]
  by_cases hlacks : (id.isEmpty || title.isEmpty) = true
  · rw [if_pos hlacks]
    refine Or.inr ⟨?_, _, _, rfl⟩
    intro hall
    simp [hall.1, hall.2.1] at hlacks
  rw [if_neg hlacks]
  simp only [Bool.or_eq_true, List.isEmpty_iff, not_or] at hlacks
  cases hvalid : Text.isValidId id with
  | true => exact Or.inl ⟨⟨hlacks.1, hlacks.2, rfl⟩, rfl⟩
  | false =>
      refine Or.inr ⟨?_, _, _, rfl⟩
      intro hall
      cases hall.2.2

/-- The description of a declaration is rejected, or it is added to what it names, or nothing is
stored under the id that it leads to. -/
theorem applyDeclaration_cases {d : Document} {c : DeferredCommand}
    {result : Document × List Diagnostic} (hok : applyDeclaration d c = .ok result) :
    (∃ code message, result = (d, [error c code message])) ∨ result = (d, []) ∨
    (∃ id e name description group, d.forest.get? id = some e ∧ result =
      ({ d with forest := d.forest.modify id (describeEntity · description group) },
        kindNotes c name e.kind ++ groupNotes c name e.group group)) := by
  unfold applyDeclaration at hok
  cases hname : declarationName c.args.toList with
  | error cause =>
      rw [hname] at hok
      simp [Except.map] at hok
  | ok name =>
      rw [hname] at hok
      simp only [Except.map, Except.ok.injEq] at hok
      rw [← hok]
      split
      · exact Or.inl ⟨_, _, rfl⟩
      cases d.forest.find? (String.ofList name) "" with
      | none => exact Or.inl ⟨_, _, rfl⟩
      | some id =>
          dsimp only
          cases hget : d.forest.get? id with
          | none => exact Or.inr (Or.inl rfl)
          | some e => exact Or.inr (Or.inr ⟨id, e, _, _, _, hget, rfl⟩)

/-- The name of a command says how it is carried out. -/
theorem apply_cases {d : Document} {c : DeferredCommand} {result : Document × List Diagnostic}
    (hok : apply d c = .ok result) :
    ((c.name = "macro" ∨ c.name = "def") ∧ result = applyMacro d c) ∨
    (c.name = "file" ∧ result = (applyFile d c, [])) ∨
    (c.name = "page" ∧ result = applyPage d c) ∨
    (c.name = "mainpage" ∧ result = (appendPage d mainPage (unquoted c.args) c.body, [])) ∨
    ((c.name ≠ "file" ∧ c.name ≠ "page" ∧ c.name ≠ "mainpage") ∧
      applyDeclaration d c = .ok result) := by
  unfold apply at hok
  split at hok
  · rename_i hname
    exact Or.inl ⟨Or.inl hname, (Except.ok.inj hok).symm⟩
  · rename_i hname
    exact Or.inl ⟨Or.inr hname, (Except.ok.inj hok).symm⟩
  · rename_i hname
    exact Or.inr (Or.inl ⟨hname, (Except.ok.inj hok).symm⟩)
  · rename_i hname
    exact Or.inr (Or.inr (Or.inl ⟨hname, (Except.ok.inj hok).symm⟩))
  · rename_i hname
    exact Or.inr (Or.inr (Or.inr (Or.inl ⟨hname, (Except.ok.inj hok).symm⟩)))
  · rename_i hfile hpage hmain
    exact Or.inr (Or.inr (Or.inr (Or.inr ⟨⟨hfile, hpage, hmain⟩, hok⟩)))

/-- What a command that was put aside can do to a document. -/
inductive Effect (d : Document) : Document → Prop
  | nothing : Effect d d
  | header (id name body : String) : Effect d (describeHeader d id name body)
  | page (id title body : String) (hid : id ≠ "") : Effect d (appendPage d id title body)
  | entity (e : Entity) (hchildren : e.children = []) (hparent : e.parent = "") :
      Effect d { d with forest := d.forest.insert e }
  | description (id : String) (f : Entity → Entity) (hf : ∀ e, (f e).place = e.place) :
      Effect d { d with forest := d.forest.modify id f }

theorem effect_applyMacro (d : Document) (c : DeferredCommand) : Effect d (applyMacro d c).1 := by
  rcases applyMacro_cases d c with ⟨code, message, happly⟩ | ⟨e, hchildren, hparent, happly⟩ |
    ⟨e, name, old, new, hchildren, happly⟩
  · rw [happly]
    exact .nothing
  · rw [happly]
    exact .entity e hchildren hparent
  · rw [happly]
    exact .description _ _ fun e₀ => Forest.place_merge e₀ hchildren

theorem effect_applyPage (d : Document) (c : DeferredCommand) : Effect d (applyPage d c).1 := by
  rcases applyPage_cases d c rfl rfl with ⟨⟨hid, -⟩, happly⟩ | ⟨-, code, message, happly⟩
  · rw [happly]
    exact .page _ _ _ (mt String.ofList_eq_empty_iff.mp hid)
  · rw [happly]
    exact .nothing

theorem effect_applyDeclaration {d d' : Document} {c : DeferredCommand} {notes : List Diagnostic}
    (hok : applyDeclaration d c = .ok (d', notes)) : Effect d d' := by
  rcases applyDeclaration_cases hok with ⟨code, message, heq⟩ | heq |
    ⟨id, e, name, description, group, -, heq⟩
  · obtain ⟨rfl, -⟩ := Prod.mk.inj heq
    exact .nothing
  · obtain ⟨rfl, -⟩ := Prod.mk.inj heq
    exact .nothing
  · obtain ⟨rfl, -⟩ := Prod.mk.inj heq
    exact .description _ _ fun _ => rfl

/-- **Every command has one of these effects.** -/
theorem effect_apply {d d' : Document} {c : DeferredCommand} {notes : List Diagnostic}
    (hok : apply d c = .ok (d', notes)) : Effect d d' := by
  rcases apply_cases hok with ⟨-, heq⟩ | ⟨-, heq⟩ | ⟨-, heq⟩ | ⟨-, heq⟩ | ⟨-, hok⟩
  · have hd : d' = (applyMacro d c).1 := congrArg Prod.fst heq
    rw [hd]
    exact effect_applyMacro d c
  · have hd : d' = applyFile d c := congrArg Prod.fst heq
    rw [hd]
    exact .header _ _ _
  · have hd : d' = (applyPage d c).1 := congrArg Prod.fst heq
    rw [hd]
    exact effect_applyPage d c
  · have hd : d' = appendPage d mainPage (unquoted c.args) c.body := congrArg Prod.fst heq
    rw [hd]
    exact .page _ _ _ (by decide)
  · exact effect_applyDeclaration hok

/-- A queue that is carried out is carried out command by command. -/
theorem process_cons_eq_ok {d d' : Document} {c : DeferredCommand} {queue : List DeferredCommand}
    {notes : List Diagnostic} (h : process d (c :: queue) = .ok (d', notes)) :
    ∃ d₁ first rest, apply d c = .ok (d₁, first) ∧ process d₁ queue = .ok (d', rest) ∧
      notes = first ++ rest := by
  rw [process] at h
  cases hc : apply d c with
  | error cause =>
      rw [hc] at h
      simp [bind, Except.bind] at h
  | ok r =>
      obtain ⟨d₁, first⟩ := r
      rw [hc] at h
      cases hq : process d₁ queue with
      | error cause => simp [bind, Except.bind, hq] at h
      | ok r =>
          obtain ⟨d₂, rest⟩ := r
          simp only [bind, Except.bind, hq, pure, Except.pure, Except.ok.injEq,
            Prod.mk.injEq] at h
          obtain ⟨rfl, rfl⟩ := h
          exact ⟨d₁, first, rest, rfl, hq, rfl⟩

/-- What every effect keeps is kept by any commands. -/
theorem process_induction {P : Document → Prop} (hstep : ∀ d d', P d → Effect d d' → P d')
    (queue : List DeferredCommand) :
    ∀ {d d' : Document} {notes : List Diagnostic}, P d → process d queue = .ok (d', notes) →
      P d' := by
  induction queue with
  | nil =>
      intro d d' notes h hok
      have hd : d = d' := congrArg Prod.fst (Except.ok.inj hok)
      rw [← hd]
      exact h
  | cons c rest ih =>
      intro d d' notes h hok
      obtain ⟨d₁, first, later, hc, hq, -⟩ := process_cons_eq_ok hok
      exact ih (hstep d d₁ h (effect_apply hc)) hq

theorem Effect.sound {d d' : Document} (heffect : Effect d d') (h : d.forest.Sound) :
    d'.forest.Sound := by
  cases heffect with
  | nothing => exact h
  | header id name body => exact h
  | page id title body _ => exact h
  | entity e hchildren hparent => exact Forest.insert_sound h hchildren (Or.inl hparent)
  | description id f hf => exact h.of_outline (Forest.outline_modify _ _ hf)

/-- **Carrying out any commands keeps the links sound.** -/
theorem process_sound {d d' : Document} {queue : List DeferredCommand} {notes : List Diagnostic}
    (h : d.forest.Sound) (hok : process d queue = .ok (d', notes)) : d'.forest.Sound :=
  process_induction (P := fun d => d.forest.Sound) (fun _ _ h heffect => heffect.sound h) queue h hok

end Deferred

/-! ### Reading files -/

namespace Build

/-- What a run can have gathered, whatever it was given to read. -/
inductive Reachable : Build → Prop
  | init : Reachable {}
  | messages {b b' : Build} (h : Reachable b) (path name : String) (ms : List Source.Message)
      (hok : b.checkMessages path name ms = .ok b') : Reachable b'
  | header {b : Build} (h : Reachable b) (name : String) (includes : List Source.Inclusion) :
      Reachable (b.recordHeader name includes)
  | comments {b : Build} (h : Reachable b) (name : String) (blocks : List Comment.Block) :
      Reachable (b.scanComments name blocks).1
  | walk {b : Build} (h : Reachable b) (file : FileContext) (decls : List Source.DeclTree) :
      Reachable (b.walk file decls)

/-- The symbols and entities of a run. -/
def registry (b : Build) : Registry :=
  ⟨b.bindings, b.document.forest⟩

/-- Messages change nothing but the notes. -/
theorem checkMessages_eq_ok {b b' : Build} {path name : String} {ms : List Source.Message}
    (h : b.checkMessages path name ms = .ok b') :
    b' = { b with notes := b.notes ++ ms.filterMap (messageNote? name) } := by
  unfold checkMessages at h
  dsimp only at h
  split at h
  · simp at h
  · exact (Except.ok.inj h).symm

/-- What the comments of a file leave as it was: the symbols, the entities and the pages. -/
def untouched (b : Build) : Registry × Table Page :=
  (b.registry, b.document.pages)

theorem untouched_scanBlock (name : String) (s : Build × GroupScope) (block : Comment.Block) :
    (scanBlock name s block).1.untouched = s.1.untouched := by
  unfold scanBlock
  cases DocText.opening? block.text with
  | none => rfl
  | some o =>
      dsimp only
      cases GroupCommand.ofOpening? o with
      | some command => rfl
      | none =>
          dsimp only
          split
          · rfl
          split <;> rfl

theorem untouched_foldl_scanBlock (name : String) (blocks : List Comment.Block) :
    ∀ s : Build × GroupScope, (blocks.foldl (scanBlock name) s).1.untouched = s.1.untouched := by
  induction blocks with
  | nil => intro s; rfl
  | cons block rest ih =>
      intro s
      rw [List.foldl_cons, ih, untouched_scanBlock]

theorem untouched_scanComments (b : Build) (name : String) (blocks : List Comment.Block) :
    (b.scanComments name blocks).1.untouched = b.untouched :=
  untouched_foldl_scanBlock name blocks (b, { file := name })

/-- **Whatever a run has read, its links are sound.** -/
theorem Reachable.sound {b : Build} (h : b.Reachable) : b.registry.Sound := by
  induction h with
  | init => exact Registry.empty_sound
  | messages _ path name ms hok ih =>
      rw [checkMessages_eq_ok hok]
      exact ih
  | header _ name includes ih => exact ih
  | @comments b _ name blocks ih =>
      have hsame : (b.scanComments name blocks).1.registry = b.registry :=
        congrArg Prod.fst (untouched_scanComments b name blocks)
      rw [hsame]
      exact ih
  | walk _ file decls ih =>
      exact (Walk.visitAll_grows file decls "" _ ih (Or.inl rfl)).sound

theorem Reachable.addUnit {b b' : Build} (h : b.Reachable) {path name : String}
    {u : Source.Unit} (hok : b.addUnit path name u = .ok b') : b'.Reachable := by
  unfold Build.addUnit at hok
  cases hm : b.checkMessages path name u.messages with
  | error cause =>
      rw [hm] at hok
      simp [bind, Except.bind] at hok
  | ok b₁ =>
      rw [hm] at hok
      rw [← Except.ok.inj hok]
      exact (((h.messages path name u.messages hm).header name u.includes).comments name _).walk
        _ u.decls

theorem Reachable.foldlM_addFile (settings : Settings) (units : Source.Units)
    (paths : List String) :
    ∀ {b b' : Build}, b.Reachable → paths.foldlM (Build.addFile settings units) b = .ok b' →
      b'.Reachable := by
  induction paths with
  | nil =>
      intro b b' h hok
      rw [← Except.ok.inj hok]
      exact h
  | cons path rest ih =>
      intro b b' h hok
      rw [List.foldlM_cons] at hok
      cases hfile : b.addFile settings units path with
      | error cause =>
          rw [hfile] at hok
          simp [bind, Except.bind] at hok
      | ok b₁ =>
          rw [hfile] at hok
          refine ih ?_ hok
          unfold Build.addFile at hfile
          cases hload : units.load path with
          | error cause =>
              rw [hload] at hfile
              simp at hfile
          | ok u =>
              rw [hload] at hfile
              exact h.addUnit hfile

/-- What a run has gathered from its files is reachable. -/
theorem reachable_of_readFiles {settings : Settings} {units : Source.Units} {b : Build}
    (h : readFiles settings units = .ok b) : b.Reachable := by
  unfold readFiles at h
  split at h
  · simp at h
  · exact Reachable.init.foldlM_addFile settings units _ h

end Build

/-! ### Finished documents -/

/-- A document that a run can end with: files were read, some commands were carried out,
and all names were looked up. -/
def Document.Finished (d : Document) : Prop :=
  ∃ (b : Build) (queue : List DeferredCommand) (d₁ : Document) (notes : List Diagnostic),
    b.Reachable ∧ Deferred.process b.document queue = .ok (d₁, notes) ∧ d = d₁.resolve.1

namespace Document

theorem Finished.sound {d : Document} (h : d.Finished) : d.forest.Sound := by
  obtain ⟨b, queue, d₁, notes, hb, hq, rfl⟩ := h
  have hd₁ : d₁.forest.Sound := Deferred.process_sound hb.sound.forest hq
  exact hd₁.of_outline (outline_resolve d₁)

/-- The document of a run is finished. -/
theorem finished_of_run {settings : Settings} {units : Source.Units} {r : RunResult}
    (h : run settings units = .ok r) : r.document.Finished := by
  unfold run at h
  cases hb : readFiles settings units with
  | error cause =>
      rw [hb] at h
      simp [Except.bind] at h
  | ok b =>
      rw [hb] at h
      simp only [Except.bind, Build.finish] at h
      cases hq : Deferred.process b.document b.queue with
      | error cause =>
          rw [hq] at h
          simp at h
      | ok p =>
          obtain ⟨d₁, notes⟩ := p
          rw [hq] at h
          refine ⟨b, b.queue, d₁, notes, Build.reachable_of_readFiles hb, hq, ?_⟩
          rw [← Except.ok.inj h]

end Document

/-- **The links hold at every stage of a run**: when files are read, when the commands
that were put aside are carried out, and when all names are looked up. -/
theorem Build.Reachable.forest_wellLinked {b : Build} (hb : b.Reachable) {queue : List DeferredCommand}
    {d : Document} {notes : List Diagnostic}
    (hq : Deferred.process b.document queue = .ok (d, notes)) :
    b.document.forest.WellLinked ∧ d.forest.WellLinked ∧ d.resolve.1.forest.WellLinked := by
  have hread : b.document.forest.Sound := hb.sound.forest
  have hdone : d.forest.Sound := Deferred.process_sound hread hq
  have hfinished : d.resolve.1.Finished := ⟨b, queue, d, notes, hb, hq, rfl⟩
  exact ⟨hread.wellLinked, hdone.wellLinked, hfinished.sound.wellLinked⟩

/-- A field whose scopes are named and nowhere declared. -/
def strayField : Source.DeclTree :=
  .node
    { kind := .field, name := "x", usr := "x", file := some "a.h"
      scopes := [{ usr := "S", kind := .record .struct, name := "S" },
        { usr := "N", kind := .nameSpace, name := "N" }] }
    []

/-- A run that has met the field. -/
def strayBuild : Build :=
  ({} : Build).walk
    { path := "a.h", name := "a.h", header := "a_h", scope := { file := "a.h" } } [strayField]

/-- The description of a macro. -/
def maxCommand : DeferredCommand :=
  { name := "macro", args := "MAX(a, b)", file := "a.h", header := "a_h", line := 1 }

/-- The document of that run with the macro. -/
def strayDocument : Document :=
  (Deferred.applyMacro strayBuild.document maxCommand).1

theorem reachable_strayBuild : strayBuild.Reachable :=
  .walk .init _ _

theorem process_strayBuild : ∃ notes,
    Deferred.process strayBuild.document [maxCommand] = .ok (strayDocument, notes) :=
  ⟨_, rfl⟩

theorem finished_strayDocument : strayDocument.resolve.1.Finished := by
  obtain ⟨notes, hq⟩ := process_strayBuild
  exact ⟨strayBuild, [maxCommand], strayDocument, notes, reachable_strayBuild, hq, rfl⟩

/-- Two ghosts, the field and the macro. -/
theorem strayDocument_wellLinked :
    strayBuild.Reachable ∧
      (∃ notes, Deferred.process strayBuild.document [maxCommand] = .ok (strayDocument, notes)) ∧
      strayDocument.resolve.1.forest.ids = ["N", "N-S", "N-S-x", "MAX"] ∧
      strayDocument.resolve.1.forest.WellLinked := by
  refine ⟨reachable_strayBuild, process_strayBuild, by decide +kernel, ?_⟩
  obtain ⟨notes, hq⟩ := process_strayBuild
  exact (reachable_strayBuild.forest_wellLinked hq).2.2

end DocForest
