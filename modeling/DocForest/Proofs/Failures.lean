/-
A command that fails changes nothing.

A command that was put aside can fail in several ways: it names nothing, its id cannot stand
in a link, what it names is not declared, or the id of a macro is that of something else.
Each of them is found out before anything is written, and ends the command with one error.
Whatever else is reported of a command is a warning, and the command is carried out.

So a queue with commands that fail comes to the same document as the queue without them.
Which ones fail depends on the document at hand and therefore on the commands before; but
since those that fail leave the document alone, the others do not see whether they were
there.
-/
import DocForest.Proofs.Run

namespace DocForest

namespace Deferred

theorem isError_error (c : DeferredCommand) (code message : String) :
    (error c code message).isError = true := rfl

theorem isError_warning (c : DeferredCommand) (code message : String) :
    (warning c code message).isError = false := rfl

/-! ### What is reported of a command that is carried out -/

/-- No error is among the messages. -/
def Quiet (notes : List Diagnostic) : Prop :=
  ∀ n ∈ notes, n.isError = false

theorem quiet_nil : Quiet [] := by
  intro n hn
  simp at hn

theorem quiet_warning (c : DeferredCommand) (code message : String) :
    Quiet [warning c code message] := by
  intro n hn
  rw [List.mem_singleton.mp hn]
  exact isError_warning c code message

theorem Quiet.append {notes more : List Diagnostic} (h : Quiet notes) (hmore : Quiet more) :
    Quiet (notes ++ more) := by
  intro n hn
  rcases List.mem_append.mp hn with hn | hn
  · exact h n hn
  · exact hmore n hn

theorem quiet_parameterNotes (c : DeferredCommand) (name : String)
    (old new : Option (List String)) : Quiet (parameterNotes c name old new) := by
  unfold parameterNotes
  split
  · exact quiet_warning c _ _
  · exact quiet_nil

theorem quiet_kindNotes (c : DeferredCommand) (name : String) (found : Kind) :
    Quiet (kindNotes c name found) := by
  unfold kindNotes
  split
  · split
    · exact quiet_nil
    · exact quiet_warning c _ _
  · exact quiet_nil

theorem quiet_groupNotes (c : DeferredCommand) (name current : String) (group : Option String) :
    Quiet (groupNotes c name current group) := by
  unfold groupNotes
  split
  · exact quiet_nil
  · split
    · exact quiet_nil
    · exact quiet_warning c _ _

/-! ### One command -/

/-- What a command comes to: it is carried out without an error, or it fails with one and
leaves the document as it was. -/
inductive Settles (d : Document) (c : DeferredCommand) : Document × List Diagnostic → Prop
  | done {d' : Document} {notes : List Diagnostic} (hquiet : Quiet notes) : Settles d c (d', notes)
  | failed (code message : String) : Settles d c (d, [error c code message])

theorem applyPage_settles (d : Document) (c : DeferredCommand) : Settles d c (applyPage d c) := by
  rcases applyPage_cases d c rfl rfl with ⟨-, happly⟩ | ⟨-, code, message, happly⟩
  · rw [happly]
    exact .done quiet_nil
  · rw [happly]
    exact .failed code message

theorem applyMacro_settles (d : Document) (c : DeferredCommand) :
    Settles d c (applyMacro d c) := by
  rcases applyMacro_cases d c with ⟨code, message, happly⟩ | ⟨e, -, -, happly⟩ |
    ⟨e, name, old, new, -, happly⟩
  · rw [happly]
    exact .failed code message
  · rw [happly]
    exact .done quiet_nil
  · rw [happly]
    exact .done (quiet_parameterNotes c name old new)

theorem applyDeclaration_settles {d : Document} {c : DeferredCommand}
    {result : Document × List Diagnostic} (hok : applyDeclaration d c = .ok result) :
    Settles d c result := by
  rcases applyDeclaration_cases hok with ⟨code, message, rfl⟩ | rfl |
    ⟨id, e, name, description, group, -, rfl⟩
  · exact .failed code message
  · exact .done quiet_nil
  · exact .done ((quiet_kindNotes c name e.kind).append (quiet_groupNotes c name e.group group))

/-- **Every command is carried out or fails as a whole.** -/
theorem apply_settles {d : Document} {c : DeferredCommand} {result : Document × List Diagnostic}
    (hok : apply d c = .ok result) : Settles d c result := by
  rcases apply_cases hok with ⟨-, rfl⟩ | ⟨-, rfl⟩ | ⟨-, rfl⟩ | ⟨-, rfl⟩ | ⟨-, hok⟩
  · exact applyMacro_settles d c
  · exact .done quiet_nil
  · exact applyPage_settles d c
  · exact .done quiet_nil
  · exact applyDeclaration_settles hok

/--
**A command that fails changes nothing.**  What is reported of a command is either free of
errors, or it is one error and nothing else, about the place of the command, and then the
entities, the headers, the groups and the pages are as they were.
-/
theorem apply_fails_cleanly {d d' : Document} {c : DeferredCommand} {notes : List Diagnostic}
    (hok : apply d c = .ok (d', notes)) :
    (∀ n ∈ notes, n.isError = false) ∨
      ∃ n, notes = [n] ∧ n.isError = true ∧ n.file = c.file ∧ n.line = some c.line ∧ d' = d := by
  cases apply_settles hok with
  | done hquiet => exact Or.inl hquiet
  | failed code message => exact Or.inr ⟨_, rfl, rfl, rfl, rfl, rfl⟩

/-- A document with a variable in it. -/
def variableDocument : Document :=
  { forest := Forest.empty.insert { id := "MAX", name := "MAX", detail := .var {} } }

/-- What is reported of a macro with the id of the variable. -/
def clash : Diagnostic :=
  error maxCommand Code.idCollision
    "Macro \x60MAX\x60 has the same id as a declared variable"

/-- The variable stays as it is, and the macro is not described. -/
theorem maxCommand_fails_cleanly :
    apply variableDocument maxCommand = .ok (variableDocument, [clash]) ∧
      ((∀ n ∈ [clash], n.isError = false) ∨
        ∃ n, [clash] = [n] ∧ n.isError = true ∧ n.file = "a.h" ∧ n.line = some 1 ∧
          variableDocument = variableDocument) := by
  have hok : apply variableDocument maxCommand = .ok (variableDocument, [clash]) := rfl
  exact ⟨hok, apply_fails_cleanly hok⟩

/-! ### All commands -/

theorem process_cons_of_ok {d d₁ d' : Document} {c : DeferredCommand}
    {queue : List DeferredCommand} {first rest : List Diagnostic}
    (hfirst : apply d c = .ok (d₁, first)) (hrest : process d₁ queue = .ok (d', rest)) :
    process d (c :: queue) = .ok (d', first ++ rest) := by
  rw [process, hfirst]
  show (process d₁ queue).bind (fun r => .ok (r.1, first ++ r.2)) = _
  rw [hrest]
  rfl

theorem Quiet.filter_eq {notes : List Diagnostic} (h : Quiet notes) :
    notes.filter (!·.isError) = notes := by
  refine List.filter_eq_self.mpr ?_
  intro n hn
  rw [h n hn]
  rfl

theorem Quiet.countP_eq {notes : List Diagnostic} (h : Quiet notes) :
    notes.countP (·.isError) = 0 := by
  refine List.countP_eq_zero.mpr ?_
  intro n hn
  rw [h n hn]
  exact Bool.false_ne_true

/--
**Commands that fail may be left out.**  The others come to the same document without them and
are told the same warnings, and there is one error for each command that is left out.
-/
theorem process_without_failures {queue : List DeferredCommand} :
    ∀ {d d' : Document} {notes : List Diagnostic}, process d queue = .ok (d', notes) →
      ∃ kept, kept.Sublist queue ∧
        process d kept = .ok (d', notes.filter (!·.isError)) ∧
        queue.length = kept.length + notes.countP (·.isError) := by
  induction queue with
  | nil =>
      intro d d' notes hok
      obtain ⟨rfl, rfl⟩ := Prod.mk.inj (Except.ok.inj hok)
      exact ⟨[], .slnil, rfl, rfl⟩
  | cons c queue ih =>
      intro d d' notes hok
      obtain ⟨d₁, first, rest, hfirst, hrest, rfl⟩ := process_cons_eq_ok hok
      obtain ⟨kept, hsub, hkept, hlength⟩ := ih hrest
      rw [List.filter_append, List.countP_append, List.length_cons, hlength]
      cases apply_settles hfirst with
      | done hquiet =>
          refine ⟨c :: kept, hsub.cons_cons c, ?_, ?_⟩
          · rw [hquiet.filter_eq]
            exact process_cons_of_ok hfirst hkept
          · rw [hquiet.countP_eq, List.length_cons]
            omega
      | failed code message =>
          refine ⟨kept, hsub.cons c, hkept, ?_⟩
          rw [List.countP_singleton, isError_error]
          show kept.length + _ + 1 = kept.length + (1 + _)
          omega

end Deferred

end DocForest
