/-
A text put together again from its parts.

Every token goes into exactly one part: into the text between two commands, or into the
characters a command was read from.  The punctuation behind a name is the one thing that
moves, from the command to the text behind it.  So the parts, one after the other, are the
text, and the induction below only has to follow the place where the parser stands.

A command that vanishes and has its line to itself takes the spaces around it and the end
of its line away.  These are spaces, tabs, carriage returns and ends of lines, and nothing
else ever goes: what is `solid` in a text stays.
-/
import DocForest.Proofs.TakenGroups

namespace DocForest.DocText

/-- The blanks that can go away with a line. -/
def isLineBlank (c : Char) : Bool :=
  isSpace c || c == '\n'

/-- What is left of a text without spaces, tabs, carriage returns and ends of lines. -/
def solid (cs : List Char) : List Char :=
  cs.filter (!isLineBlank ·)

@[simp] theorem solid_append (cs ds : List Char) : solid (cs ++ ds) = solid cs ++ solid ds :=
  List.filter_append cs ds

theorem solid_eq_nil {cs : List Char} (h : ∀ c ∈ cs, isLineBlank c = true) : solid cs = [] := by
  refine List.filter_eq_nil_iff.mpr ?_
  intro c hc
  simp [h c hc]

/-! ### What goes away with a line -/

theorem solid_dropEnd (cs : List Char) :
    solid (dropEnd (fun c => c == ' ' || c == '\t') cs) = solid cs := by
  have hblank : ∀ c ∈ (cs.reverse.takeWhile fun c => c == ' ' || c == '\t').reverse,
      isLineBlank c = true := by
    intro c hc
    have hspace := List.mem_takeWhile_imp (p := fun c => c == ' ' || c == '\t')
      (List.mem_reverse.mp hc)
    simp only [isLineBlank, isSpace, hspace, Bool.true_or]
  calc solid (dropEnd (fun c => c == ' ' || c == '\t') cs)
      = solid (dropEnd (fun c => c == ' ' || c == '\t') cs ++
          (cs.reverse.takeWhile fun c => c == ' ' || c == '\t').reverse) := by
        rw [solid_append, solid_eq_nil hblank, List.append_nil]
    _ = solid cs := by
        rw [dropEnd, ← List.reverse_append, List.takeWhile_append_dropWhile, List.reverse_reverse]

theorem Lexed.isLineBlank_of_mem {ts : List Token} (h : Lexed ts) {t : Token} (ht : t ∈ ts)
    (hkind : t.kind = .space ∨ t.kind = .newline) : ∀ c ∈ t.text, isLineBlank c = true := by
  intro c hc
  rcases hkind with hkind | hkind
  · simp only [isLineBlank, h.isSpace_of_mem ht hkind c hc, Bool.true_or]
  · obtain ⟨rest, hcut⟩ := h.exists_cut ht
    rw [hcut.text_of_newline hkind, List.mem_singleton] at hc
    rw [hc]
    rfl

theorem Lexed.solid_drop_lineEnd {ts : List Token} (h : Lexed ts) :
    solid (textOf (ts.drop (lineEnd ts))) = solid (textOf ts) := by
  obtain ⟨us, vs, hts, hlen, hkinds, -⟩ := exists_lineEnd ts
  have hblank : ∀ c ∈ textOf us, isLineBlank c = true := by
    intro c hc
    obtain ⟨t, ht, hct⟩ := List.mem_flatMap.mp hc
    have hmem : t ∈ ts := by
      rw [hts]
      exact List.mem_append_left vs ht
    exact h.isLineBlank_of_mem hmem (hkinds t ht) c hct
  rw [hlen, hts, List.drop_left' rfl, textOf_append, solid_append, solid_eq_nil hblank,
    List.nil_append]

/-! ### Parts, one after the other -/

theorem renderRaw_textPart_append (cs : List Char) (ps : List Part) :
    renderRaw (textPart cs ++ ps) = cs ++ renderRaw ps := by
  unfold textPart
  split
  · rename_i hempty
    rw [List.isEmpty_iff.mp hempty]
    rfl
  · rfl

theorem renderRaw_command_cons (c : Command) (raw : List Char) (ps : List Part) :
    renderRaw (.command c raw :: ps) = raw ++ renderRaw ps := rfl

/-- The tokens of a command, the punctuation behind it and the rest of the text. -/
theorem find?_raw_append_rest {t : Token} {ts : List Token} {found : Found}
    (h : find? t ts = some found) :
    found.raw t ts ++ (found.tail ++ textOf (ts.drop found.used)) = textOf (t :: ts) := by
  rw [← List.append_assoc, find?_raw_append_tail h, List.append_assoc, ← textOf_append,
    List.take_append_drop, textOf_cons]

/-- **Without a command that vanishes nothing is lost.** -/
theorem renderRaw_partsFrom (started : Bool) (text : List Char) (ts : List Token)
    (h : ∀ p ∈ commandsIn ts, p.1.vanishes = false) :
    renderRaw (partsFrom started text ts) = text ++ textOf ts := by
  fun_induction partsFrom started text ts with
  | case1 started text =>
      rw [← List.append_nil (textPart text), renderRaw_textPart_append]
      rfl
  | case2 started text t ts hnone ih =>
      rw [commandsIn_of_none hnone] at h
      rw [ih h, textOf_cons, List.append_assoc]
  | case3 started text t ts found hfound rest halone ih =>
      rw [commandsIn_of_some hfound] at h
      have hstays := h _ List.mem_cons_self
      simp [hstays] at halone
  | case4 started text t ts found hfound rest halone ih =>
      rw [commandsIn_of_some hfound] at h
      rw [renderRaw_textPart_append, renderRaw_command_cons,
        ih fun p hp => h p (List.mem_cons_of_mem _ hp), find?_raw_append_rest hfound]

/-- **What is solid is never lost**, whatever goes away with its line. -/
theorem solid_renderRaw_partsFrom (started : Bool) (text : List Char) (ts : List Token)
    (hts : Lexed ts) :
    solid (renderRaw (partsFrom started text ts)) = solid (text ++ textOf ts) := by
  fun_induction partsFrom started text ts with
  | case1 started text =>
      rw [← List.append_nil (textPart text), renderRaw_textPart_append]
      rfl
  | case2 started text t ts hnone ih => rw [ih hts.2, textOf_cons, List.append_assoc]
  | case3 started text t ts found hfound rest halone ih =>
      have hrest : Lexed rest := hts.2.drop _
      rw [renderRaw_textPart_append, renderRaw_command_cons, solid_append, solid_append,
        ih (hrest.drop _), solid_dropEnd, solid_append, hrest.solid_drop_lineEnd,
        ← find?_raw_append_rest hfound]
      simp only [solid_append, rest]
  | case4 started text t ts found hfound rest halone ih =>
      rw [renderRaw_textPart_append, renderRaw_command_cons, solid_append, solid_append,
        ih (hts.2.drop _), ← find?_raw_append_rest hfound]
      simp only [solid_append, rest]

/-- A command that does not vanish neither relates to a class nor names a group. -/
theorem Command.vanishes_eq_false_iff {c : Command} :
    c.vanishes = false ↔ (∀ target, c ≠ .relates target) ∧ ∀ id, c ≠ .ingroup id := by
  cases c <;> simp [vanishes]

/--
**A text loses nothing but blanks when it is taken apart.**

Its tokens give it back, and so do its parts if none of them vanishes.  In any case the
parts give it back up to spaces, tabs, carriage returns and ends of lines.
-/
theorem parts_lose_only_blanks (cs : List Char) :
    textOf (tokens cs) = cs ∧
      ((∀ c ∈ commands cs, (∀ target, c ≠ .relates target) ∧ ∀ id, c ≠ .ingroup id) →
        renderRaw (parts cs) = cs) ∧
      solid (renderRaw (parts cs)) = solid cs := by
  refine ⟨textOf_tokens cs, ?_, ?_⟩
  · intro hcommands
    have hstay : ∀ p ∈ commandsIn (tokens cs), p.1.vanishes = false := by
      intro p hp
      refine Command.vanishes_eq_false_iff.mpr (hcommands p.1 ?_)
      rw [commands_eq]
      exact List.mem_map_of_mem hp
    rw [parts, renderRaw_partsFrom false [] _ hstay, List.nil_append, textOf_tokens]
  · rw [parts, solid_renderRaw_partsFrom false [] _ (lexed_tokens cs), List.nil_append,
      textOf_tokens]

/-- A list of links, a name with punctuation behind it, and a command without its argument. -/
def linkedText : List Char :=
  "\\see a(b, c), d.\n See \\ref f(int, \"x\"). \\anchor\n".toList

theorem linkedText_not_lost :
    commands linkedText =
        [.seeAlso ["a(b, c)", "d"], .ref "f(int, \"x\")" none, .malformed .anchor] ∧
      renderRaw (parts linkedText) = linkedText := by
  have hcommands : commands linkedText =
      [.seeAlso ["a(b, c)", "d"], .ref "f(int, \"x\")" none, .malformed .anchor] := by
    decide +kernel
  refine ⟨hcommands, (parts_lose_only_blanks linkedText).2.1 ?_⟩
  rw [hcommands]
  simp

end DocForest.DocText
