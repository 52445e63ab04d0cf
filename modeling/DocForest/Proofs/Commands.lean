/-
The commands of a text are found line by line.

`commandsIn` reads the commands off the tokens of a text and forgets what `parts` makes of the
text between them.  With it two laws are short: the commands of two lines are those of the
first and then those of the second, and blanks in front of a text are of no account.
-/
import DocForest.DocText.Part
import DocForest.Proofs.Readers

namespace DocForest.DocText

/-! ### The commands of a list of tokens -/

theorem parenBalance_eq_zero {cs : List Char} (h : ∀ c ∈ cs, isSpace c = true) :
    parenBalance cs = 0 := by
  unfold parenBalance
  induction cs with
  | nil => rfl
  | cons c cs ih =>
      obtain ⟨hc, hcs⟩ := List.forall_mem_cons.mp h
      have hparen : c ≠ '(' ∧ c ≠ ')' := by
        constructor <;> rintro rfl <;> exact absurd hc (by decide)
      rw [List.foldl_cons, if_neg (by simp [hparen.1]), if_neg (by simp [hparen.2])]
      exact ih hcs

/-- What a token starts, if it starts a command. -/
theorem find?_cases {t : Token} {ts : List Token} {found : Found} (h : find? t ts = some found) :
    t.kind = .command ∧ ∃ word, CommandWord.ofName? (String.ofList t.text.tail) = some word ∧
      (word.read? ts = some found ∨
        word.read? ts = none ∧ found = { command := .malformed word, used := 0 }) := by
  unfold find? at h
  split at h
  · rename_i hkind
    obtain ⟨word, hword, hfound⟩ := Option.map_eq_some_iff.mp h
    refine ⟨by simpa using hkind, word, hword, ?_⟩
    cases hread : word.read? ts with
    | none => exact Or.inr ⟨rfl, by rw [← hfound, hread]; rfl⟩
    | some found' => exact Or.inl (by rw [← hfound, hread]; rfl)
  · exact absurd h (by simp)

theorem find?_of_word {t : Token} (hkind : t.kind = .command) {word : CommandWord}
    (hword : CommandWord.ofName? (String.ofList t.text.tail) = some word) (ts : List Token) :
    find? t ts = some ((word.read? ts).getD { command := .malformed word, used := 0 }) := by
  simp [find?, hkind, hword]

/-- Whether a token starts a command does not depend on what follows. -/
theorem find?_eq_none {t : Token} {ts : List Token} (h : find? t ts = none) (us : List Token) :
    find? t us = none := by
  unfold find? at h ⊢
  split
  · rename_i hkind
    rw [if_pos hkind, Option.map_eq_none_iff] at h
    rw [h, Option.map_none]
  · rfl

theorem find?_of_kind {t : Token} (h : t.kind ≠ .command) (ts : List Token) :
    find? t ts = none := by
  simp [find?, h]

theorem AtEnd.find?_append {vs : List Token} (h : AtEnd vs) (t : Token) (ts : List Token) :
    find? t (ts ++ vs) = find? t ts := by
  unfold find?
  split
  · simp only [CommandWord.read?_append _ h]
  · rfl

theorem find?_used_le {t : Token} {ts : List Token} (hts : Lexed ts) {found : Found}
    (h : find? t ts = some found) : found.used ≤ ts.length := by
  obtain ⟨-, word, -, hread | ⟨-, rfl⟩⟩ := find?_cases h
  · obtain ⟨us, vs, rfl, hused, -⟩ := CommandWord.read?_stopsAt
      (fun t ht hkind => parenBalance_eq_zero (hts.isSpace_of_mem ht hkind)) hread
    rw [hused, List.length_append]
    omega
  · exact Nat.zero_le _

/-- The commands of a list of tokens, each with the characters it was read from. -/
def commandsIn : List Token → List (Command × List Char)
  | [] => []
  | t :: ts =>
    match find? t ts with
    | none => commandsIn ts
    | some found => (found.command, found.raw t ts) :: commandsIn (ts.drop found.used)
termination_by ts => ts.length
decreasing_by all_goals simp only [List.length_cons, List.length_drop]; omega

theorem commandsIn_nil : commandsIn [] = [] := by
  rw [commandsIn]

theorem commandsIn_of_none {t : Token} {ts : List Token} (h : find? t ts = none) :
    commandsIn (t :: ts) = commandsIn ts := by
  rw [commandsIn, h]

theorem commandsIn_of_some {t : Token} {ts : List Token} {found : Found}
    (h : find? t ts = some found) :
    commandsIn (t :: ts) =
      (found.command, found.raw t ts) :: commandsIn (ts.drop found.used) := by
  rw [commandsIn, h]

theorem commandsIn_append_of_plain {us : List Token} (h : ∀ t ∈ us, t.kind ≠ .command)
    (vs : List Token) : commandsIn (us ++ vs) = commandsIn vs := by
  induction us with
  | nil => rfl
  | cons t us ih =>
      rw [List.cons_append, commandsIn_of_none (find?_of_kind (h t (List.mem_cons_self)) _)]
      exact ih fun u hu => h u (List.mem_cons_of_mem _ hu)

/-- The rest of a line of spaces, with the end of the line. -/
theorem exists_lineEnd (ts : List Token) :
    ∃ us vs, ts = us ++ vs ∧ lineEnd ts = us.length ∧
      (∀ t ∈ us, t.kind = .space ∨ t.kind = .newline) ∧
      ((ts.takeWhile (·.kind != .newline)).all (·.kind == .space) = true →
        vs = [] ∨ ∃ sp t, Spaces sp ∧ t.kind = .newline ∧ us = sp ++ [t]) := by
  have hnext : lineEnd ts =
      if (next? ts).map (·.kind) = some .newline then spaces ts + 1 else spaces ts := rfl
  obtain ⟨sp, hsp, rfl | ⟨t, vs, ht, rfl⟩⟩ := exists_spaces ts
  · refine ⟨ts, [], by simp, ?_, fun t ht => Or.inl (hsp t ht), fun _ => Or.inl rfl⟩
    have hlen := spaces_append hsp []
    rw [List.append_nil] at hlen
    rw [hnext, next?_eq_none hsp, if_neg (by simp), hlen]
    rfl
  · rw [next?_append hsp, next?_cons ht, spaces_append hsp, spaces_cons ht] at hnext
    by_cases hnl : t.kind = .newline
    · refine ⟨sp ++ [t], vs, by simp, by simp [hnext, hnl], ?_,
        fun _ => Or.inr ⟨sp, t, hsp, hnl, rfl⟩⟩
      intro u hu
      rcases List.mem_append.mp hu with hu | hu
      · exact Or.inl (hsp u hu)
      · rw [List.mem_singleton.mp hu]
        exact Or.inr hnl
    · refine ⟨sp, t :: vs, rfl, by simp [hnext, hnl], fun u hu => Or.inl (hsp u hu), fun hall => ?_⟩
      -- A token that is neither a space nor the end of the line is in the way.
      have hmem : t ∈ (sp ++ t :: vs).takeWhile (·.kind != .newline) := by
        rw [List.takeWhile_append_of_pos (fun u hu => by simp [hsp u hu]),
          List.takeWhile_cons_of_pos (by simpa using hnl)]
        simp
      exact absurd (by simpa using List.all_eq_true.mp hall t hmem) ht

theorem commandsIn_drop_lineEnd (ts : List Token) :
    commandsIn (ts.drop (lineEnd ts)) = commandsIn ts := by
  obtain ⟨us, vs, hts, hlen, hplain, -⟩ := exists_lineEnd ts
  rw [hlen, hts, List.drop_left' rfl, commandsIn_append_of_plain]
  intro t ht
  rcases hplain t ht with hkind | hkind <;> simp [hkind]

/-- The command of a part with the characters it was read from. -/
def Part.source? : Part → Option (Command × List Char)
  | text _ => none
  | command c raw => some (c, raw)

@[simp] theorem filterMap_source?_textPart (cs : List Char) :
    (textPart cs).filterMap Part.source? = [] := by
  unfold textPart
  split <;> rfl

/-- **The commands do not depend on the text between them.** -/
theorem filterMap_source?_partsFrom (started : Bool) (text : List Char) (ts : List Token) :
    (partsFrom started text ts).filterMap Part.source? = commandsIn ts := by
  fun_induction partsFrom started text ts with
  | case1 => simp [commandsIn_nil]
  | case2 started text t ts hnone ih => rw [commandsIn_of_none hnone, ih]
  | case3 started text t ts found hfound rest halone ih =>
      rw [commandsIn_of_some hfound, List.filterMap_append, filterMap_source?_textPart,
        List.nil_append, List.filterMap_cons]
      simp only [Part.source?]
      rw [ih, commandsIn_drop_lineEnd]
  | case4 started text t ts found hfound rest halone ih =>
      rw [commandsIn_of_some hfound, List.filterMap_append, filterMap_source?_textPart,
        List.nil_append, List.filterMap_cons]
      simp only [Part.source?]
      rw [ih]

theorem commands_eq (cs : List Char) : commands cs = (commandsIn (tokens cs)).map (·.1) := by
  have hcommand : Part.command? = fun p => (Part.source? p).map (·.1) := by
    funext p
    cases p <;> rfl
  rw [commands, hcommand, ← List.map_filterMap, parts, filterMap_source?_partsFrom]

/-! ### Lines and blanks -/

theorem commandsIn_append {vs : List Token} (h : AtEnd vs) {ts : List Token} (hts : Lexed ts) :
    commandsIn (ts ++ vs) = commandsIn ts ++ commandsIn vs := by
  fun_induction commandsIn ts with
  | case1 => rfl
  | case2 t ts hnone ih =>
      rw [List.cons_append, commandsIn_of_none (find?_eq_none hnone _), ih hts.2]
  | case3 t ts found hfound ih =>
      have hle := find?_used_le hts.2 hfound
      rw [List.cons_append, commandsIn_of_some ((h.find?_append t ts).trans hfound),
        List.drop_append_of_le_length hle, ih (hts.2.drop _), List.cons_append, Found.raw,
        Found.raw, List.take_append_of_le_length hle]

/-- **The commands of two lines** are those of the first and then those of the second. -/
theorem commandsIn_tokens_newline (cs ds : List Char) :
    commandsIn (tokens (cs ++ '\n' :: ds)) = commandsIn (tokens cs) ++ commandsIn (tokens ds) := by
  rw [tokens_append_newline, commandsIn_append (atEnd_cons.mpr rfl) (lexed_tokens cs),
    commandsIn_of_none (find?_of_kind (by decide) _)]

theorem commandsIn_tokens_spaces {w cs : List Char} (hw : ∀ c ∈ w, isSpace c = true)
    (hstop : Stops isSpace cs) : commandsIn (tokens (w ++ cs)) = commandsIn (tokens cs) := by
  by_cases hne : w = []
  · rw [hne, List.nil_append]
  · have hcut : Cut ⟨.space, w⟩ cs := cut_space_iff.mpr ⟨hne, hw, hstop⟩
    rw [hcut.tokens_eq, commandsIn_of_none (find?_of_kind (by simp) _)]

/-- **Blanks in front of a text** are of no account to its commands. -/
theorem commandsIn_tokens_blank {bs : List Char} (h : ∀ c ∈ bs, Text.isBlank c = true)
    (cs : List Char) : commandsIn (tokens (bs ++ cs)) = commandsIn (tokens cs) := by
  induction bs with
  | nil => rfl
  | cons c bs ih =>
      obtain ⟨hc, hbs⟩ := List.forall_mem_cons.mp h
      rw [← ih hbs, List.cons_append]
      generalize bs ++ cs = ds
      cases hspace : isSpace c with
      | false =>
          obtain ⟨kind, hkind, hcut⟩ := cut_of_isBlank hc hspace ds
          have htokens := hcut.tokens_eq
          rw [List.singleton_append] at htokens
          rw [htokens, commandsIn_of_none (find?_of_kind ?_ _)]
          rcases hkind with ⟨rfl, -⟩ | rfl <;> simp
      | true =>
          -- The space joins those that come next.
          have hds := List.takeWhile_append_dropWhile (p := isSpace) (l := ds)
          have hall : ∀ d ∈ ds.takeWhile isSpace, isSpace d = true :=
            fun d hd => List.mem_takeWhile_imp hd
          have hstop : Stops isSpace (ds.dropWhile isSpace) := stops_dropWhile isSpace ds
          have hjoined := commandsIn_tokens_spaces (List.forall_mem_cons.mpr ⟨hspace, hall⟩) hstop
          have hbehind := commandsIn_tokens_spaces hall hstop
          rw [List.cons_append, hds] at hjoined
          rw [hds] at hbehind
          rw [hjoined, hbehind]

/-! ### The commands of a text, with what they were read from -/

/-- The commands of a text in order, each with its arguments and the characters it was read
from. -/
def sources (cs : List Char) : List (Command × List Char) :=
  (parts cs).filterMap Part.source?

theorem sources_eq (cs : List Char) : sources cs = commandsIn (tokens cs) := by
  rw [sources, parts, filterMap_source?_partsFrom]

theorem sources_nil : sources [] = [] := by
  rw [sources_eq, tokens, commandsIn_nil]

theorem sources_newline (cs ds : List Char) :
    sources (cs ++ '\n' :: ds) = sources cs ++ sources ds := by
  simp only [sources_eq, commandsIn_tokens_newline]

theorem sources_join (ls : List (List Char)) :
    sources (Text.join ['\n'] ls) = ls.flatMap sources := by
  induction ls with
  | nil => exact sources_nil
  | cons line ls ih =>
      cases ls with
      | nil => simp [Text.join]
      | cons next ls =>
          have hjoin : Text.join ['\n'] (line :: next :: ls) =
              line ++ '\n' :: Text.join ['\n'] (next :: ls) := by
            simp [Text.join]
          rw [hjoin, sources_newline, ih, ← List.flatMap_cons]

theorem commands_join (ls : List (List Char)) :
    commands (Text.join ['\n'] ls) = ls.flatMap commands := by
  have hsources : ∀ cs, commands cs = (sources cs).map (·.1) := fun cs => by
    rw [commands_eq, sources_eq]
  rw [hsources, sources_join, List.map_flatMap]
  exact congrArg (List.flatMap · ls) (funext fun cs => (hsources cs).symm)

/-- **Commands are found line by line.**  The commands of a text and then another, with the
end of a line between them, are those of the one and then those of the other.  So a line adds
the same commands whatever stands on the lines around it, and takes none from them. -/
theorem sources_line_by_line :
    (∀ a b : List Char, sources (a ++ '\n' :: b) = sources a ++ sources b) ∧
      ∀ (before after : List (List Char)) (line : List Char),
        sources (Text.join ['\n'] (before ++ line :: after)) =
          before.flatMap sources ++ sources line ++ after.flatMap sources := by
  refine ⟨sources_newline, fun before after line => ?_⟩
  rw [sources_join, List.flatMap_append, List.flatMap_cons, List.append_assoc]

-- The open quote, the open parenthesis and the missing argument stay on their lines.
example :
    (sources "\\ref \"a\n\\ref f(int \\ref h\n\\anchor\n\\ref g".toList).map (·.1) =
      [.malformed .ref, .ref "f(int \\ref h" none, .malformed .anchor, .ref "g" none] := by
  decide +kernel

end DocForest.DocText
