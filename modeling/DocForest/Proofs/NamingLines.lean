/-
The lines on which a group is named.

A line with nothing on it but the naming of a group goes away with its end.  Whether it has
nothing else on it is seen from the text in front of it, and where a line just went away there
is none: the line that comes next looks as if it went on behind the command.  So of two lines
in a row that name groups, only the first goes away as a line; the second leaves its blanks
and its end behind, and after that all is as at the start.

`staying` says which lines stay.  The parser agrees with it line by line (`StayKept`), and at the
start of a line all that counts is whether a command there could have the line to itself
(`canStandAlone`).  What stays too much is blank, so that it is seen only between lines that are
not (`Crowded`); at the ends of the text it is trimmed.
-/
import DocForest.Proofs.Briefs
import DocForest.Proofs.Reassembly
import Mathlib.Data.List.Flatten

namespace DocForest.DocText

open Text (isBlank join trim trimStart trimEnd)

/-! ### Lines -/

def isPad (c : Char) : Bool :=
  c == ' ' || c == '\t'

/-- A line that names a group, and blanks. -/
structure NamingLine where
  indent : List Char
  mark : Char
  gap : List Char
  id : List Char
  rest : List Char
  indent_pads : ∀ c ∈ indent, isPad c = true
  mark_isMark : isMark mark = true
  gap_nonempty : gap ≠ []
  gap_pads : ∀ c ∈ gap, isPad c = true
  id_nonempty : id ≠ []
  id_chars : ∀ c ∈ id, isWordChar c = true
  rest_pads : ∀ c ∈ rest, isPad c = true

def NamingLine.chars (l : NamingLine) : List Char :=
  l.indent ++ (l.mark :: "ingroup".toList) ++ l.gap ++ l.id ++ l.rest

/-- What stays of the line if it is not taken for one. -/
def NamingLine.blanks (l : NamingLine) : List Char :=
  l.indent ++ l.rest

/-- A line of a documentation text. -/
inductive Line
  | plain (chars : List Char) (single : '\n' ∉ chars) (quiet : commands chars = [])
  | naming (line : NamingLine)

def Line.chars : Line → List Char
  | plain cs _ _ => cs
  | naming l => l.chars

/-- The text of a line without commands. -/
def Line.plain? : Line → Option (List Char)
  | plain cs _ _ => some cs
  | naming _ => none

/-- The group that a line names. -/
def Line.group? : Line → Option String
  | plain _ _ _ => none
  | naming l => some (String.ofList l.id)

/-! ### Tokens of a line -/

theorem isSpace_of_isPad {c : Char} (h : isPad c = true) : isSpace c = true := by
  rw [isSpace, ← isPad, h, Bool.true_or]

theorem isBlank_of_isPad {c : Char} (h : isPad c = true) : isBlank c = true :=
  isBlank_of_isSpace (isSpace_of_isPad h)

theorem stops_of_isPad {p : Char → Bool} (hp : ∀ c, isPad c = true → p c = false)
    {w : List Char} (hw : ∀ c ∈ w, isPad c = true) : Stops p w :=
  fun c hc => hp c (hw c (List.mem_of_head? hc))

/-- The token of some pads, if there are any. -/
def padTokens (w : List Char) : List Token :=
  if w = [] then [] else [⟨.space, w⟩]

theorem spaces_padTokens (w : List Char) : Spaces (padTokens w) := by
  unfold padTokens
  split <;> simp [Spaces]

theorem textOf_padTokens (w : List Char) : textOf (padTokens w) = w := by
  unfold padTokens
  split <;> simp_all [textOf]

theorem tokens_pads {w : List Char} (hw : ∀ c ∈ w, isPad c = true) {cs : List Char}
    (hstop : Stops isSpace cs) : tokens (w ++ cs) = padTokens w ++ tokens cs := by
  unfold padTokens
  split
  · rename_i hempty
    rw [hempty]
    rfl
  · rename_i hne
    exact (cut_space_iff.mpr ⟨hne, fun c hc => isSpace_of_isPad (hw c hc), hstop⟩).tokens_eq

namespace NamingLine

variable (l : NamingLine)

/-- The tokens of the naming itself. -/
def nameTokens : List Token :=
  [⟨.command, l.mark :: "ingroup".toList⟩, ⟨.space, l.gap⟩, ⟨.word, l.id⟩]

theorem cut_id : Cut ⟨.word, l.id⟩ l.rest := by
  have hnotWord : ∀ c, isPad c = true → isWordChar c = false := fun c hc => by
    simp [isWordChar, isBlank_of_isPad hc]
  exact cut_word_iff.mpr ⟨l.id_nonempty, l.id_chars, stops_of_isPad hnotWord l.rest_pads⟩

theorem cut_gap : Cut ⟨.space, l.gap⟩ (l.id ++ l.rest) := by
  obtain ⟨c, w, hw⟩ := List.exists_cons_of_ne_nil l.id_nonempty
  have hword : isWordChar c = true := l.id_chars c (by rw [hw]; exact List.mem_cons_self)
  refine cut_space_iff.mpr ⟨l.gap_nonempty, fun c hc => isSpace_of_isPad (l.gap_pads c hc), ?_⟩
  rw [hw, List.cons_append, stops_cons]
  cases hspace : isSpace c with
  | false => rfl
  | true => simp [isWordChar, isBlank_of_isSpace hspace] at hword

theorem cut_command :
    Cut ⟨.command, l.mark :: "ingroup".toList⟩ (l.gap ++ (l.id ++ l.rest)) := by
  obtain ⟨c, w, hw⟩ := List.exists_cons_of_ne_nil l.gap_nonempty
  have hblank := isBlank_of_isPad (l.gap_pads c (by rw [hw]; exact List.mem_cons_self))
  have hstop : Stops isLetter (l.gap ++ (l.id ++ l.rest)) := by
    rw [hw, List.cons_append, stops_cons]
    exact not_isLetter_of_isBlank hblank
  have hletters : ∀ c ∈ "ingroup".toList, isLetter c = true := List.all_eq_true.mp (by decide)
  have hlen := runLength_append_eq.mpr ⟨hletters, hstop⟩
  refine ⟨l.mark, "ingroup".toList, rfl, ?_⟩
  rw [lexeme, ← isMark, if_pos l.mark_isMark, hlen, if_pos (by decide)]

theorem tokens_chars :
    tokens l.chars = padTokens l.indent ++ (l.nameTokens ++ padTokens l.rest) := by
  have hrest : tokens l.rest = padTokens l.rest := by
    have htokens := tokens_pads l.rest_pads (stops_nil isSpace)
    rwa [List.append_nil, tokens, List.append_nil] at htokens
  have hname : tokens (l.mark :: "ingroup".toList ++ (l.gap ++ (l.id ++ l.rest))) =
      l.nameTokens ++ padTokens l.rest := by
    rw [l.cut_command.tokens_eq, l.cut_gap.tokens_eq, l.cut_id.tokens_eq, hrest]
    rfl
  have hstop : Stops isSpace (l.mark :: "ingroup".toList ++ (l.gap ++ (l.id ++ l.rest))) := by
    rw [List.cons_append, stops_cons]
    rcases eq_of_isMark l.mark_isMark with hmark | hmark <;> rw [hmark] <;> decide
  have hchars : l.chars =
      l.indent ++ (l.mark :: "ingroup".toList ++ (l.gap ++ (l.id ++ l.rest))) := by
    simp only [chars, List.append_assoc]
  rw [hchars, tokens_pads l.indent_pads hstop, hname]

/-- The command of the line. -/
theorem find?_nameTokens (ts : List Token) :
    find? ⟨.command, l.mark :: "ingroup".toList⟩ (⟨.space, l.gap⟩ :: ⟨.word, l.id⟩ :: ts) =
      some { command := .ingroup (String.ofList l.id), used := 2 } := by
  have hargument : wordArgument? (⟨.space, l.gap⟩ :: ⟨.word, l.id⟩ :: ts) = some (l.id, 2) :=
    wordArgument?_eq_some.mpr ⟨[⟨.space, l.gap⟩], ts, by simp [Spaces], rfl, rfl⟩
  have hword : CommandWord.ofName? (String.ofList "ingroup".toList) = some .ingroup := by
    decide +kernel
  rw [find?_of_word (t := ⟨.command, l.mark :: "ingroup".toList⟩) rfl hword]
  simp only [CommandWord.read?, withWord?, hargument, Option.map_some, Option.getD_some]

end NamingLine

/-! ### The parser on a line -/

/-- Tokens without commands become text. -/
theorem partsFrom_of_commandsIn_eq_nil {ts : List Token} (h : commandsIn ts = [])
    (started : Bool) (text : List Char) (more : List Token) :
    partsFrom started text (ts ++ more) = partsFrom started (text ++ textOf ts) more := by
  induction ts generalizing text with
  | nil => rw [textOf_nil, List.nil_append, List.append_nil]
  | cons t ts ih =>
      cases hfind : find? t ts with
      | none =>
          rw [commandsIn_of_none hfind] at h
          rw [List.cons_append, partsFrom, find?_eq_none hfind (ts ++ more)]
          dsimp only
          rw [ih h, textOf_cons, List.append_assoc]
      | some found =>
          rw [commandsIn_of_some hfind] at h
          cases h

section

variable {t : Token} {ts : List Token} {found : Found} {started : Bool} {text : List Char}

theorem partsFrom_of_alone (hfound : find? t ts = some found)
    (hvanish : found.command.vanishes = true)
    (halone : isAlone started text (ts.drop found.used) = true) :
    partsFrom started text (t :: ts) =
      textPart (dropEnd isPad text) ++ .command found.command (found.raw t ts) ::
        partsFrom true found.tail
          ((ts.drop found.used).drop (lineEnd (ts.drop found.used))) := by
  rw [partsFrom, hfound]
  exact if_pos (by rw [hvanish, halone]; rfl)

theorem partsFrom_of_not_alone (hfound : find? t ts = some found)
    (halone : isAlone started text (ts.drop found.used) = false) :
    partsFrom started text (t :: ts) =
      textPart text ++ .command found.command (found.raw t ts) ::
        partsFrom true found.tail (ts.drop found.used) := by
  rw [partsFrom, hfound]
  exact if_neg (by rw [halone, Bool.and_false]; exact Bool.false_ne_true)

end

/-- No text on the line is in front of this place. -/
def ClearStart (text : List Char) : Prop :=
  text = [] ∨ ∃ before, text = before ++ ['\n']

/-- Whether a command here could have its line to itself. -/
def canStandAlone (started : Bool) (text : List Char) : Bool :=
  text.contains '\n' || !started

section

variable {text indent : List Char} {sp vs : List Token}

theorem newline_not_mem_of_isPad {w : List Char} (hw : ∀ c ∈ w, isPad c = true) : '\n' ∉ w :=
  fun hmem => absurd (hw '\n' hmem) (by decide)

theorem lastLine_append (htext : ClearStart text) (hindent : '\n' ∉ indent) :
    lastLine (text ++ indent) = indent := by
  rcases htext with rfl | ⟨before, rfl⟩
  · exact lastLine_of_notMem hindent
  · have hall : ∀ c ∈ indent.reverse, (c != '\n') = true := fun c hc => by
      rw [bne_iff_ne]
      rintro rfl
      exact hindent (List.mem_reverse.mp hc)
    rw [lastLine, List.append_assoc, List.reverse_append, List.reverse_append, List.append_assoc,
      List.takeWhile_append_of_pos hall]
    simp

theorem isAlone_append (htext : ClearStart text) (hindent : ∀ c ∈ indent, isPad c = true)
    (hsp : Spaces sp) (hvs : AtEnd vs) (started : Bool) :
    isAlone started (text ++ indent) (sp ++ vs) = canStandAlone started text := by
  have hnotMem := newline_not_mem_of_isPad hindent
  have hcontains : (text ++ indent).contains '\n' = text.contains '\n' := by
    simp [hnotMem]
  have hblank : trim (lastLine (text ++ indent)) = [] := by
    rw [lastLine_append htext hnotMem]
    exact trim_of_blank fun c hc => isBlank_of_isPad (hindent c hc)
  have hspaces : ((sp ++ vs).takeWhile (·.kind != .newline)).all (·.kind == .space) = true := by
    rw [hvs.takeWhile_append (by simp)]
    refine List.all_eq_true.mpr fun t ht => ?_
    simp [hsp t ((List.takeWhile_sublist _).subset ht)]
  rw [isAlone, hcontains, hblank, hspaces, List.isEmpty_nil, Bool.and_true, Bool.and_true]
  rfl

theorem drop_lineEnd (hsp : Spaces sp) (hvs : AtEnd vs) :
    (sp ++ vs).drop (lineEnd (sp ++ vs)) = vs.drop 1 := by
  have hnext : lineEnd (sp ++ vs) =
      if (next? (sp ++ vs)).map (·.kind) = some .newline then spaces (sp ++ vs) + 1
      else spaces (sp ++ vs) := rfl
  rw [hnext, next?_append hsp, spaces_append hsp]
  cases vs with
  | nil => simp [next?, spaces]
  | cons t vs =>
      have hkind := atEnd_cons.mp hvs
      have hne : t.kind ≠ .space := by simp [hkind]
      rw [next?_cons hne, spaces_cons hne, Option.map_some, if_pos (by rw [hkind]), Nat.add_zero,
        drop_argument]
      rfl

theorem dropEnd_isPad (htext : ClearStart text) (hindent : ∀ c ∈ indent, isPad c = true) :
    dropEnd isPad (text ++ indent) = text := by
  have hpads : dropEnd isPad indent = [] := by
    rw [dropEnd, List.reverse_eq_nil_iff, List.dropWhile_eq_nil_iff]
    exact fun c hc => hindent c (List.mem_reverse.mp hc)
  rcases htext with rfl | ⟨before, rfl⟩
  · exact hpads
  · rw [List.append_assoc, List.singleton_append, dropEnd_append_cons (by decide), hpads]

/-- A naming line goes away, or leaves its blanks. -/
theorem keptText_naming (l : NamingLine) (htext : ClearStart text) (hvs : AtEnd vs)
    (started : Bool) :
    keptText (partsFrom started text (tokens l.chars ++ vs)) =
      if canStandAlone started text then text ++ keptText (partsFrom true [] (vs.drop 1))
      else text ++ l.indent ++ keptText (partsFrom true l.rest vs) := by
  have htokens : tokens l.chars ++ vs =
      padTokens l.indent ++ (⟨.command, l.mark :: "ingroup".toList⟩ :: ⟨.space, l.gap⟩ ::
        ⟨.word, l.id⟩ :: (padTokens l.rest ++ vs)) := by
    rw [l.tokens_chars]
    simp [NamingLine.nameTokens]
  have hfind := l.find?_nameTokens (padTokens l.rest ++ vs)
  have halone := isAlone_append htext l.indent_pads (spaces_padTokens l.rest) hvs started
  rw [htokens, partsFrom_spaces (spaces_padTokens _), textOf_padTokens]
  cases hstand : canStandAlone started text with
  | true =>
      rw [hstand] at halone
      rw [partsFrom_of_alone hfind rfl halone, dropEnd_isPad htext l.indent_pads,
        keptText_textPart_append, if_pos rfl]
      exact congrArg (fun ts => text ++ keptText (partsFrom true [] ts))
        (drop_lineEnd (spaces_padTokens l.rest) hvs)
  | false =>
      rw [hstand] at halone
      have hrest := partsFrom_spaces (spaces_padTokens l.rest) true [] vs
      rw [textOf_padTokens, List.nil_append] at hrest
      rw [partsFrom_of_not_alone hfind halone, keptText_textPart_append, if_neg (by simp), ← hrest]
      rfl

end

/-! ### The parser on many lines -/

/-- The lines that stay, where `free` says whether a command in the first one could have its line
to itself.  A naming line right behind one that went away could not, and leaves its blanks. -/
def staying : (free : Bool) → List Line → List (List Char)
  | _, [] => []
  | _, .plain cs _ _ :: ls => cs :: staying true ls
  | true, .naming _ :: ls => staying false ls
  | false, .naming l :: ls => l.blanks :: staying true ls

/-- Lines, each with its end. -/
def ended (ls : List (List Char)) : List Char :=
  ls.flatMap (· ++ ['\n'])

theorem ended_cons (line : List Char) (ls : List (List Char)) :
    ended (line :: ls) = line ++ '\n' :: ended ls := by
  rw [ended, List.flatMap_cons, List.append_assoc]
  rfl

theorem ended_append (ls ls' : List (List Char)) : ended (ls ++ ls') = ended ls ++ ended ls' :=
  List.flatMap_append

/-- The lines joined to a text. -/
def joined (ls : List Line) : List Char :=
  join ['\n'] (ls.map Line.chars)

/-- What stands behind a line. -/
def tokensBehind (ls : List Line) : List Token :=
  if ls = [] then [] else lineBreak :: tokens (joined ls)

theorem atEnd_tokensBehind (ls : List Line) : AtEnd (tokensBehind ls) := by
  unfold tokensBehind
  split
  · exact atEnd_nil
  · exact atEnd_cons.mpr rfl

theorem tokens_joined_cons (l : Line) (ls : List Line) :
    tokens (joined (l :: ls)) = tokens l.chars ++ tokensBehind ls := by
  cases ls with
  | nil => simp [joined, join, tokensBehind]
  | cons l' ls =>
      rw [joined, List.map_cons, List.map_cons, Text.join_cons_cons, ← List.map_cons, ← joined,
        List.append_assoc, List.singleton_append, tokens_append_newline, tokensBehind,
        if_neg (List.cons_ne_nil _ _)]

/-- What the parser keeps of the lines, but for blanks at the end: the text in front of them
and the lines that stay. -/
def Keeps (started : Bool) (text : List Char) (ts : List Token) (kept : List Char) : Prop :=
  ∃ bs, (∀ b ∈ bs, isBlank b = true) ∧ keptText (partsFrom started text ts) ++ bs = kept

theorem keptText_partsFrom_nil (started : Bool) (text : List Char) :
    keptText (partsFrom started text []) = text := by
  have htext := keptText_textPart_append text []
  rw [List.append_nil] at htext
  rw [partsFrom, htext]
  exact List.append_nil text

section

variable {started started' : Bool} {text text' front kept : List Char} {ts ts' : List Token}

theorem Keeps.congr (h : Keeps started text ts kept)
    (heq : partsFrom started' text' ts' = partsFrom started text ts) :
    Keeps started' text' ts' kept := by
  rwa [Keeps, heq]

theorem Keeps.append (h : Keeps started text ts kept)
    (heq : keptText (partsFrom started' text' ts') =
      front ++ keptText (partsFrom started text ts)) :
    Keeps started' text' ts' (front ++ kept) := by
  obtain ⟨bs, hbs, hkept⟩ := h
  exact ⟨bs, hbs, by rw [heq, List.append_assoc, hkept]⟩

end

theorem keeps_nil (started : Bool) (text : List Char) {bs : List Char}
    (hbs : ∀ b ∈ bs, isBlank b = true) : Keeps started text [] (text ++ bs) :=
  ⟨bs, hbs, by rw [keptText_partsFrom_nil]⟩

/-- The lines that stay are kept, whatever is in front of them. -/
def StayKept (ls : List Line) : Prop :=
  ∀ started text, ClearStart text → Keeps started text (tokens (joined ls))
    (text ++ ended (staying (canStandAlone started text) ls))

section

variable {ls : List Line}

/-- A line that stays gives its end to those behind it. -/
theorem StayKept.behind (h : StayKept ls) (started : Bool) (text : List Char) :
    Keeps started text (tokensBehind ls) (text ++ '\n' :: ended (staying true ls)) := by
  unfold tokensBehind
  split
  · rename_i hempty
    rw [hempty]
    exact keeps_nil started text (List.all_eq_true.mp (by decide))
  · have hlines := h started (text ++ ['\n']) (Or.inr ⟨text, rfl⟩)
    have hstand : canStandAlone started (text ++ ['\n']) = true := by simp [canStandAlone]
    rw [hstand, List.append_assoc] at hlines
    refine hlines.congr ?_
    rw [partsFrom, find?_of_kind (by decide)]
    rfl

/-- A line that goes away takes its end with it, and leaves no text. -/
theorem StayKept.next (h : StayKept ls) :
    Keeps true [] ((tokensBehind ls).drop 1) (ended (staying false ls)) := by
  unfold tokensBehind
  split
  · rename_i hempty
    rw [hempty]
    exact keeps_nil true [] (by simp)
  · exact h true [] (Or.inl rfl)

theorem StayKept.cons_plain (h : StayKept ls) {cs : List Char} (hline : '\n' ∉ cs)
    (hquiet : commands cs = []) : StayKept (.plain cs hline hquiet :: ls) := by
  intro started text _
  have hnone : commandsIn (tokens cs) = [] := by
    rw [commands_eq] at hquiet
    exact List.map_eq_nil_iff.mp hquiet
  have hparts := partsFrom_of_commandsIn_eq_nil hnone started text (tokensBehind ls)
  rw [textOf_tokens] at hparts
  rw [tokens_joined_cons, staying, ended_cons, ← List.append_assoc]
  exact (h.behind started (text ++ cs)).congr hparts

theorem StayKept.cons_naming (h : StayKept ls) (l : NamingLine) :
    StayKept (.naming l :: ls) := by
  intro started text htext
  have hkept := keptText_naming l htext (atEnd_tokensBehind ls) started
  rw [tokens_joined_cons, Line.chars]
  cases hstand : canStandAlone started text with
  | true =>
      rw [hstand, if_pos rfl] at hkept
      rw [staying]
      exact h.next.append hkept
  | false =>
      rw [hstand, if_neg (by simp)] at hkept
      have hblanks : l.blanks ++ '\n' :: ended (staying true ls) =
          l.indent ++ (l.rest ++ '\n' :: ended (staying true ls)) := by
        rw [NamingLine.blanks, List.append_assoc]
      rw [staying, ended_cons, hblanks, ← List.append_assoc]
      exact (h.behind true l.rest).append hkept

theorem stayKept (ls : List Line) : StayKept ls := by
  induction ls with
  | nil =>
      intro started text _
      have htokens : tokens (joined []) = [] := by rw [joined, List.map_nil, join, tokens]
      rw [htokens]
      exact keeps_nil started text (by simp [staying, ended])
  | cons l ls ih =>
      cases l with
      | plain cs hline hquiet => exact ih.cons_plain hline hquiet
      | naming l => exact ih.cons_naming l

end

/-! ### What is taken from the lines -/

/-- The group that a command names. -/
def Command.group? : Command → Option String
  | ingroup id => some id
  | _ => none

theorem findSome?_group? (cs : List Char) :
    (parts cs).findSome? Part.group? = ((commands cs).filterMap Command.group?).head? := by
  have hpart : ∀ p : Part, p.group? = p.command?.bind Command.group? := by
    rintro (_ | ⟨c, raw⟩)
    · rfl
    · cases c <;> rfl
  rw [commands, List.filterMap_filterMap, List.head?_filterMap]
  exact congrArg (List.findSome? · (parts cs)) (funext hpart)

theorem NamingLine.commands_chars (l : NamingLine) :
    commands l.chars = [.ingroup (String.ofList l.id)] := by
  have hplain : ∀ w, ∀ t ∈ padTokens w, t.kind ≠ .command := fun w t ht => by
    simp [spaces_padTokens w t ht]
  have hrest : commandsIn (padTokens l.rest) = [] := by
    have hcommands := commandsIn_append_of_plain (hplain l.rest) []
    rwa [List.append_nil, commandsIn_nil] at hcommands
  rw [commands_eq, l.tokens_chars, commandsIn_append_of_plain (hplain l.indent)]
  have hfind := l.find?_nameTokens (padTokens l.rest)
  rw [nameTokens, List.cons_append, List.cons_append, List.cons_append, List.nil_append,
    commandsIn_of_some hfind]
  simp only [List.drop_succ_cons, List.drop_zero, hrest, List.map_cons, List.map_nil]

theorem Line.filterMap_commands (l : Line) :
    (commands l.chars).filterMap Command.group? = l.group?.toList := by
  cases l with
  | plain cs hline hquiet =>
      rw [Line.chars, hquiet]
      rfl
  | naming l =>
      rw [Line.chars, l.commands_chars]
      rfl

theorem groups_joined (ls : List Line) :
    (commands (joined ls)).filterMap Command.group? = ls.filterMap Line.group? := by
  rw [joined, commands_join, List.flatMap_map, List.filterMap_flatMap,
    List.filterMap_eq_flatMap_toList]
  exact congrArg (List.flatMap · ls) (funext Line.filterMap_commands)

/-- What is left of the lines is what stays of them. -/
theorem takeGroup_joined {ls : List Line} {id : String} (h : ls.findSome? Line.group? = some id) :
    takeGroup (String.ofList (joined ls)) =
      (some id, String.ofList (trim (ended (staying true ls)))) := by
  have hgroup : (parts (joined ls)).findSome? Part.group? = some id := by
    rw [findSome?_group?, groups_joined, List.head?_filterMap, h]
  obtain ⟨bs, hbs, heq⟩ := stayKept ls false [] (Or.inl rfl)
  have hkept : keptText (parts (joined ls)) ++ bs = ended (staying true ls) := heq
  rw [takeGroup, String.toList_ofList]
  simp only [hgroup]
  rw [← hkept, trim_append_of_blank hbs]
  rfl

/-! ### Lines that stay in vain -/

/-- The texts of the lines without commands. -/
def plainLines (ls : List Line) : List (List Char) :=
  ls.filterMap Line.plain?

theorem plainLines_cons_plain (cs : List Char) (hline : '\n' ∉ cs) (hquiet : commands cs = [])
    (ls : List Line) : plainLines (.plain cs hline hquiet :: ls) = cs :: plainLines ls := rfl

theorem plainLines_cons_naming (l : NamingLine) (ls : List Line) :
    plainLines (.naming l :: ls) = plainLines ls := rfl

theorem plainLines_append (front back : List Line) :
    plainLines (front ++ back) = plainLines front ++ plainLines back :=
  List.filterMap_append

/-- Whether there is something to see on the line. -/
def Line.isVisible : Line → Bool
  | plain cs _ _ => cs.any (!isBlank ·)
  | naming _ => false

/-- Two lines in a row name groups. -/
def HasNeighbours (ls : List Line) : Prop :=
  ∃ front a b back, ls = front ++ .naming a :: .naming b :: back

/-- Two lines in a row name groups, with something to see in front of them and behind them. -/
def Crowded (ls : List Line) : Prop :=
  ∃ front a b back, ls = front ++ .naming a :: .naming b :: back ∧
    (∃ l ∈ front, l.isVisible = true) ∧ ∃ l ∈ back, l.isVisible = true

theorem staying_append_plain (free : Bool) (front back : List Line) {cs : List Char}
    (hline : '\n' ∉ cs) (hquiet : commands cs = []) :
    staying free (front ++ .plain cs hline hquiet :: back) =
      staying free front ++ cs :: staying true back := by
  induction front generalizing free with
  | nil => rfl
  | cons l front ih =>
      cases l with
      | plain ds hline' hquiet' => exact congrArg (ds :: ·) (ih true)
      | naming l =>
          cases free with
          | true => exact ih false
          | false => exact congrArg (l.blanks :: ·) (ih true)

theorem plainLines_sublist (free : Bool) (ls : List Line) :
    (plainLines ls).Sublist (staying free ls) := by
  induction ls generalizing free with
  | nil => exact List.nil_sublist _
  | cons l ls ih =>
      cases l with
      | plain cs hline hquiet => exact (ih true).cons_cons cs
      | naming l =>
          cases free with
          | true => exact ih false
          | false => exact (ih true).cons l.blanks

theorem ended_plainLines_sublist (free : Bool) (ls : List Line) :
    (ended (plainLines ls)).Sublist (ended (staying free ls)) :=
  (plainLines_sublist free ls).flatMap _

theorem NamingLine.isBlank_blanks (l : NamingLine) : ∀ c ∈ l.blanks, isBlank c = true := by
  intro c hc
  rcases List.mem_append.mp hc with hindent | hrest
  · exact isBlank_of_isPad (l.indent_pads c hindent)
  · exact isBlank_of_isPad (l.rest_pads c hrest)

theorem isBlank_newline_cons {bs : List Char} (hbs : ∀ b ∈ bs, isBlank b = true) :
    ∀ b ∈ '\n' :: bs, isBlank b = true :=
  List.forall_mem_cons.mpr ⟨by decide, hbs⟩

/-- What stays is blank if there was nothing to see. -/
theorem isBlank_ended_staying {ls : List Line} (h : ∀ l ∈ ls, l.isVisible = false) (free : Bool) :
    ∀ c ∈ ended (staying free ls), isBlank c = true := by
  induction ls generalizing free with
  | nil => simp [staying, ended]
  | cons l ls ih =>
      obtain ⟨hl, hls⟩ := List.forall_mem_cons.mp h
      cases l with
      | plain cs _ _ =>
          have hcs : ∀ c ∈ cs, isBlank c = true := by simpa [Line.isVisible] using hl
          rw [staying, ended_cons]
          exact List.forall_mem_append.mpr ⟨hcs, isBlank_newline_cons (ih hls true)⟩
      | naming l =>
          cases free with
          | true => exact ih hls false
          | false =>
              rw [staying, ended_cons]
              exact List.forall_mem_append.mpr
                ⟨l.isBlank_blanks, isBlank_newline_cons (ih hls true)⟩

theorem isBlank_ended_plainLines {ls : List Line} (h : ∀ l ∈ ls, l.isVisible = false) :
    ∀ c ∈ ended (plainLines ls), isBlank c = true :=
  fun c hc => isBlank_ended_staying h true c ((ended_plainLines_sublist true ls).subset hc)

theorem hasNeighbours_cons {l : Line} {ls : List Line} :
    HasNeighbours (l :: ls) ↔
      (∃ a b back, l = .naming a ∧ ls = .naming b :: back) ∨ HasNeighbours ls := by
  constructor
  · rintro ⟨front, a, b, back, heq⟩
    cases front with
    | nil => exact Or.inl ⟨a, b, back, (List.cons.inj heq).1, (List.cons.inj heq).2⟩
    | cons l' front => exact Or.inr ⟨front, a, b, back, (List.cons.inj heq).2⟩
  · rintro (⟨a, b, back, rfl, rfl⟩ | ⟨front, a, b, back, rfl⟩)
    · exact ⟨[], a, b, back, rfl⟩
    · exact ⟨l :: front, a, b, back, rfl⟩

/-- No blank line stays if no two lines in a row name groups; behind a line that went away, the
first one may not name a group either. -/
theorem ended_staying_eq_iff (free : Bool) (ls : List Line) :
    ended (staying free ls) = ended (plainLines ls) ↔
      ¬ HasNeighbours ls ∧ (free = false → ∀ a back, ls ≠ .naming a :: back) := by
  induction ls generalizing free with
  | nil => simp [staying, plainLines, HasNeighbours]
  | cons l ls ih =>
      rw [hasNeighbours_cons]
      cases l with
      | plain cs hline hquiet =>
          rw [plainLines_cons_plain, staying, ended_cons, ended_cons, List.append_cancel_left_eq,
            List.cons_inj_right, ih true]
          simp
      | naming l =>
          rw [plainLines_cons_naming]
          cases free with
          | true =>
              rw [staying, ih false]
              constructor
              · rintro ⟨hnone, hhead⟩
                refine ⟨?_, by simp⟩
                rintro (⟨-, b, back, -, heq⟩ | hls)
                · exact hhead rfl b back heq
                · exact hnone hls
              · rintro ⟨hnone, -⟩
                exact ⟨fun hls => hnone (Or.inr hls),
                  fun _ b back heq => hnone (Or.inl ⟨l, b, back, rfl, heq⟩)⟩
          | false =>
              have hle := (ended_plainLines_sublist true ls).length_le
              rw [staying, ended_cons]
              refine iff_of_false (fun heq => ?_) (by simp)
              have hlength := congrArg List.length heq
              simp only [List.length_append, List.length_cons] at hlength
              omega

/-! ### What can be seen around them -/

/-- Two lines in a row name groups, with something to see behind them. -/
def CrowdedAbove (ls : List Line) : Prop :=
  ∃ front a b back, ls = front ++ .naming a :: .naming b :: back ∧ ∃ l ∈ back, l.isVisible = true

theorem crowded_iff_crowdedAbove {front back : List Line} {p : Line}
    (hfront : ∀ l ∈ front, l.isVisible = false) (hp : p.isVisible = true) :
    Crowded (front ++ p :: back) ↔ CrowdedAbove back := by
  constructor
  · rintro ⟨us, a, b, vs, heq, ⟨l, hl, hsee⟩, hvs⟩
    rcases List.append_eq_append_iff.mp heq with ⟨as, rfl, has⟩ | ⟨bs, rfl, -⟩
    · rcases List.cons_eq_append_iff.mp has with ⟨-, hnaming⟩ | ⟨as', -, hback⟩
      · rw [← (List.cons.inj hnaming).1] at hp
        cases hp
      · exact ⟨as', a, b, vs, hback, hvs⟩
    · rw [hfront l (List.mem_append_left bs hl)] at hsee
      cases hsee
  · rintro ⟨us, a, b, vs, rfl, hvs⟩
    exact ⟨front ++ p :: us, a, b, vs, by simp, ⟨p, by simp, hp⟩, hvs⟩

theorem crowdedAbove_iff_hasNeighbours {middle back : List Line} {q : Line}
    (hback : ∀ l ∈ back, l.isVisible = false) (hq : q.isVisible = true) :
    CrowdedAbove (middle ++ q :: back) ↔ HasNeighbours middle := by
  have hnaming : ∀ l : NamingLine, q ≠ .naming l := by
    rintro l rfl
    cases hq
  constructor
  · rintro ⟨us, a, b, vs, heq, l, hl, hsee⟩
    rcases List.append_eq_append_iff.mp heq with ⟨as, rfl, has⟩ | ⟨bs, rfl, hbs⟩
    · rcases List.cons_eq_append_iff.mp has with ⟨-, hq'⟩ | ⟨as', -, rfl⟩
      · exact absurd (List.cons.inj hq').1.symm (hnaming a)
      · rw [hback l (by simp [hl])] at hsee
        cases hsee
    · rcases List.cons_eq_append_iff.mp hbs with ⟨-, hq'⟩ | ⟨bs', rfl, hbs'⟩
      · exact absurd (List.cons.inj hq').1 (hnaming a)
      · rcases List.cons_eq_append_iff.mp hbs' with ⟨-, hq'⟩ | ⟨vs', rfl, -⟩
        · exact absurd (List.cons.inj hq').1 (hnaming b)
        · exact ⟨us, a, b, vs', rfl⟩
  · rintro ⟨us, a, b, vs, rfl⟩
    exact ⟨us, a, b, vs ++ q :: back, by simp, q, by simp, hq⟩

/-- Trimming changes the first line and the last one that have something to see. -/
theorem trim_between {p q bs : List Char} (hp : ∃ c ∈ p, isBlank c = false)
    (hq : ∃ c ∈ q, isBlank c = false) (hbs : ∀ b ∈ bs, isBlank b = true) (middle : List Char) :
    trim (p ++ '\n' :: (middle ++ (q ++ '\n' :: bs))) =
      trimStart p ++ ('\n' :: middle ++ trimEnd q) := by
  have hassoc : p ++ '\n' :: (middle ++ (q ++ '\n' :: bs)) =
      (p ++ ('\n' :: middle ++ q)) ++ '\n' :: bs := by simp
  rw [hassoc, trim_append_of_blank (isBlank_newline_cons hbs), trim, trimStart_append hp,
    ← List.append_assoc, trimEnd_append hq, List.append_assoc]

theorem trim_staying_above_eq_iff {p : List Char} (hp : ∃ c ∈ p, isBlank c = false)
    (ls : List Line) :
    trim (p ++ '\n' :: ended (staying true ls)) = trim (p ++ '\n' :: ended (plainLines ls)) ↔
      ¬ CrowdedAbove ls := by
  by_cases hls : ∃ l ∈ ls, l.isVisible = true
  · obtain ⟨middle, q, back, rfl, hq, hback⟩ := Text.exists_last hls
    rw [crowdedAbove_iff_hasNeighbours hback hq]
    cases q with
    | naming l => cases hq
    | plain qs hline hquiet =>
        have hqs : ∃ c ∈ qs, isBlank c = false := by simpa [Line.isVisible] using hq
        have hmiddle := ended_staying_eq_iff true middle
        rw [staying_append_plain, plainLines_append, plainLines_cons_plain, ended_append,
          ended_append, ended_cons, ended_cons,
          trim_between hp hqs (isBlank_ended_staying hback true),
          trim_between hp hqs (isBlank_ended_plainLines hback), List.append_cancel_left_eq,
          List.append_cancel_right_eq, List.cons_inj_right, hmiddle]
        simp
  · have hnone : ∀ l ∈ ls, l.isVisible = false := by simpa using hls
    refine iff_of_true ?_ ?_
    · rw [trim_append_of_blank (isBlank_newline_cons (isBlank_ended_staying hnone true)),
        trim_append_of_blank (isBlank_newline_cons (isBlank_ended_plainLines hnone))]
    · rintro ⟨us, a, b, vs, rfl, l, hl, hsee⟩
      exact hls ⟨l, by simp [hl], hsee⟩

/-- **Blank lines stay where two lines in a row name groups**, and trimming takes them away if
there is nothing to see in front of them or behind them. -/
theorem trim_staying_eq_iff (ls : List Line) :
    trim (ended (staying true ls)) = trim (ended (plainLines ls)) ↔ ¬ Crowded ls := by
  by_cases hls : ∃ l ∈ ls, l.isVisible = true
  · obtain ⟨front, p, above, rfl, hp, hfront⟩ := Text.exists_first hls
    rw [crowded_iff_crowdedAbove hfront hp]
    cases p with
    | naming l => cases hp
    | plain ps hline hquiet =>
        have hps : ∃ c ∈ ps, isBlank c = false := by simpa [Line.isVisible] using hp
        rw [staying_append_plain, plainLines_append, plainLines_cons_plain, ended_append,
          ended_append, trim_of_blank_append (isBlank_ended_staying hfront true),
          trim_of_blank_append (isBlank_ended_plainLines hfront), ended_cons, ended_cons]
        exact trim_staying_above_eq_iff hps above
  · have hnone : ∀ l ∈ ls, l.isVisible = false := by simpa using hls
    refine iff_of_true ?_ ?_
    · rw [trim_of_blank (isBlank_ended_staying hnone true),
        trim_of_blank (isBlank_ended_plainLines hnone)]
    · rintro ⟨front, a, b, back, rfl, ⟨l, hl, hsee⟩, -⟩
      exact hls ⟨l, List.mem_append_left _ hl, hsee⟩

theorem ended_eq_join {ls : List (List Char)} (h : ls ≠ []) :
    ended ls = join ['\n'] ls ++ ['\n'] := by
  induction ls with
  | nil => exact absurd rfl h
  | cons line ls ih =>
      cases ls with
      | nil => simp [ended, join]
      | cons next ls =>
          rw [ended_cons, ih (List.cons_ne_nil _ _), Text.join_cons_cons]
          simp

theorem trim_ended (ls : List (List Char)) : trim (ended ls) = trim (join ['\n'] ls) := by
  by_cases h : ls = []
  · rw [h]
    rfl
  · rw [ended_eq_join h, trim_append_blank (by decide)]

/-- **The lines that name groups go away with their ends**, and the rest is as it was, unless
two of them stand in a row and there is something to see in front of them and behind them. -/
theorem takeGroup_eq_iff {ls : List Line} {id : String}
    (h : ls.findSome? Line.group? = some id) :
    (takeGroup (String.ofList (joined ls))).1 = some id ∧
      ((takeGroup (String.ofList (joined ls))).2 =
          String.ofList (trim (join ['\n'] (plainLines ls))) ↔ ¬ Crowded ls) := by
  rw [takeGroup_joined h, String.ofList_inj, ← trim_ended, trim_staying_eq_iff]
  exact ⟨rfl, Iff.rfl⟩

/-- A line that names the group `a`. -/
def namingA : NamingLine where
  indent := []
  mark := '\\'
  gap := [' ']
  id := ['a']
  rest := []
  indent_pads := List.all_eq_true.mp (by decide)
  mark_isMark := by decide
  gap_nonempty := by decide
  gap_pads := List.all_eq_true.mp (by decide)
  id_nonempty := by decide
  id_chars := List.all_eq_true.mp (by decide)
  rest_pads := List.all_eq_true.mp (by decide)

def namingB : NamingLine :=
  { namingA with
    id := ['b']
    id_nonempty := by decide
    id_chars := List.all_eq_true.mp (by decide) }

/-- The same as `namingA`, written in another way. -/
def paddedA : NamingLine :=
  { namingA with
    indent := [' ', ' ']
    mark := '@'
    gap := ['\t']
    rest := [' ']
    indent_pads := List.all_eq_true.mp (by decide)
    mark_isMark := by decide
    gap_nonempty := by decide
    gap_pads := List.all_eq_true.mp (by decide)
    rest_pads := List.all_eq_true.mp (by decide) }

/-- Two lines in a row at the start, and two more with a blank line between them. -/
def spacedLines : List Line :=
  [.naming namingA, .naming namingB, .plain "Brief.".toList (by decide +kernel) (by decide +kernel),
    .naming namingB, .plain [] (by decide) (by decide +kernel), .naming paddedA,
    .plain " More.".toList (by decide +kernel) (by decide +kernel)]

theorem takeGroup_spacedLines :
    spacedLines.findSome? Line.group? = some "a" ∧
      (takeGroup (String.ofList (joined spacedLines))).1 = some "a" ∧
      (takeGroup (String.ofList (joined spacedLines))).2 =
        String.ofList (trim (join ['\n'] (plainLines spacedLines))) := by
  have hgroup : spacedLines.findSome? Line.group? = some "a" := by decide +kernel
  have hcrowded : ¬ Crowded spacedLines := (trim_staying_eq_iff _).mp (by decide +kernel)
  have htaken := takeGroup_eq_iff hgroup
  exact ⟨hgroup, htaken.1, htaken.2.mpr hcrowded⟩

/-- Two lines in a row in the middle of a text. -/
def crowdedLines : List Line :=
  [.plain "Brief.".toList (by decide +kernel) (by decide +kernel), .naming namingA,
    .naming namingB, .plain "More.".toList (by decide +kernel) (by decide +kernel)]

/-- A blank line is left behind. -/
theorem takeGroup_crowdedLines :
    String.ofList (joined crowdedLines) = "Brief.\n\\ingroup a\n\\ingroup b\nMore." ∧
      takeGroup "Brief.\n\\ingroup a\n\\ingroup b\nMore." = (some "a", "Brief.\n\nMore.") ∧
      trim (join ['\n'] (plainLines crowdedLines)) = "Brief.\nMore.".toList := by
  decide +kernel

end DocForest.DocText
