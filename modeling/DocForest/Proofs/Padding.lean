/-
A blank at the end of a text.

Taken away, it changes no command unless a link still takes in what follows it there: only a
name with an open parenthesis goes on over blanks, and only such a name can end in one.  The
lexer puts the blank into a token of its own or adds it to the last token, which is a space or
a stretch of text that lacks its closing mark; `Padded` relates the tokens before and after,
and every reader is followed through it.
-/
import DocForest.Proofs.Commands

namespace DocForest.DocText

/-! ### The tokens -/

/-- The second list of tokens has one more character `c` at its end. -/
inductive Padded (c : Char) : List Token → List Token → Prop
  | new {kind : TokenKind} (hkind : kind = .space ∨ kind = .stray) : Padded c [] [⟨kind, [c]⟩]
  | longer {t : Token} (hkind : t.kind = .space ∨ t.kind = .stray) :
      Padded c [t] [⟨t.kind, t.text ++ [c]⟩]
  | cons (t : Token) {ts ts' : List Token} (h : Padded c ts ts') : Padded c (t :: ts) (t :: ts')

variable {c : Char} {ts ts' : List Token}

/-- A blank behind a token is cut off from it, or makes it longer. -/
theorem Cut.before_blank {t : Token} (h : Cut t []) (hc : Text.isBlank c = true) (hne : c ≠ '\n') :
    Cut t [c] ∨ (t.kind = .space ∨ t.kind = .stray) ∧ Cut ⟨t.kind, t.text ++ [c]⟩ [] := by
  obtain ⟨p, hends, -, hcut⟩ := h.ended
  have hletter := not_isLetter_of_isBlank hc
  cases hends with
  | closed => exact Or.inl (hcut _ fun _ _ => rfl)
  | command | mark => exact Or.inl (hcut _ (stops_cons.mpr hletter))
  | word => exact Or.inl (hcut _ (stops_cons.mpr (by simp [isWordChar, hc])))
  | backslash =>
      exact Or.inl (hcut _ (stops_cons.mpr (by rw [hletter, not_isMark_of_isBlank hc]; rfl)))
  | space hkind hall =>
      cases hspace : isSpace c with
      | false => exact Or.inl (hcut _ (stops_cons.mpr hspace))
      | true =>
          refine Or.inr ⟨Or.inl hkind, ?_⟩
          rw [hkind, cut_space_iff]
          refine ⟨by simp, fun d hd => ?_, stops_nil _⟩
          rcases List.mem_append.mp hd with hd | hd
          · exact hall d hd
          · rw [List.mem_singleton.mp hd]
            exact hspace
  | unclosed hkind hlonger =>
      refine Or.inr ⟨Or.inr hkind, ?_⟩
      rw [hkind]
      exact hlonger c hc hne

theorem exists_cut_blank (hc : Text.isBlank c = true) (hne : c ≠ '\n') :
    ∃ kind, (kind = .space ∨ kind = .stray) ∧ Cut ⟨kind, [c]⟩ [] := by
  cases hspace : isSpace c with
  | true =>
      exact ⟨.space, Or.inl rfl, cut_space_iff.mpr ⟨by simp, by simpa using hspace, stops_nil _⟩⟩
  | false =>
      obtain ⟨kind, hkind, hcut⟩ := cut_of_isBlank hc hspace []
      exact ⟨kind, Or.inr (hkind.resolve_left fun h => hne h.2), hcut⟩

/-- A blank at the end of a text is one at the end of its tokens. -/
theorem padded_tokens (hc : Text.isBlank c = true) (hne : c ≠ '\n') (cs : List Char) :
    Padded c (tokens cs) (tokens (cs ++ [c])) := by
  obtain ⟨kind, hkind, hblank⟩ := exists_cut_blank hc hne
  have hsingle : ∀ {t : Token}, Cut t [] → tokens t.text = [t] := by
    intro t hcut
    have htokens := hcut.tokens_eq
    rwa [List.append_nil, tokens] at htokens
  induction cs using cut_induction with
  | nil =>
      have htokens := hsingle hblank
      rw [List.nil_append, htokens, tokens]
      exact .new hkind
  | cut t rest hcut ih =>
      rw [hcut.tokens_eq]
      cases rest with
      | cons d rest =>
          have hcut' : Cut t (d :: rest ++ [c]) := hcut.of_follows (Or.inl rfl)
          rw [List.append_assoc, hcut'.tokens_eq]
          exact .cons t ih
      | nil =>
          rw [List.append_nil, tokens]
          rcases hcut.before_blank hc hne with hcut' | ⟨hkind, hcut'⟩
          · rw [hcut'.tokens_eq, hsingle hblank]
            exact .cons t (.new hkind)
          · rw [hsingle hcut']
            exact .longer hkind

theorem Padded.textOf_eq (h : Padded c ts ts') : textOf ts' = textOf ts ++ [c] := by
  induction h with
  | new => rfl
  | longer => simp
  | cons t _ ih => rw [textOf_cons, ih, textOf_cons, List.append_assoc]

theorem Padded.append (us : List Token) (h : Padded c ts ts') :
    Padded c (us ++ ts) (us ++ ts') := by
  induction us with
  | nil => exact h
  | cons t us ih => exact .cons t ih

theorem Padded.split {us vs' : List Token} (h : Padded c ts (us ++ vs')) (hvs : vs' ≠ []) :
    ∃ vs, ts = us ++ vs ∧ Padded c vs vs' := by
  induction us generalizing ts with
  | nil => exact ⟨ts, rfl, h⟩
  | cons t us ih =>
      generalize hus : t :: us ++ vs' = ts' at h
      cases h with
      | new => simp_all
      | longer => simp_all
      | cons u h =>
          obtain ⟨rfl, rfl⟩ := List.cons.inj hus
          obtain ⟨vs, rfl, hpad⟩ := ih h
          exact ⟨vs, rfl, hpad⟩

theorem Padded.atEnd {vs vs' : List Token} (h : Padded c vs vs') (hend : AtEnd vs') : AtEnd vs := by
  cases h with
  | new => exact atEnd_nil
  | longer =>
      have hkind := atEnd_cons.mp hend
      exact atEnd_cons.mpr hkind
  | cons t h => exact atEnd_cons.mpr (atEnd_cons.mp hend)

theorem Padded.kind_of_mem (h : Padded c ts ts') {t : Token} (ht : t ∈ ts) :
    ∃ t' ∈ ts', t'.kind = t.kind := by
  induction h with
  | new => simp at ht
  | longer =>
      rw [List.mem_singleton.mp ht]
      exact ⟨_, List.mem_singleton_self _, rfl⟩
  | cons u _ ih =>
      rcases List.mem_cons.mp ht with rfl | ht
      · exact ⟨t, List.mem_cons_self, rfl⟩
      · obtain ⟨t', ht', hkind⟩ := ih ht
        exact ⟨t', List.mem_cons_of_mem _ ht', hkind⟩

/-- What comes next is the same, or it is nothing that a reader could use. -/
theorem Padded.next?_cases (h : Padded c ts ts') :
    (∃ sp t vs vs', Spaces sp ∧ t.kind ≠ .space ∧ ts = sp ++ t :: vs ∧ ts' = sp ++ t :: vs' ∧
        Padded c vs vs') ∨
      (∀ t, next? ts = some t → t.kind = .stray) ∧ ∀ t, next? ts' = some t → t.kind = .stray := by
  have hsingle : ∀ t : Token, t.kind = .space ∨ t.kind = .stray →
      ∀ u, next? [t] = some u → u.kind = .stray := by
    intro t ht u hu
    rcases ht with ht | ht
    · rw [next?_eq_none (by simp [Spaces, ht])] at hu
      cases hu
    · rw [next?_cons (by simp [ht])] at hu
      rw [← Option.some.inj hu, ht]
  induction h with
  | new hkind => exact Or.inr ⟨fun t ht => by simp [next?] at ht, hsingle _ hkind⟩
  | longer hkind => exact Or.inr ⟨hsingle _ hkind, hsingle _ hkind⟩
  | @cons t us us' h ih =>
      by_cases ht : t.kind = .space
      · have hnext : ∀ ws, next? (t :: ws) = next? ws := by
          intro ws
          have hsp : Spaces [t] := by simpa [Spaces] using ht
          exact next?_append hsp ws
        rcases ih with ⟨sp, u, vs, vs', hsp, hu, rfl, rfl, hpad⟩ | hnone
        · exact Or.inl ⟨t :: sp, u, vs, vs', List.forall_mem_cons.mpr ⟨ht, hsp⟩, hu, rfl, rfl, hpad⟩
        · rw [hnext, hnext]
          exact Or.inr hnone
      · exact Or.inl ⟨[], t, us, us', by simp [Spaces], ht, rfl, rfl, h⟩

/-! ### Trimmed texts -/

theorem trimEnd_append_blank (hc : Text.isBlank c = true) (cs : List Char) :
    Text.trimEnd (cs ++ [c]) = Text.trimEnd cs := by
  rw [Text.trimEnd, Text.trimEnd, List.reverse_append, List.reverse_singleton,
    List.singleton_append, List.dropWhile_cons_of_pos hc]

theorem trim_append_blank (hc : Text.isBlank c = true) (cs : List Char) :
    Text.trim (cs ++ [c]) = Text.trim cs := by
  have hstart : Text.trimStart (cs ++ [c]) = Text.trimStart cs ++ [c] ∨
      Text.trimStart (cs ++ [c]) = Text.trimStart cs := by
    unfold Text.trimStart
    induction cs with
    | nil => simp [hc]
    | cons d cs ih =>
        cases hd : Text.isBlank d with
        | true => simpa [hd] using ih
        | false => simp [hd]
  unfold Text.trim
  rcases hstart with hstart | hstart
  · rw [hstart, trimEnd_append_blank hc]
  · rw [hstart]

theorem trim_append_of_blank {bs : List Char} (hbs : ∀ b ∈ bs, Text.isBlank b = true)
    (cs : List Char) : Text.trim (cs ++ bs) = Text.trim cs := by
  induction bs generalizing cs with
  | nil => rw [List.append_nil]
  | cons b bs ih =>
      obtain ⟨hb, hbs⟩ := List.forall_mem_cons.mp hbs
      rw [List.append_cons, ih hbs, trim_append_blank hb]

theorem trim_of_blank_append {bs : List Char} (hbs : ∀ b ∈ bs, Text.isBlank b = true)
    (cs : List Char) : Text.trim (bs ++ cs) = Text.trim cs := by
  rw [Text.trim, Text.trimStart, List.dropWhile_append_of_pos hbs]
  rfl

theorem trimStart_append {cs : List Char} (h : ∃ d ∈ cs, Text.isBlank d = false)
    (more : List Char) : Text.trimStart (cs ++ more) = Text.trimStart cs ++ more := by
  have hne : cs.dropWhile Text.isBlank ≠ [] := by
    simpa [List.dropWhile_eq_nil_iff] using h
  rw [Text.trimStart, Text.trimStart, List.dropWhile_append,
    if_neg (by rwa [List.isEmpty_iff])]

theorem trimEnd_append {cs : List Char} (h : ∃ d ∈ cs, Text.isBlank d = false)
    (more : List Char) : Text.trimEnd (more ++ cs) = more ++ Text.trimEnd cs := by
  have hreverse : ∃ d ∈ cs.reverse, Text.isBlank d = false := by simpa using h
  have hstart := trimStart_append hreverse more.reverse
  rw [Text.trimEnd, List.reverse_append, ← Text.trimStart, hstart, List.reverse_append,
    List.reverse_reverse, Text.trimStart, Text.trimEnd]

/-- A blank at the end only lengthens the last stretch. -/
theorem stretchesFrom_append_blank (hc : c ≠ ',') (depth : Int) (cs : List Char) :
    ∃ before last, Text.stretchesFrom depth cs = before ++ [last] ∧
      Text.stretchesFrom depth (cs ++ [c]) = before ++ [last ++ [c]] := by
  induction cs generalizing depth with
  | nil => exact ⟨[], [], rfl, by simp [Text.stretchesFrom, Text.consFirst, hc]⟩
  | cons d cs ih =>
      rw [List.cons_append, Text.stretchesFrom, Text.stretchesFrom]
      split
      · obtain ⟨before, last, hcs, hcs'⟩ := ih depth
        exact ⟨[] :: before, last, by rw [hcs]; rfl, by rw [hcs']; rfl⟩
      · obtain ⟨before, last, hcs, hcs'⟩ := ih (depth + Text.bracketStep d)
        rw [hcs, hcs']
        cases before with
        | nil => exact ⟨[], d :: last, rfl, rfl⟩
        | cons piece before => exact ⟨(d :: piece) :: before, last, rfl, rfl⟩

theorem commaItems_append_blank (hc : Text.isBlank c = true) (cs : List Char) :
    Text.commaItems (cs ++ [c]) = Text.commaItems cs := by
  have hne : c ≠ ',' := by
    rintro rfl
    exact absurd hc (by decide)
  obtain ⟨before, last, hcs, hcs'⟩ := stretchesFrom_append_blank hne 0 cs
  simp only [Text.commaItems, hcs, hcs', List.map_append, List.map_cons, List.map_nil,
    trim_append_blank hc]

theorem splitPunctuation_append_blank (hc : Text.isBlank c = true) (name : List Char) :
    splitPunctuation (name ++ [c]) = (name ++ [c], []) := by
  have hsentence : isSentenceEnd c = false := by
    cases hend : isSentenceEnd c with
    | false => rfl
    | true =>
        simp only [isSentenceEnd, Bool.or_eq_true, beq_iff_eq, or_assoc] at hend
        rcases hend with rfl | rfl | rfl | rfl | rfl <;> exact absurd hc (by decide)
  have hbare : dropEnd isSentenceEnd (name ++ [c]) = name ++ [c] := by
    simp [dropEnd, hsentence]
  simp [splitPunctuation, hbare]

/-! ### The readers -/

/-- A link that a blank behind it would still belong to: its name goes on to the end of the
line. -/
def isLeftOpen : Command × List Char → Bool
  | (.ref _ none, raw) => raw.getLast?.any Text.isBlank
  | (.subpage _ none, raw) => raw.getLast?.any Text.isBlank
  | _ => false

/-- What a reader makes of a padded line: it stops at the same place, or it took all of the
line and makes the same of it. -/
inductive SameReading (c : Char) (ts ts' : List Token) : Option Found → Option Found → Prop
  | none : SameReading c ts ts' none none
  | stopped (found : Found) (us : List Token) {vs vs' : List Token} (hused : found.used = us.length)
      (hts : ts = us ++ vs) (hts' : ts' = us ++ vs') (h : Padded c vs vs') :
      SameReading c ts ts' (some found) (some found)
  | line (found found' : Found) (hcommand : found'.command = found.command)
      (hclosed : ∀ raw, isLeftOpen (found.command, raw) = false)
      (hused : found.used = ts.length) (hused' : found'.used = ts'.length) :
      SameReading c ts ts' (some found) (some found')

theorem Padded.wordArgument?_cases (h : Padded c ts ts') :
    (∃ sp w vs vs', Spaces sp ∧ ts = sp ++ ⟨.word, w⟩ :: vs ∧ ts' = sp ++ ⟨.word, w⟩ :: vs' ∧
        Padded c vs vs') ∨
      wordArgument? ts = none ∧ wordArgument? ts' = none := by
  rcases h.next?_cases with ⟨sp, ⟨kind, w⟩, vs, vs', hsp, ht, rfl, rfl, hpad⟩ | ⟨hnone, hnone'⟩
  · by_cases hword : kind = .word
    · subst hword
      exact Or.inl ⟨sp, w, vs, vs', hsp, rfl, rfl, hpad⟩
    · refine Or.inr ?_
      rw [wordArgument?_eq_none, wordArgument?_eq_none, next?_append hsp, next?_append hsp,
        next?_cons ht, next?_cons ht]
      simpa using hword
  · refine Or.inr ⟨wordArgument?_eq_none.mpr fun t ht => ?_,
      wordArgument?_eq_none.mpr fun t ht => ?_⟩
    · simp [hnone t ht]
    · simp [hnone' t ht]

theorem Padded.linkText?_cases (h : Padded c ts ts') :
    (∃ sp q vs vs', Spaces sp ∧ ts = sp ++ ⟨.quoted, q⟩ :: vs ∧ ts' = sp ++ ⟨.quoted, q⟩ :: vs' ∧
        Padded c vs vs') ∨
      linkText? ts = none ∧ linkText? ts' = none := by
  rcases h.next?_cases with ⟨sp, ⟨kind, q⟩, vs, vs', hsp, ht, rfl, rfl, hpad⟩ | ⟨hnone, hnone'⟩
  · by_cases hquoted : kind = .quoted
    · subst hquoted
      exact Or.inl ⟨sp, q, vs, vs', hsp, rfl, rfl, hpad⟩
    · refine Or.inr ?_
      rw [linkText?_eq_none, linkText?_eq_none, next?_append hsp, next?_append hsp,
        next?_cons ht, next?_cons ht]
      simpa using hquoted
  · refine Or.inr ⟨linkText?_eq_none.mpr fun t ht => ?_, linkText?_eq_none.mpr fun t ht => ?_⟩
    · simp [hnone t ht]
    · simp [hnone' t ht]

theorem Padded.linkTo_eq (h : Padded c ts ts') (make : String → Option String → Command)
    (target tail : List Char) (used : Nat) :
    linkTo make target tail used ts' = linkTo make target tail used ts ∧
      ∃ us vs vs', (linkTo make target tail used ts).used = used + us.length ∧
        ts = us ++ vs ∧ ts' = us ++ vs' ∧ Padded c vs vs' := by
  rcases h.linkText?_cases with ⟨sp, q, vs, vs', hsp, rfl, rfl, hpad⟩ | ⟨hnone, hnone'⟩
  · have hshown : ∀ ws, linkText? (sp ++ ⟨.quoted, q⟩ :: ws) =
        some (Text.stripQuotes q, sp.length + 1) :=
      fun ws => linkText?_eq_some.mpr ⟨sp, q, ws, hsp, rfl, rfl, rfl⟩
    cases tail with
    | cons d tail =>
        exact ⟨rfl, [], _, _, rfl, rfl, rfl, hpad.cons _ |>.append sp⟩
    | nil =>
        have hto : ∀ ws, linkTo make target [] used (sp ++ ⟨.quoted, q⟩ :: ws) =
            { command := make (String.ofList target) (some (String.ofList (Text.stripQuotes q)))
              used := used + (sp.length + 1) } := by
          intro ws
          simp only [linkTo, hshown]
        rw [hto, hto]
        exact ⟨rfl, sp ++ [⟨.quoted, q⟩], vs, vs', by simp, by simp, by simp, hpad⟩
  · rw [linkTo_of_none hnone, linkTo_of_none hnone']
    exact ⟨rfl, [], ts, ts', rfl, rfl, rfl, h⟩

theorem Padded.sameReading_withWord (h : Padded c ts ts') (make : String → Command) :
    SameReading c ts ts' (withWord? make ts) (withWord? make ts') := by
  unfold withWord?
  rcases h.wordArgument?_cases with ⟨sp, w, vs, vs', hsp, rfl, rfl, hpad⟩ | ⟨hnone, hnone'⟩
  · have harg : ∀ ws, wordArgument? (sp ++ ⟨.word, w⟩ :: ws) = some (w, sp.length + 1) :=
      fun ws => wordArgument?_eq_some.mpr ⟨sp, ws, hsp, rfl, rfl⟩
    rw [harg, harg]
    exact .stopped _ (sp ++ [⟨.word, w⟩]) (by simp) (by simp) (by simp) hpad
  · rw [hnone, hnone']
    exact .none

/-- Nothing ends the line in these tokens. -/
def OneLine (ts : List Token) : Prop :=
  ∀ t ∈ ts, t.kind ≠ .newline

theorem OneLine.lineLength_eq (h : OneLine ts) : lineLength ts = ts.length := by
  rw [lineLength, List.takeWhile_eq_self_iff.mpr]
  intro t ht
  simpa using h t ht

theorem OneLine.take_lineLength (h : OneLine ts) : ts.take (lineLength ts) = ts := by
  rw [h.lineLength_eq, List.take_length]

theorem Padded.oneLine (h : Padded c ts ts') (hline : OneLine ts') : OneLine ts := by
  intro t ht hkind
  obtain ⟨t', ht', hkind'⟩ := h.kind_of_mem ht
  exact hline t' ht' (hkind'.trans hkind)

theorem Padded.sameReading_link (h : Padded c ts ts') (hc : Text.isBlank c = true)
    (hline : OneLine ts') (hspace : ∀ t ∈ ts', t.kind = .space → parenBalance t.text = 0)
    {make : String → Option String → Command}
    (hclosed : ∀ target,
      link? make ts' ≠ some { command := make target none, used := ts'.length }) :
    SameReading c ts ts' (link? make ts) (link? make ts') := by
  rcases h.next?_cases with ⟨sp, ⟨kind, w⟩, vs, vs', hsp, ht, rfl, rfl, hpad⟩ | ⟨hnone, hnone'⟩
  · by_cases hquoted : kind = .quoted
    · subst hquoted
      rw [link?_quoted make hsp, link?_quoted make hsp]
      obtain ⟨hto, us, ws, ws', hused, rfl, rfl, hws⟩ :=
        hpad.linkTo_eq make (Text.stripQuotes w) [] (sp.length + 1)
      rw [hto]
      refine .stopped _ (sp ++ ⟨.quoted, w⟩ :: us) ?_ (by simp) (by simp) hws
      rw [hused, List.length_append, List.length_cons]
      omega
    by_cases hword : kind = .word
    · subst hword
      obtain ⟨xs, ys', rfl, hopen', hend⟩ := exists_openTokens
        (fun t ht => hspace t (List.mem_append_right _ (List.mem_cons_of_mem _ ht)))
        (parenBalance w)
      by_cases hys : ys' = []
      · -- The name takes in the blank.
        exfalso
        subst hys
        rw [List.append_nil] at hpad
        have hname : w ++ textOf xs = w ++ textOf vs ++ [c] := by
          rw [hpad.textOf_eq, List.append_assoc]
        refine hclosed (String.ofList (w ++ textOf xs)) ?_
        rw [link?_word make hsp hopen', hname, splitPunctuation_append_blank hc,
          linkTo_of_none (linkText?_eq_none.mpr (by simp [next?]))]
        simp
      · obtain ⟨ys, rfl, hys'⟩ := hpad.split hys
        have hany : ∀ zs, openTokens (parenBalance w) (xs ++ zs) = xs.length := by
          rcases hend with hend | ⟨-, hany⟩
          · obtain ⟨y, ys'', rfl⟩ := List.exists_cons_of_ne_nil hys
            exact absurd (atEnd_cons.mp hend) (hline y (by simp))
          · exact hany
        rw [link?_word make hsp (hany ys), link?_word make hsp (hany ys')]
        obtain ⟨hto, us, ws, ws', hused, rfl, rfl, hws⟩ :=
          hys'.linkTo_eq make (splitPunctuation (w ++ textOf xs)).1
            (splitPunctuation (w ++ textOf xs)).2 (sp.length + (xs.length + 1))
        rw [hto]
        refine .stopped _ (sp ++ ⟨.word, w⟩ :: (xs ++ us)) ?_ (by simp) (by simp) hws
        simp only [hused, List.length_append, List.length_cons]
        omega
    · have hnone : ∀ ws, link? make (sp ++ ⟨kind, w⟩ :: ws) = none := by
        intro ws
        rw [link?_eq_none, next?_append hsp, next?_cons ht]
        simpa using ⟨hword, hquoted⟩
      rw [hnone, hnone]
      exact .none
  · have hlink : link? make ts = none ∧ link? make ts' = none := by
      rw [link?_eq_none, link?_eq_none]
      exact ⟨fun t ht => by simp [hnone t ht], fun t ht => by simp [hnone' t ht]⟩
    rw [hlink.1, hlink.2]
    exact .none

theorem Padded.sameReading_oneLine (h : Padded c ts ts') (hc : Text.isBlank c = true)
    (hline : OneLine ts') (hspace : ∀ t ∈ ts', t.kind = .space → parenBalance t.text = 0)
    (word : CommandWord)
    (hclosed : ∀ found, word.read? ts' = some found → found.used = ts'.length →
      found.tail = [] → isLeftOpen (found.command, [c]) = false) :
    SameReading c ts ts' (word.read? ts) (word.read? ts') := by
  cases word with
  | ref =>
      refine h.sameReading_link hc hline hspace fun target htarget => ?_
      have hopen := hclosed _ htarget rfl rfl
      simp [isLeftOpen, hc] at hopen
  | subpage =>
      refine h.sameReading_link hc hline hspace fun target htarget => ?_
      have hopen := hclosed _ htarget rfl rfl
      simp [isLeftOpen, hc] at hopen
  | relates => exact h.sameReading_withWord _
  | ingroup => exact h.sameReading_withWord _
  | anchor => exact h.sameReading_withWord _
  | see =>
      have hline₀ := h.oneLine hline
      simp only [CommandWord.read?, seeAlso?, hline.take_lineLength, hline₀.take_lineLength,
        h.textOf_eq, commaItems_append_blank hc]
      split
      · exact .none
      · exact .line _ _ rfl (fun _ => rfl) hline₀.lineLength_eq hline.lineLength_eq
  | heading level =>
      simp only [CommandWord.read?, heading?]
      rcases h.wordArgument?_cases with ⟨sp, w, vs, vs', hsp, rfl, rfl, hpad⟩ | ⟨hnone, hnone'⟩
      · have harg : ∀ ws, wordArgument? (sp ++ ⟨.word, w⟩ :: ws) = some (w, sp.length + 1) :=
          fun ws => wordArgument?_eq_some.mpr ⟨sp, ws, hsp, rfl, rfl⟩
        have hline' : OneLine vs' := fun t ht =>
          hline t (List.mem_append_right _ (List.mem_cons_of_mem _ ht))
        have hline₀ := hpad.oneLine hline'
        simp only [harg, Option.bind_some, drop_argument, hline'.take_lineLength,
          hline₀.take_lineLength, hpad.textOf_eq, trim_append_blank hc]
        split
        · exact .none
        · refine .line _ _ rfl (fun _ => rfl) ?_ ?_
          · simp only [hline₀.lineLength_eq, List.length_append, List.length_cons]
            omega
          · simp only [hline'.lineLength_eq, List.length_append, List.length_cons]
            omega
      · rw [hnone, hnone']
        exact .none

/-- **A reader makes the same of a padded list of tokens**, unless it is a link that takes in
the blank. -/
theorem Padded.sameReading (h : Padded c ts ts') (hc : Text.isBlank c = true)
    (hspace : ∀ t ∈ ts', t.kind = .space → parenBalance t.text = 0) (word : CommandWord)
    (hclosed : ∀ found, word.read? ts' = some found → found.used = ts'.length →
      found.tail = [] → isLeftOpen (found.command, [c]) = false) :
    SameReading c ts ts' (word.read? ts) (word.read? ts') := by
  by_cases hys : ts'.drop (lineLength ts') = []
  · have hlen : lineLength ts' = ts'.length :=
      Nat.le_antisymm (lineLength_le ts') (List.drop_eq_nil_iff.mp hys)
    refine h.sameReading_oneLine hc (fun t ht => ?_) hspace word hclosed
    rw [← (List.takeWhile_sublist _).eq_of_length hlen] at ht
    simpa using List.mem_takeWhile_imp ht
  · -- The blank stands on a later line.
    have hsplit := List.take_append_drop (lineLength ts') ts'
    have hend := atEnd_drop_lineLength ts'
    generalize ts'.take (lineLength ts') = line at hsplit
    generalize ts'.drop (lineLength ts') = ys' at hsplit hys hend
    subst hsplit
    obtain ⟨ys, rfl, hpad⟩ := h.split hys
    rw [CommandWord.read?_append _ hend, CommandWord.read?_append _ (hpad.atEnd hend)]
    cases hread : word.read? line with
    | none => exact .none
    | some found =>
        obtain ⟨us, vs, rfl, hused, -⟩ := CommandWord.read?_stopsAt
          (fun t ht => hspace t (List.mem_append_left _ ht)) hread
        exact .stopped found us hused (List.append_assoc _ _ _) (List.append_assoc _ _ _)
          (hpad.append vs)

/-! ### The commands -/

theorem isLeftOpen_congr (command : Command) {raw raw' : List Char}
    (h : raw.getLast? = raw'.getLast?) :
    isLeftOpen (command, raw) = isLeftOpen (command, raw') := by
  cases command with
  | ref _ text => cases text <;> simp [isLeftOpen, h]
  | subpage _ text => cases text <;> simp [isLeftOpen, h]
  | seeAlso | relates | ingroup | heading | anchor | malformed => rfl

/-- The same commands were read from both, and none of the first is left open. -/
def SameCommands (ts ts' : List Token) : Prop :=
  (commandsIn ts).map (·.1) = (commandsIn ts').map (·.1) ∧
    ∀ x ∈ commandsIn ts, isLeftOpen x = false

theorem SameCommands.of_some {t : Token} {ts ts' : List Token} {found found' : Found}
    (hfind : find? t ts = some found) (hfind' : find? t ts' = some found')
    (hcommand : found.command = found'.command)
    (hopen : isLeftOpen (found.command, found.raw t ts) = false)
    (hrest : SameCommands (ts.drop found.used) (ts'.drop found'.used)) :
    SameCommands (t :: ts) (t :: ts') := by
  unfold SameCommands
  rw [commandsIn_of_some hfind, commandsIn_of_some hfind', List.map_cons, List.map_cons, hrest.1]
  exact ⟨by rw [hcommand], List.forall_mem_cons.mpr ⟨hopen, hrest.2⟩⟩

/-- A link that took in the blank is left open. -/
theorem Padded.isLeftOpen_raw (h : Padded c ts ts') (t : Token) {found : Found}
    (hused : found.used = ts'.length) (htail : found.tail = []) :
    isLeftOpen (found.command, found.raw t ts') = isLeftOpen (found.command, [c]) := by
  refine isLeftOpen_congr _ ?_
  rw [Found.raw, htail, hused, List.take_length, List.length_nil, Nat.sub_zero, List.take_length,
    h.textOf_eq, ← List.append_assoc]
  simp

/-- **A blank at the end** adds no command and takes none away. -/
theorem Padded.sameCommands (h : Padded c ts ts') (hc : Text.isBlank c = true) (hts' : Lexed ts')
    (hclosed : ∀ x ∈ commandsIn ts', isLeftOpen x = false) : SameCommands ts ts' := by
  induction hn : ts'.length using Nat.strongRecOn generalizing ts ts' with
  | _ n ih =>
      cases h with
      | new hkind =>
          unfold SameCommands
          rw [commandsIn_of_none (find?_of_kind (by rcases hkind with rfl | rfl <;> simp) _)]
          simp [commandsIn_nil]
      | longer hkind =>
          unfold SameCommands
          rw [commandsIn_of_none (find?_of_kind (by rcases hkind with h | h <;> simp [h]) _),
            commandsIn_of_none (find?_of_kind (by rcases hkind with h | h <;> simp [h]) _)]
          simp [commandsIn_nil]
      | @cons t us us' h =>
          rw [List.length_cons] at hn
          cases hfound : find? t us' with
          | none =>
              unfold SameCommands
              rw [commandsIn_of_none hfound] at hclosed ⊢
              rw [commandsIn_of_none (find?_eq_none hfound us)]
              exact ih us'.length (by omega) h hts'.2 hclosed rfl
          | some found' =>
              rw [commandsIn_of_some hfound] at hclosed
              obtain ⟨hhead, htail⟩ := List.forall_mem_cons.mp hclosed
              obtain ⟨hkind, word, hword, -⟩ := find?_cases hfound
              have hleft := find?_of_word hkind hword us
              have hright := find?_of_word hkind hword us'
              have hsame := h.sameReading hc
                (fun u hu hu' => parenBalance_eq_zero (hts'.2.isSpace_of_mem hu hu')) word
                fun found hread hused hempty => by
                  rw [hread, hfound, Option.getD_some] at hright
                  rw [← h.isLeftOpen_raw t hused hempty, ← Option.some.inj hright]
                  exact hhead
              generalize word.read? us = read at hsame hleft
              generalize word.read? us' = read' at hsame hright
              obtain rfl := Option.some.inj (hfound.symm.trans hright)
              cases hsame with
              | none =>
                  exact .of_some hleft hright rfl rfl
                    (ih us'.length (by omega) h hts'.2 htail rfl)
              | @stopped found read vs vs' hused hus hus' hpad =>
                  subst hus hus'
                  simp only [Option.getD_some] at hleft hright hhead htail
                  rw [hused, List.drop_left' rfl] at htail
                  -- The command was read from the same characters.
                  have hraw : found.raw t (read ++ vs) = found.raw t (read ++ vs') := by
                    simp only [Found.raw, hused, List.take_left']
                  refine .of_some hleft hright rfl (by rw [hraw]; exact hhead) ?_
                  rw [hused, List.drop_left' rfl, List.drop_left' rfl]
                  rw [List.length_append] at hn
                  exact ih vs'.length (by omega) hpad hts'.2.of_append htail rfl
              | line found found' hcommand hnever hused hused' =>
                  refine .of_some hleft hright hcommand.symm (hnever _) ?_
                  simp [SameCommands, hused, hused', commandsIn_nil]

theorem commands_append_blank (hc : Text.isBlank c = true) {cs : List Char}
    (hclosed : ∀ x ∈ commandsIn (tokens (cs ++ [c])), isLeftOpen x = false) :
    commands cs = commands (cs ++ [c]) ∧ ∀ x ∈ commandsIn (tokens cs), isLeftOpen x = false := by
  rw [commands_eq, commands_eq]
  by_cases hne : c = '\n'
  · have hlines := commandsIn_tokens_newline cs []
    rw [tokens, commandsIn_nil, List.append_nil, ← hne] at hlines
    rw [hlines] at hclosed ⊢
    exact ⟨rfl, hclosed⟩
  · exact (padded_tokens hc hne cs).sameCommands hc (lexed_tokens _) hclosed

theorem commands_append_blanks {bs : List Char} (hbs : ∀ c ∈ bs, Text.isBlank c = true)
    {cs : List Char} (hclosed : ∀ x ∈ commandsIn (tokens (cs ++ bs)), isLeftOpen x = false) :
    commands cs = commands (cs ++ bs) ∧ ∀ x ∈ commandsIn (tokens cs), isLeftOpen x = false := by
  induction bs generalizing cs with
  | nil =>
      rw [List.append_nil] at hclosed ⊢
      exact ⟨rfl, hclosed⟩
  | cons c bs ih =>
      obtain ⟨hc, hbs⟩ := List.forall_mem_cons.mp hbs
      rw [List.append_cons] at hclosed ⊢
      obtain ⟨hmore, hclosed⟩ := ih hbs hclosed
      obtain ⟨hone, hclosed⟩ := commands_append_blank hc hclosed
      exact ⟨hone.trans hmore, hclosed⟩

theorem exists_trimEnd (cs : List Char) :
    ∃ bs, (∀ c ∈ bs, Text.isBlank c = true) ∧ cs = Text.trimEnd cs ++ bs := by
  refine ⟨(cs.reverse.takeWhile Text.isBlank).reverse, fun c hc => ?_, ?_⟩
  · exact List.mem_takeWhile_imp (List.mem_reverse.mp hc)
  · rw [Text.trimEnd, ← List.reverse_append, List.takeWhile_append_dropWhile, List.reverse_reverse]

/-- **Trimming a text** leaves it its commands. -/
theorem commands_trim {cs : List Char}
    (hclosed : ∀ x ∈ commandsIn (tokens cs), isLeftOpen x = false) :
    commands (Text.trim cs) = commands cs := by
  have hblank : ∀ c ∈ cs.takeWhile Text.isBlank, Text.isBlank c = true :=
    fun c hc => List.mem_takeWhile_imp hc
  have hstart := commandsIn_tokens_blank hblank (Text.trimStart cs)
  rw [Text.trimStart, List.takeWhile_append_dropWhile] at hstart
  obtain ⟨bs, hbs, hend⟩ := exists_trimEnd (Text.trimStart cs)
  rw [hstart, ← Text.trimStart, hend] at hclosed
  rw [Text.trim, (commands_append_blanks hbs hclosed).1, ← hend, commands_eq, commands_eq, hstart]
  rfl

end DocForest.DocText
