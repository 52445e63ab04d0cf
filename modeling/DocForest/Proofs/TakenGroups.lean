/-
Taking the naming of a group out of a text.

`takeGroup` puts a text together again without the commands that name a group, and later
passes read the result anew.  They find the commands that were there before, in the same order
and with the same arguments, as long as the text cannot run on.  `runsOn` covers the three ways
in which what stood apart comes to stand together.  It is true of more texts than those in which
this happens: what stands behind a group, or behind a link that is left open, it does not look at.

The proof goes over `withoutGroups`, which takes the groups out and leaves everything else,
the ends of lines as well.  That the reader finds the same commands there is a matter of the
characters next to each gap: a word that ended before a group still ends, and the next token
that is no space is still the same.  That the ends of lines which go away with a group may be
put back is a matter of blanks.
-/
import DocForest.Proofs.Padding

namespace DocForest.DocText

/-! ### Texts that run on -/

/-- Whether a command names a group. -/
def Command.namesGroup : Command → Bool
  | ingroup _ => true
  | _ => false

/-- Whether the next thing in a text, spaces apart, is the naming of a group. -/
def groupFollows : List Part → Bool
  | .text cs :: p :: _ => cs.all isSpace && p.group?.isSome
  | p :: _ => p.group?.isSome
  | [] => false

/-- Whether a part can read on into what follows it, once a group or the end of a line is no
longer there: the argument of a command that goes away with its line runs into the word at the
start of the next one, or a command that can take more than it has stands before a group,
whatever comes behind that. -/
def Part.runsInto : Part → List Part → Bool
  | command (.relates _) _, text cs :: _ => cs.head?.any isWordChar
  | command c _, ps => c.awaits && groupFollows ps
  | text _, _ => false

theorem Part.runsInto_of_awaits {c : Command} (h : c.awaits = true) (raw : List Char)
    (ps : List Part) : (Part.command c raw).runsInto ps = groupFollows ps := by
  cases c with
  | ref | subpage | malformed => simp [runsInto, h]
  | seeAlso | relates | ingroup | heading | anchor => cases h

/-- A command that goes away with its line has its argument. -/
theorem Command.awaits_eq_false {c : Command} (h : c.vanishes = true) : c.awaits = false := by
  cases c with
  | relates | ingroup => rfl
  | ref | seeAlso | subpage | heading | anchor | malformed => cases h

/-- Whether a part is a link that goes on to the end of its line. -/
def Part.isOpen : Part → Bool
  | command c raw => isLeftOpen (c, raw)
  | text _ => false

/-- Whether some part of a text can read on. -/
def runsOn : List Part → Bool
  | [] => false
  | p :: ps => p.isOpen || p.runsInto ps || runsOn ps

theorem runsOn_cons {p : Part} {ps : List Part} :
    runsOn (p :: ps) = false ↔ p.isOpen = false ∧ p.runsInto ps = false ∧ runsOn ps = false := by
  simp [runsOn, and_assoc]

theorem runsOn_textPart_append {cs : List Char} {ps : List Part} :
    runsOn (textPart cs ++ ps) = false ↔ runsOn ps = false := by
  unfold textPart
  split
  · rfl
  · rw [List.singleton_append, runsOn_cons]
    simp [Part.isOpen, Part.runsInto]

/-! ### Commands that name a group -/

/-- A command that goes away with its line has a word for its argument. -/
theorem CommandWord.read?_vanishes {word : CommandWord} {ts : List Token} {found : Found}
    (h : word.read? ts = some found) (hvanish : found.command.vanishes = true) :
    ∃ make, (∀ us, word.read? us = withWord? make us) ∧ withWord? make ts = some found := by
  cases word with
  | ref | subpage =>
      obtain ⟨target, text, hcommand⟩ := link?_command h
      rw [hcommand] at hvanish
      cases hvanish
  | relates | ingroup | anchor => exact ⟨_, fun _ => rfl, h⟩
  | see =>
      obtain ⟨targets, rfl⟩ := seeAlso?_eq_some h
      cases hvanish
  | heading level =>
      obtain ⟨sp, w, vs, title, -, -, rfl⟩ := heading?_eq_some h
      cases hvanish

theorem Command.vanishes_of_namesGroup {c : Command} (h : c.namesGroup = true) :
    c.vanishes = true := by
  cases c with
  | ingroup => rfl
  | ref | seeAlso | relates | subpage | heading | anchor | malformed => cases h

theorem Command.eq_relates {c : Command} (h : c.vanishes = true) (hgroup : c.namesGroup = false) :
    ∃ target, c = relates target := by
  cases c with
  | relates target => exact ⟨target, rfl⟩
  | ingroup => cases hgroup
  | ref | seeAlso | subpage | heading | anchor | malformed => cases h

theorem find?_vanishes {t : Token} {ts : List Token} {found : Found}
    (h : find? t ts = some found) (hvanish : found.command.vanishes = true) :
    t.kind = .command ∧ ∃ sp w vs, Spaces sp ∧ ts = sp ++ ⟨.word, w⟩ :: vs ∧
      found.used = sp.length + 1 ∧ found.tail = [] ∧
      ∀ us, find? t (sp ++ ⟨.word, w⟩ :: us) = some found := by
  obtain ⟨hkind, word, hword, hread | ⟨-, rfl⟩⟩ := find?_cases h
  · obtain ⟨make, hmake, hread⟩ := CommandWord.read?_vanishes hread hvanish
    obtain ⟨sp, w, vs, hsp, rfl, rfl⟩ := withWord?_eq_some hread
    refine ⟨hkind, sp, w, vs, hsp, rfl, rfl, rfl, fun us => ?_⟩
    rw [find?_of_word hkind hword, hmake, withWord?,
      wordArgument?_eq_some.mpr ⟨sp, us, hsp, rfl, rfl⟩]
    rfl
  · cases hvanish

/-! ### A text without its groups -/

/-- The text of a list of tokens without the commands that name a group. -/
def withoutGroups : List Token → List Char
  | [] => []
  | t :: ts =>
    match find? t ts with
    | none => t.text ++ withoutGroups ts
    | some found =>
      (if found.command.namesGroup then [] else t.text ++ textOf (ts.take found.used)) ++
        withoutGroups (ts.drop found.used)
termination_by ts => ts.length
decreasing_by all_goals simp only [List.length_cons, List.length_drop]; omega

theorem withoutGroups_nil : withoutGroups [] = [] := by
  rw [withoutGroups]

theorem withoutGroups_of_none {t : Token} {ts : List Token} (h : find? t ts = none) :
    withoutGroups (t :: ts) = t.text ++ withoutGroups ts := by
  rw [withoutGroups, h]

theorem withoutGroups_of_some {t : Token} {ts : List Token} {found : Found}
    (h : find? t ts = some found) :
    withoutGroups (t :: ts) =
      (if found.command.namesGroup then [] else t.text ++ textOf (ts.take found.used)) ++
        withoutGroups (ts.drop found.used) := by
  rw [withoutGroups, h]

theorem withoutGroups_append {us : List Token} (h : ∀ t ∈ us, t.kind ≠ .command)
    (ts : List Token) : withoutGroups (us ++ ts) = textOf us ++ withoutGroups ts := by
  induction us with
  | nil => rfl
  | cons t us ih =>
      rw [List.cons_append, withoutGroups_of_none (find?_of_kind (h t List.mem_cons_self) _),
        ih fun u hu => h u (List.mem_cons_of_mem _ hu), textOf_cons, List.append_assoc]

/-- Whether a token starts the naming of a group. -/
def StartsGroup (t : Token) (ts : List Token) : Prop :=
  ∃ found, find? t ts = some found ∧ found.command.namesGroup = true

/-- What stays of a text that starts with something else. -/
theorem exists_withoutGroups_cons {t : Token} {ts : List Token} (h : ¬StartsGroup t ts) :
    ∃ us vs, ts = us ++ vs ∧
      withoutGroups (t :: ts) = t.text ++ (textOf us ++ withoutGroups vs) := by
  cases hfound : find? t ts with
  | none => exact ⟨[], ts, rfl, withoutGroups_of_none hfound⟩
  | some found =>
      refine ⟨ts.take found.used, ts.drop found.used, (List.take_append_drop _ _).symm, ?_⟩
      rw [withoutGroups_of_some hfound, if_neg fun hgroup => h ⟨found, hfound, hgroup⟩,
        List.append_assoc]

theorem Lexed.head?_text {t : Token} {ts : List Token} (h : Lexed (t :: ts)) (cs : List Char) :
    (t.text ++ cs).head? = (textOf (t :: ts)).head? := by
  obtain ⟨c, w, htext⟩ := List.exists_cons_of_ne_nil h.1.text_ne_nil
  simp [htext]

/-- Taking out groups does not make a word longer. -/
theorem stops_withoutGroups {ts : List Token} (hts : Lexed ts)
    (h : Stops isWordChar (textOf ts)) : Stops isWordChar (withoutGroups ts) := by
  induction hn : ts.length using Nat.strongRecOn generalizing ts with
  | _ n ih =>
      cases ts with
      | nil =>
          rw [withoutGroups_nil]
          exact stops_nil _
      | cons t ts =>
          by_cases hgroup : StartsGroup t ts
          · obtain ⟨found, hfound, hgroup⟩ := hgroup
            obtain ⟨-, sp, w, vs, -, rfl, hused, -, -⟩ :=
              find?_vanishes hfound (Command.vanishes_of_namesGroup hgroup)
            rw [withoutGroups_of_some hfound, if_pos hgroup, List.nil_append, hused, drop_argument]
            have hrest := hts.2.of_append
            refine ih vs.length ?_ hrest.2 (cut_word_iff.mp hrest.1).2.2 rfl
            simp only [List.length_cons, List.length_append] at hn
            omega
          · obtain ⟨us, vs, rfl, heq⟩ := exists_withoutGroups_cons hgroup
            rw [heq]
            exact h.of_head? (hts.head?_text _)

/-- What follows a token may go without its groups. -/
theorem follows_withoutGroups {ts : List Token} (hts : Lexed ts) {kind : TokenKind}
    (hkind : kind ≠ .space) : Follows kind (textOf ts) (withoutGroups ts) := by
  cases ts with
  | nil =>
      rw [withoutGroups_nil]
      exact Or.inl rfl
  | cons t ts =>
      by_cases hgroup : StartsGroup t ts
      · obtain ⟨found, hfound, -⟩ := hgroup
        obtain ⟨c, hc, hmark⟩ := hts.1.head?_of_command (find?_cases hfound).1
        obtain ⟨w, htext⟩ : ∃ w, t.text = c :: w := by
          obtain ⟨d, w, htext⟩ := List.exists_cons_of_ne_nil hts.1.text_ne_nil
          rw [htext] at hc
          exact ⟨w, by rw [htext, Option.some.inj hc]⟩
        refine Or.inr (Or.inr ⟨hkind, ⟨c, by simp [htext], hmark⟩, stops_withoutGroups hts ?_⟩)
        rw [textOf_cons, htext, List.cons_append, stops_cons]
        exact not_isWordChar_of_isMark hmark
      · obtain ⟨us, vs, rfl, heq⟩ := exists_withoutGroups_cons hgroup
        rw [heq]
        exact Or.inl (hts.head?_text _)

/-- The end of a line stays where it is. -/
theorem AtEnd.tokens_withoutGroups {vs : List Token} (h : AtEnd vs) (hvs : Lexed vs) :
    AtEnd (tokens (withoutGroups vs)) ∧ (withoutGroups vs).head? = (textOf vs).head? := by
  cases vs with
  | nil =>
      rw [withoutGroups_nil, tokens]
      exact ⟨atEnd_nil, rfl⟩
  | cons t vs =>
      have hkind := atEnd_cons.mp h
      have hcut := hvs.1.of_follows (follows_withoutGroups hvs.2 (by simp [hkind]))
      rw [withoutGroups_of_none (find?_of_kind (by simp [hkind]) vs), hcut.tokens_eq]
      exact ⟨atEnd_cons.mpr hkind, hvs.head?_text _⟩

/-- Whether a group is named next, spaces apart. -/
def GroupNext (ts : List Token) : Prop :=
  ∃ sp t vs, Spaces sp ∧ ts = sp ++ t :: vs ∧ StartsGroup t vs

/-- What comes next stays next, behind the same spaces. -/
theorem next?_withoutGroups {ts : List Token} (hts : Lexed ts) (h : ¬GroupNext ts) :
    next? (tokens (withoutGroups ts)) = next? ts ∧
      spaces (tokens (withoutGroups ts)) = spaces ts := by
  obtain ⟨sp, hsp, rfl | ⟨t, vs, ht, rfl⟩⟩ := exists_spaces ts
  · have hplain : ∀ t ∈ ts, t.kind ≠ .command := fun t ht => by simp [hsp t ht]
    have hkeep := withoutGroups_append hplain []
    rw [withoutGroups_nil, List.append_nil, List.append_nil] at hkeep
    rw [hkeep, hts.tokens_textOf]
    exact ⟨rfl, rfl⟩
  · have hnot : ¬StartsGroup t vs := fun hgroup => h ⟨sp, t, vs, hsp, rfl, hgroup⟩
    obtain ⟨us, ws, rfl, heq⟩ := exists_withoutGroups_cons hnot
    have hrest : Lexed (us ++ ws) := hts.of_append.2
    have hfollows : Follows t.kind (textOf (us ++ ws)) (textOf us ++ withoutGroups ws) := by
      cases us with
      | nil => exact follows_withoutGroups hrest ht
      | cons u us =>
          rw [textOf_cons, List.append_assoc]
          exact Or.inl (hrest.head?_text _)
    have htokens := hts.exchange (hts.of_append.1.of_follows hfollows)
    rw [textOf_append, List.append_assoc, textOf_cons, textOf_nil, List.append_nil] at htokens
    rw [withoutGroups_append (fun t ht => by simp [hsp t ht]), heq, htokens, next?_append hsp,
      next?_append hsp, next?_cons ht, next?_cons ht, spaces_append hsp, spaces_append hsp,
      spaces_cons ht, spaces_cons ht]
    exact ⟨rfl, rfl⟩

/-! ### The commands that stay -/

/-- A token and the tokens a reader took behind it are not touched by what becomes of the
text behind them. -/
theorem tokens_kept {us vs : List Token} (hts : Lexed (us ++ vs)) (hus : us ≠ [])
    (hend : AtEnd vs ∨ EndsSolid us) :
    tokens (textOf us ++ withoutGroups vs) = us ++ tokens (withoutGroups vs) := by
  rcases List.eq_nil_or_concat us with rfl | ⟨us, t, rfl⟩
  · exact absurd rfl hus
  rw [List.concat_eq_append] at hts hend ⊢
  rw [List.append_assoc] at hts
  obtain ⟨hcut, hrest⟩ := hts.of_append
  have hfollows : Follows t.kind (textOf vs) (withoutGroups vs) := by
    rcases hend with hend | hsolid
    · exact Or.inl (hend.tokens_withoutGroups hrest).2
    · exact follows_withoutGroups hrest (endsSolid_concat.mp hsolid)
  rw [hts.exchange (hcut.of_follows hfollows), List.append_assoc]
  rfl

/-- A command that lacks its argument still lacks it when groups are taken out. -/
theorem CommandWord.read?_withoutGroups_eq_none {word : CommandWord} {ts : List Token}
    (hts : Lexed ts) (hnext : ¬GroupNext ts) (h : word.read? ts = none) :
    word.read? (tokens (withoutGroups ts)) = none := by
  rcases word.read?_eq_none hts h with hany | hplain
  · exact hany _ (next?_withoutGroups hts hnext).1
  · -- Nothing on the line can be taken out.
    have hsplit := List.take_append_drop (lineLength ts) ts
    have hend := atEnd_drop_lineLength ts
    generalize ts.take (lineLength ts) = line at hsplit hplain
    generalize ts.drop (lineLength ts) = vs at hsplit hend
    subst hsplit
    rw [CommandWord.read?_append _ hend] at h
    have hvs := (hend.tokens_withoutGroups hts.of_append).1
    rw [withoutGroups_append hplain]
    by_cases hline : line = []
    · rw [hline] at h ⊢
      rw [textOf_nil, List.nil_append]
      have hread := CommandWord.read?_append word hvs []
      rwa [List.nil_append, h] at hread
    · rw [tokens_kept hts hline (Or.inl hend), CommandWord.read?_append _ hvs, h]

/-- A command that stays is read in the same way when groups behind it are taken out. -/
theorem find?_withoutGroups {t : Token} {ts : List Token} {found : Found}
    (hts : Lexed (t :: ts)) (hfound : find? t ts = some found)
    (hnext : found.command.awaits = true → found.tail = [] → ¬GroupNext (ts.drop found.used)) :
    ∃ us vs, ts = us ++ vs ∧ found.used = us.length ∧
      tokens (t.text ++ textOf us ++ withoutGroups vs) = t :: us ++ tokens (withoutGroups vs) ∧
      find? t (us ++ tokens (withoutGroups vs)) = some found := by
  obtain ⟨hkind, word, hword, hread | ⟨hnone, rfl⟩⟩ := find?_cases hfound
  · obtain ⟨us, vs, rfl, hused, hend⟩ := CommandWord.read?_stopsAt
      (fun u hu hu' => parenBalance_eq_zero (hts.2.isSpace_of_mem hu hu')) hread
    rw [hused, List.drop_left' rfl] at hnext
    refine ⟨us, vs, rfl, hused, ?_, ?_⟩
    · have hlexed : Lexed ((t :: us) ++ vs) := hts
      have hsolid : EndsSolid [t] := by simp [EndsSolid, hkind]
      exact tokens_kept hlexed (by simp) (hend.imp id fun hend => hsolid.append hend.2.1)
    · have hvs := hts.2.of_append
      rw [find?_of_word hkind hword]
      rcases hend with hend | ⟨-, -, hany⟩
      · rw [CommandWord.read?_append _ hend] at hread
        rw [CommandWord.read?_append _ (hend.tokens_withoutGroups hvs).1, hread]
        rfl
      · rw [hany _ fun hawaits htail => ?_]
        · rfl
        · obtain ⟨hsame, hspaces⟩ := next?_withoutGroups hvs (hnext hawaits htail)
          rw [linkText?_eq, linkText?_eq, hsame, hspaces]
  · refine ⟨[], ts, rfl, rfl, ?_, ?_⟩
    · rw [textOf_nil, List.append_nil]
      exact (hts.1.of_follows (follows_withoutGroups hts.2 (by simp [hkind]))).tokens_eq
    · rw [List.nil_append, find?_of_word hkind hword,
        CommandWord.read?_withoutGroups_eq_none hts.2 (hnext rfl rfl) hnone]
      rfl

/-- One token of text that stays changes none of the commands behind it. -/
theorem commandsIn_plain {t : Token} {ts : List Token} (hts : Lexed (t :: ts))
    (hfind : find? t ts = none) :
    commandsIn (tokens (t.text ++ withoutGroups ts)) = commandsIn (tokens (withoutGroups ts)) := by
  by_cases hkind : t.kind = .space
  · have hspace := hts.isSpace_of_mem List.mem_cons_self hkind
    exact commandsIn_tokens_blank (fun c hc => isBlank_of_isSpace (hspace c hc)) _
  · have hcut := hts.1.of_follows (follows_withoutGroups hts.2 hkind)
    rw [hcut.tokens_eq, commandsIn_of_none (find?_eq_none hfind _)]

/-- The commands that do not name a group. -/
def otherCommands (ts : List Token) : List (Command × List Char) :=
  (commandsIn ts).filter fun x => !x.1.namesGroup

/-- One step of the reading: the command stays if it names no group. -/
theorem commandsIn_step {t : Token} {ts : List Token} {found : Found}
    (hts : Lexed (t :: ts)) (hfound : find? t ts = some found)
    (hnext : found.command.awaits = true → found.tail = [] → ¬GroupNext (ts.drop found.used))
    (hrest : commandsIn (tokens (withoutGroups (ts.drop found.used))) =
      otherCommands (ts.drop found.used)) :
    commandsIn (tokens (withoutGroups (t :: ts))) = otherCommands (t :: ts) := by
  rw [withoutGroups_of_some hfound, otherCommands, commandsIn_of_some hfound]
  cases hgroup : found.command.namesGroup with
  | true =>
      rw [if_pos rfl, List.nil_append, hrest, List.filter_cons_of_neg (by simp [hgroup])]
      rfl
  | false =>
      obtain ⟨us, vs, rfl, hused, htokens, hfind⟩ := find?_withoutGroups hts hfound hnext
      rw [hused, List.drop_left' rfl] at hrest
      rw [if_neg (by simp), hused, List.take_left' rfl, List.drop_left' rfl, htokens,
        List.cons_append, commandsIn_of_some hfind, hused, List.drop_left' rfl, hrest,
        List.filter_cons_of_pos (by simp [hgroup])]
      simp only [Found.raw, hused, List.take_left']
      rfl

/-- The rest of a line of spaces may go. -/
theorem commandsIn_withoutGroups_drop_lineEnd {ts : List Token} (hts : Lexed ts) :
    commandsIn (tokens (withoutGroups (ts.drop (lineEnd ts)))) =
      commandsIn (tokens (withoutGroups ts)) := by
  obtain ⟨us, vs, rfl, hlen, hplain, -⟩ := exists_lineEnd ts
  rw [hlen, List.drop_left' rfl, withoutGroups_append, commandsIn_tokens_blank]
  · intro c hc
    obtain ⟨t, ht, hc⟩ := List.mem_flatMap.mp hc
    exact hts.isBlank_of_mem (List.mem_append_left _ ht) (hplain t ht) c hc
  · intro t ht
    rcases hplain t ht with hkind | hkind <;> simp [hkind]

theorem otherCommands_drop_lineEnd (ts : List Token) :
    otherCommands (ts.drop (lineEnd ts)) = otherCommands ts := by
  rw [otherCommands, commandsIn_drop_lineEnd]
  rfl

/-! ### What a part is followed by -/

theorem partsFrom_spaces {sp : List Token} (hsp : Spaces sp) (started : Bool) (text : List Char)
    (ts : List Token) :
    partsFrom started text (sp ++ ts) = partsFrom started (text ++ textOf sp) ts := by
  induction sp generalizing text with
  | nil => rw [List.nil_append, textOf_nil, List.append_nil]
  | cons t sp ih =>
      have hfind : find? t (sp ++ ts) = none :=
        find?_of_kind (by simp [hsp t List.mem_cons_self]) _
      rw [List.cons_append, partsFrom, hfind]
      dsimp only
      rw [ih (fun u hu => hsp u (List.mem_cons_of_mem _ hu)), textOf_cons, List.append_assoc]

/-- The naming of a group that comes next is the next part. -/
theorem groupFollows_of_groupNext {ts : List Token} (hts : Lexed ts) (h : GroupNext ts) :
    groupFollows (partsFrom true [] ts) = true := by
  obtain ⟨sp, t, vs, hsp, rfl, found, hfound, hgroup⟩ := h
  have hspace : ∀ c ∈ textOf sp, isSpace c = true := by
    intro c hc
    obtain ⟨u, hu, hc⟩ := List.mem_flatMap.mp hc
    exact hts.isSpace_of_mem (List.mem_append_left _ hu) (hsp u hu) c hc
  have hnot : isAlone true (textOf sp) (vs.drop found.used) = false := by
    have hline : (textOf sp).contains '\n' = false := by
      rw [Bool.eq_false_iff]
      intro hc
      exact absurd (hspace _ (List.contains_iff_mem.mp hc)) (by decide)
    rw [isAlone, hline]
    rfl
  rw [partsFrom_spaces hsp, List.nil_append, partsFrom, hfound]
  dsimp only
  rw [hnot, Bool.and_false, if_neg (by simp)]
  have hcommand : ∀ raw, (Part.command found.command raw).group?.isSome = true := by
    intro raw
    cases hc : found.command with
    | ingroup id => rfl
    | ref | seeAlso | relates | subpage | heading | anchor | malformed =>
        rw [hc] at hgroup
        cases hgroup
  unfold textPart
  split
  · exact hcommand _
  · simp only [List.singleton_append, groupFollows, hcommand, Bool.and_true]
    exact List.all_eq_true.mpr hspace

theorem dropEnd_append_cons {p : Char → Bool} {c : Char} (hc : p c = false) (ds cs : List Char) :
    dropEnd p (ds ++ c :: cs) = ds ++ c :: dropEnd p cs := by
  rw [dropEnd, List.reverse_append, List.reverse_cons, List.append_assoc, List.dropWhile_append]
  split
  · rename_i hempty
    rw [List.isEmpty_iff] at hempty
    rw [List.singleton_append, List.dropWhile_cons_of_neg (by simp [hc]), dropEnd, hempty]
    simp
  · simp [dropEnd]

theorem textPart_cons (c : Char) (cs : List Char) : textPart (c :: cs) = [.text (c :: cs)] := rfl

/-- A part that starts with a character of a word. -/
theorem partsFrom_of_isWordChar {c : Char} (hc : isWordChar c = true) (started : Bool)
    (w : List Char) (ts : List Token) :
    ∃ cs ps, partsFrom started (c :: w) ts = .text (c :: cs) :: ps := by
  generalize htext : c :: w = text
  fun_induction partsFrom started text ts generalizing w with
  | case1 => exact ⟨w, [], by rw [← htext]; rfl⟩
  | case2 started text t ts hnone ih => exact ih (w ++ t.text) (by rw [← htext]; rfl)
  | case3 started text t ts found hfound rest halone ih =>
      subst htext
      have hspace : (c == ' ' || c == '\t') = false := by
        cases hspace : c == ' ' || c == '\t' with
        | false => rfl
        | true =>
            rcases (by simpa using hspace : c = ' ' ∨ c = '\t') with rfl | rfl <;> cases hc
      have hdrop := dropEnd_append_cons (p := fun c => c == ' ' || c == '\t') hspace [] w
      rw [List.nil_append, List.nil_append] at hdrop
      rw [hdrop, textPart_cons]
      exact ⟨_, _, rfl⟩
  | case4 started text t ts found hfound rest halone ih =>
      subst htext
      rw [textPart_cons]
      exact ⟨_, _, rfl⟩

/-- A word behind a command whose line went away would be read as part of its argument. -/
theorem stops_of_runsInto {ts : List Token} (hts : Lexed ts) {target : String} {raw : List Char}
    (h : (Part.command (.relates target) raw).runsInto (partsFrom true [] ts) = false) :
    Stops isWordChar (textOf ts) := by
  intro c hhead
  cases hword : isWordChar c with
  | false => rfl
  | true =>
      exfalso
      cases ts with
      | nil => simp at hhead
      | cons t ts =>
          obtain ⟨d, w, htext⟩ := List.exists_cons_of_ne_nil hts.1.text_ne_nil
          obtain rfl : d = c := by simpa [htext] using hhead
          have hnone : find? t ts = none := by
            refine find?_of_kind (fun hkind => ?_) _
            obtain ⟨e, he, hmark⟩ := hts.1.head?_of_command hkind
            obtain rfl : d = e := by simpa [htext] using he
            rw [not_isWordChar_of_isMark hmark] at hword
            cases hword
          rw [partsFrom, hnone] at h
          dsimp only at h
          rw [List.nil_append, htext] at h
          obtain ⟨cs, ps, hparts⟩ := partsFrom_of_isWordChar hword true w ts
          rw [hparts] at h
          simp [Part.runsInto, hword] at h

/-! ### Taking the groups out keeps the other commands -/

/-- **What stays are the commands that name no group**, if the text does not run on. -/
theorem commandsIn_withoutGroups (started : Bool) (text : List Char) (ts : List Token)
    (hts : Lexed ts) (h : runsOn (partsFrom started text ts) = false) :
    commandsIn (tokens (withoutGroups ts)) = otherCommands ts := by
  fun_induction partsFrom started text ts with
  | case1 =>
      rw [withoutGroups_nil, tokens, otherCommands, commandsIn_nil]
      rfl
  | case2 started text t ts hnone ih =>
      rw [withoutGroups_of_none hnone, commandsIn_plain hts hnone, ih hts.2 h, otherCommands,
        otherCommands, commandsIn_of_none hnone]
  | case3 started text t ts found hfound rest halone ih =>
      rw [runsOn_textPart_append, runsOn_cons] at h
      obtain ⟨-, hinto, hrest⟩ := h
      rw [Bool.and_eq_true] at halone
      refine commandsIn_step hts hfound (fun hawaits => ?_) ?_
      · rw [Command.awaits_eq_false halone.1] at hawaits
        exact absurd hawaits (by decide)
      · have hlexed := hts.2.drop found.used
        rw [← commandsIn_withoutGroups_drop_lineEnd hlexed, ih (hlexed.drop _) hrest,
          otherCommands_drop_lineEnd]
  | case4 started text t ts found hfound rest halone ih =>
      rw [runsOn_textPart_append, runsOn_cons] at h
      obtain ⟨-, hinto, hrest⟩ := h
      have hlexed := hts.2.drop found.used
      refine commandsIn_step hts hfound (fun hawaits htail hgroup => ?_) (ih hlexed hrest)
      have hfollows := groupFollows_of_groupNext hlexed hgroup
      rw [htail, Part.runsInto_of_awaits hawaits, hfollows] at hinto
      exact absurd hinto (by decide)

/-! ### Ends of lines that went away -/

/-- The text of some parts, put together again without their groups. -/
def keptText (ps : List Part) : List Char :=
  renderRaw (ps.filter (·.group?.isNone))

theorem keptText_textPart_append (cs : List Char) (ps : List Part) :
    keptText (textPart cs ++ ps) = cs ++ keptText ps := by
  unfold textPart
  split
  · rename_i hempty
    rw [List.isEmpty_iff.mp hempty]
    rfl
  · rfl

/-- What stays of a command: nothing if it names a group. -/
def stays (found : Found) (t : Token) (ts : List Token) : List Char :=
  if found.command.namesGroup then [] else found.raw t ts

theorem keptText_command (found : Found) (t : Token) (ts : List Token) (ps : List Part) :
    keptText (.command found.command (found.raw t ts) :: ps) = stays found t ts ++ keptText ps := by
  unfold stays
  cases found.command <;> rfl

theorem find?_tail_of_vanishes {t : Token} {ts : List Token} {found : Found}
    (h : find? t ts = some found) (hvanish : found.command.vanishes = true) : found.tail = [] := by
  obtain ⟨-, sp, w, vs, -, -, -, htail, -⟩ := find?_vanishes h hvanish
  exact htail

theorem find?_raw_append_tail {t : Token} {ts : List Token} {found : Found}
    (h : find? t ts = some found) :
    found.raw t ts ++ found.tail = t.text ++ textOf (ts.take found.used) := by
  have hsuffix : found.tail <:+ t.text ++ textOf (ts.take found.used) := by
    obtain ⟨-, word, -, hread | ⟨-, rfl⟩⟩ := find?_cases h
    · exact (CommandWord.read?_tail hread).trans (List.suffix_append _ _)
    · exact List.nil_suffix
  obtain ⟨raw, hraw⟩ := hsuffix
  simp only [Found.raw]
  rw [← hraw, List.length_append, Nat.add_sub_cancel, List.take_left' rfl]

theorem withoutGroups_eq {t : Token} {ts : List Token} {found : Found}
    (h : find? t ts = some found) :
    withoutGroups (t :: ts) =
      stays found t ts ++ (found.tail ++ withoutGroups (ts.drop found.used)) := by
  rw [withoutGroups_of_some h, stays]
  split
  · rename_i hgroup
    rw [find?_tail_of_vanishes h (Command.vanishes_of_namesGroup hgroup)]
    rfl
  · rw [← find?_raw_append_tail h, List.append_assoc]

theorem lastLine_append_newline {cs : List Char} (h : '\n' ∈ cs) :
    ∃ ds, cs = ds ++ '\n' :: lastLine cs := by
  have hsplit := List.takeWhile_append_dropWhile (p := (· != '\n')) (l := cs.reverse)
  have hstop := stops_dropWhile (· != '\n') cs.reverse
  have hmem := mem_dropWhile (p := (· != '\n')) (by decide) (List.mem_reverse.mpr h)
  obtain ⟨d, ds, hds⟩ := List.exists_cons_of_ne_nil (List.ne_nil_of_mem hmem)
  rw [hds, stops_cons, bne_eq_false_iff_eq] at hstop
  rw [hds, hstop] at hsplit
  refine ⟨ds.reverse, ?_⟩
  rw [← List.reverse_inj, ← hsplit, lastLine]
  simp

theorem lastLine_of_notMem {cs : List Char} (h : '\n' ∉ cs) : lastLine cs = cs := by
  have hall : ∀ c ∈ cs.reverse, (c != '\n') = true := by
    intro c hc
    rw [bne_iff_ne]
    rintro rfl
    exact h (List.mem_reverse.mp hc)
  rw [lastLine, List.takeWhile_eq_self_iff.mpr hall, List.reverse_reverse]

/-- What stands in front of a command that has its line to itself. -/
theorem exists_front {started : Bool} {text : List Char} {rest : List Token}
    (halone : isAlone started text rest = true) {front : List Char}
    (hfront : started = false → front = []) :
    ∃ before, ∀ cs,
      commandsIn (tokens (front ++ (text ++ cs))) = before ++ commandsIn (tokens cs) ∧
      commandsIn (tokens (front ++ (dropEnd (fun c => c == ' ' || c == '\t') text ++ cs))) =
        before ++ commandsIn (tokens cs) := by
  simp only [isAlone, Bool.and_eq_true, List.isEmpty_iff] at halone
  obtain ⟨⟨hstart, htrim⟩, -⟩ := halone
  have hblank : ∀ c ∈ lastLine text, Text.isBlank c = true := by
    intro c hc
    cases hblank : Text.isBlank c with
    | true => rfl
    | false =>
        have hmem := mem_trim hblank hc
        rw [htrim] at hmem
        simp at hmem
  have hblank' : ∀ c ∈ dropEnd (fun c => c == ' ' || c == '\t') (lastLine text),
      Text.isBlank c = true := by
    intro c hc
    rw [dropEnd, List.mem_reverse] at hc
    exact hblank c (List.mem_reverse.mp ((List.dropWhile_sublist _).subset hc))
  by_cases hline : '\n' ∈ text
  · obtain ⟨ds, hds⟩ := lastLine_append_newline hline
    generalize lastLine text = l at hds hblank hblank'
    subst hds
    refine ⟨commandsIn (tokens (front ++ ds)), fun cs => ⟨?_, ?_⟩⟩
    · rw [List.append_assoc, List.cons_append, ← List.append_assoc, commandsIn_tokens_newline,
        commandsIn_tokens_blank hblank]
    · rw [dropEnd_append_cons (by decide), List.append_assoc, List.cons_append, ← List.append_assoc,
        commandsIn_tokens_newline, commandsIn_tokens_blank hblank']
  · have hfalse : started = false := by
      cases started with
      | false => rfl
      | true => simp [hline] at hstart
    rw [lastLine_of_notMem hline] at hblank hblank'
    rw [hfront hfalse]
    refine ⟨[], fun cs => ⟨?_, ?_⟩⟩
    · rw [List.nil_append, commandsIn_tokens_blank hblank, List.nil_append]
    · rw [List.nil_append, commandsIn_tokens_blank hblank', List.nil_append]

/-- The argument of a command ends where no word goes on. -/
theorem commandsIn_word_argument {t : Token} {sp vs : List Token} {w : List Char} {found : Found}
    (hts : Lexed (t :: sp ++ ⟨.word, w⟩ :: vs))
    (hfind : ∀ us, find? t (sp ++ ⟨.word, w⟩ :: us) = some found)
    (hused : found.used = sp.length + 1) {cs : List Char} (hstop : Stops isWordChar cs) :
    commandsIn (tokens (t.text ++ (textOf sp ++ w) ++ cs)) =
      (found.command, found.raw t (sp ++ ⟨.word, w⟩ :: vs)) :: commandsIn (tokens cs) := by
  have hword := cut_word_iff.mp hts.of_append.1
  have htokens := hts.exchange (cut_word_iff.mpr ⟨hword.1, hword.2.1, hstop⟩)
  rw [textOf_append, textOf_cons, textOf_cons, textOf_nil, List.append_nil,
    List.append_assoc t.text] at htokens
  have hraw : found.raw t (sp ++ ⟨.word, w⟩ :: tokens cs) =
      found.raw t (sp ++ ⟨.word, w⟩ :: vs) := by
    simp only [Found.raw, hused, take_argument]
  rw [htokens, List.cons_append, commandsIn_of_some (hfind _), hraw, hused, drop_argument]

/-- The end of the line of a command that went away with it may be put back. -/
theorem commandsIn_vanished {t : Token} {ts : List Token} {found : Found}
    (hts : Lexed (t :: ts)) (hfound : find? t ts = some found)
    (hvanish : found.command.vanishes = true) {rest : List Token}
    (hrest : rest = ts.drop found.used)
    (hinto : (Part.command found.command (found.raw t ts)).runsInto
      (partsFrom true [] (rest.drop (lineEnd rest))) = false) :
    commandsIn (tokens (stays found t ts ++ withoutGroups (rest.drop (lineEnd rest)))) =
      commandsIn (tokens (stays found t ts ++ withoutGroups rest)) := by
  obtain ⟨-, sp, w, vs, -, rfl, hused, htail, hfind⟩ := find?_vanishes hfound hvanish
  rw [hused, drop_argument] at hrest
  subst hrest
  obtain ⟨hcut, hvs⟩ := hts.2.of_append
  have hsame := commandsIn_withoutGroups_drop_lineEnd hvs
  cases hgroup : found.command.namesGroup with
  | true =>
      rw [stays, if_pos hgroup, List.nil_append, List.nil_append]
      exact hsame
  | false =>
      obtain ⟨target, hcommand⟩ := Command.eq_relates hvanish hgroup
      rw [hcommand] at hinto
      have hline := hvs.drop (lineEnd rest)
      -- On either side the class that is named ends where it did.
      have hstop := stops_withoutGroups hline (stops_of_runsInto hline hinto)
      have hstop' := stops_withoutGroups hvs (cut_word_iff.mp hcut).2.2
      have hraw := find?_raw_append_tail hfound
      rw [htail, List.append_nil, hused, take_argument, textOf_append, textOf_cons, textOf_nil,
        List.append_nil] at hraw
      rw [stays, if_neg (by simp [hgroup]), hraw, commandsIn_word_argument hts hfind hused hstop,
        commandsIn_word_argument hts hfind hused hstop', hsame]

/-- **The ends of lines that went away may be put back.** -/
theorem commandsIn_keptText (started : Bool) (text : List Char) (ts : List Token)
    (hts : Lexed ts) (h : runsOn (partsFrom started text ts) = false) (front : List Char)
    (hfront : started = false → front = []) :
    commandsIn (tokens (front ++ keptText (partsFrom started text ts))) =
      commandsIn (tokens (front ++ (text ++ withoutGroups ts))) := by
  fun_induction partsFrom started text ts generalizing front with
  | case1 started text =>
      have hkept := keptText_textPart_append text []
      rw [List.append_nil] at hkept
      rw [hkept, withoutGroups_nil]
      rfl
  | case2 started text t ts hnone ih =>
      rw [ih hts.2 h front hfront, withoutGroups_of_none hnone, List.append_assoc]
  | case3 started text t ts found hfound rest halone ih =>
      rw [runsOn_textPart_append, runsOn_cons] at h
      obtain ⟨-, hinto, hrest⟩ := h
      rw [Bool.and_eq_true] at halone
      obtain ⟨before, hbefore⟩ := exists_front halone.2 hfront
      have htail := find?_tail_of_vanishes hfound halone.1
      have hlexed := hts.2.drop found.used
      have hkept := ih (hlexed.drop _) hrest
        (front ++ (dropEnd (fun c => c == ' ' || c == '\t') text ++ stays found t ts)) (by simp)
      rw [keptText_textPart_append, keptText_command, withoutGroups_eq hfound]
      rw [htail] at hinto hkept ⊢
      simp only [List.append_assoc, List.nil_append] at hkept ⊢
      rw [hkept, (hbefore _).1, (hbefore _).2, commandsIn_vanished hts hfound halone.1 rfl hinto]
  | case4 started text t ts found hfound rest halone ih =>
      rw [runsOn_textPart_append, runsOn_cons] at h
      have hkept := ih (hts.2.drop found.used) h.2.2 (front ++ (text ++ stays found t ts)) (by simp)
      rw [keptText_textPart_append, keptText_command, withoutGroups_eq hfound]
      simp only [List.append_assoc] at hkept ⊢
      exact hkept

theorem isOpen_of_runsOn {ps : List Part} (h : runsOn ps = false) :
    ∀ x ∈ ps.filterMap Part.source?, isLeftOpen x = false := by
  induction ps with
  | nil => simp
  | cons p ps ih =>
      obtain ⟨hopen, -, hps⟩ := runsOn_cons.mp h
      cases p with
      | text => exact ih hps
      | command c raw => exact List.forall_mem_cons.mpr ⟨hopen, ih hps⟩

theorem namesGroup_of_findSome? {ps : List Part} (h : ps.findSome? Part.group? = none) :
    ∀ c ∈ ps.filterMap Part.command?, c.namesGroup = false := by
  intro c hc
  obtain ⟨p, hp, hcommand⟩ := List.mem_filterMap.mp hc
  have hnone := List.findSome?_eq_none_iff.mp h p hp
  cases p with
  | text => cases hcommand
  | command c' raw =>
      obtain rfl := Option.some.inj hcommand
      cases c' with
      | ingroup => cases hnone
      | ref | seeAlso | relates | subpage | heading | anchor | malformed => rfl

/-- **Taking the groups out of a text** leaves it all its other commands, in their order and
with their arguments, if the text names no group or cannot run on. -/
theorem commands_takeGroup (text : String)
    (h : (takeGroup text).1 = none ∨ runsOn (parts text.toList) = false) :
    commands (takeGroup text).2.toList =
      (commands text.toList).filter fun c => !c.namesGroup := by
  cases hgroup : (parts text.toList).findSome? Part.group? with
  | none =>
      have hall := namesGroup_of_findSome? hgroup
      rw [takeGroup]
      simp only [hgroup]
      refine (List.filter_eq_self.mpr fun c hc => ?_).symm
      rw [hall c hc]
      rfl
  | some id =>
      have hruns : runsOn (parts text.toList) = false := by
        refine h.resolve_left fun hnone => ?_
        rw [takeGroup] at hnone
        simp [hgroup] at hnone
      have htext : (takeGroup text).2.toList = Text.trim (keptText (parts text.toList)) := by
        rw [takeGroup]
        simp only [hgroup, String.toList_ofList]
        rfl
      have hlexed := lexed_tokens text.toList
      have hkept := commandsIn_keptText false [] _ hlexed hruns [] fun _ => rfl
      rw [List.nil_append, List.nil_append, List.nil_append,
        commandsIn_withoutGroups false [] _ hlexed hruns] at hkept
      have hclosed := isOpen_of_runsOn hruns
      rw [parts, filterMap_source?_partsFrom] at hclosed
      have hstay : ∀ x ∈ commandsIn (tokens (keptText (parts text.toList))),
          isLeftOpen x = false := by
        intro x hx
        rw [parts, hkept] at hx
        exact hclosed x (List.mem_filter.mp hx).1
      rw [htext, commands_trim hstay, commands_eq, commands_eq, parts, hkept, otherCommands,
        List.filter_map]
      rfl

/-- Two namings of a group, one inside a line and one with a line of its own. -/
def noteText : String :=
  "See \\ref f(a, b) \"the note\" \\ingroup g for more.\n  \\ingroup h\n\\relates X\n\n" ++
    "\\section s A title\n\\ingroup"

theorem commands_takeGroup_noteText :
    runsOn (parts noteText.toList) = false ∧
      commands (takeGroup noteText).2.toList =
        [.ref "f(a, b)" (some "the note"), .relates "X", .heading 1 "s" "A title",
          .malformed .ingroup] := by
  have hruns : runsOn (parts noteText.toList) = false := by decide +kernel
  refine ⟨hruns, (commands_takeGroup noteText (Or.inr hruns)).trans ?_⟩
  decide +kernel

/-- A class named at the end of a line runs into the next line, which lost its beginning. -/
theorem commands_takeGroup_joined :
    commands (takeGroup "\\relates X\nfoo\n\\ingroup g").2.toList = [.relates "Xfoo"] ∧
      ((commands "\\relates X\nfoo\n\\ingroup g".toList).filter fun c => !c.namesGroup) =
        [.relates "X"] := by
  constructor <;> decide +kernel

end DocForest.DocText
