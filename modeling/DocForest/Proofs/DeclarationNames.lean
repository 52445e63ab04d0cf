/-
The name of a declaration that is written out of line.

The name starts behind the last character that divides it from the type of the result
(`isDivider`), and that is looked for in the head, which is what stands in front of the
parameters.  But the head goes on to the keyword of operator functions where there is one, and
the keyword is looked for in the parameters as well.  So a function without the keyword in its
name is found unless its parameters have the keyword in them behind a divider
(`DividesKeyword`); then the name starts in the middle of the parameters.

The rest is a matter of borders: the keyword has neither a space nor a parenthesis in it, so
that it stands across none of the places where the parts of the declaration meet.
-/
import DocForest.Deferred.Argument
import DocForest.Proofs.References

namespace DocForest

open Text

namespace Text

/-! ### The first place of a text in another -/

variable {part : List Char}

theorem prefix_of_prefix_append_cons (us : List Char) {vs : List Char} {c : Char}
    (hc : c ∉ part) (h : part <+: us ++ c :: vs) : part <+: us := by
  rcases List.prefix_or_prefix_of_prefix h (List.prefix_append us (c :: vs)) with hpart | ⟨ws, rfl⟩
  · exact hpart
  · cases ws with
    | nil => simp
    | cons d ws =>
        have hrest := (List.prefix_append_right_inj us).mp h
        obtain rfl := (List.cons_prefix_cons.mp hrest).1
        exact absurd (by simp) hc

/-- A text is not found across a character that it does not have. -/
theorem cut?_append_cons {us : List Char} (hus : ¬ part <:+: us) {c : Char} (hc : c ∉ part)
    (vs : List Char) :
    cut? part (us ++ c :: vs) = (cut? part vs).map fun p => (us ++ c :: p.1, p.2) := by
  induction us with
  | nil =>
      have hnot : ¬ part <+: c :: vs :=
        fun h => hus (prefix_of_prefix_append_cons [] hc h).isInfix
      rw [List.nil_append, cut?, dropStart?_eq_none.mpr hnot]
      rfl
  | cons d us ih =>
      rw [List.infix_cons_iff, not_or] at hus
      have hnot : ¬ part <+: d :: (us ++ c :: vs) :=
        fun h => hus.1 (prefix_of_prefix_append_cons (d :: us) hc h)
      rw [List.cons_append, cut?, dropStart?_eq_none.mpr hnot, ih hus.2]
      simp [Function.comp_def]

theorem not_infix_append_cons {us vs : List Char} (hus : ¬ part <:+: us) {c : Char}
    (hc : c ∉ part) (hvs : ¬ part <:+: vs) : ¬ part <:+: us ++ c :: vs := by
  rw [← cut?_eq_none_iff] at hvs ⊢
  rw [cut?_append_cons hus hc, hvs, Option.map_none]

/-- The first place stays the first when text is put behind. -/
theorem cut?_append {cs before after : List Char} (h : cut? part cs = some (before, after))
    (rest : List Char) : cut? part (cs ++ rest) = some (before, after ++ rest) := by
  induction cs generalizing before with
  | nil =>
      rw [cut?] at h
      split at h
      · rename_i hempty
        obtain ⟨rfl, rfl⟩ := Prod.mk.inj (Option.some.inj h)
        rw [List.isEmpty_iff.mp hempty]
        cases rest <;> simp [cut?, dropStart?]
      · cases h
  | cons c cs ih =>
      rw [cut?] at h
      rw [List.cons_append, cut?]
      cases hdrop : dropStart? part (c :: cs) with
      | some tail =>
          rw [hdrop] at h
          obtain ⟨rfl, rfl⟩ := Prod.mk.inj (Option.some.inj h)
          have hmore : dropStart? part (c :: (cs ++ rest)) = some (tail ++ rest) := by
            rw [dropStart?_eq_some, ← List.append_assoc, ← dropStart?_eq_some.mp hdrop]
            rfl
          rw [hmore]
      | none =>
          rw [hdrop] at h
          obtain ⟨⟨us, vs⟩, hcut, hpair⟩ := Option.map_eq_some_iff.mp h
          obtain ⟨rfl, rfl⟩ := Prod.mk.inj hpair
          cases hmore : dropStart? part (c :: (cs ++ rest)) with
          | none => simp [ih hcut]
          | some tail =>
              -- A place that starts here would have to reach into `rest`, but there is room for
              -- one in `cs` alone.
              have hlong : part.length ≤ (c :: cs).length := by
                rw [append_of_cut? hcut]
                simp
                omega
              have hstart : part <+: c :: cs ++ rest := ⟨tail, (dropStart?_eq_some.mp hmore).symm⟩
              exact absurd (List.prefix_of_prefix_length_le hstart (List.prefix_append _ _) hlong)
                (dropStart?_eq_none.mp hdrop)

/-- The part before the first place is at the start of what is before any other place. -/
theorem prefix_of_cut? {cs before after us vs : List Char}
    (h : cut? part cs = some (before, after)) (heq : cs = us ++ part ++ vs) : before <+: us := by
  induction us generalizing cs before with
  | nil =>
      have hstart : dropStart? part cs = some vs := dropStart?_eq_some.mpr heq
      cases cs with
      | nil =>
          rw [cut?] at h
          split at h
          · obtain ⟨rfl, -⟩ := Prod.mk.inj (Option.some.inj h)
            exact List.nil_prefix
          · cases h
      | cons c cs =>
          rw [cut?, hstart] at h
          obtain ⟨rfl, -⟩ := Prod.mk.inj (Option.some.inj h)
          exact List.nil_prefix
  | cons u us ih =>
      rw [heq, List.cons_append, List.cons_append, cut?] at h
      split at h
      · obtain ⟨rfl, -⟩ := Prod.mk.inj (Option.some.inj h)
        exact List.nil_prefix
      · obtain ⟨⟨before', after'⟩, hcut, hpair⟩ := Option.map_eq_some_iff.mp h
        obtain ⟨rfl, rfl⟩ := Prod.mk.inj hpair
        exact (List.prefix_cons_inj u).mpr (ih hcut rfl)

end Text

namespace Deferred

/-! ### The head of a declaration -/

theorem cutHead_eq (cs : List Char) :
    cutHead cs = match cut? Query.operatorWord cs with
      | some (head, after) => (head, Query.operatorWord ++ after)
      | none => (cs.takeWhile (· != '('), cs.dropWhile (· != '(')) :=
  rfl

/-- What is in front of the parameters is the head, with the parameters up to the keyword if
they have it. -/
theorem cutHead_signature {us params : List Char} (hparen : '(' ∉ us)
    (hus : ¬ Query.operatorWord <:+: us) :
    cutHead (us ++ '(' :: (params ++ [')'])) =
      match cut? Query.operatorWord params with
      | none => (us, '(' :: (params ++ [')']))
      | some (before, after) => (us ++ '(' :: before, Query.operatorWord ++ (after ++ [')'])) := by
  have hopen : '(' ∉ Query.operatorWord := by decide
  have hclose : ')' ∉ Query.operatorWord := by decide
  rw [cutHead_eq, cut?_append_cons hus hopen]
  cases hcut : cut? Query.operatorWord params with
  | some p => rw [cut?_append hcut, Option.map_some]
  | none =>
      have hnone : cut? Query.operatorWord (params ++ [')']) = none := by
        rw [cut?_eq_none_iff] at hcut ⊢
        exact not_infix_append_cons hcut hclose (by decide)
      have hall : ∀ c ∈ us, (c != '(') = true := fun c hc => by
        simpa using fun h : c = '(' => hparen (h ▸ hc)
      simp [hnone, List.takeWhile_append_of_pos hall, List.dropWhile_append_of_pos hall]

theorem bareArgument_of_paren {cs us : List Char} (h : trimStart cs = us ++ [')']) :
    bareArgument cs = us ++ [')'] := by
  have hend : trimEnd (us ++ [')']) = us ++ [')'] :=
    DocText.trimEnd_append ⟨')', List.mem_singleton_self _, by decide⟩ us
  have hsemicolons : ((us ++ [')']).reverse.dropWhile (· == ';')).reverse = us ++ [')'] := by
    simp
  rw [bareArgument, trim, h, hend, hsemicolons, hend]

/-- What is left of the type of a result: it ends in the blank before the name, or all of it
was blank. -/
inductive IsFront (result : List Char) : List Char → Prop
  | blank : IsFront result []
  | type {us : List Char} (h : us <:+ result) : IsFront result (us ++ [' '])

theorem exists_isFront (result : List Char) {cs : List Char}
    (hcs : ∀ c, cs.head? = some c → isBlank c = false) :
    ∃ front, IsFront result front ∧ trimStart (result ++ ' ' :: cs) = front ++ cs := by
  by_cases h : ∃ c ∈ result, isBlank c = false
  · refine ⟨trimStart result ++ [' '], .type (List.dropWhile_suffix _), ?_⟩
    rw [DocText.trimStart_append h, List.append_assoc, List.singleton_append]
  · have hall : ∀ c ∈ result, isBlank c = true := by simpa using h
    refine ⟨[], .blank, ?_⟩
    rw [trimStart, List.dropWhile_append_of_pos hall, List.dropWhile_cons_of_pos (by decide)]
    cases cs with
    | nil => rfl
    | cons c cs => exact List.dropWhile_cons_of_neg (by simp [hcs c rfl])

/-! ### The start of the name -/

variable {args head rest us vs : List Char} {c : Char}

theorem declarationName_of_no_divider (hcut : cutHead (bareArgument args) = (head, rest))
    (hhead : ∀ d ∈ head, isDivider d = false) : declarationName args = .ok (head ++ rest) := by
  have hfind : head.reverse.find? isDivider = none :=
    List.find?_eq_none.mpr fun d hd => by simp [hhead d (List.mem_reverse.mp hd)]
  rw [declarationName, hcut]
  simp only [hfind]

theorem declarationName_of_divider (hcut : cutHead (bareArgument args) = (us ++ c :: vs, rest))
    (hc : isDivider c = true) (hvs : ∀ d ∈ vs, isDivider d = false) :
    declarationName args =
      if c.utf8Size = 1 then .ok (vs ++ rest) else .error (.wideBlank c) := by
  have hnone : vs.reverse.find? isDivider = none :=
    List.find?_eq_none.mpr fun d hd => by simp [hvs d (List.mem_reverse.mp hd)]
  have hall : ∀ d ∈ vs.reverse, (!isDivider d) = true :=
    fun d hd => by simp [hvs d (List.mem_reverse.mp hd)]
  have hreverse : (us ++ c :: vs).reverse = vs.reverse ++ c :: us.reverse := by simp
  have hfind : (us ++ c :: vs).reverse.find? isDivider = some c := by
    rw [hreverse, List.find?_append, hnone, Option.none_or, List.find?_cons_of_pos hc]
  have htake : (us ++ c :: vs).reverse.takeWhile (!isDivider ·) = vs.reverse := by
    rw [hreverse, List.takeWhile_append_of_pos hall,
      List.takeWhile_cons_of_neg (by simp [hc]), List.append_nil]
  rw [declarationName, hcut]
  simp only [hfind, htake, List.reverse_reverse]

/-! ### Signatures -/

theorem IsFront.declarationName_eq {result front middle : List Char} (hfront : IsFront result front)
    (hcut : cutHead (bareArgument args) = (front ++ middle, rest))
    (hmiddle : ∀ d ∈ middle, isDivider d = false) :
    declarationName args = .ok (middle ++ rest) := by
  cases hfront with
  | blank => exact declarationName_of_no_divider hcut hmiddle
  | type _ =>
      rw [List.append_assoc, List.singleton_append] at hcut
      exact declarationName_of_divider hcut (by decide) hmiddle

theorem not_isDivider_of_name {c : Char} (h : Query.isNameChar c = true ∨ c = ':') :
    isDivider c = false := by
  rcases h with hname | rfl
  · have hblank := Query.not_isBlank_of_isNameChar hname
    have hstar : c ≠ '*' := by rintro rfl; exact absurd hname (by decide)
    have hand : c ≠ '&' := by rintro rfl; exact absurd hname (by decide)
    simp [isDivider, hblank, hstar, hand]
  · decide

/-- The type of a result and the name of a function, without the keyword of operator
functions. -/
structure Signature where
  result : List Char
  name : List Char
  result_paren : '(' ∉ result
  result_keyword : ¬ Query.operatorWord <:+: result
  name_chars : ∀ c ∈ name, Query.isNameChar c = true ∨ c = ':'
  name_keyword : ¬ Query.operatorWord <:+: name

/-- The parameters have the keyword in them, and a divider stands in front of it each time. -/
def DividesKeyword (params : List Char) : Prop :=
  Query.operatorWord <:+: params ∧ ∀ before after,
    params = before ++ Query.operatorWord ++ after → ∃ c ∈ before, isDivider c = true

theorem dividesKeyword_of_cut? {params before after : List Char}
    (h : cut? Query.operatorWord params = some (before, after)) :
    DividesKeyword params ↔ ∃ c ∈ before, isDivider c = true := by
  refine ⟨fun hdivides => hdivides.2 before after (append_of_cut? h),
    fun ⟨c, hc, hdivider⟩ => ⟨⟨before, after, (append_of_cut? h).symm⟩, fun us vs heq => ?_⟩⟩
  exact ⟨c, (prefix_of_cut? h heq).subset hc, hdivider⟩

namespace Signature

variable (s : Signature) (params : List Char)

/-- The signature without the type of its result. -/
def bare : List Char :=
  s.name ++ ['('] ++ params ++ [')']

def text : List Char :=
  s.result ++ [' '] ++ s.bare params

theorem isDivider_name : ∀ c ∈ s.name, isDivider c = false :=
  fun c hc => not_isDivider_of_name (s.name_chars c hc)

theorem paren_not_mem_name : '(' ∉ s.name := fun hmem => by
  rcases s.name_chars '(' hmem with h | h <;> exact absurd h (by decide)

theorem isBlank_head_bare (c : Char) (hc : (s.bare params).head? = some c) :
    isBlank c = false := by
  cases hname : s.name with
  | nil =>
      obtain rfl : '(' = c := by simpa [bare, hname] using hc
      decide
  | cons d ds =>
      obtain rfl : d = c := by simpa [bare, hname] using hc
      have hdivider := s.isDivider_name d (by rw [hname]; exact List.mem_cons_self)
      simp only [isDivider, Bool.or_eq_false_iff] at hdivider
      exact hdivider.1.1

/-- What the text is cut into. -/
theorem cutHead_text : ∃ front, IsFront s.result front ∧
    cutHead (bareArgument (s.text params)) =
      match cut? Query.operatorWord params with
      | none => (front ++ s.name, '(' :: (params ++ [')']))
      | some (before, after) =>
          (front ++ (s.name ++ '(' :: before), Query.operatorWord ++ (after ++ [')'])) := by
  have hblank : ' ' ∉ Query.operatorWord := by decide
  obtain ⟨front, hfront, htrim⟩ := exists_isFront s.result (s.isBlank_head_bare params)
  refine ⟨front, hfront, ?_⟩
  have hbare : bareArgument (s.text params) = front ++ s.name ++ '(' :: (params ++ [')']) := by
    have htext : trimStart (s.text params) = front ++ s.name ++ '(' :: params ++ [')'] := by
      simpa [text, bare] using htrim
    rw [bareArgument_of_paren htext, List.append_assoc, List.cons_append]
  have hparen : '(' ∉ front ++ s.name := by
    cases hfront with
    | blank => exact s.paren_not_mem_name
    | type hus =>
        simp only [List.mem_append, not_or]
        exact ⟨⟨fun h => s.result_paren (hus.subset h), by decide⟩, s.paren_not_mem_name⟩
  have hkeyword : ¬ Query.operatorWord <:+: front ++ s.name := by
    cases hfront with
    | blank => exact s.name_keyword
    | type hus =>
        rw [List.append_assoc, List.singleton_append]
        exact not_infix_append_cons (fun h => s.result_keyword (h.trans hus.isInfix)) hblank
          s.name_keyword
  rw [hbare, cutHead_signature hparen hkeyword]
  cases cut? Query.operatorWord params <;> simp

/-- **A signature loses the type of its result, and nothing else, unless its parameters have
the keyword of operator functions in them behind a divider.** -/
theorem declarationName_eq_iff :
    declarationName (s.text params) = .ok (s.bare params) ↔ ¬ DividesKeyword params := by
  obtain ⟨front, hfront, hcut⟩ := s.cutHead_text params
  cases hfirst : cut? Query.operatorWord params with
  | none =>
      rw [hfirst] at hcut
      have hnone : ¬ DividesKeyword params := fun h => cut?_eq_none_iff.mp hfirst h.1
      refine iff_of_true ?_ hnone
      rw [hfront.declarationName_eq hcut s.isDivider_name]
      simp [bare]
  | some p =>
      obtain ⟨before, after⟩ := p
      rw [hfirst] at hcut
      have hparams : params = before ++ Query.operatorWord ++ after := append_of_cut? hfirst
      rw [dividesKeyword_of_cut? hfirst]
      by_cases hbefore : ∃ c ∈ before, isDivider c = true
      · -- The name starts in the parameters, so it is too short.
        refine iff_of_false ?_ (not_not.mpr hbefore)
        obtain ⟨us, c, vs, rfl, hc, hvs⟩ := exists_last hbefore
        have hhead : front ++ (s.name ++ '(' :: (us ++ c :: vs)) =
            (front ++ s.name ++ '(' :: us) ++ c :: vs := by simp
        dsimp only at hcut
        rw [hhead] at hcut
        rw [declarationName_of_divider hcut hc hvs]
        split
        · intro h
          have hlength := congrArg List.length (Except.ok.inj h)
          simp only [bare, hparams, List.length_append, List.length_cons] at hlength
          omega
        · simp
      · refine iff_of_true ?_ hbefore
        have hmiddle : ∀ c ∈ s.name ++ '(' :: before, isDivider c = false := by
          have hall : ∀ c ∈ before, isDivider c = false := by simpa using hbefore
          simpa [or_imp, forall_and] using ⟨s.isDivider_name, by decide, hall⟩
        rw [hfront.declarationName_eq hcut hmiddle]
        simp [bare, hparams]

end Signature

/-- A function that takes values whose type is named after operators. -/
def applySignature : Signature where
  result := "std::vector<int> const &".toList
  name := "ns::apply".toList
  result_paren := by decide +kernel
  result_keyword := cut?_eq_none_iff.mp (by decide +kernel)
  name_chars := by
    have hall : "ns::apply".toList.all (fun c => Query.isNameChar c || c == ':') = true := by
      decide +kernel
    simpa using hall
  name_keyword := cut?_eq_none_iff.mp (by decide +kernel)

/-- Nothing is lost with the keyword at the start of the parameters. -/
theorem declarationName_applySignature :
    declarationName (applySignature.text "operator_type, int".toList) =
      .ok (applySignature.bare "operator_type, int".toList) :=
  (applySignature.declarationName_eq_iff _).mpr fun h => by
    obtain ⟨c, hc, -⟩ := h.2 [] "_type, int".toList (by decide +kernel)
    cases hc

/-- With `const` in front of it, the name of the function is lost as well. -/
theorem declarationName_applySignature_const :
    declarationName (applySignature.text "const operator_type &op".toList) =
      .ok "operator_type &op)".toList := by
  decide +kernel

end Deferred

end DocForest
