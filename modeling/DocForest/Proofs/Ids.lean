/-
How far the id of a function tells its signature.

The id of a function is a row of words with a dash before each: a `T` for a template, two
words for every parameter, a `C` for a method that leaves its object alone, and an `L` or
an `R` for a reference qualifier.  No word says which of these it is.  As long as the names
of types have no dash in them the words can be read off the id again (`eq_of_dashed_eq`),
but not what they stand for: a type may itself be called `T` or `C`.

Reading two rows of words side by side shows how much this matters.  Either both rows are
read in step, and then they can only part at the very end, where `C` and `L` are the two
qualifiers in one reading and a parameter `C &` in the other.  Or one of them starts with
the `T` of a template which the other takes for the type of its first parameter.
-/
import DocForest.Identity.Id

namespace DocForest

/-! ### Words and dashes -/

/-- A row of words with a dash before each. -/
def dashed (words : List (List Char)) : List Char :=
  words.flatMap ('-' :: ·)

@[simp] theorem dashed_nil : dashed [] = [] := rfl

@[simp] theorem dashed_cons (word : List Char) (words : List (List Char)) :
    dashed (word :: words) = '-' :: (word ++ dashed words) := rfl

@[simp] theorem dashed_append (words words' : List (List Char)) :
    dashed (words ++ words') = dashed words ++ dashed words' := by
  simp [dashed]

/-- The first word ends where the next dash stands. -/
theorem takeWhile_word {word : List Char} (hword : '-' ∉ word) (words : List (List Char)) :
    (word ++ dashed words).takeWhile (· != '-') = word := by
  have hall : ∀ c ∈ word, (c != '-') = true := by
    intro c hc
    simp only [bne_iff_ne]
    intro hdash
    exact hword (hdash ▸ hc)
  rw [List.takeWhile_append_of_pos hall]
  cases words with
  | nil => simp
  | cons next rest => simp

/-- **Words without dashes can be read off their row again.** -/
theorem eq_of_dashed_eq {words words' : List (List Char)} (hplain : ∀ word ∈ words, '-' ∉ word)
    (hplain' : ∀ word ∈ words', '-' ∉ word) (h : dashed words = dashed words') :
    words = words' := by
  induction words generalizing words' with
  | nil =>
      cases words' with
      | nil => rfl
      | cons word' rest' => simp at h
  | cons word rest ih =>
      cases words' with
      | nil => simp at h
      | cons word' rest' =>
          simp only [dashed_cons, List.cons.injEq, true_and] at h
          have hword : word = word' := by
            rw [← takeWhile_word (hplain word (by simp)) rest, h,
              takeWhile_word (hplain' word' (by simp)) rest']
          subst hword
          have hrest : rest = rest' :=
            ih (fun w hw => hplain w (by simp [hw])) (fun w hw => hplain' w (by simp [hw]))
              (List.append_cancel_left h)
          rw [hrest]

/-! ### The words of a signature -/

/-- The two words of a parameter: the name of its type and the letters of its qualifiers. -/
def TypeUse.idWords (t : TypeUse) : List (List Char) :=
  [t.name.toList, t.qualifiers.map Qualifier.code]

/-- What an id can say of the type of a parameter. -/
def TypeUse.shape (t : TypeUse) : String × List Qualifier :=
  (t.name, t.qualifiers)

/-- Whether the type has a name, and one that goes into an id as it is. -/
def TypeUse.HasPlainName (t : TypeUse) : Prop :=
  t.name ≠ "" ∧ ' ' ∉ t.name.toList ∧ '-' ∉ t.name.toList

/-- The word of a reference qualifier. -/
def RefQualifier.letter : RefQualifier → Char
  | lvalue => 'L'
  | rvalue => 'R'

/-- The same reference on the type of a parameter. -/
def RefQualifier.onType : RefQualifier → Qualifier
  | lvalue => .lvalueRef
  | rvalue => .rvalueRef

namespace Signature

/-- The words of the qualifiers behind the parameters. -/
def endWords (s : Signature) : List (List Char) :=
  (if s.isConst then [['C']] else []) ++ s.refQualifier.toList.map ([·.letter])

/-- The words of the parameters and of what follows them. -/
def callWords (s : Signature) : List (List Char) :=
  s.arguments.flatMap TypeUse.idWords ++ s.endWords

/-- All words that a function adds to its name. -/
def idWords (s : Signature) : List (List Char) :=
  if s.isTemplate then ['T'] :: s.callWords else s.callWords

/-- What tells functions of one name apart. -/
def shape (s : Signature) : Bool × List (String × List Qualifier) × Bool × Option RefQualifier :=
  (s.isTemplate, s.arguments.map TypeUse.shape, s.isConst, s.refQualifier)

/-- Whether all parameters have types with plain names. -/
def HasPlainNames (s : Signature) : Prop :=
  ∀ t ∈ s.arguments, t.HasPlainName

end Signature

theorem Text.replace_of_notMem {c : Char} {cs : List Char} (h : c ∉ cs) (new : List Char) :
    Text.replace [c] new cs = cs := by
  induction cs with
  | nil => rw [Text.replace]
  | cons d rest ih =>
      simp only [List.mem_cons, not_or] at h
      rw [Text.replace, if_neg (by simpa using h.1), ih h.2]

theorem TypeUse.idPart_eq_dashed {t : TypeUse} (h : t.HasPlainName) :
    t.idPart = dashed t.idWords := by
  rw [TypeUse.idPart, Text.replace_of_notMem h.2.1]
  simp [TypeUse.idWords]

namespace Signature

theorem flatMap_idPart {ts : List TypeUse} (h : ∀ t ∈ ts, t.HasPlainName) :
    ts.flatMap (·.idPart) = dashed (ts.flatMap TypeUse.idWords) := by
  induction ts with
  | nil => rfl
  | cons t rest ih =>
      rw [List.flatMap_cons, List.flatMap_cons, dashed_append,
        TypeUse.idPart_eq_dashed (h t (by simp)), ih fun u hu => h u (by simp [hu])]

theorem callPart_eq_dashed {s : Signature} (h : s.HasPlainNames) :
    s.callPart = dashed s.callWords := by
  have hends : (if s.isConst then ['-', 'C'] else []) ++
      (s.refQualifier.map RefQualifier.idPart).getD [] = dashed s.endWords := by
    unfold endWords
    cases s.isConst <;> cases s.refQualifier with
    | none => rfl
    | some q => cases q <;> rfl
  rw [callPart, callWords, dashed_append, ← hends, flatMap_idPart h, List.append_assoc]

/-- The id of a function is its qualified name and the row of its words. -/
theorem memberId_function {s : Signature} (h : s.HasPlainNames) (name parent : String) :
    memberId .function name parent s = String.ofList
      ((if parent.isEmpty then [] else parent.toList ++ ['-']) ++ name.toList ++
        dashed s.idWords) := by
  rw [memberId, if_pos rfl, callPart_eq_dashed h, idWords]
  by_cases hT : s.isTemplate = true
  · simp [hT]
  · simp [hT]

/-! ### No word has a dash in it -/

theorem dash_notMem_codes (qs : List Qualifier) : '-' ∉ qs.map Qualifier.code := by
  intro hmem
  obtain ⟨q, -, hq⟩ := List.mem_map.mp hmem
  cases q <;> simp [Qualifier.code] at hq

theorem codes_inj {qs qs' : List Qualifier} :
    qs.map Qualifier.code = qs'.map Qualifier.code ↔ qs = qs' := by
  refine List.map_inj_right fun q q' h => ?_
  cases q <;> cases q' <;> simp [Qualifier.code] at h ⊢

theorem dash_notMem_endWords (s : Signature) : ∀ word ∈ s.endWords, '-' ∉ word := by
  unfold endWords
  cases s.isConst <;> cases s.refQualifier with
  | none => simp
  | some q => cases q <;> simp [RefQualifier.letter]

theorem dash_notMem_callWords {s : Signature} (h : s.HasPlainNames) :
    ∀ word ∈ s.callWords, '-' ∉ word := by
  intro word hword
  rcases List.mem_append.mp hword with hword | hword
  · obtain ⟨t, ht, hword⟩ := List.mem_flatMap.mp hword
    rcases (by simpa [TypeUse.idWords] using hword :
      word = t.name.toList ∨ word = t.qualifiers.map Qualifier.code) with rfl | rfl
    · exact (h t ht).2.2
    · exact dash_notMem_codes _
  · exact dash_notMem_endWords s word hword

theorem dash_notMem_idWords {s : Signature} (h : s.HasPlainNames) :
    ∀ word ∈ s.idWords, '-' ∉ word := by
  intro word hword
  unfold idWords at hword
  split at hword
  · rcases List.mem_cons.mp hword with rfl | hword
    · simp
    · exact dash_notMem_callWords h word hword
  · exact dash_notMem_callWords h word hword

/-- Functions of one name and scope have the same id exactly when they have the same words. -/
theorem memberId_function_eq_iff {s s' : Signature} (h : s.HasPlainNames) (h' : s'.HasPlainNames)
    (name parent : String) :
    memberId .function name parent s = memberId .function name parent s' ↔
      s.idWords = s'.idWords := by
  constructor
  · intro heq
    rw [memberId_function h, memberId_function h', String.ofList_inj] at heq
    exact eq_of_dashed_eq (dash_notMem_idWords h) (dash_notMem_idWords h')
      (List.append_cancel_left heq)
  · intro heq
    rw [memberId_function h, memberId_function h', heq]

/-! ### Two readings of one row -/

/-- The two qualifiers of one function read as one more parameter of the other. -/
def EndsAsParameter (s s' : Signature) : Prop :=
  s.isTemplate = s'.isTemplate ∧ s.isConst = true ∧ s'.isConst = false ∧
    s'.refQualifier = none ∧ ∃ q, s.refQualifier = some q ∧
      s'.arguments.map TypeUse.shape = s.arguments.map TypeUse.shape ++ [("C", [q.onType])]

/-- The mark of one function, a template, reads as the type of the first parameter of the
other, which is none; the names of types then stand where the other has qualifiers. -/
def StartsAsParameter (s s' : Signature) : Prop :=
  s.isTemplate = true ∧ s'.isTemplate = false ∧
    (∃ t, s'.arguments.head? = some t ∧ t.name = "T") ∧
    ∀ t ∈ s.arguments, ∃ qs : List Qualifier, t.name.toList = qs.map Qualifier.code

theorem endWords_inj {s s' : Signature} (h : s.endWords = s'.endWords) :
    s.isConst = s'.isConst ∧ s.refQualifier = s'.refQualifier := by
  obtain ⟨_, _, isConst, ref⟩ := s
  obtain ⟨_, _, isConst', ref'⟩ := s'
  dsimp only [endWords] at h ⊢
  cases isConst <;> cases isConst' <;> rcases ref with _ | _ | _ <;> rcases ref' with _ | _ | _ <;>
    simp [RefQualifier.letter] at h ⊢

/-- Two words at the end are the two qualifiers. -/
theorem endWords_eq_pair {s : Signature} {word word' : List Char} {rest : List (List Char)}
    (h : s.endWords = word :: word' :: rest) :
    s.isConst = true ∧ word = ['C'] ∧ rest = [] ∧
      ∃ q, s.refQualifier = some q ∧ word' = [q.letter] := by
  obtain ⟨_, _, isConst, ref⟩ := s
  dsimp only [endWords] at h ⊢
  cases isConst <;> rcases ref with _ | q <;> simp at h ⊢
  obtain ⟨hword, hword', hrest⟩ := h
  exact ⟨hword.symm, hrest, hword'.symm⟩

theorem endWords_head_ne_template (s : Signature) (rest : List (List Char)) :
    s.endWords ≠ ['T'] :: rest := by
  obtain ⟨_, _, isConst, ref⟩ := s
  dsimp only [endWords]
  cases isConst <;> rcases ref with _ | _ | _ <;> simp [RefQualifier.letter]

theorem code_onType (q : RefQualifier) : q.onType.code = q.letter := by
  cases q <;> rfl

theorem idWords_inj {t t' : TypeUse} (h : t.idWords = t'.idWords) : t.shape = t'.shape := by
  simp only [TypeUse.idWords, List.cons.injEq, String.toList_inj, codes_inj, and_true] at h
  rw [TypeUse.shape, TypeUse.shape, h.1, h.2]

/-- Where one row is out of parameters, the other can have one more. -/
theorem shape_of_endWords_eq {s s' : Signature} {t : TypeUse} {rest : List TypeUse}
    (h : s.endWords = (t :: rest).flatMap TypeUse.idWords ++ s'.endWords) :
    s.isConst = true ∧ s'.isConst = false ∧ s'.refQualifier = none ∧
      ∃ q, s.refQualifier = some q ∧ (t :: rest).map TypeUse.shape = [("C", [q.onType])] := by
  obtain ⟨hconst, hname, hrest, q, href, hcodes⟩ := endWords_eq_pair h
  obtain ⟨hparams, hends⟩ := List.append_eq_nil_iff.mp hrest
  have hnone : rest = [] := by
    cases rest with
    | nil => rfl
    | cons u us => simp [TypeUse.idWords] at hparams
  have hqualifiers : t.qualifiers = [q.onType] := by
    rw [← codes_inj, hcodes, List.map_singleton, code_onType]
  have hblank : s'.endWords = ({} : Signature).endWords := hends
  obtain ⟨hconst', href'⟩ := endWords_inj hblank
  refine ⟨hconst, hconst', href', q, href, ?_⟩
  have hC : t.name = "C" := String.toList_inj.mp hname
  rw [hnone, List.map_singleton, TypeUse.shape, hC, hqualifiers]

/-- **Two rows read in step part only at the end.** -/
theorem shape_of_rows_eq {s s' : Signature} :
    ∀ {ts ts' : List TypeUse},
      ts.flatMap TypeUse.idWords ++ s.endWords = ts'.flatMap TypeUse.idWords ++ s'.endWords →
      (ts.map TypeUse.shape = ts'.map TypeUse.shape ∧ s.isConst = s'.isConst ∧
        s.refQualifier = s'.refQualifier) ∨
      (s.isConst = true ∧ s'.isConst = false ∧ s'.refQualifier = none ∧
        ∃ q, s.refQualifier = some q ∧
          ts'.map TypeUse.shape = ts.map TypeUse.shape ++ [("C", [q.onType])]) ∨
      (s'.isConst = true ∧ s.isConst = false ∧ s.refQualifier = none ∧
        ∃ q, s'.refQualifier = some q ∧
          ts.map TypeUse.shape = ts'.map TypeUse.shape ++ [("C", [q.onType])]) := by
  intro ts
  induction ts with
  | nil =>
      intro ts' h
      cases ts' with
      | nil => exact Or.inl ⟨rfl, endWords_inj h⟩
      | cons t' rest' => exact Or.inr (Or.inl (shape_of_endWords_eq h))
  | cons t rest ih =>
      intro ts' h
      cases ts' with
      | nil => exact Or.inr (Or.inr (shape_of_endWords_eq h.symm))
      | cons t' rest' =>
          rw [List.flatMap_cons, List.flatMap_cons, List.append_assoc, List.append_assoc] at h
          obtain ⟨hfirst, hrest⟩ := List.append_inj h rfl
          simp only [List.map_cons, idWords_inj hfirst, List.cons_append, List.cons.injEq,
            true_and]
          exact ih hrest

/-- A row read one word later takes names of types for qualifiers. -/
theorem codes_of_rows_shifted {s s' : Signature} :
    ∀ {ts ts' : List TypeUse} {word : List Char},
      word :: (ts.flatMap TypeUse.idWords ++ s.endWords) =
        ts'.flatMap TypeUse.idWords ++ s'.endWords →
      ∀ t ∈ ts, ∃ qs : List Qualifier, t.name.toList = qs.map Qualifier.code := by
  intro ts
  induction ts with
  | nil => simp
  | cons t rest ih =>
      intro ts' word h
      cases ts' with
      | nil =>
          obtain ⟨-, -, hnone, -⟩ := endWords_eq_pair h.symm
          simp at hnone
      | cons t' rest' =>
          simp only [List.flatMap_cons, TypeUse.idWords, List.cons_append, List.nil_append,
            List.cons.injEq] at h
          obtain ⟨-, hname, hrest⟩ := h
          intro u hu
          rcases List.mem_cons.mp hu with rfl | hu
          · exact ⟨t'.qualifiers, hname⟩
          · exact ih hrest u hu

theorem startsAsParameter_of_idWords_eq {s s' : Signature} (hT : s.isTemplate = true)
    (hT' : s'.isTemplate = false) (h : s.idWords = s'.idWords) : s.StartsAsParameter s' := by
  rw [idWords, idWords, if_pos hT, if_neg (by simp [hT']), callWords, callWords] at h
  refine ⟨hT, hT', ?_, codes_of_rows_shifted h⟩
  cases hts : s'.arguments with
  | nil =>
      rw [hts] at h
      exact absurd h.symm (endWords_head_ne_template s' _)
  | cons t rest =>
      rw [hts] at h
      have hname : ['T'] = t.name.toList := (List.cons.inj h).1
      exact ⟨t, rfl, String.toList_inj.mp hname.symm⟩

/--
**What the ids of functions tell apart.**

Two functions of one name in one scope that have the same id agree in everything that
distinguishes them, except where a word has two meanings: the qualifiers `C` and `L` of one
may read as one more parameter `C &` of the other, and the mark of a template may read as
a first parameter of the type `T`.
-/
theorem shape_of_memberId_eq {s s' : Signature} (h : s.HasPlainNames) (h' : s'.HasPlainNames)
    (name parent : String)
    (heq : memberId .function name parent s = memberId .function name parent s') :
    s.shape = s'.shape ∨ s.EndsAsParameter s' ∨ s'.EndsAsParameter s ∨
      s.StartsAsParameter s' ∨ s'.StartsAsParameter s := by
  have hwords := (memberId_function_eq_iff h h' name parent).mp heq
  cases hT : s.isTemplate <;> cases hT' : s'.isTemplate
  case false.true =>
    exact Or.inr (Or.inr (Or.inr (Or.inr (startsAsParameter_of_idWords_eq hT' hT hwords.symm))))
  case true.false =>
    exact Or.inr (Or.inr (Or.inr (Or.inl (startsAsParameter_of_idWords_eq hT hT' hwords))))
  all_goals
    have htemplate : s.isTemplate = s'.isTemplate := by rw [hT, hT']
    have hcalls : s.callWords = s'.callWords := by simpa [idWords, hT, hT'] using hwords
    rcases shape_of_rows_eq hcalls with ⟨hts, hconst, href⟩ | hmore | hmore
    · exact Or.inl (by rw [shape, shape, htemplate, hts, hconst, href])
    · exact Or.inr (Or.inl ⟨htemplate, hmore⟩)
    · exact Or.inr (Or.inr (Or.inl ⟨htemplate.symm, hmore⟩))

/-- `f(int) const &` and `f(int, C &)` have one id; only the first exception fits them. -/
theorem shape_of_qualified_eq :
    let qualified : Signature :=
      { arguments := [{ name := "int" }], isConst := true, refQualifier := some .lvalue }
    let taking : Signature :=
      { arguments := [{ name := "int" }, { name := "C", qualifiers := [.lvalueRef] }] }
    qualified.HasPlainNames ∧ taking.HasPlainNames ∧
      memberId .function "f" "S" qualified = memberId .function "f" "S" taking ∧
      (qualified.shape = taking.shape ∨ qualified.EndsAsParameter taking ∨
        taking.EndsAsParameter qualified ∨ qualified.StartsAsParameter taking ∨
        taking.StartsAsParameter qualified) := by
  intro qualified taking
  have h : qualified.HasPlainNames := by
    simp [qualified, HasPlainNames, TypeUse.HasPlainName]
  have h' : taking.HasPlainNames := by
    simp [taking, HasPlainNames, TypeUse.HasPlainName]
  have heq : memberId .function "f" "S" qualified = memberId .function "f" "S" taking :=
    (memberId_function_eq_iff h h' "f" "S").mpr (by decide)
  exact ⟨h, h', heq, shape_of_memberId_eq h h' "f" "S" heq⟩

/-- A template `f() const` and a function `f(const T)` have one id and different
signatures. -/
theorem memberId_template_ambiguous :
    let template : Signature := { isTemplate := true, isConst := true }
    let taking : Signature := { arguments := [{ name := "T", qualifiers := [.const] }] }
    template.HasPlainNames ∧ taking.HasPlainNames ∧
      memberId .function "f" "S" template = memberId .function "f" "S" taking ∧
      template.shape ≠ taking.shape := by
  intro template taking
  have h : template.HasPlainNames := by simp [template, HasPlainNames]
  have h' : taking.HasPlainNames := by
    simp [taking, HasPlainNames, TypeUse.HasPlainName]
  exact ⟨h, h', (memberId_function_eq_iff h h' "f" "S").mpr (by decide), by decide⟩

end Signature

end DocForest
