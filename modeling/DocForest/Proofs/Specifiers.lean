/-
The specifiers of a function are read off what is around its parameters.

The scan passes over the template headers, finds the name, passes over the parameter list and
reads on until the body starts.  Each time it passes over a bracket it goes to the token that
closes it (`Closes`), so that what is inside is never looked at; and where the body starts it
stops.  So the specifiers are those of the tokens before the name and of the tokens between the
parameter list and the body, and nothing in the parameters or in the body is among them.
-/
import DocForest.Proofs.Brackets
import DocForest.Proofs.References

namespace DocForest.Source

open Query (isNameChar)

/-! ### Behind the parameter list -/

/-- Whether a token ends the head of a function. -/
def endsHead (t : String) : Bool :=
  t == "\x7b" || t == ";" || t == ":"

/-- Each parenthesis in some tokens ends inside of them. -/
def ParensClose (ts : List String) : Prop :=
  ∀ us vs, ts = us ++ "(" :: vs → ∃ ws rest, vs = ws ++ rest ∧ Closes "(" ")" 1 ws

theorem ParensClose.of_append (us : List String) {vs : List String}
    (h : ParensClose (us ++ vs)) : ParensClose vs := by
  intro xs ys heq
  exact h (us ++ xs) ys (by rw [heq, List.append_assoc])

theorem Balanced.parensClose {ts : List String} (h : Balanced "(" ")" ts) : ParensClose ts := by
  intro us vs heq
  subst heq
  exact h.exists_closes (by decide)

/-- A step of the reading looks at the token behind the one it is at, and passes over the
parenthesis that may start there. -/
theorem trail_cons_congr {us vs : List String} (hhead : us.head? = vs.head?)
    (htail : ∀ (s : Specifiers) inResult, s.trail inResult us = s.trail inResult vs)
    (hparen : us.head? = some "(" →
      us.take (parenLength us) = vs.take (parenLength vs) ∧
        ∀ (s : Specifiers) inResult, s.trail inResult (us.drop (parenLength us)) =
          s.trail inResult (vs.drop (parenLength vs)))
    (t : String) (s : Specifiers) (inResult : Bool) :
    s.trail inResult (t :: us) = s.trail inResult (t :: vs) := by
  rw [Specifiers.trail, Specifiers.trail, ← hhead]
  simp only [htail]
  by_cases h : us.head? = some "("
  · obtain ⟨htake, hdrop⟩ := hparen h
    simp only [htake, hdrop]
  · simp only [h, and_false, if_false]

/-- **The reading stops where the head ends.** -/
theorem trail_append {t : String} (ht : endsHead t = true) (body : List String)
    {ts : List String} (h : ParensClose ts) (s : Specifiers) (inResult : Bool) :
    s.trail inResult (ts ++ t :: body) = s.trail inResult (ts ++ [t]) := by
  have hend : t = "\x7b" ∨ t = ";" ∨ t = ":" := by simpa [endsHead, or_assoc] using ht
  induction hn : ts.length using Nat.strongRecOn generalizing ts s inResult with
  | _ n ih =>
      cases ts with
      | nil =>
          rw [List.nil_append, List.nil_append, Specifiers.trail, Specifiers.trail, if_pos hend,
            if_pos hend]
      | cons u us =>
          have hus : ParensClose us := ParensClose.of_append [u] h
          rw [List.length_cons] at hn
          rw [List.cons_append, List.cons_append]
          have hih := fun s r => ih us.length (by omega) hus s r rfl
          refine trail_cons_congr ?_ hih ?_ u s inResult
          · cases us <;> rfl
          · intro hparen
            cases us with
            | nil =>
                obtain rfl : t = "(" := by simpa using hparen
                exact absurd ht (by decide)
            | cons v vs =>
                obtain rfl : v = "(" := by simpa using hparen
                obtain ⟨ws, rest, rfl, hws⟩ := hus [] vs rfl
                have hrest : ParensClose rest :=
                  ParensClose.of_append ("(" :: ws) (by simpa using hus)
                simp only [List.length_cons, List.length_append] at hn
                rw [List.cons_append, List.cons_append, List.append_assoc, List.append_assoc,
                  hws.parenLength_eq, hws.parenLength_eq]
                simp only [List.take_succ_cons, List.take_left', List.drop_succ_cons,
                  List.drop_left', true_and]
                exact fun s r => ih rest.length (by omega) hrest s r rfl

/-! ### The name -/

theorem unqualified_of_nameChars {n : String} (hn : ∀ c ∈ n.toList, isNameChar c = true) :
    unqualified n = n.toList := by
  have hcolon : ':' ∉ n.toList.reverse := by
    intro hmem
    have hc := hn ':' (List.mem_reverse.mp hmem)
    exact absurd hc (by decide)
  have hcut : Text.cut? [':', ':'] n.toList.reverse = none :=
    Text.cut?_eq_none_iff.mpr fun h => hcolon (h.subset List.mem_cons_self)
  rw [unqualified, Text.cutOrAll, hcut, Option.getD_none, List.reverse_reverse, Text.eraseBlanks,
    List.filter_eq_self]
  intro c hc
  simp [Query.not_isBlank_of_isNameChar (hn c hc)]

theorem spelledBy?_self (n : String) (ts : List String) :
    spelledBy? n.toList (n :: ts) = some 1 := by
  rw [spelledBy?, Text.dropStart?_eq_some.mpr (List.append_nil n.toList).symm]

theorem spelledBy?_eq_none {text : List Char} {t : String} (h : ¬ t.toList <+: text)
    (ts : List String) : spelledBy? text (t :: ts) = none := by
  rw [spelledBy?, Text.dropStart?_eq_none.mpr h]

/-- No place starts at a token that the name does not start with. -/
theorem placeWhere?_append {accept : Option String → Bool} {text : List Char} {us : List String}
    (h : ∀ t ∈ us, ¬ t.toList <+: text) (ts : List String) :
    placeWhere? accept text (us ++ ts) =
      (placeWhere? accept text ts).map fun p => { p with before := p.before + us.length } := by
  induction us with
  | nil => simp
  | cons t us ih =>
      obtain ⟨ht, hus⟩ := List.forall_mem_cons.mp h
      rw [List.cons_append, placeWhere?, spelledBy?_eq_none ht, ih hus]
      simp [Function.comp_def, Nat.add_assoc]

/-- A name that its parameters follow is found where it stands. -/
theorem namePlace?_append {n : String} (hn : ∀ c ∈ n.toList, isNameChar c = true)
    (hne : n.toList ≠ []) {us : List String} (h : ∀ t ∈ us, ¬ t.toList <+: n.toList)
    (ts : List String) : namePlace? n (us ++ n :: "(" :: ts) = some ⟨us.length, 1⟩ := by
  have hplace : placeWhere? startsArguments n.toList (n :: "(" :: ts) = some ⟨0, 1⟩ := by
    rw [placeWhere?, spelledBy?_self]
    rfl
  rw [namePlace?, unqualified_of_nameChars hn, if_neg (by simpa using hne), placeWhere?_append h,
    hplace]
  simp

theorem dropArguments_paren (ts : List String) : dropArguments ("(" :: ts) = "(" :: ts := by
  simp [dropArguments]

/-! ### Template headers -/

/-- Each template header at the start of some tokens is closed inside of them. -/
inductive HeadersClosed : List String → Prop
  | none {ts : List String} (h : ¬ ["template", "<"] <+: ts) : HeadersClosed ts
  | header {us ts : List String} (hus : Closes "<" ">" 1 us) (hts : HeadersClosed ts) :
      HeadersClosed ("template" :: "<" :: (us ++ ts))

theorem dropTemplateHeaders_eq_self {ts : List String}
    (h : ¬ ["template", "<"] <+: ts) : dropTemplateHeaders ts = ts := by
  rw [dropTemplateHeaders]
  rintro rest rfl
  exact h (by simp)

theorem dropTemplateHeaders_header {us : List String} (hus : Closes "<" ">" 1 us)
    (ts : List String) :
    dropTemplateHeaders ("template" :: "<" :: (us ++ ts)) = dropTemplateHeaders ts := by
  rw [dropTemplateHeaders, hus.angleLength_eq, Nat.add_sub_cancel, List.drop_left' rfl]

/-- Headers that are closed leave what follows them alone. -/
theorem HeadersClosed.dropTemplateHeaders_append {ts : List String} (h : HeadersClosed ts)
    {n next : String} (hn : n ≠ "<") (hnext : next ≠ "<") (rest : List String) :
    dropTemplateHeaders (ts ++ n :: next :: rest) =
      dropTemplateHeaders ts ++ n :: next :: rest := by
  induction h with
  | @none ts h =>
      rw [dropTemplateHeaders_eq_self h, dropTemplateHeaders_eq_self]
      intro hprefix
      match ts with
      | [] =>
          have hangle := (List.cons_prefix_cons.mp hprefix).2
          exact hnext (List.cons_prefix_cons.mp hangle).1.symm
      | [t] =>
          have hangle := (List.cons_prefix_cons.mp hprefix).2
          exact hn (List.cons_prefix_cons.mp hangle).1.symm
      | t :: u :: ts => exact h (by simpa using hprefix)
  | @header us ts hus _ ih =>
      rw [List.cons_append, List.cons_append, List.append_assoc, dropTemplateHeaders_header hus,
        dropTemplateHeaders_header hus, ih]

theorem dropTemplateHeaders_suffix (ts : List String) : dropTemplateHeaders ts <:+ ts := by
  fun_induction dropTemplateHeaders ts with
  | case1 ts ih =>
      exact (ih.trans (List.drop_suffix _ _)).trans ⟨["template", "<"], rfl⟩
  | case2 ts h => exact List.suffix_refl ts

/-! ### The whole declaration -/

/-- The head of a function without its parameters. -/
structure FunctionHead where
  /-- What stands before the name. -/
  front : List String
  name : String
  /-- What stands behind the parameters. -/
  back : List String
  /-- The token that ends the head. -/
  stop : String
  name_chars : ∀ c ∈ name.toList, isNameChar c = true
  /-- The name does not start in front of itself. -/
  front_apart : ∀ t ∈ front, ¬ t.toList <+: name.toList
  headers : HeadersClosed front
  back_balanced : Balanced "(" ")" back
  stop_ends : endsHead stop = true

namespace FunctionHead

variable (h : FunctionHead)

/-- The tokens of a function with the parameters and the body that are given. -/
def tokens (params body : List String) : List String :=
  h.front ++ [h.name, "("] ++ params ++ [")"] ++ h.back ++ [h.stop] ++ body

/-- The specifiers that the head itself has. -/
def specifiers : Specifiers :=
  if h.name.toList = [] then {}
  else ((dropTemplateHeaders h.front).foldl Specifiers.lead {}).trail false (h.back ++ [h.stop])

/-- **The specifiers of a function are those of its head.** -/
theorem functionSpecifiers_tokens {params : List String} (hparams : Balanced "(" ")" params)
    (body : List String) : functionSpecifiers (h.tokens params body) h.name = h.specifiers := by
  have hangle : h.name ≠ "<" := by
    intro heq
    have hc := h.name_chars '<' (by rw [heq]; simp)
    exact absurd hc (by decide)
  have htokens : h.tokens params body =
      h.front ++ h.name :: "(" :: (params ++ [")"] ++ (h.back ++ h.stop :: body)) := by
    simp [tokens]
  have hfront : ∀ t ∈ dropTemplateHeaders h.front, ¬ t.toList <+: h.name.toList :=
    fun t ht => h.front_apart t ((dropTemplateHeaders_suffix h.front).subset ht)
  have hcloses := hparams.closes (t := ")") (by decide) (by decide)
  rw [functionSpecifiers, htokens, h.headers.dropTemplateHeaders_append hangle (by decide)]
  by_cases hempty : h.name.toList = []
  · have hnone : ∀ ts, namePlace? h.name ts = none := by
      intro ts
      rw [namePlace?, unqualified_of_nameChars h.name_chars, if_pos (by simp [hempty])]
    rw [hnone, specifiers, if_pos hempty]
  · rw [namePlace?_append h.name_chars hempty hfront, specifiers, if_neg hempty]
    dsimp only
    rw [List.take_left' rfl, List.append_cons, List.drop_left' (by simp), dropArguments_paren,
      if_pos (by rfl), hcloses.parenLength_eq, List.drop_succ_cons, List.drop_left' rfl,
      trail_append h.stop_ends _ h.back_balanced.parensClose]

/-- **Nothing in the parameters or in the body of a function becomes one of its specifiers**: with
other parameters and another body the specifiers are the same. -/
theorem functionSpecifiers_eq {params params' : List String} (hparams : Balanced "(" ")" params)
    (hparams' : Balanced "(" ")" params') (body body' : List String) :
    functionSpecifiers (h.tokens params body) h.name =
      functionSpecifiers (h.tokens params' body') h.name := by
  rw [h.functionSpecifiers_tokens hparams, h.functionSpecifiers_tokens hparams']

/-- A method behind a template header in which one token closes two brackets. -/
def sizeHead : FunctionHead where
  front := ["template", "<", "class", "T", "=", "less", "<", "int", ">>", "virtual", "int"]
  name := "size"
  back := ["const", "noexcept", "(", "sizeof", "(", "T", ")", "<", "8", ")"]
  stop := "\x7b"
  name_chars := List.all_eq_true.mp (by decide +kernel)
  front_apart := by decide
  headers :=
    have hheader : Closes "<" ">" 1 ["class", "T", "=", "less", "<", "int", ">>"] := by decide
    .header hheader (.none (by decide))
  back_balanced := by decide
  stop_ends := by decide

/-- A parameter with specifiers in its type and in its default value. -/
def defaultedParameter : List String :=
  ["T", "&&", "x", "=", "f", "(", "override", ")", "=", "delete"]

theorem sizeHead_functionSpecifiers :
    Balanced "(" ")" defaultedParameter ∧ Balanced "(" ")" [] ∧
      functionSpecifiers (sizeHead.tokens defaultedParameter ["final", "=", "0", ";"]) "size" =
        functionSpecifiers (sizeHead.tokens [] []) "size" ∧
      functionSpecifiers (sizeHead.tokens [] []) "size" =
        { isVirtual := true, isConst := true, isNoexcept := true } := by
  have hparams : Balanced "(" ")" defaultedParameter := by decide
  have hempty : Balanced "(" ")" [] := by decide
  exact ⟨hparams, hempty, sizeHead.functionSpecifiers_eq hparams hempty _ _, by decide +kernel⟩

end FunctionHead

end DocForest.Source
