/-
The class key of a template stands behind its template headers.

Two scanners look for the end of a header, each with a count of its own: one to pass over all
headers, one to read the class key.  Both counts go the same way, so that behind the first open
bracket both scanners stop at the same token, whatever the tokens are (`keyAfterAngles_eq`).
There the second one reads the key, and does so at the end of the first header.  A member
template that is defined outside of its class has a header for each of the two; behind the first
there is no key then, and it is taken for a `class`.
-/
import DocForest.Proofs.Specifiers
import DocForest.Source.Classification

namespace DocForest.Source

/-! ### The two counts -/

theorem angleDepth_of_ne {t : String} (ht : t ≠ "<") (depth : Nat) :
    angleDepth depth t = depth - closing ">" t := by
  rw [angleDepth, if_neg ht, closing]
  by_cases hone : t = ">"
  · rw [if_pos hone, if_pos hone]
  · rw [if_neg hone, if_neg hone]
    by_cases htwo : t = ">>" <;> simp [htwo]

/-- **The key is read where the bracket ends**, also in tokens that never close it. -/
theorem keyAfterAngles_eq {depth : Nat} (hdepth : 0 < depth) (ts : List String) :
    keyAfterAngles depth true ts = classKeyOf (ts.drop (bracketLength "<" ">" depth ts)).head? := by
  induction ts generalizing depth with
  | nil => rfl
  | cons t ts ih =>
      rw [keyAfterAngles, bracketLength, Bool.true_or, Bool.true_and]
      by_cases hopen : t = "<"
      · subst hopen
        have hnext : angleDepth depth "<" = depth + 1 := rfl
        rw [hnext, if_neg (by simp), if_pos rfl, ih (by omega), List.drop_succ_cons]
      · rw [angleDepth_of_ne hopen, if_neg hopen]
        -- The one count is then zero, and the other is at the last bracket.
        by_cases hlast : 0 < closing ">" t ∧ depth ≤ closing ">" t
        · have hnext : depth - closing ">" t = 0 := by omega
          rw [hnext, if_pos (by rfl), if_pos hlast, List.drop_succ_cons, List.drop_zero]
        · have hnext : 0 < depth - closing ">" t := by omega
          rw [if_neg (by simpa using Nat.ne_of_gt hnext), if_neg hlast, ih hnext,
            List.drop_succ_cons]

theorem templateClassKey_header {us : List String} (hus : Closes "<" ">" 1 us)
    (ts : List String) :
    templateClassKey ("template" :: "<" :: (us ++ ts)) = classKeyOf ts.head? := by
  have hstart : templateClassKey ("template" :: "<" :: (us ++ ts)) =
      keyAfterAngles 1 true (us ++ ts) := rfl
  rw [hstart, keyAfterAngles_eq Nat.one_pos, hus.bracketLength_append (by decide) Nat.one_pos,
    List.drop_left' rfl]

/-! ### Template headers -/

/-- A template header.  A `>>` that ends it may be the end of a bracket among its parameters as
well. -/
structure TemplateHeader where
  params : List String
  stop : String
  closed : stop = ">" ∧ Balanced "<" ">" params ∨
    stop = ">>" ∧ (Balanced "<" ">" params ∨ Balanced "<" ">" (params ++ [">"]))

namespace TemplateHeader

/-- The tokens of a header. -/
def tokens (h : TemplateHeader) : List String :=
  "template" :: "<" :: (h.params ++ [h.stop])

/-- A `>>` closes what two `>` close. -/
theorem closes_of_balanced_concat {us : List String} (h : Balanced "<" ">" (us ++ [">"])) :
    Closes "<" ">" 1 (us ++ [">>"]) := by
  have hclosed := h.closed
  have hone : closing ">" ">" = 1 := rfl
  have htwo : closing ">" ">>" = 2 := rfl
  have hcount : ∀ t, t ≠ "<" → (us ++ [t]).count "<" = us.count "<" := by
    intro t ht
    rw [List.count_append, List.count_cons_of_ne ht, List.count_nil, Nat.add_zero]
  rw [closings_append, closings_cons, closings_nil, hone, hcount ">" (by decide)] at hclosed
  refine ⟨?_, fun vs hvs hne => ?_⟩
  · rw [closings_append, closings_cons, closings_nil, htwo, hcount ">>" (by decide)]
    omega
  · have hwithin : vs <+: us := (List.prefix_concat_iff.mp hvs).resolve_left hne
    have hopened := h.opened vs (hwithin.trans (List.prefix_append us _))
    omega

theorem closes (h : TemplateHeader) : Closes "<" ">" 1 (h.params ++ [h.stop]) := by
  obtain ⟨hstop, hparams⟩ | ⟨hstop, hparams | hparams⟩ := h.closed
  · rw [hstop]
    exact hparams.closes (by decide) (by decide)
  · rw [hstop]
    exact hparams.closes (by decide) (by decide)
  · rw [hstop]
    exact closes_of_balanced_concat hparams

theorem dropTemplateHeaders_append (h : TemplateHeader) (ts : List String) :
    dropTemplateHeaders (h.tokens ++ ts) = dropTemplateHeaders ts :=
  dropTemplateHeaders_header h.closes ts

theorem templateClassKey_append (h : TemplateHeader) (ts : List String) :
    templateClassKey (h.tokens ++ ts) = classKeyOf ts.head? :=
  templateClassKey_header h.closes ts

/-- All headers are passed over. -/
theorem dropTemplateHeaders_flatMap (hs : List TemplateHeader) (ts : List String) :
    dropTemplateHeaders (hs.flatMap tokens ++ ts) = dropTemplateHeaders ts := by
  induction hs with
  | nil => rfl
  | cons h hs ih =>
      rw [List.flatMap_cons, List.append_assoc, dropTemplateHeaders_append, ih]

end TemplateHeader

/-! ### The class key -/

theorem classKeyOf_text (key : ClassKey) : classKeyOf (some (Kind.record key).text) = key := by
  cases key <;> rfl

/-- The tokens of a class template: its headers, its class key, and whatever follows. -/
def classTokens (headers : List TemplateHeader) (key : ClassKey) (rest : List String) :
    List String :=
  headers.flatMap TemplateHeader.tokens ++ (Kind.record key).text :: rest

theorem dropTemplateHeaders_classTokens (headers : List TemplateHeader) (key : ClassKey)
    (rest : List String) :
    dropTemplateHeaders (classTokens headers key rest) = (Kind.record key).text :: rest := by
  rw [classTokens, TemplateHeader.dropTemplateHeaders_flatMap]
  refine dropTemplateHeaders_eq_self fun hheader => ?_
  have hkey := (List.cons_prefix_cons.mp hheader).1
  cases key <;> exact absurd hkey (by decide)

/-- Behind the first of several headers stands the next one, which is no key. -/
theorem templateClassKey_classTokens (first : TemplateHeader) (others : List TemplateHeader)
    (key : ClassKey) (rest : List String) :
    templateClassKey (classTokens (first :: others) key rest) =
      if others = [] then key else .cls := by
  rw [classTokens, List.flatMap_cons, List.append_assoc, first.templateClassKey_append]
  cases others with
  | nil => exact classKeyOf_text key
  | cons second others => rfl

/-- **The two scanners come to the same class key** exactly if there is one header or the key is
`class`: the headers are always passed over up to the key, and the key that is read is the one
behind the first of them. -/
theorem classify_key_iff (first : TemplateHeader) (others : List TemplateHeader) (key : ClassKey)
    (rest : List String) (name : String) (parent : Option (Kind × String)) :
    dropTemplateHeaders (classTokens (first :: others) key rest) =
        (Kind.record key).text :: rest ∧
      ((classify .classTemplate name (classTokens (first :: others) key rest) parent).map
          (·.kind) = some (.record key) ↔ others = [] ∨ key = .cls) := by
  refine ⟨dropTemplateHeaders_classTokens (first :: others) key rest, ?_⟩
  rw [classify, templateClassKey_classTokens, Option.map_some, Option.some.injEq,
    Kind.record.injEq]
  by_cases hone : others = []
  · simp [hone]
  · simp [hone, eq_comm]

/-- A header that ends with a bracket among its parameters. -/
def outerHeader : TemplateHeader where
  params := ["class", "T", ",", "class", "A", "=", "Allocator", "<", "T"]
  stop := ">>"
  closed := .inr ⟨rfl, .inr (by decide)⟩

def innerHeader : TemplateHeader where
  params := ["class", "U"]
  stop := ">"
  closed := .inl ⟨rfl, by decide⟩

/-- What follows the class key of a member that is defined outside of its class. -/
def memberName : List String :=
  ["Outer", "<", "T", ",", "A", ">", "::", "Inner", ";"]

/-- A member `struct` with a header for each of the two is taken for a `class`. -/
theorem memberStruct_classify :
    dropTemplateHeaders (classTokens [outerHeader, innerHeader] .struct memberName) =
        "struct" :: memberName ∧
      (classify .classTemplate "Inner" (classTokens [outerHeader, innerHeader] .struct memberName)
        none).map (·.kind) = some (.record .cls) := by
  decide +kernel

end DocForest.Source
