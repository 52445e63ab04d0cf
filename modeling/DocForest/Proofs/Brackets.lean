/-
Where a bracket ends.

The scanners count how many brackets are open and stop at the token that closes the last of
them.  Which token this is can be said without them: up to it more is closed than opened, and
before it never (`Closes`).  Every bracket in balanced tokens ends inside of these, and so does a
bracket around them (`Balanced`), so that a scan of either kind never looks at what comes behind.
-/
import DocForest.Source.Declarator
import Mathlib.Data.List.Infix

namespace DocForest.Source

variable {openMark close : String} {depth : Nat} {ts : List String}

/-- How many brackets some tokens close. -/
def closings (close : String) : List String → Nat
  | [] => 0
  | t :: ts => closing close t + closings close ts

@[simp] theorem closings_nil : closings close [] = 0 := rfl

@[simp] theorem closings_cons (t : String) (ts : List String) :
    closings close (t :: ts) = closing close t + closings close ts := rfl

@[simp] theorem closings_append (us vs : List String) :
    closings close (us ++ vs) = closings close us + closings close vs := by
  induction us with
  | nil => simp
  | cons t us ih => rw [List.cons_append, closings_cons, closings_cons, ih, Nat.add_assoc]

theorem closings_paren (ts : List String) : closings ")" ts = ts.count ")" := by
  induction ts with
  | nil => rfl
  | cons t ts ih =>
      rw [closings_cons, ih, List.count_cons, closing]
      split <;> simp_all [Nat.add_comm]

/-- The last token closes the last of some open brackets, and none before it does. -/
structure Closes (openMark close : String) (depth : Nat) (ts : List String) : Prop where
  closed : depth + ts.count openMark ≤ closings close ts
  inside : ∀ us, us <+: ts → us ≠ ts → closings close us < depth + us.count openMark

instance (openMark close : String) (depth : Nat) (ts : List String) :
    Decidable (Closes openMark close depth ts) :=
  decidable_of_iff (depth + ts.count openMark ≤ closings close ts ∧
      ∀ us ∈ ts.inits, us ≠ ts → closings close us < depth + us.count openMark) <| by
    simp only [List.mem_inits]
    exact ⟨fun h => ⟨h.1, h.2⟩, fun h => ⟨h.closed, h.inside⟩⟩

/-- **The length of a bracket** goes up to the token that closes it, whatever follows. -/
theorem Closes.bracketLength_append (hmark : closing close openMark = 0) (hdepth : 0 < depth)
    (h : Closes openMark close depth ts) (rest : List String) :
    bracketLength openMark close depth (ts ++ rest) = ts.length := by
  induction ts generalizing depth with
  | nil =>
      have hclosed := h.closed
      simp only [List.count_nil, closings_nil] at hclosed
      omega
  | cons t ts ih =>
      have hclosed := h.closed
      have hinside : ∀ us, us <+: ts → us ≠ ts →
          closing close t + closings close us < depth + (t :: us).count openMark := by
        intro us hus hne
        exact h.inside (t :: us) (List.cons_prefix_cons.mpr ⟨rfl, hus⟩) (by simpa using hne)
      rw [closings_cons] at hclosed
      rw [List.cons_append, bracketLength, List.length_cons]
      by_cases hopen : t = openMark
      · subst hopen
        simp only [List.count_cons_self] at hclosed hinside
        rw [if_pos rfl, ih (by omega)]
        exact ⟨by omega, fun us hus hne => by have := hinside us hus hne; omega⟩
      · simp only [List.count_cons_of_ne hopen] at hclosed hinside
        rw [if_neg hopen]
        by_cases hlast : 0 < closing close t ∧ depth ≤ closing close t
        · -- The bracket ends here, so that nothing can be left.
          have hnil : ts = [] := by
            by_contra hne
            have hfirst := hinside [] List.nil_prefix (Ne.symm hne)
            simp only [closings_nil, List.count_nil] at hfirst
            omega
          rw [if_pos hlast, hnil, List.length_nil]
        · rw [if_neg hlast, ih (by omega)]
          exact ⟨by omega, fun us hus hne => by have := hinside us hus hne; omega⟩

theorem Closes.bracketLength_open (hmark : closing close openMark = 0)
    (h : Closes openMark close 1 ts) (rest : List String) :
    bracketLength openMark close 0 (openMark :: (ts ++ rest)) = ts.length + 1 := by
  rw [bracketLength, if_pos rfl, h.bracketLength_append hmark Nat.one_pos]

theorem Closes.parenLength_eq (h : Closes "(" ")" 1 ts) (rest : List String) :
    parenLength ("(" :: (ts ++ rest)) = ts.length + 1 :=
  h.bracketLength_open (by decide) rest

theorem Closes.angleLength_eq (h : Closes "<" ">" 1 ts) (rest : List String) :
    angleLength ("<" :: (ts ++ rest)) = ts.length + 1 :=
  h.bracketLength_open (by decide) rest

/-- Brackets that are closed in some tokens end at one of them. -/
theorem exists_closes (hdepth : 0 < depth) (h : depth + ts.count openMark ≤ closings close ts) :
    ∃ us vs, ts = us ++ vs ∧ Closes openMark close depth us := by
  induction ts generalizing depth with
  | nil =>
      simp only [List.count_nil, closings_nil] at h
      omega
  | cons t ts ih =>
      by_cases hnow : depth + [t].count openMark ≤ closing close t
      · refine ⟨[t], ts, rfl, by simpa using hnow, fun us hus hne => ?_⟩
        rcases List.prefix_cons_iff.mp hus with rfl | ⟨vs, rfl, hvs⟩
        · simpa using hdepth
        · exact absurd (by rw [List.prefix_nil.mp hvs]) hne
      · rw [List.count_cons, closings_cons] at h
        rw [List.count_singleton] at hnow
        have hopen : 0 < depth + (if t == openMark then 1 else 0) - closing close t := by omega
        obtain ⟨us, vs, rfl, hus⟩ := ih hopen (by omega)
        refine ⟨t :: us, vs, rfl, ?_, fun ws hws hne => ?_⟩
        · have hclosed := hus.closed
          rw [List.count_cons, closings_cons]
          omega
        · rcases List.prefix_cons_iff.mp hws with rfl | ⟨xs, rfl, hxs⟩
          · simpa using hdepth
          · have hinside := hus.inside xs hxs (by simpa using hne)
            rw [List.count_cons, closings_cons]
            omega

/-! ### Balanced tokens -/

/-- Some tokens never close more brackets than they have opened, and in the end they have closed
all of them. -/
structure Balanced (openMark close : String) (ts : List String) : Prop where
  opened : ∀ us, us <+: ts → closings close us ≤ us.count openMark
  closed : closings close ts = ts.count openMark

instance (openMark close : String) (ts : List String) : Decidable (Balanced openMark close ts) :=
  decidable_of_iff ((∀ us ∈ ts.inits, closings close us ≤ us.count openMark) ∧
      closings close ts = ts.count openMark) <| by
    simp only [List.mem_inits]
    exact ⟨fun h => ⟨h.1, h.2⟩, fun h => ⟨h.opened, h.closed⟩⟩

/-- Round parentheses are closed one by one. -/
theorem balanced_paren_iff {ts : List String} :
    Balanced "(" ")" ts ↔
      (∀ us, us <+: ts → us.count ")" ≤ us.count "(") ∧ ts.count ")" = ts.count "(" := by
  simp only [← closings_paren]
  exact ⟨fun h => ⟨h.opened, h.closed⟩, fun h => ⟨h.1, h.2⟩⟩

/-- A bracket around balanced tokens ends behind them. -/
theorem Balanced.closes (h : Balanced openMark close ts) {t : String} (ht : 0 < closing close t)
    (hne : t ≠ openMark) : Closes openMark close 1 (ts ++ [t]) := by
  refine ⟨?_, fun us hus hother => ?_⟩
  · have hclosed := h.closed
    simp only [List.count_append, closings_append, closings_cons, closings_nil,
      List.count_cons_of_ne hne, List.count_nil]
    omega
  · have hopened := h.opened us ((List.prefix_concat_iff.mp hus).resolve_left hother)
    omega

/-- **A bracket in balanced tokens** ends inside of them. -/
theorem Balanced.exists_closes (hmark : closing close openMark = 0) {us vs : List String}
    (h : Balanced openMark close (us ++ openMark :: vs)) :
    ∃ ws rest, vs = ws ++ rest ∧ Closes openMark close 1 ws := by
  refine Source.exists_closes Nat.one_pos ?_
  have hopened := h.opened us (List.prefix_append _ _)
  have hclosed := h.closed
  simp only [List.count_append, closings_append, closings_cons, List.count_cons_self,
    hmark] at hclosed
  omega

end DocForest.Source
