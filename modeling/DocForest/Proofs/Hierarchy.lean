/-
Things that are part of one another.

Groups hold groups and pages hold pages, and both are kept the same way: a part names
the whole it belongs to, the whole lists its parts, and a new part is refused if the
whole is already somewhere inside it.  This file has the argument once, for any function
`up` from a part to its whole and any function `parts` from a whole to its parts.

`Hierarchy` says that the two agree and that nothing is inside itself.  `attach` is the
step that keeps it: a part that is free may be put into a whole that it does not contain.

The test for "is inside" is a walk upwards that is cut off after as many steps as there
are records.  `climb_le` is why the cut is harmless: a walk that meets no record twice
has at most that many steps.
-/
import DocForest.Proofs.Table
import Mathlib.Logic.Relation

namespace DocForest

open Relation

/-- The step from a part to its whole. -/
def PartOf (up : String → Option String) (part whole : String) : Prop :=
  up part = some whole

/-- Parts and wholes that agree with each other, where nothing is inside itself. -/
structure Hierarchy (up : String → Option String) (parts : String → List String) : Prop where
  /-- A part names the whole that lists it, and no other. -/
  linked : ∀ part whole, up part = some whole ↔ part ∈ parts whole
  /-- A whole lists no part twice. -/
  once : ∀ whole, (parts whole).Nodup
  acyclic : ∀ id, ¬ TransGen (PartOf up) id id

namespace Hierarchy

variable {up up' : String → Option String} {parts parts' : String → List String}

/-! ### Walking up

A walk is described by its number of steps, so that a bound on the steps can be compared
with a bound on the walk.
-/

/-- Where a walk upwards is after some steps, if it gets that far. -/
def climb (up : String → Option String) : Nat → String → Option String
  | 0, id => some id
  | n + 1, id => (up id).bind (climb up n)

theorem climb_succ_eq_some {n : Nat} {a b : String} :
    climb up (n + 1) a = some b ↔ ∃ c, up a = some c ∧ climb up n c = some b := by
  simp only [climb, Option.bind_eq_some_iff]

/-- What is inside a thing is what a walk upwards leads out of. -/
theorem reflTransGen_iff_climb {a b : String} :
    ReflTransGen (PartOf up) a b ↔ ∃ n, climb up n a = some b := by
  constructor
  · intro h
    induction h using ReflTransGen.head_induction_on with
    | refl => exact ⟨0, rfl⟩
    | head hstep _ ih =>
        obtain ⟨n, hn⟩ := ih
        exact ⟨n + 1, climb_succ_eq_some.mpr ⟨_, hstep, hn⟩⟩
  · intro hwalk
    obtain ⟨n, hn⟩ := hwalk
    induction n generalizing a with
    | zero =>
        have hab : a = b := by simpa [climb] using hn
        rw [hab]
    | succ n ih =>
        obtain ⟨c, hc, hcb⟩ := climb_succ_eq_some.mp hn
        exact ReflTransGen.head hc (ih hcb)

theorem transGen_iff_climb {a b : String} :
    TransGen (PartOf up) a b ↔ ∃ n, climb up (n + 1) a = some b := by
  rw [TransGen.head'_iff]
  constructor
  · intro hfound
    obtain ⟨c, hc, hcb⟩ := hfound
    obtain ⟨n, hn⟩ := reflTransGen_iff_climb.mp hcb
    exact ⟨n, climb_succ_eq_some.mpr ⟨c, hc, hn⟩⟩
  · intro hwalk
    obtain ⟨n, hn⟩ := hwalk
    obtain ⟨c, hc, hcb⟩ := climb_succ_eq_some.mp hn
    exact ⟨c, hc, reflTransGen_iff_climb.mpr ⟨n, hcb⟩⟩

/-- A walk that never returns leaves a different thing behind with every step. -/
theorem exists_trail (hacyclic : ∀ id, ¬ TransGen (PartOf up) id id) :
    ∀ (n : Nat) (a b : String), climb up n a = some b →
      ∃ trail : List String, trail.length = n ∧ trail.Nodup ∧
        ∀ x ∈ trail, ReflTransGen (PartOf up) a x ∧ ∃ y, up x = some y := by
  intro n
  induction n with
  | zero => intro a b _; exact ⟨[], rfl, List.nodup_nil, by simp⟩
  | succ n ih =>
      intro a b h
      obtain ⟨c, hc, hcb⟩ := climb_succ_eq_some.mp h
      obtain ⟨trail, hlen, hnodup, htrail⟩ := ih c b hcb
      refine ⟨a :: trail, by simp [hlen], List.nodup_cons.mpr ⟨?_, hnodup⟩, ?_⟩
      · intro ha
        exact hacyclic a (TransGen.head' hc (htrail a ha).1)
      · intro x hx
        rcases List.mem_cons.mp hx with rfl | hx
        · exact ⟨ReflTransGen.refl, c, hc⟩
        · exact ⟨ReflTransGen.head hc (htrail x hx).1, (htrail x hx).2⟩

/-- **A walk has at most as many steps as there are things with a whole.** -/
theorem climb_le (hacyclic : ∀ id, ¬ TransGen (PartOf up) id id) {known : List String}
    (hknown : ∀ part whole, up part = some whole → part ∈ known) {n : Nat} {a b : String}
    (h : climb up n a = some b) : n ≤ known.length := by
  obtain ⟨trail, hlen, hnodup, htrail⟩ := exists_trail hacyclic n a b h
  rw [← hlen]
  refine hnodup.length_le_of_subset fun x hx => ?_
  obtain ⟨y, hy⟩ := (htrail x hx).2
  exact hknown x y hy

/-! ### Putting a part into a whole

The whole is not inside the part, so the walk up from the whole never comes to the part,
and is the same walk as before.  A cycle would have to use the new step, and would then
lead from the whole back to the part.
-/

section Attach

variable {part whole : String}
  (hup : ∀ id, up' id = if id = part then some whole else up id)

include hup

/-- The walk up from the whole is not changed. -/
theorem reach_of_attach (houtside : ¬ ReflTransGen (PartOf up) whole part) {x : String}
    (h : ReflTransGen (PartOf up') whole x) : ReflTransGen (PartOf up) whole x := by
  induction h with
  | refl => exact ReflTransGen.refl
  | @tail y z _ hstep ih =>
      have hy : y ≠ part := by
        intro heq
        obtain rfl := heq
        exact houtside ih
      rw [PartOf, hup, if_neg hy] at hstep
      exact ih.tail hstep

/-- A walk after the change either was there before or uses the new step. -/
theorem path_of_attach {x y : String} (h : TransGen (PartOf up') x y) :
    TransGen (PartOf up) x y ∨
      (ReflTransGen (PartOf up') x part ∧ ReflTransGen (PartOf up') whole y) := by
  have hlast : ∀ {b c : String}, up' b = some c → b = part ∧ c = whole ∨ up b = some c := by
    intro b c hbc
    rw [hup] at hbc
    by_cases hb : b = part
    · rw [if_pos hb] at hbc
      exact Or.inl ⟨hb, (Option.some.inj hbc).symm⟩
    · rw [if_neg hb] at hbc
      exact Or.inr hbc
  induction h with
  | single hstep =>
      rcases hlast hstep with ⟨rfl, rfl⟩ | hold
      · exact Or.inr ⟨ReflTransGen.refl, ReflTransGen.refl⟩
      · exact Or.inl (TransGen.single hold)
  | tail hpath hstep ih =>
      rcases ih with hbefore | ⟨hto, hfrom⟩
      · rcases hlast hstep with ⟨rfl, rfl⟩ | hold
        · exact Or.inr ⟨hpath.to_reflTransGen, ReflTransGen.refl⟩
        · exact Or.inl (hbefore.tail hold)
      · exact Or.inr ⟨hto, hfrom.tail hstep⟩

/-- **A free part may be put into a whole that is not inside it.** -/
theorem attach (h : Hierarchy up parts) (hfree : up part = none ∨ up part = some whole)
    (houtside : ¬ ReflTransGen (PartOf up) whole part)
    (hparts : ∀ id, parts' id =
      if id = whole then (if part ∈ parts id then parts id else parts id ++ [part])
      else parts id) :
    Hierarchy up' parts' := by
  have hmem : ∀ x id, x ∈ parts' id ↔ x ∈ parts id ∨ (x = part ∧ id = whole) := by
    intro x id
    rw [hparts]
    by_cases hid : id = whole
    · subst hid
      rw [if_pos rfl]
      by_cases hin : part ∈ parts id
      · rw [if_pos hin]
        refine ⟨Or.inl, ?_⟩
        intro hcase
        rcases hcase with hx | ⟨rfl, -⟩
        · exact hx
        · exact hin
      · rw [if_neg hin]
        simp
    · simp [hid]
  refine ⟨?_, ?_, ?_⟩
  · intro x id
    rw [hmem, hup]
    by_cases hx : x = part
    · subst hx
      rw [if_pos rfl, ← h.linked]
      constructor
      · intro hwhole
        exact Or.inr ⟨rfl, (Option.some.inj hwhole).symm⟩
      · intro hcase
        rcases hcase with hold | ⟨-, rfl⟩
        · rcases hfree with hnone | hsome
          · simp [hnone] at hold
          · rw [← hold, hsome]
        · rfl
    · simp only [hx, if_false, false_and, or_false]
      exact h.linked x id
  · intro id
    rw [hparts]
    by_cases hid : id = whole
    · by_cases hin : part ∈ parts id
      · rw [if_pos hid, if_pos hin]
        exact h.once id
      · rw [if_pos hid, if_neg hin]
        refine List.nodup_append.mpr ⟨h.once id, by simp, ?_⟩
        intro a ha b hb hab
        have hb' : b = part := by simpa using hb
        exact hin (by rw [← hb', ← hab]; exact ha)
    · rw [if_neg hid]
      exact h.once id
  · intro x hcycle
    rcases path_of_attach hup hcycle with hold | ⟨hto, hfrom⟩
    · exact h.acyclic x hold
    · exact houtside (reach_of_attach hup houtside (hfrom.trans hto))

end Attach

end Hierarchy

/-! ### Tables whose records are part of one another -/

namespace Table

variable {α : Type}

/-- The whole that a record names, if it names one. -/
def up (parent : α → String) (t : Table α) (id : String) : Option String :=
  ((t.get? id).map parent).filter (· ≠ "")

/-- The parts that a record lists. -/
def parts (list : α → List String) (t : Table α) (id : String) : List String :=
  ((t.get? id).map list).getD []

theorem up_eq_some {parent : α → String} {t : Table α} {id whole : String} :
    t.up parent id = some whole ↔
      whole ≠ "" ∧ ∃ v, t.get? id = some v ∧ parent v = whole := by
  simp only [up, Option.filter_eq_some_iff, Option.map_eq_some_iff, ne_eq, decide_not,
    Bool.not_eq_eq_eq_not, Bool.not_true, decide_eq_false_iff_not]
  exact and_comm

theorem up_of_get? {parent : α → String} {t : Table α} {id : String} {v : α}
    (h : t.get? id = some v) (hv : parent v ≠ "") : t.up parent id = some (parent v) :=
  up_eq_some.mpr ⟨hv, v, h, rfl⟩

theorem up_eq_none {parent : α → String} {t : Table α} {id : String} :
    t.up parent id = none ↔ ∀ v, t.get? id = some v → parent v = "" := by
  simp only [up, Option.filter_eq_none_iff, Option.map_eq_some_iff]
  constructor
  · intro h v hv
    simpa using h (parent v) ⟨v, hv, rfl⟩
  · rintro h _ ⟨v, hv, rfl⟩
    simpa using h v hv

theorem mem_keys_of_up {parent : α → String} {t : Table α} {id whole : String}
    (h : t.up parent id = some whole) : id ∈ t.keys := by
  obtain ⟨-, v, hv, -⟩ := up_eq_some.mp h
  exact contains_iff_mem_keys.mp (contains_of_get? hv)

theorem mem_parts {list : α → List String} {t : Table α} {id part : String} :
    part ∈ t.parts list id ↔ ∃ v, t.get? id = some v ∧ part ∈ list v := by
  unfold parts
  cases t.get? id <;> simp

/-! ### What a change of a table does to the links

A change that keeps what a record names and lists keeps all links.  The two changes that
make a link are the setting of a whole and the listing of a part.
-/

theorem up_modify_of_eq (t : Table α) (key : String) {parent : α → String} {f : α → α}
    (hf : ∀ v, parent (f v) = parent v) : (t.modify key f).up parent = t.up parent := by
  funext id
  unfold up
  rw [map_get?_modify t key hf]

theorem parts_modify_of_eq (t : Table α) (key : String) {list : α → List String} {f : α → α}
    (hf : ∀ v, list (f v) = list v) : (t.modify key f).parts list = t.parts list := by
  funext id
  unfold parts
  rw [map_get?_modify t key hf]

theorem up_insertNew (t : Table α) (key : String) {parent : α → String} {start : α}
    (hstart : parent start = "") : (t.insertNew key start).up parent = t.up parent := by
  funext id
  unfold up
  rw [get?_insertNew]
  by_cases h : id = key
  · rw [if_pos h]
    cases t.get? id <;> simp [hstart]
  · rw [if_neg h]

theorem parts_insertNew (t : Table α) (key : String) {list : α → List String} {start : α}
    (hstart : list start = []) : (t.insertNew key start).parts list = t.parts list := by
  funext id
  unfold parts
  rw [get?_insertNew]
  by_cases h : id = key
  · rw [if_pos h]
    cases t.get? id <;> simp [hstart]
  · rw [if_neg h]

theorem up_modify_set {parent : α → String} {f : α → α} {whole : String} (hwhole : whole ≠ "")
    (hf : ∀ v, parent (f v) = whole) {t : Table α} {key : String}
    (hkey : t.contains key = true) (id : String) :
    (t.modify key f).up parent id = if id = key then some whole else t.up parent id := by
  unfold up
  rw [get?_modify]
  by_cases h : id = key
  · subst h
    obtain ⟨v, hv⟩ := contains_iff_exists.mp hkey
    simp [hv, hf, hwhole]
  · rw [if_neg h, if_neg h]

theorem parts_modify_add {list : α → List String} {f : α → α} {part : String}
    (hf : ∀ v, list (f v) = if part ∈ list v then list v else list v ++ [part]) {t : Table α}
    {key : String} (hkey : t.contains key = true) (id : String) :
    (t.modify key f).parts list id =
      if id = key then
        (if part ∈ t.parts list id then t.parts list id else t.parts list id ++ [part])
      else t.parts list id := by
  unfold parts
  rw [get?_modify]
  by_cases h : id = key
  · subst h
    obtain ⟨v, hv⟩ := contains_iff_exists.mp hkey
    simp [hv, hf]
  · rw [if_neg h, if_neg h]

/-! ### Walks through a table -/

/-- A walk upwards has at most as many steps as the table has records. -/
theorem climb_le_size {parent : α → String} {t : Table α}
    (hacyclic : ∀ id, ¬ TransGen (PartOf (t.up parent)) id id) {n : Nat} {a b : String}
    (h : Hierarchy.climb (t.up parent) n a = some b) : n ≤ t.size := by
  rw [← length_keys]
  exact Hierarchy.climb_le hacyclic (fun _ _ => mem_keys_of_up) h

end Table

end DocForest
