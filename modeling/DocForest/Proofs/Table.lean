/-
What a table gives back.

A table is a list of pairs, and `get?` takes the first pair of a key.  Everything that
is proved about tables goes through `get?` and the list of keys: each operation has one
equation for either, and no later proof looks at the pairs again, except where the order
of the values is the point.
-/
import DocForest.Table

namespace DocForest.Table

variable {α : Type}

/-! ### Looking up after a change -/

/-- A change of the values that respects the keys reaches what is looked up. -/
theorem get?_mapEntries (t : Table α) (g : String → α → α) (k : String) :
    get? ⟨t.entries.map fun p => (p.1, g p.1 p.2)⟩ k = (t.get? k).map (g k) := by
  obtain ⟨entries⟩ := t
  simp only [get?]
  induction entries with
  | nil => rfl
  | cons p rest ih =>
      obtain ⟨key, v⟩ := p
      simp only [List.map_cons, List.lookup_cons]
      by_cases h : k = key
      · subst h
        simp
      · have hk : (k == key) = false := by simpa using h
        rw [hk]
        exact ih

theorem modify_eq_mapEntries (t : Table α) (key : String) (f : α → α) :
    t.modify key f = ⟨t.entries.map fun p => (p.1, if p.1 = key then f p.2 else p.2)⟩ := by
  unfold modify
  congr 1
  refine List.map_congr_left fun p _ => ?_
  obtain ⟨k, v⟩ := p
  by_cases h : k = key
  · simp only [if_pos h]
  · simp only [if_neg h]

theorem get?_modify (t : Table α) (key : String) (f : α → α) (k : String) :
    (t.modify key f).get? k = if k = key then (t.get? k).map f else t.get? k := by
  rw [modify_eq_mapEntries, get?_mapEntries t (fun k v => if k = key then f v else v)]
  by_cases h : k = key
  · simp only [if_pos h]
  · simp only [if_neg h, Option.map_id']

/-- A change that leaves a view of the values alone leaves it alone everywhere. -/
theorem map_get?_modify {β : Type} (t : Table α) (key : String) {view : α → β} {f : α → α}
    (hf : ∀ v, view (f v) = view v) (k : String) :
    ((t.modify key f).get? k).map view = (t.get? k).map view := by
  rw [get?_modify]
  by_cases h : k = key
  · rw [if_pos h, Option.map_map]
    congr 1
    funext v
    exact hf v
  · rw [if_neg h]

theorem get?_map (t : Table α) (f : α → α) (k : String) :
    (t.map f).get? k = (t.get? k).map f :=
  get?_mapEntries t (fun _ => f) k

/-- A pair at the end is found only by its own key, and only if that key is new. -/
theorem get?_append (t : Table α) (key : String) (v : α) (k : String) :
    get? ⟨t.entries ++ [(key, v)]⟩ k = (t.get? k).or (if k = key then some v else none) := by
  obtain ⟨entries⟩ := t
  simp only [get?]
  induction entries with
  | nil =>
      by_cases h : k = key
      · simp [h]
      · have hk : (k == key) = false := by simpa using h
        simp [List.lookup_cons, hk, h]
  | cons p rest ih =>
      obtain ⟨key', v'⟩ := p
      simp only [List.cons_append, List.lookup_cons]
      by_cases h : k = key'
      · simp [h]
      · have hk : (k == key') = false := by simpa using h
        rw [hk]
        exact ih

theorem contains_eq_false_iff {t : Table α} {key : String} :
    t.contains key = false ↔ t.get? key = none := by
  simp [contains]

theorem contains_iff_exists {t : Table α} {key : String} :
    t.contains key = true ↔ ∃ v, t.get? key = some v := by
  rw [contains, Option.isSome_iff_exists]

theorem contains_of_get? {t : Table α} {key : String} {v : α} (h : t.get? key = some v) :
    t.contains key = true :=
  contains_iff_exists.mpr ⟨v, h⟩

theorem get?_insertNew (t : Table α) (key : String) (v : α) (k : String) :
    (t.insertNew key v).get? k = if k = key then some ((t.get? k).getD v) else t.get? k := by
  unfold insertNew
  by_cases hc : t.contains key = true
  · rw [if_pos hc]
    by_cases h : k = key
    · subst h
      obtain ⟨w, hw⟩ := contains_iff_exists.mp hc
      rw [if_pos rfl, hw]
      rfl
    · rw [if_neg h]
  · rw [if_neg hc, get?_append]
    by_cases h : k = key
    · subst h
      rw [contains_eq_false_iff.mp (by simpa using hc)]
      simp
    · simp [h]

theorem get?_insert (t : Table α) (key : String) (v : α) (k : String) :
    (t.insert key v).get? k = if k = key then some v else t.get? k := by
  unfold insert
  by_cases hc : t.contains key = true
  · rw [if_pos hc, get?_modify]
    by_cases h : k = key
    · subst h
      obtain ⟨w, hw⟩ := contains_iff_exists.mp hc
      rw [if_pos rfl, if_pos rfl, hw]
      rfl
    · rw [if_neg h, if_neg h]
  · rw [if_neg hc, get?_append]
    by_cases h : k = key
    · subst h
      rw [contains_eq_false_iff.mp (by simpa using hc)]
      simp
    · simp [h]

theorem get?_upsert (t : Table α) (key : String) (start : α) (f : α → α) (k : String) :
    (t.upsert key start f).get? k =
      if k = key then some (f ((t.get? k).getD start)) else t.get? k := by
  unfold upsert
  rw [get?_modify, get?_insertNew]
  by_cases h : k = key
  · simp only [if_pos h, Option.map_some]
  · simp only [if_neg h]

/-! ### Keys after a change -/

theorem keys_map (t : Table α) (f : α → α) : (t.map f).keys = t.keys := by
  simp [keys, map, List.map_map, Function.comp_def]

/-- Tables of which a view of the values is the same have the same keys. -/
theorem keys_of_map_eq {t t' : Table α} {view : α → α} (h : t'.map view = t.map view) :
    t'.keys = t.keys := by
  rw [← keys_map t' view, h, keys_map]

theorem keys_insertNew (t : Table α) (key : String) (v : α) :
    (t.insertNew key v).keys = if t.contains key then t.keys else t.keys ++ [key] := by
  unfold insertNew
  by_cases hc : t.contains key = true
  · rw [if_pos hc, if_pos hc]
  · rw [if_neg hc, if_neg hc]
    simp [keys]

theorem length_keys (t : Table α) : t.keys.length = t.size := by
  simp [keys, size]

theorem contains_modify (t : Table α) (key : String) (f : α → α) (k : String) :
    (t.modify key f).contains k = t.contains k := by
  rw [Bool.eq_iff_iff, contains_iff_mem_keys, contains_iff_mem_keys, keys_modify]

theorem contains_insertNew_iff {t : Table α} {key : String} {v : α} {k : String} :
    (t.insertNew key v).contains k = true ↔ t.contains k = true ∨ k = key := by
  rw [contains_iff_mem_keys, contains_iff_mem_keys, keys_insertNew]
  by_cases hc : t.contains key = true
  · rw [if_pos hc]
    refine ⟨Or.inl, ?_⟩
    intro hcase
    rcases hcase with hk | rfl
    · exact hk
    · exact contains_iff_mem_keys.mp hc
  · rw [if_neg hc]
    simp

theorem contains_upsert_iff {t : Table α} {key : String} {start : α} {f : α → α} {k : String} :
    (t.upsert key start f).contains k = true ↔ t.contains k = true ∨ k = key := by
  rw [upsert, contains_modify, contains_insertNew_iff]

/-! ### Tables with distinct keys -/

theorem WellFormed.modify {t : Table α} (h : t.WellFormed) (key : String) (f : α → α) :
    (t.modify key f).WellFormed := by
  rw [WellFormed, keys_modify]
  exact h

theorem WellFormed.map {t : Table α} (h : t.WellFormed) (f : α → α) : (t.map f).WellFormed := by
  rw [WellFormed, keys_map]
  exact h

theorem WellFormed.insertNew {t : Table α} (h : t.WellFormed) (key : String) (v : α) :
    (t.insertNew key v).WellFormed := by
  rw [WellFormed, keys_insertNew]
  by_cases hc : t.contains key = true
  · rw [if_pos hc]
    exact h
  · rw [if_neg hc]
    refine List.nodup_append.mpr ⟨h, by simp, ?_⟩
    intro a ha b hb hab
    have hb' : b = key := by simpa using hb
    exact hc (contains_iff_mem_keys.mpr (by rw [← hb', ← hab]; exact ha))

theorem WellFormed.upsert {t : Table α} (h : t.WellFormed) (key : String) (start : α)
    (f : α → α) : (t.upsert key start f).WellFormed :=
  (h.insertNew key start).modify key f

/-- With distinct keys, what is looked up is what is listed. -/
theorem mem_entries_iff {t : Table α} (h : t.WellFormed) {k : String} {v : α} :
    (k, v) ∈ t.entries ↔ t.get? k = some v := by
  obtain ⟨entries⟩ := t
  simp only [WellFormed, keys, get?] at h ⊢
  induction entries with
  | nil => simp
  | cons p rest ih =>
      obtain ⟨key, w⟩ := p
      simp only [List.map_cons, List.nodup_cons] at h
      simp only [List.mem_cons, Prod.mk.injEq, List.lookup_cons]
      by_cases hk : k = key
      · subst hk
        have hnot : (k, v) ∉ rest := fun hm => h.1 (List.mem_map.mpr ⟨(k, v), hm, rfl⟩)
        simp [hnot, eq_comm]
      · have hb : (k == key) = false := by simpa using hk
        rw [hb]
        simp only [hk, false_and, false_or]
        exact ih h.2

end DocForest.Table
