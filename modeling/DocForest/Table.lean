/-
Tables keyed by text that remember the order in which their keys came in.

The order is part of what a table says: documents are written in it.  An insertion
under a new key goes to the end, one under a known key replaces the value where it
stands, and no other operation touches the keys.
-/
namespace DocForest

/-- Values under text keys, in the order in which the keys came in. -/
structure Table (α : Type) where
  entries : List (String × α) := []

namespace Table

variable {α : Type}

/-- The table with no keys. -/
def empty : Table α := {}

/-- The keys, oldest first. -/
def keys (t : Table α) : List String :=
  t.entries.map (·.1)

/-- The values, in the order of their keys. -/
def values (t : Table α) : List α :=
  t.entries.map (·.2)

/-- The number of keys. -/
def size (t : Table α) : Nat :=
  t.entries.length

/-- The value under a key. -/
def get? (t : Table α) (key : String) : Option α :=
  t.entries.lookup key

/-- Whether a key is known. -/
def contains (t : Table α) (key : String) : Bool :=
  (t.get? key).isSome

/-- Changes the value under a key; an unknown key changes nothing. -/
def modify (t : Table α) (key : String) (f : α → α) : Table α :=
  ⟨t.entries.map fun (k, v) => if k = key then (k, f v) else (k, v)⟩

/-- Changes every value. -/
def map (t : Table α) (f : α → α) : Table α :=
  ⟨t.entries.map fun (k, v) => (k, f v)⟩

/-- Puts a value under a key: in place if the key is known, else at the end. -/
def insert (t : Table α) (key : String) (value : α) : Table α :=
  if t.contains key then t.modify key fun _ => value
  else ⟨t.entries ++ [(key, value)]⟩

/-- Puts a value under a key that is not known yet; a known key changes nothing. -/
def insertNew (t : Table α) (key : String) (value : α) : Table α :=
  if t.contains key then t else ⟨t.entries ++ [(key, value)]⟩

/-- Changes the value under a key, after putting `start` there if the key is new. -/
def upsert (t : Table α) (key : String) (start : α) (f : α → α) : Table α :=
  (t.insertNew key start).modify key f

/-- Whether the keys are pairwise different. -/
def WellFormed (t : Table α) : Prop :=
  t.keys.Nodup

/-! ### Keys -/

@[simp] theorem keys_empty : (empty : Table α).keys = [] := rfl

@[simp] theorem keys_modify (t : Table α) (key : String) (f : α → α) :
    (t.modify key f).keys = t.keys := by
  simp only [keys, modify, List.map_map]
  refine List.map_congr_left fun p _ => ?_
  obtain ⟨k, v⟩ := p
  simp only [Function.comp_apply]
  split <;> rfl

theorem contains_iff_mem_keys {t : Table α} {key : String} :
    t.contains key = true ↔ key ∈ t.keys := by
  obtain ⟨entries⟩ := t
  simp only [contains, get?, keys]
  induction entries with
  | nil => simp
  | cons p rest ih =>
    obtain ⟨k, v⟩ := p
    simp only [List.lookup_cons, List.map_cons, List.mem_cons]
    by_cases h : key = k
    · simp [h]
    · have hk : (key == k) = false := by simpa using h
      simp only [hk, ih, h, false_or]

end Table

end DocForest
