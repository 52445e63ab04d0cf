/-
The links of a forest agree with each other.

A child names its parent and the parent lists the child; what has no parent is listed
among the roots.  `Sound` says this in the form in which an insertion keeps it: the list
under a scope is the list of all entities that name the scope, in order of creation.  So
nothing has to be said about which of the two directions was written first.

The other half of `Sound` is that a parent is always older than its children.  That is
what makes every walk from an entity outwards end, and it gives the length of the walk at
the same time: it is at most the age of the entity, so the bounds in `ancestors` and
`outward` never cut a walk short.
-/
import DocForest.Lookup.Basic
import DocForest.Proofs.Table

namespace DocForest

/-- What an entity says of its place among the others. -/
def Entity.place (e : Entity) : String × String × List String :=
  (e.id, e.parent, e.children)

namespace Forest

/-- The ids of the entities that name a scope as their parent, in order of creation. -/
def idsUnder (f : Forest) (scope : String) : List String :=
  (f.entities.values.filter (·.parent == scope)).map (·.id)

/-- Whether an id is that of a scope: the outermost one or an entity. -/
def Knows (f : Forest) (scope : String) : Prop :=
  scope = "" ∨ f.contains scope = true

/-- All links agree, and parents are older than their children. -/
structure Sound (f : Forest) : Prop where
  distinct : f.entities.WellFormed
  keyed : ∀ id e, f.get? id = some e → e.id = id
  roots : f.roots = f.idsUnder ""
  /-- The empty id is the outermost scope, so an entity of that id has no children. -/
  children : ∀ id e, f.get? id = some e → e.children = if id = "" then [] else f.idsUnder id
  older : ∀ id e, f.get? id = some e → e.parent ≠ "" →
    f.ids.idxOf e.parent < f.ids.idxOf id

theorem contains_iff_mem_ids {f : Forest} {id : String} : f.contains id = true ↔ id ∈ f.ids :=
  Table.contains_iff_mem_keys

theorem contains_iff_exists {f : Forest} {id : String} :
    f.contains id = true ↔ ∃ e, f.get? id = some e :=
  Table.contains_iff_exists

theorem contains_of_get? {f : Forest} {id : String} {e : Entity} (h : f.get? id = some e) :
    f.contains id = true :=
  contains_iff_exists.mpr ⟨e, h⟩

theorem get?_modify (f : Forest) (key : String) (g : Entity → Entity) (id : String) :
    (f.modify key g).get? id = if id = key then (f.get? id).map g else f.get? id :=
  Table.get?_modify f.entities key g id

@[simp] theorem ids_modify (f : Forest) (key : String) (g : Entity → Entity) :
    (f.modify key g).ids = f.ids :=
  Table.keys_modify f.entities key g

theorem length_ids (f : Forest) : f.ids.length = f.size :=
  Table.length_keys f.entities

theorem knows_of_ids_eq {f f' : Forest} (h : f'.ids = f.ids) {scope : String}
    (hk : f.Knows scope) : f'.Knows scope := by
  rcases hk with hk | hk
  · exact Or.inl hk
  · refine Or.inr (contains_iff_mem_ids.mpr ?_)
    rw [h]
    exact contains_iff_mem_ids.mp hk

theorem empty_sound : Sound {} where
  distinct := List.nodup_nil
  keyed := by intro id e h; simp [get?, Table.get?] at h
  roots := rfl
  children := by intro id e h; simp [get?, Table.get?] at h
  older := by intro id e h; simp [get?, Table.get?] at h

/-! ### Entities under their own ids -/

/-- Entities are stored once, under their own ids. -/
structure Keyed (f : Forest) : Prop where
  distinct : f.entities.WellFormed
  keyed : ∀ id e, f.get? id = some e → e.id = id

theorem Keyed.mem_values_iff {f : Forest} (h : f.Keyed) {e : Entity} :
    e ∈ f.entities.values ↔ f.get? e.id = some e := by
  rw [Table.values, List.mem_map]
  constructor
  · intro hfound
    obtain ⟨⟨id, e'⟩, hmem, rfl⟩ := hfound
    have hget : f.get? id = some e' := (Table.mem_entries_iff h.distinct).mp hmem
    rw [h.keyed id e' hget]
    exact hget
  · intro hget
    exact ⟨(e.id, e), (Table.mem_entries_iff h.distinct).mpr hget, rfl⟩

theorem Keyed.map_id_values {f : Forest} (h : f.Keyed) :
    f.entities.values.map (·.id) = f.ids := by
  rw [Table.values, List.map_map, ids, Table.keys]
  refine List.map_congr_left fun p hp => ?_
  obtain ⟨id, e⟩ := p
  exact h.keyed id e ((Table.mem_entries_iff h.distinct).mp hp)

/-! ### What the links say of single entities -/

namespace Sound

variable {f : Forest}

theorem isKeyed (h : f.Sound) : f.Keyed :=
  ⟨h.distinct, h.keyed⟩

theorem mem_values_iff (h : f.Sound) {e : Entity} :
    e ∈ f.entities.values ↔ f.get? e.id = some e :=
  h.isKeyed.mem_values_iff

theorem map_id_values (h : f.Sound) : f.entities.values.map (·.id) = f.ids :=
  h.isKeyed.map_id_values

theorem mem_idsUnder (h : f.Sound) {id scope : String} :
    id ∈ f.idsUnder scope ↔ ∃ e, f.get? id = some e ∧ e.parent = scope := by
  simp only [idsUnder, List.mem_map, List.mem_filter, beq_iff_eq]
  constructor
  · intro hfound
    obtain ⟨e, ⟨hmem, hparent⟩, rfl⟩ := hfound
    exact ⟨e, h.mem_values_iff.mp hmem, hparent⟩
  · intro hfound
    obtain ⟨e, hget, hparent⟩ := hfound
    have hid : e.id = id := h.keyed id e hget
    exact ⟨e, ⟨h.mem_values_iff.mpr (by rw [hid]; exact hget), hparent⟩, hid⟩

theorem nodup_idsUnder (h : f.Sound) (scope : String) : (f.idsUnder scope).Nodup := by
  have hsub : (f.idsUnder scope).Sublist f.ids := by
    rw [← h.map_id_values]
    exact List.Sublist.map _ List.filter_sublist
  exact List.Nodup.sublist hsub h.distinct

/-- A parent is known, since it is older than something. -/
theorem contains_parent (h : f.Sound) {id : String} {e : Entity} (hget : f.get? id = some e)
    (hparent : e.parent ≠ "") : f.contains e.parent = true := by
  have hold := h.older id e hget hparent
  have hlt : f.ids.idxOf id < f.ids.length :=
    List.idxOf_lt_length_of_mem (contains_iff_mem_ids.mp (contains_of_get? hget))
  exact contains_iff_mem_ids.mpr (List.idxOf_lt_length_iff.mp (Nat.lt_trans hold hlt))

theorem idsUnder_eq_nil (h : f.Sound) {scope : String} (hscope : scope ≠ "")
    (hnew : f.contains scope = false) : f.idsUnder scope = [] := by
  refine List.eq_nil_iff_forall_not_mem.mpr fun id hid => ?_
  obtain ⟨e, hget, hparent⟩ := h.mem_idsUnder.mp hid
  have hcontains := h.contains_parent hget (by rw [hparent]; exact hscope)
  rw [hparent, hnew] at hcontains
  simp at hcontains

/-- A parent lists its child exactly once. -/
theorem listed_once (h : f.Sound) {id : String} {e : Entity} (hget : f.get? id = some e)
    (hparent : e.parent ≠ "") :
    ∃ p, f.get? e.parent = some p ∧ p.children.count id = 1 := by
  obtain ⟨p, hp⟩ := contains_iff_exists.mp (h.contains_parent hget hparent)
  refine ⟨p, hp, ?_⟩
  rw [h.children e.parent p hp, if_neg hparent]
  rw [(h.nodup_idsUnder _).count, if_pos (h.mem_idsUnder.mpr ⟨e, hget, rfl⟩)]

/-- A listed child names the one that lists it. -/
theorem parent_of_mem_children (h : f.Sound) {id child : String} {e : Entity}
    (hget : f.get? id = some e) (hchild : child ∈ e.children) :
    id ≠ "" ∧ ∃ c, f.get? child = some c ∧ c.parent = id := by
  rw [h.children id e hget] at hchild
  by_cases hid : id = ""
  · rw [if_pos hid] at hchild
    simp at hchild
  · rw [if_neg hid] at hchild
    exact ⟨hid, h.mem_idsUnder.mp hchild⟩

end Sound

/-! ### Storing an entity

The new entity is the youngest, and its parent is known before.  Only two lists change:
the one of all ids, and the one of the ids under the parent.
-/

theorem idsUnder_modify {f : Forest} {g : Entity → Entity} (hid : ∀ e, (g e).id = e.id)
    (hparent : ∀ e, (g e).parent = e.parent) (key scope : String) :
    (f.modify key g).idsUnder scope = f.idsUnder scope := by
  obtain ⟨⟨entries⟩, roots⟩ := f
  simp only [idsUnder, modify, Table.modify, Table.values]
  induction entries with
  | nil => rfl
  | cons p rest ih =>
      obtain ⟨k, e⟩ := p
      simp only [List.map_cons, List.filter_cons]
      by_cases hk : k = key
      · simp only [if_pos hk, hparent]
        split
        · simp only [List.map_cons, hid, ih]
        · exact ih
      · simp only [if_neg hk]
        split
        · simp only [List.map_cons, ih]
        · exact ih

/-- What an insertion under a new id does. -/
structure Inserted (f : Forest) (e : Entity) (f' : Forest) : Prop where
  ids : f'.ids = f.ids ++ [e.id]
  idsUnder : ∀ scope, f'.idsUnder scope =
    f.idsUnder scope ++ (if e.parent = scope then [e.id] else [])
  roots : f'.roots = f.roots ++ (if e.parent = "" then [e.id] else [])
  get? : ∀ id, f'.get? id =
    if id = e.id then some e
    else if id = e.parent ∧ id ≠ "" then (f.get? id).map (·.addChild e.id)
    else f.get? id

theorem inserted_insert {f : Forest} {e : Entity} (hnew : f.contains e.id = false)
    (hparent : f.Knows e.parent) : Inserted f e (f.insert e) := by
  have hstore : f.entities.insertNew e.id e = ⟨f.entities.entries ++ [(e.id, e)]⟩ := by
    unfold Table.insertNew
    rw [if_neg (by simpa [contains] using hnew)]
  have hget : ∀ id, Table.get? ⟨f.entities.entries ++ [(e.id, e)]⟩ id =
      if id = e.id then some e else f.get? id := by
    intro id
    rw [Table.get?_append]
    by_cases hid : id = e.id
    · subst hid
      have hnone : f.entities.get? e.id = none := Table.contains_eq_false_iff.mp hnew
      rw [hnone]
      simp
    · simp [hid, Forest.get?]
  have hunder : ∀ (roots : List String) (scope : String),
      idsUnder ⟨⟨f.entities.entries ++ [(e.id, e)]⟩, roots⟩ scope =
        f.idsUnder scope ++ (if e.parent = scope then [e.id] else []) := by
    intro roots scope
    simp only [idsUnder, Table.values, List.map_append, List.filter_append, List.map_cons,
      List.map_nil, List.filter_cons, List.filter_nil, beq_iff_eq]
    split <;> rfl
  unfold insert
  rw [if_neg (by simp [hnew]), hstore]
  unfold link
  by_cases hroot : e.parent = ""
  · rw [if_pos (by simpa using hroot)]
    refine ⟨by simp [ids, Table.keys], hunder _, by rw [if_pos hroot], ?_⟩
    intro id
    refine (hget id).trans ?_
    by_cases hid : id = e.id
    · rw [if_pos hid, if_pos hid]
    · rw [if_neg hid, if_neg hid, if_neg]
      intro hboth
      obtain ⟨hp, hne⟩ := hboth
      exact hne (hp.trans hroot)
  · rw [if_neg (by simpa using hroot)]
    unfold addChild
    refine ⟨?_, ?_, by rw [if_neg hroot, List.append_nil]; rfl, ?_⟩
    · rw [ids_modify]
      simp [ids, Table.keys]
    · intro scope
      rw [idsUnder_modify (fun e' => Entity.id_addChild e' e.id)
        (fun e' => Entity.parent_addChild e' e.id)]
      exact hunder f.roots scope
    · intro id
      rw [get?_modify]
      -- The parent was there before, so it is not the new entity.
      have hne : e.parent ≠ e.id := by
        intro hp
        rcases hparent with hp' | hp'
        · exact hroot hp'
        · rw [hp, hnew] at hp'
          simp at hp'
      have hstored : get? { f with entities := ⟨f.entities.entries ++ [(e.id, e)]⟩ } id =
          if id = e.id then some e else f.get? id := hget id
      rw [hstored]
      by_cases hid : id = e.id
      · subst hid
        rw [if_neg (Ne.symm hne), if_pos rfl, if_pos rfl]
      · rw [if_neg hid, if_neg hid]
        by_cases hp : id = e.parent
        · rw [if_pos hp, if_pos ⟨hp, by rw [hp]; exact hroot⟩]
        · rw [if_neg hp, if_neg (fun hc => hp hc.1)]

/-- What is found afterwards is the new entity, or an old one with the same id and parent. -/
theorem Inserted.get?_cases {f f' : Forest} {e : Entity} (hins : Inserted f e f') {id : String}
    {e' : Entity} (hget : f'.get? id = some e') :
    (id = e.id ∧ e' = e) ∨ (id ≠ e.id ∧ ∃ e₀, f.get? id = some e₀ ∧ e'.id = e₀.id ∧
      e'.parent = e₀.parent ∧ e'.children =
        if id = e.parent ∧ id ≠ "" then (e₀.addChild e.id).children else e₀.children) := by
  rw [hins.get?] at hget
  by_cases hid : id = e.id
  · rw [if_pos hid] at hget
    exact Or.inl ⟨hid, (Option.some.inj hget).symm⟩
  rw [if_neg hid] at hget
  refine Or.inr ⟨hid, ?_⟩
  by_cases hp : id = e.parent ∧ id ≠ ""
  · rw [if_pos hp] at hget
    obtain ⟨e₀, he₀, rfl⟩ := Option.map_eq_some_iff.mp hget
    exact ⟨e₀, he₀, Entity.id_addChild e₀ e.id, Entity.parent_addChild e₀ e.id,
      by rw [if_pos hp]⟩
  · rw [if_neg hp] at hget
    exact ⟨e', hget, rfl, rfl, by rw [if_neg hp]⟩

theorem contains_insert {f : Forest} {e : Entity} (hparent : f.Knows e.parent) {id : String} :
    (f.insert e).contains id = true ↔ f.contains id = true ∨ id = e.id := by
  by_cases hc : f.contains e.id = true
  · have hsame : f.insert e = f := by
      unfold insert
      rw [if_pos hc]
    rw [hsame]
    refine ⟨Or.inl, ?_⟩
    intro hcase
    rcases hcase with hid | rfl
    · exact hid
    · exact hc
  · have hins := inserted_insert (by simpa using hc) hparent
    rw [contains_iff_mem_ids, hins.ids, contains_iff_mem_ids]
    simp

/-- **Storing an entity without children under a known scope keeps the links sound.** -/
theorem insert_sound {f : Forest} (h : f.Sound) {e : Entity} (hchildren : e.children = [])
    (hparent : f.Knows e.parent) : (f.insert e).Sound := by
  by_cases hc : f.contains e.id = true
  · unfold insert
    rw [if_pos hc]
    exact h
  have hnew : f.contains e.id = false := by simpa using hc
  have hins := inserted_insert hnew hparent
  have hnotin : e.id ∉ f.ids := fun hm => hc (contains_iff_mem_ids.mpr hm)
  refine ⟨?_, ?_, ?_, ?_, ?_⟩
  · show (f.insert e).ids.Nodup
    rw [hins.ids]
    refine List.nodup_append.mpr ⟨h.distinct, by simp, ?_⟩
    intro a ha b hb hab
    have hb' : b = e.id := by simpa using hb
    exact hnotin (by rw [← hb', ← hab]; exact ha)
  · intro id e' hget
    rcases hins.get?_cases hget with ⟨rfl, rfl⟩ | ⟨-, e₀, he₀, hid, -⟩
    · rfl
    · rw [hid]
      exact h.keyed id e₀ he₀
  · rw [hins.roots, hins.idsUnder, h.roots]
  · intro id e' hget
    rcases hins.get?_cases hget with ⟨rfl, rfl⟩ | ⟨-, e₀, he₀, -, -, hch⟩
    · by_cases hempty : e'.id = ""
      · rw [hchildren, if_pos hempty]
      · have hself : e'.parent ≠ e'.id := by
          intro hp
          rcases hparent with hp' | hp'
          · exact hempty (hp.symm.trans hp')
          · rw [hp] at hp'
            exact hc hp'
        rw [hchildren, if_neg hempty, hins.idsUnder, if_neg hself,
          h.idsUnder_eq_nil hempty hnew]
        rfl
    · rw [hch, hins.idsUnder]
      have hbefore := h.children id e₀ he₀
      by_cases hempty : id = ""
      · rw [if_neg (fun hp => hp.2 hempty), if_pos hempty, hbefore, if_pos hempty]
      · rw [if_neg hempty] at hbefore ⊢
        by_cases hp : id = e.parent
        · have hfresh : e.id ∉ e₀.children := by
            rw [hbefore]
            intro hm
            obtain ⟨e₁, he₁, -⟩ := h.mem_idsUnder.mp hm
            exact hc (contains_of_get? he₁)
          rw [if_pos ⟨hp, hempty⟩, if_pos hp.symm, Entity.addChild, if_neg hfresh]
          show e₀.children ++ [e.id] = _
          rw [hbefore]
        · rw [if_neg (fun hc' => hp hc'.1), if_neg (fun hc' => hp hc'.symm), hbefore,
            List.append_nil]
  · intro id e' hget hne
    rw [hins.ids]
    rcases hins.get?_cases hget with ⟨rfl, rfl⟩ | ⟨-, e₀, he₀, -, hpar, -⟩
    · -- The new entity stands behind all ids that were there.
      have hknown : e'.parent ∈ f.ids := by
        rcases hparent with hp | hp
        · exact absurd hp hne
        · exact contains_iff_mem_ids.mp hp
      rw [List.idxOf_append, if_pos hknown, List.idxOf_append, if_neg hnotin]
      exact Nat.lt_of_lt_of_le (List.idxOf_lt_length_of_mem hknown) (Nat.le_add_left _ _)
    · rw [hpar] at hne ⊢
      have hknown := contains_iff_mem_ids.mp (h.contains_parent he₀ hne)
      rw [List.idxOf_append, if_pos hknown, List.idxOf_append,
        if_pos (contains_iff_mem_ids.mp (contains_of_get? he₀))]
      exact h.older id e₀ he₀ hne

/-! ### Walks outwards

Each step of a walk goes to an older entity, so the age of the first one bounds the
number of steps.  All three statements are the same strong induction on that age.
-/

/-- Following the parents from an id comes to an entity without a parent. -/
inductive Rooted (f : Forest) : String → Prop
  | root {id : String} {e : Entity} (hget : f.get? id = some e) (hroot : e.parent = "") :
      Rooted f id
  | under {id : String} {e : Entity} (hget : f.get? id = some e) (hparent : e.parent ≠ "")
      (h : Rooted f e.parent) : Rooted f id

namespace Sound

variable {f : Forest}

/-- What holds of an entity if it holds of its parent, holds of every entity. -/
theorem parent_induction (h : f.Sound) {motive : String → Prop}
    (root : ∀ id e, f.get? id = some e → e.parent = "" → motive id)
    (under : ∀ id e, f.get? id = some e → e.parent ≠ "" → f.contains e.parent = true →
      motive e.parent → motive id) :
    ∀ id, f.contains id = true → motive id := by
  intro id
  induction hage : f.ids.idxOf id using Nat.strongRecOn generalizing id with
  | _ age ih =>
      intro hid
      obtain ⟨e, hget⟩ := contains_iff_exists.mp hid
      by_cases hparent : e.parent = ""
      · exact root id e hget hparent
      · have hknown := h.contains_parent hget hparent
        have hold := h.older id e hget hparent
        exact under id e hget hparent hknown (ih _ (by omega) e.parent rfl hknown)

theorem rooted (h : f.Sound) : ∀ id, f.contains id = true → f.Rooted id :=
  h.parent_induction (fun _ _ hget hroot => Rooted.root hget hroot)
    (fun _ _ hget hparent _ ih => Rooted.under hget hparent ih)

theorem idxOf_lt_size {id : String} (hid : f.contains id = true) : f.ids.idxOf id < f.size := by
  rw [← length_ids]
  exact List.idxOf_lt_length_of_mem (contains_iff_mem_ids.mp hid)

/-- A walk that may take more steps than the entity is old ends at a root. -/
theorem getLast?_ancestorsWithin (h : f.Sound) :
    ∀ id, f.contains id = true → ∀ bound, f.ids.idxOf id < bound →
      ∃ e, (f.ancestorsWithin bound id).getLast? = some e ∧ e.parent = "" := by
  refine h.parent_induction ?_ ?_
  · intro id e hget hroot bound hbound
    cases bound with
    | zero => omega
    | succ bound =>
        refine ⟨e, ?_, hroot⟩
        simp [ancestorsWithin, hget, hroot]
  · intro id e hget hparent _ ih bound hbound
    cases bound with
    | zero => omega
    | succ bound =>
        have hold := h.older id e hget hparent
        obtain ⟨r, hr, hroot⟩ := ih bound (by omega)
        refine ⟨r, ?_, hroot⟩
        simp only [ancestorsWithin, hget, String.isEmpty_iff, hparent, if_false]
        rw [List.getLast?_cons, hr]
        rfl

/-- **The entities around an entity are listed up to a root.** -/
theorem getLast?_ancestors (h : f.Sound) {id : String} (hid : f.contains id = true) :
    ∃ e, (f.ancestors id).getLast? = some e ∧ e.parent = "" :=
  h.getLast?_ancestorsWithin id hid f.size (idxOf_lt_size hid)

theorem getLast?_outwardWithin (h : f.Sound) :
    ∀ id, f.contains id = true → ∀ bound, f.ids.idxOf id + 1 < bound →
      (f.outwardWithin bound id).getLast? = some "" := by
  have hempty : ∀ bound, 0 < bound → (f.outwardWithin bound "").getLast? = some "" := by
    intro bound hbound
    cases bound with
    | zero => omega
    | succ bound => rfl
  refine h.parent_induction ?_ ?_
  · intro id e hget hroot bound hbound
    cases bound with
    | zero => omega
    | succ bound =>
        by_cases hid : id = ""
        · subst hid
          exact hempty _ (by omega)
        · simp only [outwardWithin, String.isEmpty_iff, hid, if_false, hget, Option.map_some,
            Option.getD_some, hroot]
          rw [List.getLast?_cons, hempty bound (by omega)]
          rfl
  · intro id e hget hparent _ ih bound hbound
    cases bound with
    | zero => omega
    | succ bound =>
        have hold := h.older id e hget hparent
        by_cases hid : id = ""
        · subst hid
          exact hempty _ (by omega)
        · simp only [outwardWithin, String.isEmpty_iff, hid, if_false, hget, Option.map_some,
            Option.getD_some]
          rw [List.getLast?_cons, ih bound (by omega)]
          rfl

/-- **A look-up goes outwards to the outermost scope**, also from an id that is not known. -/
theorem getLast?_outward (h : f.Sound) (scope : String) :
    (f.outward scope).getLast? = some "" := by
  by_cases hscope : f.contains scope = true
  · exact h.getLast?_outwardWithin scope hscope _ (Nat.succ_lt_succ
      (Nat.lt_succ_of_lt (idxOf_lt_size hscope)))
  · have hnew : f.contains scope = false := by simpa using hscope
    have hget : f.get? scope = none := Table.contains_eq_false_iff.mp hnew
    unfold outward
    by_cases hempty : scope = ""
    · subst hempty
      rfl
    · simp [outwardWithin, hempty, hget]

end Sound

/-- What the links of a forest promise to whoever follows them. -/
structure WellLinked (f : Forest) : Prop where
  /-- No id is taken twice, and an entity is stored under its own. -/
  distinct : f.ids.Nodup
  keyed : ∀ id e, f.get? id = some e → e.id = id
  /-- The roots are the entities without a parent, each once, in order of creation. -/
  roots : f.roots = (f.entities.values.filter (·.parent == "")).map (·.id)
  roots_nodup : f.roots.Nodup
  /-- A parent exists and lists its child once. -/
  listed : ∀ id e, f.get? id = some e → e.parent ≠ "" →
    ∃ p, f.get? e.parent = some p ∧ p.children.count id = 1
  /-- A listed child exists and names the one that lists it. -/
  answered : ∀ id e child, f.get? id = some e → child ∈ e.children →
    ∃ c, f.get? child = some c ∧ c.parent = id
  rooted : ∀ id, f.contains id = true → f.Rooted id
  /-- The bounded walks are never cut short: one ends at a root, the other at the
  outermost scope. -/
  ancestors : ∀ id, f.contains id = true →
    ∃ e, (f.ancestors id).getLast? = some e ∧ e.parent = ""
  outward : ∀ scope, (f.outward scope).getLast? = some ""

theorem Sound.wellLinked {f : Forest} (h : f.Sound) : f.WellLinked where
  distinct := h.distinct
  keyed := h.keyed
  roots := h.roots
  roots_nodup := by
    rw [h.roots]
    exact h.nodup_idsUnder ""
  listed := fun _ _ hget hparent => h.listed_once hget hparent
  answered := fun _ _ _ hget hchild => (h.parent_of_mem_children hget hchild).2
  rooted := h.rooted
  ancestors := fun _ hid => h.getLast?_ancestors hid
  outward := h.getLast?_outward

end Forest

end DocForest
