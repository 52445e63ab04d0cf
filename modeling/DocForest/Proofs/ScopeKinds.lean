/-
Symbols stand for entities of their own sort.

Some declarations become scopes and the others do not, and which it is follows from the kind of
the declaration (`isScope_of_classify`).  If every symbol is of one kind, the registry can keep
the two apart: symbols that can hold members are bound to scopes, the others to entities that can
hold none, and what has members is a scope (`Registry.Proper`).

Binding a symbol, taking in a sighting and holding the place of a scope keep it this way, each
under a condition: the parent is a scope, and the id at which a place is held belongs to nothing
that can hold no members.  Merging is harmless, since only the kind of a ghost gives way, and a
ghost is a scope to begin with.
-/
import DocForest.Proofs.Symbols
import DocForest.Walk.Basic

namespace DocForest

open Source

/-! ### Kinds -/

/-- Whether things of this kind can hold members. -/
def Source.DeclKind.isScope : DeclKind → Bool
  | nameSpace | record _ | classTemplate | partialSpecialization | enumeration => true
  | _ => false

theorem isScope_of_classify {kind : DeclKind} {name : String} {tokens : List String}
    {parent : Option (Kind × String)} {c : Classification}
    (h : classify kind name tokens parent = some c) : c.kind.isScope = kind.isScope := by
  cases kind <;> simp only [classify, Option.some.injEq, reduceCtorEq] at h <;> subst h <;> rfl

theorem isSome_classify? (s : Symbol) : s.classify?.isSome = s.kind.isScope := by
  rw [Symbol.classify?]
  cases s.kind <;> rfl

/-- What has members, and what only holds the place of a scope, is a scope. -/
def Entity.Roomy (e : Entity) : Prop :=
  e.children ≠ [] ∨ e.ghost = true → e.kind.isScope = true

@[simp] theorem Entity.kind_addChild (e : Entity) (child : String) :
    (e.addChild child).kind = e.kind := by
  unfold addChild
  split <;> rfl

/-- Merging changes the kind of a ghost only, and a ghost is a scope. -/
theorem Entity.Roomy.isScope_merge {e other : Entity} (h : e.Roomy)
    (hkind : e.kind.isScope = true → other.kind.isScope = true) :
    (e.merge other).kind.isScope = e.kind.isScope := by
  show (e.mergedDetail other).kind.isScope = _
  unfold mergedDetail
  split
  · rw [Detail.kind_merge]
    rfl
  · split
    · rename_i hghost
      have hscope : e.kind.isScope = true := h (Or.inr hghost)
      rw [hscope]
      exact hkind hscope
    · rfl

theorem Entity.Roomy.merge {e other : Entity} (h : e.Roomy)
    (hkind : e.kind.isScope = true → other.kind.isScope = true) (hchildren : other.children = []) :
    (e.merge other).Roomy := by
  rintro (hmembers | hghost)
  · rw [h.isScope_merge hkind]
    refine h (Or.inl ?_)
    simpa [Entity.merge, hchildren, union] using hmembers
  · cases hghost

namespace Forest

/-- Whether there is an entity with this id that can hold no members. -/
def isLeaf (f : Forest) (id : String) : Bool :=
  (f.get? id).any (!·.kind.isScope)

/-- Members can stand under an id: that of the outermost scope, or of a scope that is stored. -/
def Houses (f : Forest) (id : String) : Prop :=
  id = "" ∨ ∃ e, f.get? id = some e ∧ e.kind.isScope = true

/-- All entities of a forest are in a later one, and none has become a scope or is one no more. -/
def KeepsKinds (f f' : Forest) : Prop :=
  ∀ id e, f.get? id = some e → ∃ e', f'.get? id = some e' ∧ e'.kind.isScope = e.kind.isScope

variable {f f' : Forest}

theorem isLeaf_iff {id : String} :
    f.isLeaf id = true ↔ ∃ e, f.get? id = some e ∧ e.kind.isScope = false := by
  simp [isLeaf, Option.any_eq_true]

theorem Houses.isLeaf_eq_false {id : String} (h : f.Houses id) (hid : id ≠ "") :
    f.isLeaf id = false := by
  obtain ⟨e, he, hscope⟩ := h.resolve_left hid
  simp [isLeaf, he, hscope]

theorem KeepsKinds.refl (f : Forest) : f.KeepsKinds f :=
  fun _ e he => ⟨e, he, rfl⟩

theorem KeepsKinds.trans {f₁ f₂ f₃ : Forest} (h₁ : f₁.KeepsKinds f₂) (h₂ : f₂.KeepsKinds f₃) :
    f₁.KeepsKinds f₃ := by
  intro id e₁ he₁
  obtain ⟨e₂, he₂, hkind₂⟩ := h₁ id e₁ he₁
  obtain ⟨e₃, he₃, hkind₃⟩ := h₂ id e₂ he₂
  exact ⟨e₃, he₃, hkind₃.trans hkind₂⟩

theorem KeepsKinds.houses (h : f.KeepsKinds f') {id : String} (hid : f.Houses id) :
    f'.Houses id := by
  refine hid.imp_right ?_
  rintro ⟨e, he, hscope⟩
  obtain ⟨e', he', hkind⟩ := h id e he
  exact ⟨e', he', hkind.trans hscope⟩

theorem KeepsKinds.isLeaf (h : f.KeepsKinds f') {id : String} (hid : f.isLeaf id = true) :
    f'.isLeaf id = true := by
  rw [isLeaf_iff] at hid ⊢
  obtain ⟨e, he, hleaf⟩ := hid
  obtain ⟨e', he', hkind⟩ := h id e he
  exact ⟨e', he', hkind.trans hleaf⟩

/-! ### Storing and merging -/

/-- What is found after an entity is stored: what was there or the new entity, and its parent
lists it. -/
theorem get?_insert {e : Entity} (hnew : f.contains e.id = false) (id : String) :
    (f.insert e).get? id = ((f.get? id).or (if id = e.id then some e else none)).map fun x =>
      if id = e.parent ∧ e.parent ≠ "" then x.addChild e.id else x := by
  have hstored : ∀ roots, (Forest.mk (f.entities.insertNew e.id e) roots).get? id =
      (f.get? id).or (if id = e.id then some e else none) := by
    intro roots
    refine (Table.get?_insertNew f.entities e.id e id).trans ?_
    show (if id = e.id then some ((f.get? id).getD e) else f.get? id) = _
    by_cases hid : id = e.id
    · rw [if_pos hid, if_pos hid]
      cases f.get? id <;> rfl
    · rw [if_neg hid, if_neg hid, Option.or_none]
  rw [insert, if_neg (by simp [hnew]), link]
  by_cases hroot : e.parent = ""
  · simp [hroot, hstored]
  · rw [if_neg (by simpa using hroot), addChild, get?_modify, hstored]
    by_cases hid : id = e.parent
    · simp [hid, hroot]
    · simp [hid]

theorem keepsKinds_insert {e : Entity} (hnew : f.contains e.id = false) :
    f.KeepsKinds (f.insert e) := by
  intro id x hx
  rw [get?_insert hnew, hx]
  refine ⟨_, rfl, ?_⟩
  split
  · rw [Entity.kind_addChild]
  · rfl

/-- The new entity is stored with its kind. -/
theorem exists_get?_insert {e : Entity} (hnew : f.contains e.id = false) :
    ∃ x, (f.insert e).get? e.id = some x ∧ x.kind = e.kind := by
  have hnone : f.get? e.id = none := Table.contains_eq_false_iff.mp hnew
  rw [get?_insert hnew, hnone, if_pos rfl]
  refine ⟨_, rfl, ?_⟩
  split
  · rw [Entity.kind_addChild]
  · rfl

/-- **Under a scope**, an entity can be stored. -/
theorem roomy_insert (h : ∀ id x, f.get? id = some x → x.Roomy) {e : Entity}
    (hnew : f.contains e.id = false) (he : e.Roomy) (hparent : f.Houses e.parent) {id : String}
    {x : Entity} (hx : (f.insert e).get? id = some x) : x.Roomy := by
  rw [get?_insert hnew, Option.map_eq_some_iff] at hx
  obtain ⟨y, hy, rfl⟩ := hx
  split
  · -- The parent is a scope, so it is not the new entity.
    rename_i hid
    obtain ⟨p, hp, hscope⟩ := hparent.resolve_left hid.2
    rw [hid.1, hp, Option.some_or] at hy
    obtain rfl : p = y := Option.some.inj hy
    intro _
    rw [Entity.kind_addChild]
    exact hscope
  · rcases Option.or_eq_some_iff.mp hy with hold | ⟨-, hfresh⟩
    · exact h id y hold
    · split at hfresh
      · exact Option.some.inj hfresh ▸ he
      · cases hfresh

end Forest

/-! ### Symbols and what they stand for -/

namespace Registry

/-- Symbols that can hold members stand for scopes, the others for entities that are none, and
only scopes have members. -/
structure Proper (kindOf : String → DeclKind) (r : Registry) : Prop where
  scopes : ∀ usr id, r.lookup? usr = some id → (kindOf usr).isScope = true → r.forest.Houses id
  leaves : ∀ usr id, r.lookup? usr = some id → (kindOf usr).isScope = false →
    r.forest.isLeaf id = true
  roomy : ∀ id e, r.forest.get? id = some e → e.Roomy

/-- A proper registry that came out of another one. -/
structure Improves (kindOf : String → DeclKind) (r r' : Registry) : Prop where
  proper : r'.Proper kindOf
  kinds : r.forest.KeepsKinds r'.forest

variable {kindOf : String → DeclKind} {r : Registry}

theorem empty_proper (kindOf : String → DeclKind) : Proper kindOf {} where
  scopes := by intro usr id h; simp [lookup?, Table.get?] at h
  leaves := by intro usr id h; simp [lookup?, Table.get?] at h
  roomy := by intro id e h; simp [Forest.get?, Table.get?] at h

theorem Improves.refl (h : r.Proper kindOf) : r.Improves kindOf r :=
  ⟨h, .refl r.forest⟩

theorem Improves.trans {r₁ r₂ r₃ : Registry} (h₁ : r₁.Improves kindOf r₂)
    (h₂ : r₂.Improves kindOf r₃) : r₁.Improves kindOf r₃ :=
  ⟨h₂.proper, h₁.kinds.trans h₂.kinds⟩

/-- A symbol is bound anew, and the forest under it changes. -/
theorem Proper.bind (h : r.Proper kindOf) {f : Forest} (hkinds : r.forest.KeepsKinds f)
    (hroomy : ∀ id e, f.get? id = some e → e.Roomy) {usr id : String}
    (hscope : (kindOf usr).isScope = true → f.Houses id)
    (hleaf : (kindOf usr).isScope = false → f.isLeaf id = true) :
    r.Improves kindOf { bindings := r.bindings.insert usr id, forest := f } := by
  refine ⟨⟨?_, ?_, hroomy⟩, hkinds⟩
  · intro u i hu hkind
    rw [lookup?_insert] at hu
    split at hu
    · rename_i huu
      exact Option.some.inj hu ▸ hscope (huu ▸ hkind)
    · exact hkinds.houses (h.scopes u i hu hkind)
  · intro u i hu hkind
    rw [lookup?_insert] at hu
    split at hu
    · rename_i huu
      exact Option.some.inj hu ▸ hleaf (huu ▸ hkind)
    · exact hkinds.isLeaf (h.leaves u i hu hkind)

theorem Proper.bindScope (h : r.Proper kindOf) {f : Forest} (hkinds : r.forest.KeepsKinds f)
    (hroomy : ∀ id e, f.get? id = some e → e.Roomy) {usr id : String}
    (husr : (kindOf usr).isScope = true) (hid : f.Houses id) :
    r.Improves kindOf { bindings := r.bindings.insert usr id, forest := f } := by
  refine h.bind hkinds hroomy (fun _ => hid) ?_
  intro hleaf
  rw [husr] at hleaf
  cases hleaf

theorem Proper.register (h : r.Proper kindOf) {usr id : String}
    (husr : (kindOf usr).isScope = true) (hid : r.forest.Houses id) :
    r.Improves kindOf (r.register usr id) := by
  unfold Registry.register Table.insertNew
  split
  · exact .refl h
  · rename_i hfree
    have hbind := h.bindScope (.refl r.forest) h.roomy husr hid
    rwa [Table.insert, if_neg hfree] at hbind

/-- **A sighting** of a symbol keeps the registry proper, if its parent is a scope. -/
theorem Proper.resolve (h : r.Proper kindOf) {usr : String} {e : Entity}
    (hkind : e.kind.isScope = (kindOf usr).isScope) (hchildren : e.children = [])
    (hghost : e.ghost = false) (hparent : r.forest.Houses e.parent) :
    r.Improves kindOf (r.resolve usr e).2 := by
  have hroomy : e.Roomy := by simp [Entity.Roomy, hchildren, hghost]
  rcases r.resolve_cases usr e with ⟨id, hstored, hres⟩ | ⟨-, -, hres⟩ | ⟨-, hnew, hres⟩
  · obtain ⟨hlookup, hid⟩ := storedId?_eq_some.mp hstored
    have hscope : ∀ e₀, r.forest.get? id = some e₀ → e₀.kind.isScope = true →
        e.kind.isScope = true := by
      intro e₀ he₀ hscope
      cases hsort : e.kind.isScope with
      | true => rfl
      | false =>
          obtain ⟨e₁, he₁, hleaf⟩ := Forest.isLeaf_iff.mp (h.leaves usr id hlookup (hkind ▸ hsort))
          obtain rfl : e₀ = e₁ := Option.some.inj (he₀.symm.trans he₁)
          rw [hscope] at hleaf
          cases hleaf
    have hkinds : r.forest.KeepsKinds (r.forest.modify id (·.merge e)) := by
      intro k e₀ he₀
      rw [Forest.get?_modify]
      split
      · rename_i hk
        rw [he₀]
        exact ⟨_, rfl, (h.roomy k e₀ he₀).isScope_merge (hscope e₀ (hk ▸ he₀))⟩
      · exact ⟨e₀, he₀, rfl⟩
    rw [hres]
    refine ⟨⟨?_, ?_, ?_⟩, hkinds⟩
    · exact fun u i hu hk => hkinds.houses (h.scopes u i hu hk)
    · exact fun u i hu hk => hkinds.isLeaf (h.leaves u i hu hk)
    · intro k x hx
      rw [Forest.get?_modify] at hx
      split at hx
      · rename_i hk
        obtain ⟨e₀, he₀, rfl⟩ := Option.map_eq_some_iff.mp hx
        exact (h.roomy k e₀ he₀).merge (hscope e₀ (hk ▸ he₀)) hchildren
      · exact h.roomy k x hx
  · rw [hres]
    exact .refl h
  · rw [hres]
    obtain ⟨x, hx, hxkind⟩ := Forest.exists_get?_insert hnew
    refine h.bind (Forest.keepsKinds_insert hnew) ?_ ?_ ?_
    · exact fun id y => Forest.roomy_insert h.roomy hnew hroomy hparent
    · intro hscope
      exact Or.inr ⟨x, hx, by rw [hxkind, hkind, hscope]⟩
    · intro hleaf
      exact Forest.isLeaf_iff.mpr ⟨x, hx, by rw [hxkind, hkind, hleaf]⟩

@[simp] theorem kind_ghost (c : Classification) (id name parent : String) :
    (ghost c id name parent).kind = c.kind := by
  rw [Entity.kind, ghost, Detail.kind_mapRecord, Detail.kind_blank]

theorem ghost_roomy {c : Classification} (hc : c.kind.isScope = true) (id name parent : String) :
    (ghost c id name parent).Roomy := by
  intro _
  rw [kind_ghost]
  exact hc

/-- No ghost is stored under an id that is taken. -/
theorem forest_holdPlace_of_isLeaf {s : Symbol} {c : Classification} {parent : String}
    (h : r.forest.isLeaf (r.holdPlace s c parent).1 = true) :
    (r.holdPlace s c parent).2.forest = r.forest := by
  obtain ⟨e, he, -⟩ := Forest.isLeaf_iff.mp h
  exact if_pos (Forest.contains_of_get? he)

/-- A scope that is not known is bound to its id, and no entity that can hold no members has
it. -/
theorem Proper.holdPlace (h : r.Proper kindOf) {s : Symbol} (hs : (kindOf s.usr).isScope = true)
    {c : Classification} (hc : c.kind.isScope = true) {parent : String}
    (hparent : r.forest.Houses parent)
    (hfree : r.forest.isLeaf (r.holdPlace s c parent).1 = false) :
    r.Improves kindOf (r.holdPlace s c parent).2 ∧
      (r.holdPlace s c parent).2.forest.Houses (r.holdPlace s c parent).1 := by
  unfold Registry.holdPlace at hfree ⊢
  dsimp only at hfree ⊢
  generalize memberId c.kind s.name parent { isTemplate := c.isTemplate } = id at hfree ⊢
  split
  · rename_i htaken
    obtain ⟨e, he⟩ := Forest.contains_iff_exists.mp htaken
    have hhouses : r.forest.Houses id := by
      refine Or.inr ⟨e, he, ?_⟩
      simpa [Forest.isLeaf, he] using hfree
    exact ⟨h.bindScope (.refl r.forest) h.roomy hs hhouses, hhouses⟩
  · rename_i hnew
    replace hnew : r.forest.contains (ghost c id s.name parent).id = false :=
      Bool.eq_false_iff.mpr hnew
    obtain ⟨x, hx, hxkind⟩ := Forest.exists_get?_insert hnew
    have hhouses : (r.forest.insert (ghost c id s.name parent)).Houses id := by
      refine Or.inr ⟨x, hx, ?_⟩
      rw [hxkind, kind_ghost]
      exact hc
    refine ⟨h.bindScope (Forest.keepsKinds_insert hnew) ?_ hs hhouses, hhouses⟩
    exact fun i y => Forest.roomy_insert h.roomy hnew (ghost_roomy hc id s.name parent) hparent

/-- A symbol whose sighting is stored is bound to the entity. -/
theorem lookup?_resolve {usr id : String} {e : Entity}
    (h : (r.resolve usr e).1.stored? = some id) : (r.resolve usr e).2.lookup? usr = some id := by
  unfold Registry.resolve at h ⊢
  cases hstored : r.storedId? usr with
  | some i =>
      rw [hstored] at h
      rw [← Option.some.inj h]
      exact (storedId?_eq_some.mp hstored).1
  | none =>
      rw [hstored] at h
      dsimp only at h ⊢
      split at h
      · cases h
      · rename_i hnew
        rw [if_neg hnew, ← Option.some.inj h, lookup?_insert, if_pos rfl]

end Registry

end DocForest
