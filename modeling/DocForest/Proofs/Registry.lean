/-
A walk over declarations keeps the links sound.

Entities come into the forest on two ways: from a declaration, and as a ghost for a scope
that a declaration only names.  Either way the parent is an id that the walk got from
somewhere: the scope it is in, a symbol that is bound already, or a ghost that was just
made.  `Registry.Sound` says of all these ids that they are known, and `Grows` says that
what is known stays known, which the walk needs when it comes back to a scope after the
declarations inside it.

Nothing is assumed of the declarations.  Symbols may repeat in a chain of scopes, names
may be empty, and a symbol may be bound to an entity of quite another kind.
-/
import DocForest.Proofs.Outline
import DocForest.Walk.Basic

namespace DocForest

namespace Registry

/-- The links of the forest are sound, and symbols are bound to known scopes only. -/
structure Sound (r : Registry) : Prop where
  forest : r.forest.Sound
  bound : ∀ usr id, r.lookup? usr = some id → r.forest.Knows id

/-- One registry came out of another: it is sound, and no scope is forgotten. -/
structure Grows (r r' : Registry) : Prop where
  sound : r'.Sound
  keeps : ∀ scope, r.forest.Knows scope → r'.forest.Knows scope

theorem Grows.refl {r : Registry} (h : r.Sound) : r.Grows r :=
  ⟨h, fun _ hk => hk⟩

theorem Grows.trans {r₁ r₂ r₃ : Registry} (h₁ : r₁.Grows r₂) (h₂ : r₂.Grows r₃) :
    r₁.Grows r₃ :=
  ⟨h₂.sound, fun scope hk => h₂.keeps scope (h₁.keeps scope hk)⟩

theorem empty_sound : Sound {} where
  forest := Forest.empty_sound
  bound := by intro usr id h; simp [lookup?, Table.get?] at h

/-! ### Binding a symbol -/

theorem lookup?_register (r : Registry) (usr id u : String) :
    (r.register usr id).lookup? u =
      if u = usr then some ((r.lookup? u).getD id) else r.lookup? u :=
  Table.get?_insertNew r.bindings usr id u

/-- Symbols stay bound to known scopes when one that is not bound gets a known scope. -/
theorem knows_of_lookup?_register {r : Registry} {f : Forest}
    (hbound : ∀ u i, r.lookup? u = some i → f.Knows i) {id : String} (hid : f.Knows id)
    {usr u i : String} (hu : (r.register usr id).lookup? u = some i) : f.Knows i := by
  rw [lookup?_register] at hu
  split at hu
  · cases hold : r.lookup? u with
    | none =>
        rw [hold] at hu
        exact Option.some.inj hu ▸ hid
    | some j =>
        rw [hold] at hu
        exact Option.some.inj hu ▸ hbound u j hold
  · exact hbound u i hu

/-- The same when one is bound anew. -/
theorem knows_of_lookup?_rebind {r : Registry} {f f' : Forest}
    (hbound : ∀ u i, r.lookup? u = some i → f.Knows i) {id : String} (hid : f.Knows id)
    {usr u i : String}
    (hu : lookup? { bindings := r.bindings.insert usr id, forest := f' } u = some i) :
    f.Knows i := by
  have hget : (r.bindings.insert usr id).get? u = some i := hu
  rw [Table.get?_insert] at hget
  split at hget
  · exact Option.some.inj hget ▸ hid
  · exact hbound u i hget

theorem register_grows {r : Registry} (h : r.Sound) {id : String} (hid : r.forest.Knows id)
    (usr : String) : r.Grows (r.register usr id) :=
  ⟨⟨h.forest, fun _ _ hu => knows_of_lookup?_register h.bound hid hu⟩, fun _ hk => hk⟩

/-- Binding a symbol anew and changing the forest under it. -/
theorem rebind_grows {r : Registry} (h : r.Sound) {f : Forest} (hf : f.Sound)
    (hkeeps : ∀ scope, r.forest.Knows scope → f.Knows scope) {id : String} (hid : f.Knows id)
    (usr : String) : r.Grows { bindings := r.bindings.insert usr id, forest := f } := by
  have hbound : ∀ u i, r.lookup? u = some i → f.Knows i :=
    fun u i hu => hkeeps i (h.bound u i hu)
  exact ⟨⟨hf, fun _ _ hu => knows_of_lookup?_rebind hbound hid hu⟩, hkeeps⟩

/-! ### Storing entities -/

/-- Storing an entity forgets no scope. -/
theorem knows_insert {f : Forest} {e : Entity} (hparent : f.Knows e.parent) {scope : String}
    (hk : f.Knows scope) : (f.insert e).Knows scope := by
  rcases hk with hk | hk
  · exact Or.inl hk
  · exact Or.inr ((Forest.contains_insert hparent).mpr (Or.inl hk))

theorem holdPlace_grows {r : Registry} (h : r.Sound) (s : Source.Symbol)
    (c : Source.Classification) {parent : String} (hparent : r.forest.Knows parent) :
    r.Grows (r.holdPlace s c parent).2 ∧
      (r.holdPlace s c parent).2.forest.Knows (r.holdPlace s c parent).1 := by
  unfold holdPlace
  dsimp only
  generalize memberId c.kind s.name parent { isTemplate := c.isTemplate } = id
  by_cases hc : r.forest.contains id = true
  · rw [if_pos hc]
    exact ⟨rebind_grows h h.forest (fun _ hk => hk) (Or.inr hc) s.usr, Or.inr hc⟩
  · rw [if_neg hc]
    have hsound : (r.forest.insert (ghost c id s.name parent)).Sound :=
      Forest.insert_sound h.forest rfl hparent
    have hkeeps : ∀ scope, r.forest.Knows scope →
        (r.forest.insert (ghost c id s.name parent)).Knows scope :=
      fun _ hk => knows_insert hparent hk
    have hknown : (r.forest.insert (ghost c id s.name parent)).Knows id :=
      Or.inr ((Forest.contains_insert hparent).mpr (Or.inr rfl))
    exact ⟨rebind_grows h hsound hkeeps hknown s.usr, hknown⟩

/-- **Asking for a scope makes it known**, with the scopes around it. -/
theorem ensureScope_grows {r : Registry} (h : r.Sound) (chain : List Source.Symbol) :
    r.Grows (r.ensureScope chain).2 ∧
      (r.ensureScope chain).2.forest.Knows (r.ensureScope chain).1 := by
  induction chain with
  | nil => exact ⟨Grows.refl h, Or.inl rfl⟩
  | cons s outer ih =>
      obtain ⟨hgrows, hknown⟩ := ih
      rw [ensureScope]
      cases hbound : r.lookup? s.usr with
      | some id => exact ⟨Grows.refl h, h.bound s.usr id hbound⟩
      | none =>
          dsimp only
          cases s.classify? with
          | none => exact ⟨hgrows, hknown⟩
          | some c =>
              dsimp only
              by_cases hname : isAnonymous s.name = true
              · rw [if_pos hname]
                have hreg := register_grows hgrows.sound hknown s.usr
                exact ⟨hgrows.trans hreg, hreg.keeps _ hknown⟩
              · rw [if_neg hname]
                obtain ⟨hplace, hid⟩ := holdPlace_grows hgrows.sound s c hknown
                exact ⟨hgrows.trans hplace, hid⟩

theorem knows_of_storedId? {r : Registry} {usr id : String} (h : r.storedId? usr = some id) :
    r.forest.Knows id := by
  obtain ⟨-, hc⟩ := Option.filter_eq_some_iff.mp h
  exact Or.inr hc

/-- **Taking in a sighting keeps the registry sound**, whatever becomes of it. -/
theorem resolve_grows {r : Registry} (h : r.Sound) (usr : String) {e : Entity}
    (hchildren : e.children = []) (hparent : r.forest.Knows e.parent) :
    r.Grows (r.resolve usr e).2 ∧
      ∀ id, (r.resolve usr e).1.stored? = some id → (r.resolve usr e).2.forest.Knows id := by
  unfold resolve
  cases hstored : r.storedId? usr with
  | some id =>
      have houtline : (r.forest.modify id (·.merge e)).outline = r.forest.outline :=
        Forest.outline_modify _ _ fun e₀ => Forest.place_merge e₀ hchildren
      have hkeeps : ∀ scope, r.forest.Knows scope →
          (r.forest.modify id (·.merge e)).Knows scope :=
        fun _ hk => Forest.knows_of_ids_eq (Forest.ids_modify _ _ _) hk
      refine ⟨⟨⟨h.forest.of_outline houtline, ?_⟩, hkeeps⟩, ?_⟩
      · intro u i hu
        exact hkeeps i (h.bound u i hu)
      · intro i hi
        have hi' : id = i := Option.some.inj hi
        rw [← hi']
        exact hkeeps id (knows_of_storedId? hstored)
  | none =>
      dsimp only
      by_cases hc : r.forest.contains e.id = true
      · rw [if_pos hc]
        exact ⟨Grows.refl h, by intro i hi; simp [Sighting.stored?] at hi⟩
      · rw [if_neg hc]
        have hknown : (r.forest.insert e).Knows e.id :=
          Or.inr ((Forest.contains_insert hparent).mpr (Or.inr rfl))
        refine ⟨rebind_grows h (Forest.insert_sound h.forest hchildren hparent)
          (fun _ hk => knows_insert hparent hk) hknown usr, ?_⟩
        intro i hi
        have hi' : e.id = i := Option.some.inj hi
        rw [← hi']
        exact hknown

end Registry

namespace Walk

open Source

/-- What comes of one declaration: the registry grows, and the scope that the walk goes
on in is known. -/
structure Leads (s : State) (result : State × Option String) : Prop where
  grows : s.registry.Grows result.1.registry
  known : ∀ inner, result.2 = some inner → result.1.registry.forest.Knows inner

theorem Leads.stop {s : State} (h : s.registry.Sound) : Leads s (s, none) :=
  ⟨Registry.Grows.refl h, by intro inner hi; simp at hi⟩

theorem Leads.into {s s' : State} (hgrows : s.registry.Grows s'.registry) {scope : String}
    (hknown : s'.registry.forest.Knows scope) : Leads s (s', some scope) := by
  refine ⟨hgrows, ?_⟩
  intro inner hi
  rw [← Option.some.inj hi]
  exact hknown

theorem store_leads (file : FileContext) {s : State} (h : s.registry.Sound) (d : Decl)
    (c : Classification) {e : Entity} (hchildren : e.children = [])
    (hparent : s.registry.forest.Knows e.parent) : Leads s (store file s d c e) := by
  obtain ⟨hgrows, hknown⟩ := Registry.resolve_grows h d.usr hchildren hparent
  unfold store
  cases hres : s.registry.resolve d.usr e with
  | mk sighting registry =>
      rw [hres] at hgrows hknown
      have hscope : ∀ id, sighting.stored? = some id →
          Leads s ({ s with registry }, if c.kind.isScope then some id else none) := by
        intro id hid
        refine ⟨hgrows, ?_⟩
        intro inner hi
        by_cases hkind : c.kind.isScope = true
        · rw [if_pos hkind] at hi
          rw [← Option.some.inj hi]
          exact hknown id hid
        · rw [if_neg hkind] at hi
          simp at hi
      cases sighting with
      | collision id => exact ⟨hgrows, by intro inner hi; simp at hi⟩
      | created id => exact hscope id rfl
      | merged id => exact hscope id rfl

theorem declare_leads (file : FileContext) {s : State} (h : s.registry.Sound) (d : Decl)
    (inner : List Decl) {parent : String} (hparent : s.registry.forest.Knows parent) :
    Leads s (declare file s d inner parent) := by
  unfold declare
  dsimp only
  cases classify d.kind d.name d.tokens
      ((s.registry.forest.get? parent).map fun p => (p.kind, p.name)) with
  | none => exact Leads.stop h
  | some c =>
      dsimp only
      split
      · exact Leads.stop h
      split
      · have hreg := Registry.register_grows h hparent d.usr
        exact Leads.into hreg (hreg.keeps parent hparent)
      · exact store_leads file h d c rfl hparent

theorem scopeOf_grows {s : State} (h : s.registry.Sound) (d : Decl) {parent : String}
    (hparent : s.registry.forest.Knows parent) :
    s.registry.Grows (scopeOf s d parent).2.registry ∧
      (scopeOf s d parent).2.registry.forest.Knows (scopeOf s d parent).1 := by
  unfold scopeOf
  cases d.scopes with
  | nil => exact ⟨Registry.Grows.refl h, hparent⟩
  | cons symbol outer => exact Registry.ensureScope_grows h (symbol :: outer)

/-- **One declaration leads to a known scope in a sound registry.** -/
theorem enter_leads (file : FileContext) {s : State} (h : s.registry.Sound) (d : Decl)
    (inner : List Decl) {parent : String} (hparent : s.registry.forest.Knows parent) :
    Leads s (enter file s d inner parent) := by
  unfold enter
  cases d.file with
  | none => exact Leads.into (Registry.Grows.refl h) hparent
  | some path =>
      dsimp only
      split
      · exact Leads.stop h
      split
      · exact Leads.into (Registry.Grows.refl h) hparent
      · obtain ⟨hgrows, hscope⟩ := scopeOf_grows h d hparent
        have hlead := declare_leads file hgrows.sound d inner hscope
        exact ⟨hgrows.trans hlead.grows, hlead.known⟩

/-! ### The whole tree

The induction is on the declarations.  A scope is left and entered again between two
declarations inside it, and `keeps` says that it is still known then.
-/

mutual

theorem visit_grows (file : FileContext) (t : DeclTree) (parent : String) (s : State)
    (h : s.registry.Sound) (hparent : s.registry.forest.Knows parent) :
    s.registry.Grows (visit file parent s t).registry := by
  cases t with
  | node d children =>
      have hlead := enter_leads file h d (children.map DeclTree.decl) hparent
      rw [visit]
      cases henter : enter file s d (children.map DeclTree.decl) parent with
      | mk s' scope =>
          rw [henter] at hlead
          cases scope with
          | none => exact hlead.grows
          | some inner =>
              exact hlead.grows.trans
                (visitAll_grows file children inner s' hlead.grows.sound (hlead.known inner rfl))

theorem visitAll_grows (file : FileContext) (ts : List DeclTree) (parent : String) (s : State)
    (h : s.registry.Sound) (hparent : s.registry.forest.Knows parent) :
    s.registry.Grows (visitAll file parent s ts).registry := by
  cases ts with
  | nil => exact Registry.Grows.refl h
  | cons t rest =>
      have hfirst := visit_grows file t parent s h hparent
      rw [visitAll]
      exact hfirst.trans
        (visitAll_grows file rest parent _ hfirst.sound (hfirst.keeps parent hparent))

end

end Walk

end DocForest
