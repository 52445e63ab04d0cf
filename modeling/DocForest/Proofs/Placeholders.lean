/-
Asking for a scope, and asking for it again.

A scope is asked for together with the scopes around it.  Those that are not known get ghosts,
and that is all that happens to the forest: the ghosts come behind the entities that were there,
and an entity that was there at most lists some of the ghosts as its members
(`Forest.PaddedBy`).

Asking again stores nothing and binds nothing.  The answer is the same, too, but for one reason.
A symbol is bound while the scopes around it are looked for if it is one of them itself.  The
first time, this comes too late to be seen; the next time, the symbol is known and the answer is
its binding (`Registry.misleads`).  A named scope is bound anew in the end, so it does not matter
there, and where no symbol stands twice it cannot happen.
-/
import DocForest.Proofs.MemberScopes

namespace DocForest

open Source

/-- An entity of which nothing is known but that there is a scope. -/
structure Entity.HoldsPlace (e : Entity) : Prop where
  ghost : e.ghost = true
  header : e.header = ""
  brief : e.brief = ""
  doc : e.doc = ""
  group : e.group = ""

theorem Entity.HoldsPlace.withChildren {e : Entity} (h : e.HoldsPlace) (children : List String) :
    Entity.HoldsPlace { e with children } :=
  ⟨h.ghost, h.header, h.brief, h.doc, h.group⟩

/-! ### Forests -/

/-- A list goes on with some of the ids that are held. -/
def GoesOn (held xs ys : List String) : Prop :=
  ∃ more, more ⊆ held ∧ ys = xs ++ more

theorem GoesOn.refl (held xs : List String) : GoesOn held xs xs :=
  ⟨[], List.nil_subset held, (List.append_nil xs).symm⟩

theorem GoesOn.trans {held held' xs ys zs : List String} (h₁ : GoesOn held xs ys)
    (h₂ : GoesOn held' ys zs) : GoesOn (held ++ held') xs zs := by
  obtain ⟨more₁, hsub₁, rfl⟩ := h₁
  obtain ⟨more₂, hsub₂, rfl⟩ := h₂
  refine ⟨more₁ ++ more₂, List.append_subset.mpr ⟨?_, ?_⟩, List.append_assoc xs more₁ more₂⟩
  · exact List.Subset.trans hsub₁ (List.subset_append_left held held')
  · exact List.Subset.trans hsub₂ (List.subset_append_right held held')

theorem Entity.exists_addChild (e : Entity) (child : String) :
    ∃ children, GoesOn [child] e.children children ∧ e.addChild child = { e with children } := by
  unfold addChild
  split
  · exact ⟨e.children, .refl _ _, rfl⟩
  · exact ⟨e.children ++ [child], ⟨[child], List.Subset.refl _, rfl⟩, rfl⟩

namespace Forest

/-- A forest comes out of another one by holding some places: new entities that hold them are
stored behind the others.  What was there is the same, but its members may go on with new
entities, and so may the roots. -/
structure PaddedBy (f : Forest) (held : List String) (f' : Forest) : Prop where
  ids : f'.ids = f.ids ++ held
  fresh : ∀ id ∈ held, f.contains id = false
  distinct : held.Nodup
  holds : ∀ id ∈ held, ∃ e, f'.get? id = some e ∧ e.id = id ∧ e.HoldsPlace
  keeps : ∀ id e, f.get? id = some e →
    ∃ children, GoesOn held e.children children ∧ f'.get? id = some { e with children }
  roots : GoesOn held f.roots f'.roots

variable {f f₁ f₂ f₃ : Forest} {held held' : List String}

theorem PaddedBy.refl (f : Forest) : f.PaddedBy [] f where
  ids := (List.append_nil f.ids).symm
  fresh := by simp
  distinct := List.nodup_nil
  holds := by simp
  keeps _ e he := ⟨e.children, .refl _ _, he⟩
  roots := .refl _ _

theorem PaddedBy.contains_iff (h : f₁.PaddedBy held f₂) {id : String} :
    f₂.contains id = true ↔ f₁.contains id = true ∨ id ∈ held := by
  rw [contains_iff_mem_ids, contains_iff_mem_ids, h.ids, List.mem_append]

theorem PaddedBy.trans (h₁ : f₁.PaddedBy held f₂) (h₂ : f₂.PaddedBy held' f₃) :
    f₁.PaddedBy (held ++ held') f₃ where
  ids := by rw [h₂.ids, h₁.ids, List.append_assoc]
  fresh := by
    intro id hid
    rcases List.mem_append.mp hid with hid | hid
    · exact h₁.fresh id hid
    · have hnew := h₂.fresh id hid
      rw [Bool.eq_false_iff, Ne, h₁.contains_iff, not_or] at hnew
      exact Bool.eq_false_iff.mpr hnew.1
  distinct := by
    refine h₁.distinct.append h₂.distinct ?_
    intro id hid hid'
    have hnew := h₂.fresh id hid'
    rw [h₁.contains_iff.mpr (Or.inr hid)] at hnew
    cases hnew
  holds := by
    intro id hid
    rcases List.mem_append.mp hid with hid | hid
    · obtain ⟨e, he, rfl, hholds⟩ := h₁.holds id hid
      obtain ⟨children, -, he'⟩ := h₂.keeps e.id e he
      exact ⟨_, he', rfl, hholds.withChildren children⟩
    · exact h₂.holds id hid
  keeps := by
    intro id e he
    obtain ⟨children₁, hmore₁, he₁⟩ := h₁.keeps id e he
    obtain ⟨children₂, hmore₂, he₂⟩ := h₂.keeps id _ he₁
    exact ⟨children₂, hmore₁.trans hmore₂, he₂⟩
  roots := h₁.roots.trans h₂.roots

theorem roots_insert {e : Entity} (hnew : f.contains e.id = false) :
    (f.insert e).roots = if e.parent = "" then f.roots ++ [e.id] else f.roots := by
  rw [insert, if_neg (by simp [hnew]), link]
  by_cases hroot : e.parent = ""
  · rw [if_pos hroot, if_pos (by simpa using hroot)]
  · rw [if_neg hroot, if_neg (by simpa using hroot)]
    rfl

/-- **One place** is held by storing an entity for it. -/
theorem paddedBy_insert {e : Entity} (hnew : f.contains e.id = false) (he : e.HoldsPlace) :
    f.PaddedBy [e.id] (f.insert e) where
  ids := by rw [ids_insert, if_neg (by simp [hnew])]
  fresh := by simpa using hnew
  distinct := List.nodup_singleton e.id
  holds := by
    intro id hid
    obtain rfl := List.mem_singleton.mp hid
    have hnone : f.get? e.id = none := Table.contains_eq_false_iff.mp hnew
    rw [get?_insert hnew, hnone, if_pos rfl]
    refine ⟨_, rfl, ?_⟩
    split
    · show (e.addChild e.id).id = e.id ∧ (e.addChild e.id).HoldsPlace
      obtain ⟨children, -, hadd⟩ := e.exists_addChild e.id
      rw [hadd]
      exact ⟨rfl, he.withChildren children⟩
    · exact ⟨rfl, he⟩
  keeps := by
    intro id x hx
    rw [get?_insert hnew, hx]
    by_cases hparent : id = e.parent ∧ e.parent ≠ ""
    · obtain ⟨children, hmore, hadd⟩ := x.exists_addChild e.id
      refine ⟨children, hmore, ?_⟩
      rw [← hadd]
      exact congrArg some (if_pos hparent)
    · exact ⟨x.children, .refl _ _, congrArg some (if_neg hparent)⟩
  roots := by
    rw [roots_insert hnew]
    split
    · exact ⟨[e.id], List.Subset.refl _, rfl⟩
    · exact .refl _ _

end Forest

/-! ### One scope -/

/-- Whether a symbol is a scope that has an id of its own. -/
def Source.Symbol.isNamedScope (s : Symbol) : Bool :=
  s.kind.isScope && !isAnonymous s.name

namespace Registry

variable {r : Registry}

theorem ghost_holdsPlace (c : Classification) (id name parent : String) :
    (ghost c id name parent).HoldsPlace :=
  ⟨rfl, rfl, rfl, rfl, rfl⟩

theorem exists_holdPlace (r : Registry) (s : Symbol) (c : Classification) (parent : String) :
    ∃ id f held, r.holdPlace s c parent =
        (id, { bindings := r.bindings.insert s.usr id, forest := f }) ∧
      f.contains id = true ∧ r.forest.PaddedBy held f := by
  unfold holdPlace
  dsimp only
  generalize memberId c.kind s.name parent { isTemplate := c.isTemplate } = id
  cases htaken : r.forest.contains id with
  | true => exact ⟨id, r.forest, [], rfl, htaken, .refl r.forest⟩
  | false =>
      refine ⟨id, r.forest.insert (ghost c id s.name parent), [id], rfl, ?_, ?_⟩
      · exact Forest.contains_insert_iff.mpr (Or.inr rfl)
      · exact Forest.paddedBy_insert htaken (ghost_holdsPlace c id s.name parent)

theorem addScope_of_not_isScope (r : Registry) {s : Symbol} (hkind : s.kind.isScope = false)
    (parent : String) : r.addScope s parent = (parent, r) := by
  rw [← isSome_classify?, Option.isSome_eq_false_iff, Option.isNone_iff_eq_none] at hkind
  rw [addScope, hkind]

/-- What becomes of a scope that is not known, under the scope around it. -/
theorem addScope_cases (r : Registry) (s : Symbol) (parent : String) :
    (s.kind.isScope = false ∧ r.addScope s parent = (parent, r)) ∨
    (s.kind.isScope = true ∧ s.isNamedScope = false ∧
      r.addScope s parent = (parent, r.register s.usr parent)) ∨
    (s.isNamedScope = true ∧ ∃ id f held, r.addScope s parent =
        (id, { bindings := r.bindings.insert s.usr id, forest := f }) ∧
      f.contains id = true ∧ r.forest.PaddedBy held f) := by
  cases hkind : s.kind.isScope with
  | false => exact Or.inl ⟨rfl, r.addScope_of_not_isScope hkind parent⟩
  | true =>
      obtain ⟨c, hc⟩ := Option.isSome_iff_exists.mp ((isSome_classify? s).trans hkind)
      rw [addScope, hc, Symbol.isNamedScope, hkind]
      dsimp only
      cases isAnonymous s.name with
      | true => exact Or.inr (Or.inl ⟨rfl, rfl, rfl⟩)
      | false => exact Or.inr (Or.inr ⟨rfl, r.exists_holdPlace s c parent⟩)

/-! ### What is stored -/

/-- Asking for a scope holds places in the forest. -/
theorem exists_paddedBy_ensureScope (r : Registry) (chain : List Symbol) :
    ∃ held, r.forest.PaddedBy held (r.ensureScope chain).2.forest := by
  induction chain with
  | nil => exact ⟨[], .refl r.forest⟩
  | cons s outer ih =>
      rw [ensureScope_cons]
      cases r.lookup? s.usr with
      | some id => exact ⟨[], .refl r.forest⟩
      | none =>
          obtain ⟨held, hheld⟩ := ih
          dsimp only [Option.map_none, Option.getD_none]
          rcases (r.ensureScope outer).2.addScope_cases s (r.ensureScope outer).1 with
            ⟨-, hadd⟩ | ⟨-, -, hadd⟩ | ⟨-, id, f, more, hadd, -, hmore⟩
          · rw [hadd]
            exact ⟨held, hheld⟩
          · rw [hadd]
            exact ⟨held, hheld⟩
          · rw [hadd]
            exact ⟨held ++ more, hheld.trans hmore⟩

/-- Every symbol is bound to the outermost scope or to an entity that is stored. -/
def BindsKnown (r : Registry) : Prop :=
  ∀ usr id, r.lookup? usr = some id → r.forest.Knows id

theorem BindsKnown.addScope (h : r.BindsKnown) (s : Symbol) {parent : String}
    (hparent : r.forest.Knows parent) :
    (r.addScope s parent).2.BindsKnown ∧
      (r.addScope s parent).2.forest.Knows (r.addScope s parent).1 := by
  rcases r.addScope_cases s parent with
    ⟨-, hadd⟩ | ⟨-, -, hadd⟩ | ⟨-, id, f, held, hadd, hid, hheld⟩
  · rw [hadd]
    exact ⟨h, hparent⟩
  · rw [hadd]
    exact ⟨fun _ _ hu => knows_of_lookup?_register h hparent hu, hparent⟩
  · have hkept : ∀ u i, r.lookup? u = some i → f.Knows i := by
      intro u i hu
      refine (h u i hu).imp_right ?_
      intro hstored
      exact hheld.contains_iff.mpr (Or.inl hstored)
    rw [hadd]
    exact ⟨fun _ _ hu => knows_of_lookup?_rebind hkept (Or.inr hid) hu, Or.inr hid⟩

/-- The answer is an id that is known by then. -/
theorem BindsKnown.ensureScope (h : r.BindsKnown) (chain : List Symbol) :
    (r.ensureScope chain).2.BindsKnown ∧
      (r.ensureScope chain).2.forest.Knows (r.ensureScope chain).1 := by
  induction chain with
  | nil => exact ⟨h, Or.inl rfl⟩
  | cons s outer ih =>
      rw [ensureScope_cons]
      cases hlookup : r.lookup? s.usr with
      | some id => exact ⟨h, h s.usr id hlookup⟩
      | none => exact ih.1.addScope s ih.2

/-! ### Asking again -/

/-- Whether a symbol of the chain that is no named scope is asked for, and the scopes around it
bind it to something else than what it is answered with. -/
def misleads (r : Registry) : List Symbol → Bool
  | [] => false
  | s :: outer =>
    (r.lookup? s.usr).isNone &&
      let (id, r') := r.ensureScope outer
      match r'.lookup? s.usr with
      | some other => !s.isNamedScope && other != id
      | none => !s.kind.isScope && r.misleads outer

/-- **Asking again** changes nothing, and the answer is another one exactly if the first asking
misleads. -/
theorem ensureScope_again (r : Registry) (chain : List Symbol) :
    ∃ id, (r.ensureScope chain).2.ensureScope chain = (id, (r.ensureScope chain).2) ∧
      (id = (r.ensureScope chain).1 ↔ r.misleads chain = false) := by
  induction chain with
  | nil => exact ⟨"", rfl, by simp [misleads, ensureScope]⟩
  | cons s outer ih =>
      rw [ensureScope_cons r s outer, misleads]
      cases hlookup : r.lookup? s.usr with
      | some id =>
          refine ⟨id, ?_, by simp⟩
          show r.ensureScope (s :: outer) = (id, r)
          rw [ensureScope_cons, hlookup]
          rfl
      | none =>
          obtain ⟨parent', hparent', hiff⟩ := ih
          dsimp only [Option.map_none, Option.getD_none, Option.isNone_none, Bool.true_and]
          generalize r.ensureScope outer = answer at hparent' hiff ⊢
          obtain ⟨parent, r'⟩ := answer
          dsimp only at hparent' hiff ⊢
          rcases r'.addScope_cases s parent with
            ⟨hkind, hadd⟩ | ⟨hkind, hnamed, hadd⟩ | ⟨hnamed, id, f, -, hadd, -, -⟩
          · -- Nothing is bound here, so it depends on the scopes around whether the symbol is.
            have hnamed : s.isNamedScope = false := by rw [Symbol.isNamedScope, hkind]; rfl
            rw [hadd, ensureScope_cons, hparent', hnamed, hkind]
            cases r'.lookup? s.usr with
            | none =>
                exact ⟨parent', r'.addScope_of_not_isScope hkind parent', by simpa using hiff⟩
            | some other => exact ⟨other, rfl, by simp⟩
          · rw [hadd, ensureScope_cons, lookup?_register, if_pos rfl, hnamed, hkind]
            cases r'.lookup? s.usr with
            | none => exact ⟨parent, rfl, by simp⟩
            | some other => exact ⟨other, rfl, by simp⟩
          · have hkind : s.kind.isScope = true := (Bool.and_eq_true_iff.mp hnamed).1
            rw [hadd, ensureScope_cons, lookup?_insert, if_pos rfl, hnamed, hkind]
            refine ⟨id, rfl, ?_⟩
            cases r'.lookup? s.usr <;> simp

/-- The scopes around a symbol bind only themselves. -/
theorem misleads_eq_false_of_nodup (r : Registry) {chain : List Symbol}
    (hchain : (chain.map (·.usr)).Nodup) : r.misleads chain = false := by
  induction chain with
  | nil => rfl
  | cons s outer ih =>
      obtain ⟨hother, houter⟩ := List.nodup_cons.mp hchain
      rw [misleads]
      cases hlookup : r.lookup? s.usr with
      | some id => rfl
      | none =>
          dsimp only
          rw [lookup?_ensureScope r hother, hlookup, ih houter]
          simp

/--
**Asking for a scope holds places, and asking again does nothing.**

The registry may be any in which symbols are bound to no id or to stored ones, and the chain may
be any, too.  The answer is the empty id or that of an entity that is stored by then; places are
held in the forest, and that is all that happens to it.  Asking again changes neither the
entities nor the bindings, and the answer is another one exactly if the first asking misleads,
which takes a symbol that stands twice in the chain.
-/
theorem ensureScope_pads_once (r : Registry)
    (hbound : ∀ usr id, r.lookup? usr = some id → id = "" ∨ r.forest.contains id = true)
    (chain : List Symbol) {id : String} {r' : Registry} (hask : r.ensureScope chain = (id, r')) :
    (id = "" ∨ r'.forest.contains id = true) ∧
      (∃ held, r.forest.PaddedBy held r'.forest) ∧
      (∃ id', r'.ensureScope chain = (id', r') ∧ (id' = id ↔ r.misleads chain = false)) ∧
      ((chain.map (·.usr)).Nodup → r'.ensureScope chain = (id, r')) := by
  have hknown := (BindsKnown.ensureScope hbound chain).2
  have hpadded := r.exists_paddedBy_ensureScope chain
  obtain ⟨id', hagain, hiff⟩ := r.ensureScope_again chain
  rw [hask] at hknown hpadded hagain hiff
  refine ⟨hknown, hpadded, ⟨id', hagain, hiff⟩, ?_⟩
  intro hchain
  have hsame : id' = id := hiff.mpr (r.misleads_eq_false_of_nodup hchain)
  rw [← hsame]
  exact hagain

/-- A registry that knows a namespace, which is described. -/
def namespaceRegistry : Registry :=
  (resolve {} "N" { id := "N", name := "N", brief := "Names.", detail := .nameSpace }).2

/-- A function in a class that is not known, in a namespace without a name, in one that is
known. -/
def functionScopes : List Symbol :=
  [{ usr := "f", kind := .function, name := "f" }, { usr := "A", kind := .record .cls, name := "A" },
    { usr := "N@", kind := .nameSpace, name := "" }, { usr := "N", kind := .nameSpace, name := "N" }]

/-- The function belongs to the class, which gets a ghost under the namespace. -/
theorem ensureScope_pads_once_functionScopes :
    (∀ usr id, namespaceRegistry.lookup? usr = some id →
        id = "" ∨ namespaceRegistry.forest.contains id = true) ∧
      (functionScopes.map (·.usr)).Nodup ∧
      ∃ r', namespaceRegistry.ensureScope functionScopes = ("N-A", r') ∧
        r'.forest.ids = ["N", "N-A"] ∧ r'.ensureScope functionScopes = ("N-A", r') := by
  have hbound : ∀ usr id, namespaceRegistry.lookup? usr = some id →
      id = "" ∨ namespaceRegistry.forest.contains id = true := by
    intro usr id h
    exact Or.inr ((resolve_follows empty_faithful "N" _).faithful.stored usr id h)
  have hchain : (functionScopes.map (·.usr)).Nodup := by decide
  have hask : namespaceRegistry.ensureScope functionScopes =
      ("N-A", (namespaceRegistry.ensureScope functionScopes).2) :=
    Prod.ext (by decide +kernel) rfl
  obtain ⟨-, -, -, hagain⟩ := ensureScope_pads_once namespaceRegistry hbound functionScopes hask
  exact ⟨hbound, hchain, _, hask, by decide +kernel, hagain hchain⟩

/-- A function in two namespaces, and the outer one is bound as the function is. -/
def loopedScopes : List Symbol :=
  [{ usr := "f", kind := .function, name := "f" }, { usr := "t", kind := .nameSpace, name := "t" },
    { usr := "f", kind := .nameSpace, name := "w" }]

/-- The answer is the inner namespace at first, and the outer one from then on. -/
theorem loopedScopes_misleads :
    (∀ usr id, lookup? {} usr = some id → id = "" ∨ Forest.contains {} id = true) ∧
      (ensureScope {} loopedScopes).1 = "w-t" ∧
      ((ensureScope {} loopedScopes).2.ensureScope loopedScopes).1 = "w" := by
  refine ⟨?_, by decide +kernel, by decide +kernel⟩
  intro usr id h
  cases h

end Registry

end DocForest
