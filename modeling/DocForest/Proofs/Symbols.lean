/-
When two symbols come to share an entity.

A symbol is bound to an id in two places.  A sighting is stored only under an id that is
free, so it never leads to a shared entity.  A scope that is only named is bound to the id
that its name gives, and `holdPlace` does so whether the id is free or not: it looks only
for whether a ghost is needed.  The second symbol then stands on the entity of the first,
and its declaration, when it comes, is merged into that entity.

This is the one way in which it happens.  Everything that is stored has a symbol bound to
it, and no binding is ever changed (`Faithful`, `Keeps`), so the entity that `holdPlace`
finds under the id is that of another symbol, and both bindings are there to stay.
-/
import DocForest.Identity.Registry
import DocForest.Proofs.Links

namespace DocForest

/-! ### What an insertion and a sighting do -/

namespace Forest

theorem ids_insert (f : Forest) (e : Entity) :
    (f.insert e).ids = if f.contains e.id then f.ids else f.ids ++ [e.id] := by
  unfold insert
  split
  · rfl
  · rename_i hnew
    have hstored : (f.entities.insertNew e.id e).keys = f.ids ++ [e.id] :=
      (Table.keys_insertNew f.entities e.id e).trans (if_neg hnew)
    unfold link
    split
    · exact hstored
    · exact (ids_modify _ _ _).trans hstored

theorem contains_insert_iff {f : Forest} {e : Entity} {id : String} :
    (f.insert e).contains id = true ↔ f.contains id = true ∨ id = e.id := by
  rw [contains_iff_mem_ids, contains_iff_mem_ids, ids_insert]
  split
  · rename_i hc
    refine ⟨Or.inl, ?_⟩
    intro hcase
    rcases hcase with hid | rfl
    · exact hid
    · exact contains_iff_mem_ids.mp hc
  · simp

end Forest

namespace Registry

theorem lookup?_insert (r : Registry) (usr id : String) (f : Forest) (u : String) :
    lookup? { bindings := r.bindings.insert usr id, forest := f } u =
      if u = usr then some id else r.lookup? u :=
  Table.get?_insert r.bindings usr id u

theorem storedId?_eq_some {r : Registry} {usr id : String} :
    r.storedId? usr = some id ↔ r.lookup? usr = some id ∧ r.forest.contains id = true := by
  rw [storedId?, Option.filter_eq_some_iff]

/-- Stores an entity and binds a symbol to it. -/
def store (r : Registry) (usr : String) (e : Entity) : Registry :=
  { bindings := r.bindings.insert usr e.id, forest := r.forest.insert e }

/-- **What becomes of a sighting**: it is merged, refused or stored. -/
theorem resolve_cases (r : Registry) (usr : String) (e : Entity) :
    (∃ id, r.storedId? usr = some id ∧
      (r.resolve usr e).2 = { r with forest := r.forest.modify id (·.merge e) }) ∨
    (r.storedId? usr = none ∧ r.forest.contains e.id = true ∧ (r.resolve usr e).2 = r) ∨
    (r.storedId? usr = none ∧ r.forest.contains e.id = false ∧
      (r.resolve usr e).2 = r.store usr e) := by
  unfold resolve
  cases hstored : r.storedId? usr with
  | some id => exact Or.inl ⟨id, rfl, rfl⟩
  | none =>
      dsimp only
      by_cases hc : r.forest.contains e.id = true
      · rw [if_pos hc]
        exact Or.inr (Or.inl ⟨rfl, hc, rfl⟩)
      · rw [if_neg hc]
        exact Or.inr (Or.inr ⟨rfl, by simpa using hc, rfl⟩)

/-! ### Symbols and what is stored -/

/-- Every symbol has an entity, and every entity a symbol. -/
structure Faithful (r : Registry) : Prop where
  stored : ∀ usr id, r.lookup? usr = some id → r.forest.contains id = true
  bound : ∀ id, r.forest.contains id = true → ∃ usr, r.lookup? usr = some id

/-- No binding of one registry is lost in the other. -/
def Keeps (r r' : Registry) : Prop :=
  ∀ usr id, r.lookup? usr = some id → r'.lookup? usr = some id

theorem Keeps.refl (r : Registry) : r.Keeps r :=
  fun _ _ h => h

theorem Keeps.trans {r₁ r₂ r₃ : Registry} (h₁ : r₁.Keeps r₂) (h₂ : r₂.Keeps r₃) : r₁.Keeps r₃ :=
  fun usr id h => h₂ usr id (h₁ usr id h)

theorem empty_faithful : Faithful {} where
  stored := by intro usr id h; simp [lookup?, Table.get?] at h
  bound := by intro id h; simp [Forest.contains, Table.contains, Table.get?] at h

/-- Two symbols are known under one id. -/
def Shares (r : Registry) : Prop :=
  ∃ usr usr' id, usr ≠ usr' ∧ id ≠ "" ∧ r.lookup? usr = some id ∧ r.lookup? usr' = some id

theorem empty_not_shares : ¬ Shares {} := by
  intro hshares
  obtain ⟨usr, -, id, -, -, hbound, -⟩ := hshares
  simp [lookup?, Table.get?] at hbound

/-- Binding a new symbol to an id that is stored afterwards, where nothing else is new. -/
theorem Faithful.bind {r : Registry} (h : r.Faithful) {usr : String} (id : String) {f : Forest}
    (hfree : r.lookup? usr = none)
    (hf : ∀ k, f.contains k = true ↔ r.forest.contains k = true ∨ k = id) :
    Faithful { bindings := r.bindings.insert usr id, forest := f } ∧
      r.Keeps { bindings := r.bindings.insert usr id, forest := f } := by
  have hkeeps : r.Keeps { bindings := r.bindings.insert usr id, forest := f } := by
    intro u i hu
    have hne : u ≠ usr := by
      intro hsame
      rw [hsame, hfree] at hu
      simp at hu
    rw [lookup?_insert, if_neg hne]
    exact hu
  refine ⟨⟨?_, ?_⟩, hkeeps⟩
  · intro u i hu
    rw [lookup?_insert] at hu
    by_cases hsame : u = usr
    · rw [if_pos hsame] at hu
      exact (hf i).mpr (Or.inr (Option.some.inj hu).symm)
    · rw [if_neg hsame] at hu
      exact (hf i).mpr (Or.inl (h.stored u i hu))
  · intro k hk
    rcases (hf k).mp hk with hold | rfl
    · obtain ⟨u, hu⟩ := h.bound k hold
      exact ⟨u, hkeeps u k hu⟩
    · exact ⟨usr, by rw [lookup?_insert, if_pos rfl]⟩

/-- A new symbol shares an entity exactly if its id was stored before. -/
theorem shares_bind_iff {r : Registry} (h : r.Faithful) {usr : String} (id : String) (f : Forest)
    (hfree : r.lookup? usr = none) :
    Shares { bindings := r.bindings.insert usr id, forest := f } ↔
      r.Shares ∨ (id ≠ "" ∧ r.forest.contains id = true) := by
  have hother : ∀ u, u ≠ usr →
      lookup? { bindings := r.bindings.insert usr id, forest := f } u = r.lookup? u := by
    intro u hu
    rw [lookup?_insert, if_neg hu]
  have hnew : lookup? { bindings := r.bindings.insert usr id, forest := f } usr = some id := by
    rw [lookup?_insert, if_pos rfl]
  have hold : ∀ {u i}, r.lookup? u = some i → u ≠ usr := by
    intro u i hu hsame
    rw [hsame, hfree] at hu
    simp at hu
  constructor
  · intro hshares
    obtain ⟨u, u', i, hne, hi, hu, hu'⟩ := hshares
    by_cases hsame : u = usr
    · rw [hsame, hnew] at hu
      obtain rfl : id = i := Option.some.inj hu
      rw [hother u' (fun hc => hne (hsame.trans hc.symm))] at hu'
      exact Or.inr ⟨hi, h.stored u' id hu'⟩
    by_cases hsame' : u' = usr
    · rw [hsame', hnew] at hu'
      obtain rfl : id = i := Option.some.inj hu'
      rw [hother u hsame] at hu
      exact Or.inr ⟨hi, h.stored u id hu⟩
    rw [hother u hsame] at hu
    rw [hother u' hsame'] at hu'
    exact Or.inl ⟨u, u', i, hne, hi, hu, hu'⟩
  · intro hcase
    rcases hcase with ⟨u, u', i, hne, hi, hu, hu'⟩ | ⟨hid, hc⟩
    · exact ⟨u, u', i, hne, hi, (hother u (hold hu)).trans hu, (hother u' (hold hu')).trans hu'⟩
    · obtain ⟨u, hu⟩ := h.bound id hc
      exact ⟨u, usr, id, hold hu, hid, (hother u (hold hu)).trans hu, hnew⟩

/-! ### One request -/

/-- One registry came out of another: it is faithful, nothing is forgotten, and if symbols
share an entity they did before, or `cause` holds. -/
structure Follows (r r' : Registry) (cause : Prop) : Prop where
  faithful : r'.Faithful
  keeps : r.Keeps r'
  shares : r'.Shares ↔ r.Shares ∨ cause

theorem Follows.refl {r : Registry} (h : r.Faithful) : r.Follows r False :=
  ⟨h, Keeps.refl r, by simp⟩

theorem Follows.trans {r₁ r₂ r₃ : Registry} {cause cause' : Prop} (h₁ : r₁.Follows r₂ cause)
    (h₂ : r₂.Follows r₃ cause') : r₁.Follows r₃ (cause ∨ cause') :=
  ⟨h₂.faithful, h₁.keeps.trans h₂.keeps, by rw [h₂.shares, h₁.shares, or_assoc]⟩

theorem Follows.congr {r r' : Registry} {cause cause' : Prop} (h : r.Follows r' cause)
    (hc : cause ↔ cause') : r.Follows r' cause' :=
  ⟨h.faithful, h.keeps, by rw [h.shares, hc]⟩

/-- A sighting never leads to a shared entity. -/
theorem resolve_follows {r : Registry} (h : r.Faithful) (usr : String) (e : Entity) :
    r.Follows (r.resolve usr e).2 False := by
  rcases r.resolve_cases usr e with ⟨id, -, hres⟩ | ⟨-, -, hres⟩ | ⟨hnone, hfree, hres⟩
  · rw [hres]
    have hcontains : ∀ k, (r.forest.modify id (·.merge e)).contains k = r.forest.contains k :=
      fun k => Table.contains_modify r.forest.entities id _ k
    refine ⟨⟨?_, ?_⟩, fun _ _ hu => hu, by simp [Shares, lookup?]⟩
    · intro u i hu
      rw [hcontains]
      exact h.stored u i hu
    · intro k hk
      rw [hcontains] at hk
      exact h.bound k hk
  · rw [hres]
    exact Follows.refl h
  · rw [hres]
    have hunbound : r.lookup? usr = none := by
      cases hb : r.lookup? usr with
      | none => rfl
      | some id =>
          rw [storedId?_eq_some.mpr ⟨hb, h.stored usr id hb⟩] at hnone
          simp at hnone
    obtain ⟨hfaithful, hkeeps⟩ :=
      h.bind e.id hunbound fun k => Forest.contains_insert_iff
    refine ⟨hfaithful, hkeeps, ?_⟩
    rw [store, shares_bind_iff h _ _ hunbound, hfree]
    simp

theorem memberId_ne_empty {name : String} (hname : name ≠ "") (kind : Kind) (parent : String)
    (s : Signature) : memberId kind name parent s ≠ "" := by
  intro hempty
  rw [memberId, String.ofList_eq_empty_iff] at hempty
  simp [hname] at hempty

theorem ne_empty_of_not_anonymous {name : String} (h : isAnonymous name = false) : name ≠ "" := by
  rintro rfl
  simp [isAnonymous] at h

/-- A scope that is bound to its id shares an entity exactly if the id is taken. -/
theorem holdPlace_follows {r : Registry} (h : r.Faithful) {s : Source.Symbol}
    (hname : isAnonymous s.name = false) (hfree : r.lookup? s.usr = none)
    (c : Source.Classification) (parent : String) :
    r.Follows (r.holdPlace s c parent).2
      (r.forest.contains (r.holdPlace s c parent).1 = true) := by
  have hid : (r.holdPlace s c parent).1 ≠ "" :=
    memberId_ne_empty (ne_empty_of_not_anonymous hname) _ _ _
  have hplaced : ∀ k, (r.holdPlace s c parent).2.forest.contains k = true ↔
      r.forest.contains k = true ∨ k = (r.holdPlace s c parent).1 := by
    intro k
    unfold holdPlace
    dsimp only
    split
    · rename_i hc
      refine ⟨Or.inl, ?_⟩
      intro hcase
      rcases hcase with hk | rfl
      · exact hk
      · exact hc
    · exact Forest.contains_insert_iff
  obtain ⟨hfaithful, hkeeps⟩ := h.bind _ hfree hplaced
  refine ⟨hfaithful, hkeeps, ?_⟩
  have hshares := shares_bind_iff h (r.holdPlace s c parent).1
    (r.holdPlace s c parent).2.forest hfree
  rw [and_iff_right hid] at hshares
  exact hshares

/-- Whether asking for a scope binds a symbol to an id that is taken. -/
def intrudes (r : Registry) : List Source.Symbol → Bool
  | [] => false
  | s :: outer =>
    match r.lookup? s.usr with
    | some _ => false
    | none =>
      r.intrudes outer ||
        let (parent, r') := r.ensureScope outer
        match s.classify? with
        | none => false
        | some c => !isAnonymous s.name && r'.forest.contains (r'.holdPlace s c parent).1

/-- All scopes of the chain have names, and none is there twice. -/
def PlainChain (chain : List Source.Symbol) : Prop :=
  (∀ s ∈ chain, isAnonymous s.name = false) ∧ (chain.map (·.usr)).Nodup

/-- Asking for a scope binds no symbol but those of the chain. -/
theorem lookup?_ensureScope (r : Registry) {chain : List Source.Symbol} {usr : String}
    (husr : usr ∉ chain.map (·.usr)) : (r.ensureScope chain).2.lookup? usr = r.lookup? usr := by
  induction chain with
  | nil => rfl
  | cons s outer ih =>
      simp only [List.map_cons, List.mem_cons, not_or] at husr
      have hother := ih husr.2
      rw [ensureScope]
      cases r.lookup? s.usr with
      | some id => rfl
      | none =>
          dsimp only
          cases s.classify? with
          | none => exact hother
          | some c =>
              dsimp only
              split
              · rw [← hother]
                exact (Table.get?_insertNew _ _ _ usr).trans (if_neg husr.1)
              · rw [← hother]
                exact (lookup?_insert _ _ _ _ usr).trans (if_neg husr.1)

/-- **Asking for a scope leads to a shared entity exactly if it binds a symbol to an id that
is taken.** -/
theorem ensureScope_follows {r : Registry} (h : r.Faithful) {chain : List Source.Symbol}
    (hchain : PlainChain chain) :
    r.Follows (r.ensureScope chain).2 (r.intrudes chain = true) := by
  induction chain with
  | nil => exact (Follows.refl h).congr (by simp [intrudes])
  | cons s outer ih =>
      obtain ⟨hnames, husrs⟩ := hchain
      simp only [List.map_cons, List.nodup_cons] at husrs
      have houter := ih ⟨fun t ht => hnames t (by simp [ht]), husrs.2⟩
      have hname : isAnonymous s.name = false := hnames s (by simp)
      rw [ensureScope, intrudes]
      cases hbound : r.lookup? s.usr with
      | some id => exact (Follows.refl h).congr (by simp)
      | none =>
          dsimp only
          cases s.classify? with
          | none => exact houter.congr (by simp)
          | some c =>
              dsimp only
              rw [if_neg (by simp [hname])]
              -- The scopes around it are other symbols, so this one is still free.
              have hfree : (r.ensureScope outer).2.lookup? s.usr = none := by
                rw [lookup?_ensureScope r husrs.1, hbound]
              exact (houter.trans (holdPlace_follows houter.faithful hname hfree c _)).congr
                (by simp [hname])

/-! ### All requests -/

/-- What is asked of a registry. -/
inductive Request
  | sighting (usr : String) (e : Entity)
  /-- A scope with the scopes around it, innermost first. -/
  | scope (chain : List Source.Symbol)

/-- The registry after a request. -/
def serve (r : Registry) : Request → Registry
  | .sighting usr e => (r.resolve usr e).2
  | .scope chain => (r.ensureScope chain).2

/-- The registry after several requests. -/
def serveAll (r : Registry) (requests : List Request) : Registry :=
  requests.foldl serve r

/-- The named scopes of a request have names, and none is there twice. -/
def Request.Plain : Request → Prop
  | sighting _ _ => True
  | scope chain => PlainChain chain

instance (chain : List Source.Symbol) : Decidable (PlainChain chain) :=
  inferInstanceAs (Decidable (_ ∧ _))

instance : DecidablePred Request.Plain
  | .sighting _ _ => isTrue trivial
  | .scope chain => inferInstanceAs (Decidable (PlainChain chain))

/-- A request binds a scope to an id that is taken. -/
def Intrudes (r : Registry) : Request → Prop
  | .sighting _ _ => False
  | .scope chain => r.intrudes chain = true

theorem serve_follows {r : Registry} (h : r.Faithful) {request : Request}
    (hplain : request.Plain) : r.Follows (r.serve request) (r.Intrudes request) := by
  cases request with
  | sighting usr e => exact resolve_follows h usr e
  | scope chain => exact ensureScope_follows h hplain

/-- One of the requests, made after those before it, binds a scope to an id that is taken. -/
def IntrudesIn (r : Registry) (requests : List Request) : Prop :=
  ∃ before request after,
    requests = before ++ request :: after ∧ (r.serveAll before).Intrudes request

theorem intrudesIn_nil (r : Registry) : ¬ r.IntrudesIn [] := by
  intro hin
  obtain ⟨before, request, after, heq, -⟩ := hin
  simp at heq

theorem intrudesIn_cons {r : Registry} {request : Request} {rest : List Request} :
    r.IntrudesIn (request :: rest) ↔ r.Intrudes request ∨ (r.serve request).IntrudesIn rest := by
  constructor
  · intro hin
    obtain ⟨before, request', after, heq, hintrudes⟩ := hin
    cases before with
    | nil =>
        obtain ⟨rfl, -⟩ := List.cons.inj heq
        exact Or.inl hintrudes
    | cons first before =>
        obtain ⟨rfl, hrest⟩ := List.cons.inj heq
        exact Or.inr ⟨before, request', after, hrest, hintrudes⟩
  · intro hcase
    rcases hcase with hintrudes | ⟨before, request', after, rfl, hintrudes⟩
    · exact ⟨[], request, rest, rfl, hintrudes⟩
    · exact ⟨request :: before, request', after, rfl, hintrudes⟩

theorem serveAll_follows {requests : List Request} (hplain : ∀ q ∈ requests, q.Plain) :
    ∀ {r : Registry}, r.Faithful → r.Follows (r.serveAll requests) (r.IntrudesIn requests) := by
  induction requests with
  | nil =>
      intro r h
      exact (Follows.refl h).congr (by simp [intrudesIn_nil])
  | cons request rest ih =>
      intro r h
      have hfirst := serve_follows h (hplain request (by simp))
      have hrest := ih (fun q hq => hplain q (by simp [hq])) hfirst.faithful
      exact (hfirst.trans hrest).congr intrudesIn_cons.symm

/--
**Two symbols share an entity exactly if a scope was bound to an id that was taken.**

The requests are any sightings and any chains of named scopes in which no symbol repeats,
made of an empty registry in any order.  So an id that is taken is refused to every sighting,
and as long as no scope is bound to one, different symbols have different entities.
-/
theorem shares_iff_intrudesIn (requests : List Request) (hplain : ∀ q ∈ requests, q.Plain) :
    (serveAll {} requests).Shares ↔ IntrudesIn {} requests := by
  have hrun := (serveAll_follows hplain empty_faithful).shares
  rw [hrun]
  simp [empty_not_shares]

/-- A class that is named before it is declared, and another symbol that wants its id. -/
def rivalRequests : List Request :=
  [.scope [{ usr := "N::A", kind := .record .cls, name := "A" },
      { usr := "N", kind := .nameSpace, name := "N" }],
    .sighting "N::A" { id := "N-A", name := "A", parent := "N", detail := .record .cls {} },
    .sighting "N.A" { id := "N-A", name := "A", parent := "N", detail := .var {} }]

/-- The rival is refused, so nothing is shared. -/
theorem rivalRequests_not_shares :
    (∀ q ∈ rivalRequests, q.Plain) ∧ ¬ (serveAll {} rivalRequests).Shares := by
  have hplain : ∀ q ∈ rivalRequests, q.Plain := by decide
  refine ⟨hplain, ?_⟩
  rw [shares_iff_intrudesIn _ hplain, rivalRequests]
  simp only [intrudesIn_cons, intrudesIn_nil, Intrudes, or_false]
  decide +kernel

/-- A class template, and a specialization of it that is named as a scope. -/
def specializationRequests : List Request :=
  [.sighting "Vec" { id := "Vec-T", name := "Vec", detail := .record .cls { isTemplate := true } },
    .scope [{ usr := "Vec<T*>", kind := .partialSpecialization, name := "Vec" }]]

/-- The specialization is bound to the entity of the template. -/
theorem specializationRequests_shares :
    (∀ q ∈ specializationRequests, q.Plain) ∧ (serveAll {} specializationRequests).Shares :=
  ⟨by decide, "Vec", "Vec<T*>", "Vec-T", by decide, by decide, by decide +kernel,
    by decide +kernel⟩

end Registry

end DocForest
