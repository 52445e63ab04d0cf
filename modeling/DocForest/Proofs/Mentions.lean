/-
What a registry knows is what has been mentioned.

A symbol is mentioned by its own declaration, and by every declaration inside it that names it
as a scope.  The first mention binds it to an id and, if it has a name, stores an entity; whether
that is the declaration or a ghost depends on what comes first.  The id does not, if the mentions
give each symbol one id (`Names`) and one enclosing scope (`OnePlace`).  Then the registry is
described by the mentions alone, as a set (`Tracks`): which symbols are bound and to what, which
ids are stored and under which parent.

A chain of scopes is given up at the first symbol that is bound.  What is mentioned is closed
under enclosing scopes, so that the rest of the chain is bound as well and nothing is lost.
-/
import DocForest.Proofs.Symbols
import DocForest.Walk.Detail

namespace DocForest

open Source

/-! ### Mentions -/

/-- A place where a symbol is named: its own declaration, or that of something inside it. -/
structure Mention where
  usr : String
  /-- The USR of the enclosing scope, if there is one. -/
  outer : Option String
  kind : Kind
  name : String
  signature : Signature
  deriving DecidableEq

namespace Mention

/-- Whether the symbol gets an entity; a scope without a name does not. -/
def isNamed (m : Mention) : Bool :=
  !(m.kind.isScope && isAnonymous m.name)

/-- The id of the symbol in a scope of the given id. -/
def idIn (m : Mention) (parent : String) : String :=
  memberId m.kind m.name parent m.signature

end Mention

/-- The USR of the innermost scope of a chain. -/
def innermost? (chain : List Symbol) : Option String :=
  chain.head?.map (·.usr)

/-- A scope as it is mentioned by a declaration inside it. -/
def Source.Symbol.mention (s : Symbol) (outer : Option String) (c : Classification) : Mention where
  usr := s.usr
  outer := outer
  kind := c.kind
  name := s.name
  signature := { isTemplate := c.isTemplate }

/-- The mentions of the scopes of a chain, outermost first. -/
def chainMentions : List Symbol → List Mention
  | [] => []
  | s :: outer => chainMentions outer ++ (s.classify?.map (s.mention (innermost? outer))).toList

/-- The id of a scope; the outermost one has the empty id. -/
def scopeId (idOf : String → String) (scope : Option String) : String :=
  (scope.map idOf).getD ""

/-- The mentions of symbols agree with an assignment of ids. -/
structure Names (idOf : String → String) (all : List Mention) : Prop where
  named : ∀ m ∈ all, m.isNamed = true → m.idIn (scopeId idOf m.outer) = idOf m.usr
  unnamed : ∀ m ∈ all, m.isNamed = false → scopeId idOf m.outer = idOf m.usr
  distinct : ∀ m ∈ all, ∀ m' ∈ all, m.isNamed = true → m'.isNamed = true →
    idOf m.usr = idOf m'.usr → m.usr = m'.usr
  nonempty : ∀ m ∈ all, m.isNamed = true → idOf m.usr ≠ ""

/-- All mentions of a symbol have it in the same scope. -/
def OnePlace (all : List Mention) : Prop :=
  ∀ m ∈ all, ∀ m' ∈ all, m.usr = m'.usr → m.outer = m'.outer

/-- A symbol is among those that are mentioned. -/
def Seen (seen : List Mention) (usr : String) : Prop :=
  ∃ m ∈ seen, m.usr = usr

theorem seen_append {seen seen' : List Mention} {usr : String} :
    Seen (seen ++ seen') usr ↔ Seen seen usr ∨ Seen seen' usr := by
  simp only [Seen, List.mem_append, or_and_right, exists_or]

theorem seen_singleton {m : Mention} {usr : String} : Seen [m] usr ↔ m.usr = usr := by
  simp [Seen]

/-- An id is longer than that of the scope it is in. -/
theorem memberId_ne_parent {parent : String} (h : parent ≠ "") (kind : Kind) (name : String)
    (s : Signature) : memberId kind name parent s ≠ parent := by
  intro heq
  have hlength : (memberId kind name parent s).toList.length = parent.toList.length := by rw [heq]
  rw [memberId, String.toList_ofList, if_neg (by simpa using h)] at hlength
  simp only [List.length_append, List.length_cons, List.length_nil] at hlength
  omega

/-- All mentions of a symbol have a name, or none has. -/
theorem Names.isNamed_congr {idOf : String → String} {all : List Mention} (h : Names idOf all)
    (hplace : OnePlace all) {m m' : Mention} (hm : m ∈ all) (hm' : m' ∈ all)
    (husr : m.usr = m'.usr) (hnamed : m.isNamed = true) : m'.isNamed = true := by
  cases hunnamed : m'.isNamed with
  | true => rfl
  | false =>
      -- Otherwise the id would be that of the scope as well as one inside it.
      have hid := h.named m hm hnamed
      have hscope := h.unnamed m' hm' hunnamed
      rw [← hplace m hm m' hm' husr, ← husr] at hscope
      rw [hscope] at hid
      exact absurd hid (memberId_ne_parent (h.nonempty m hm hnamed) _ _ _)

/-! ### Places in the forest -/

namespace Forest

/-- The id of the scope that an entity is in. -/
def parent? (f : Forest) (id : String) : Option String :=
  (f.get? id).map (·.parent)

theorem contains_eq_isSome_parent? (f : Forest) (id : String) :
    f.contains id = (f.parent? id).isSome := by
  rw [parent?, Option.isSome_map]
  rfl

theorem parent?_modify (f : Forest) (key : String) {g : Entity → Entity}
    (hg : ∀ e, (g e).parent = e.parent) (id : String) :
    (f.modify key g).parent? id = f.parent? id := by
  rw [parent?, parent?, get?_modify]
  split
  · rw [Option.map_map]
    exact congrFun (congrArg Option.map (funext hg)) _
  · rfl

theorem parent?_insert {f : Forest} {e : Entity} (hnew : f.contains e.id = false) (id : String) :
    (f.insert e).parent? id = if id = e.id then some e.parent else f.parent? id := by
  have hstored : ∀ roots, (Forest.mk (f.entities.insertNew e.id e) roots).parent? id =
      if id = e.id then some e.parent else f.parent? id := by
    intro roots
    have hget : (Forest.mk (f.entities.insertNew e.id e) roots).get? id =
        if id = e.id then some ((f.get? id).getD e) else f.get? id :=
      Table.get?_insertNew f.entities e.id e id
    rw [parent?, hget]
    by_cases hid : id = e.id
    · have hnone : f.get? id = none := by
        rw [hid]
        exact Table.contains_eq_false_iff.mp hnew
      rw [if_pos hid, if_pos hid, hnone]
      rfl
    · rw [if_neg hid, if_neg hid]
      rfl
  rw [insert, if_neg (by simp [hnew]), link]
  split
  · exact hstored _
  · rw [addChild, parent?_modify _ _ (fun e' => Entity.parent_addChild e' _), hstored]

end Forest

/-! ### The registry behind some mentions -/

namespace Registry

/-- A registry knows what was mentioned and nothing else: the symbols that were seen are bound to
their ids, and those that have names are stored in their scopes. -/
structure Tracks (idOf : String → String) (all seen : List Mention) (r : Registry) : Prop where
  known : ∀ m ∈ seen, m ∈ all
  /-- A scope is seen before what is in it. -/
  closed : ∀ m ∈ seen, ∀ usr, m.outer = some usr → Seen seen usr
  bound : ∀ usr id, r.lookup? usr = some id ↔ Seen seen usr ∧ idOf usr = id
  placed : ∀ id parent, r.forest.parent? id = some parent ↔
    ∃ m ∈ seen, m.isNamed = true ∧ idOf m.usr = id ∧ scopeId idOf m.outer = parent

variable {idOf : String → String} {all seen : List Mention} {r : Registry}

theorem empty_tracks (idOf : String → String) (all : List Mention) : Tracks idOf all [] {} where
  known := by simp
  closed := by simp
  bound := by simp [lookup?, Table.get?, Seen]
  placed := by simp [Forest.parent?, Forest.get?, Table.get?]

/-- **The registry is determined by the set of mentions.** -/
theorem Tracks.eq_of_mem_iff {seen' : List Mention} {r' : Registry} (h : Tracks idOf all seen r)
    (h' : Tracks idOf all seen' r') (hmem : ∀ m, m ∈ seen ↔ m ∈ seen') :
    (∀ usr, r.lookup? usr = r'.lookup? usr) ∧
      ∀ id, r.forest.parent? id = r'.forest.parent? id := by
  refine ⟨?_, ?_⟩
  · intro usr
    refine Option.ext fun id => ?_
    rw [h.bound, h'.bound]
    simp only [Seen, hmem]
  · intro id
    refine Option.ext fun parent => ?_
    rw [h.placed, h'.placed]
    simp only [hmem]

theorem Tracks.lookup?_eq (h : Tracks idOf all seen r) {usr : String} (hseen : Seen seen usr) :
    r.lookup? usr = some (idOf usr) :=
  (h.bound usr _).mpr ⟨hseen, rfl⟩

theorem Tracks.lookup?_eq_none (h : Tracks idOf all seen r) {usr : String}
    (hseen : ¬ Seen seen usr) : r.lookup? usr = none := by
  cases hlookup : r.lookup? usr with
  | none => rfl
  | some id => exact absurd ((h.bound usr id).mp hlookup).1 hseen

/-- What one more mention has to do to a registry: its symbol is bound to its id, and if it has a
name it is in its scope. -/
structure Takes (idOf : String → String) (m : Mention) (r r' : Registry) : Prop where
  bound : ∀ usr, r'.lookup? usr = if usr = m.usr then some (idOf usr) else r.lookup? usr
  placed : ∀ id, r'.forest.parent? id =
    if m.isNamed = true ∧ id = idOf m.usr then some (scopeId idOf m.outer)
    else r.forest.parent? id

/-- **One more mention.** -/
theorem Tracks.add (hnames : Names idOf all) (hplace : OnePlace all) (h : Tracks idOf all seen r)
    {m : Mention} (hm : m ∈ all) (houter : ∀ usr, m.outer = some usr → Seen seen usr)
    {r' : Registry} (htakes : Takes idOf m r r') : Tracks idOf all (seen ++ [m]) r' := by
  refine ⟨?_, ?_, ?_, ?_⟩
  · intro m' hm'
    rcases List.mem_append.mp hm' with hm' | hm'
    · exact h.known m' hm'
    · rw [List.mem_singleton.mp hm']
      exact hm
  · intro m' hm' usr hscope
    refine seen_append.mpr (Or.inl ?_)
    rcases List.mem_append.mp hm' with hm' | hm'
    · exact h.closed m' hm' usr hscope
    · rw [List.mem_singleton.mp hm'] at hscope
      exact houter usr hscope
  · intro usr id
    rw [htakes.bound, seen_append, seen_singleton]
    by_cases husr : usr = m.usr
    · rw [if_pos husr]
      simp [husr]
    · rw [if_neg husr, h.bound]
      simp [Ne.symm husr]
  · intro id parent
    rw [htakes.placed]
    by_cases hnew : m.isNamed = true ∧ id = idOf m.usr
    · rw [if_pos hnew]
      constructor
      · intro hparent
        exact ⟨m, by simp, hnew.1, hnew.2.symm, Option.some.inj hparent⟩
      · rintro ⟨m', hm', hnamed', hid', rfl⟩
        have hmem' : m' ∈ all := by
          rcases List.mem_append.mp hm' with hm' | hm'
          · exact h.known m' hm'
          · rw [List.mem_singleton.mp hm']
            exact hm
        have husr := hnames.distinct m hm m' hmem' hnew.1 hnamed' (hnew.2.symm.trans hid'.symm)
        rw [hplace m hm m' hmem' husr]
    · rw [if_neg hnew, h.placed]
      constructor
      · rintro ⟨m', hm', hrest⟩
        exact ⟨m', List.mem_append_left _ hm', hrest⟩
      · rintro ⟨m', hm', hnamed', hid', hparent'⟩
        rcases List.mem_append.mp hm' with hm' | hm'
        · exact ⟨m', hm', hnamed', hid', hparent'⟩
        · rw [List.mem_singleton.mp hm'] at hnamed' hid'
          exact absurd ⟨hnamed', hid'.symm⟩ hnew

/-! ### What the requests do -/

/-- A symbol that was seen and has a name is stored where it belongs. -/
theorem Tracks.parent?_eq (hnames : Names idOf all) (hplace : OnePlace all)
    (h : Tracks idOf all seen r) {m : Mention} (hm : m ∈ all) (hnamed : m.isNamed = true)
    (hseen : Seen seen m.usr) :
    r.forest.parent? (idOf m.usr) = some (scopeId idOf m.outer) := by
  obtain ⟨m', hm', husr⟩ := hseen
  have hmem' := h.known m' hm'
  refine (h.placed _ _).mpr ⟨m', hm', ?_, by rw [husr], ?_⟩
  · exact hnames.isNamed_congr hplace hm hmem' husr.symm hnamed
  · rw [hplace m' hmem' m hm husr]

/-- The id of a symbol that was not seen is free. -/
theorem Tracks.contains_eq_false (hnames : Names idOf all) (h : Tracks idOf all seen r)
    {m : Mention} (hm : m ∈ all) (hnamed : m.isNamed = true) (hseen : ¬ Seen seen m.usr) :
    r.forest.contains (idOf m.usr) = false := by
  rw [Forest.contains_eq_isSome_parent?]
  cases hparent : r.forest.parent? (idOf m.usr) with
  | none => rfl
  | some parent =>
      obtain ⟨m', hm', hnamed', hid', -⟩ := (h.placed _ _).mp hparent
      have husr := hnames.distinct m' (h.known m' hm') m hm hnamed' hnamed hid'
      exact absurd ⟨m', hm', husr⟩ hseen

/-- A mention of a symbol that was seen has nothing left to do. -/
theorem Tracks.takes_again (hnames : Names idOf all) (hplace : OnePlace all)
    (h : Tracks idOf all seen r) {m : Mention} (hm : m ∈ all) (hseen : Seen seen m.usr)
    {r' : Registry} (hlookup : ∀ usr, r'.lookup? usr = r.lookup? usr)
    (hparent : ∀ id, r'.forest.parent? id = r.forest.parent? id) : Takes idOf m r r' := by
  refine ⟨?_, ?_⟩
  · intro usr
    rw [hlookup]
    split
    · rename_i husr
      rw [husr, h.lookup?_eq hseen]
    · rfl
  · intro id
    rw [hparent]
    split
    · rename_i hstored
      rw [hstored.2, h.parent?_eq hnames hplace hm hstored.1 hseen]
    · rfl

/-- Storing an entity for a symbol that was not seen. -/
theorem Tracks.takes_store (hnames : Names idOf all) (h : Tracks idOf all seen r) {m : Mention}
    (hm : m ∈ all) (hnamed : m.isNamed = true) (hseen : ¬ Seen seen m.usr) {e : Entity}
    (hid : e.id = idOf m.usr) (hparent : e.parent = scopeId idOf m.outer) :
    Takes idOf m r (r.store m.usr e) := by
  refine ⟨?_, ?_⟩
  · intro usr
    rw [store, lookup?_insert, hid]
    split
    · rename_i husr
      rw [husr]
    · rfl
  · intro id
    have hfree := h.contains_eq_false hnames hm hnamed hseen
    rw [← hid] at hfree
    rw [store, Forest.parent?_insert hfree, hid, hparent]
    simp only [hnamed, true_and]

theorem Tracks.takes_register (hnames : Names idOf all) (h : Tracks idOf all seen r) {m : Mention}
    (hm : m ∈ all) (hunnamed : m.isNamed = false) :
    Takes idOf m r (r.register m.usr (scopeId idOf m.outer)) := by
  refine ⟨?_, ?_⟩
  · intro usr
    refine (Table.get?_insertNew r.bindings m.usr (scopeId idOf m.outer) usr).trans ?_
    split
    · rename_i husr
      subst husr
      rw [hnames.unnamed m hm hunnamed]
      change some ((r.lookup? m.usr).getD (idOf m.usr)) = _
      by_cases hseen : Seen seen m.usr
      · rw [h.lookup?_eq hseen, Option.getD_some]
      · rw [h.lookup?_eq_none hseen, Option.getD_none]
    · rfl
  · intro id
    rw [if_neg (by simp [hunnamed])]
    rfl

/-- **A sighting is merged or stored, and never refused.** -/
theorem Tracks.takes_resolve (hnames : Names idOf all) (hplace : OnePlace all)
    (h : Tracks idOf all seen r) {m : Mention} (hm : m ∈ all) (hnamed : m.isNamed = true)
    {e : Entity} (hid : e.id = idOf m.usr) (hparent : e.parent = scopeId idOf m.outer) :
    (r.resolve m.usr e).1.stored? = some (idOf m.usr) ∧
      Takes idOf m r (r.resolve m.usr e).2 := by
  by_cases hseen : Seen seen m.usr
  · have hstored : r.storedId? m.usr = some (idOf m.usr) := by
      refine storedId?_eq_some.mpr ⟨h.lookup?_eq hseen, ?_⟩
      rw [Forest.contains_eq_isSome_parent?, h.parent?_eq hnames hplace hm hnamed hseen]
      rfl
    rw [resolve, hstored]
    refine ⟨rfl, h.takes_again hnames hplace hm hseen (fun _ => rfl) ?_⟩
    have hkept : ∀ e', (Entity.merge e' e).parent = e'.parent := fun _ => rfl
    exact Forest.parent?_modify r.forest (idOf m.usr) hkept
  · have hstored : r.storedId? m.usr = none := by
      rw [storedId?, h.lookup?_eq_none hseen]
      rfl
    have hfree := h.contains_eq_false hnames hm hnamed hseen
    rw [← hid] at hfree
    rw [resolve, hstored]
    dsimp only
    rw [if_neg (by simp [hfree])]
    exact ⟨congrArg some hid, h.takes_store hnames hm hnamed hseen hid hparent⟩

/-- A scope that is held a place has its own id, and is stored there. -/
theorem Tracks.takes_holdPlace (hnames : Names idOf all) (hplace : OnePlace all)
    (h : Tracks idOf all seen r) {s : Symbol} {c : Classification} {outer : Option String}
    (hm : s.mention outer c ∈ all) (hname : isAnonymous s.name = false) :
    (r.holdPlace s c (scopeId idOf outer)).1 = idOf s.usr ∧
      Takes idOf (s.mention outer c) r (r.holdPlace s c (scopeId idOf outer)).2 := by
  have hnamed : (s.mention outer c).isNamed = true := by
    simp [Mention.isNamed, Symbol.mention, hname]
  have hid : memberId c.kind s.name (scopeId idOf outer) { isTemplate := c.isTemplate } =
      idOf s.usr := by
    simpa only [Mention.idIn, Symbol.mention] using hnames.named _ hm hnamed
  unfold holdPlace
  dsimp only
  rw [hid]
  refine ⟨rfl, ?_⟩
  by_cases hseen : Seen seen s.usr
  · have hparent : r.forest.parent? (idOf s.usr) = some (scopeId idOf outer) :=
      h.parent?_eq hnames hplace hm hnamed hseen
    have hstored : r.forest.contains (idOf s.usr) = true := by
      rw [Forest.contains_eq_isSome_parent?, hparent]
      rfl
    rw [if_pos hstored]
    refine h.takes_again hnames hplace hm hseen ?_ fun _ => rfl
    intro usr
    rw [lookup?_insert]
    split
    · rename_i husr
      rw [husr, h.lookup?_eq hseen]
    · rfl
  · have hfree : r.forest.contains (idOf s.usr) = false :=
      h.contains_eq_false hnames hm hnamed hseen
    rw [if_neg (by rw [hfree]; simp)]
    exact takes_store (e := ghost c (idOf s.usr) s.name (scopeId idOf outer)) hnames h hm hnamed
      hseen rfl rfl

/-! ### Chains of scopes -/

/-- Mentions of symbols that were seen change nothing. -/
theorem Tracks.append_seen (hnames : Names idOf all) (hplace : OnePlace all)
    {ms : List Mention} (hall : ∀ m ∈ ms, m ∈ all) :
    ∀ {seen : List Mention}, Tracks idOf all seen r → (∀ m ∈ ms, Seen seen m.usr) →
      Tracks idOf all (seen ++ ms) r := by
  induction ms with
  | nil =>
      intro seen h _
      rwa [List.append_nil]
  | cons m ms ih =>
      intro seen h hseen
      obtain ⟨hm, hall⟩ := List.forall_mem_cons.mp hall
      obtain ⟨hmseen, hseen⟩ := List.forall_mem_cons.mp hseen
      have houter : ∀ usr, m.outer = some usr → Seen seen usr := by
        intro usr hscope
        obtain ⟨m', hm', husr⟩ := hmseen
        rw [← hplace m' (h.known m' hm') m hm husr] at hscope
        exact h.closed m' hm' usr hscope
      have hadd := h.add hnames hplace hm houter
        (h.takes_again hnames hplace hm hmseen (fun _ => rfl) fun _ => rfl)
      rw [List.append_cons]
      exact ih hall hadd fun m' hm' => seen_append.mpr (Or.inl (hseen m' hm'))

theorem chainMentions_cons {s : Symbol} {c : Classification} (hc : s.classify? = some c)
    (outer : List Symbol) :
    chainMentions (s :: outer) = chainMentions outer ++ [s.mention (innermost? outer) c] := by
  rw [chainMentions, hc]
  rfl

/-- The scopes of a chain, as far as they can hold members, are among its mentions. -/
theorem seen_innermost {chain : List Symbol} (hscopes : ∀ s ∈ chain, s.classify?.isSome = true)
    {usr : String} (husr : innermost? chain = some usr) : Seen (chainMentions chain) usr := by
  cases chain with
  | nil => simp [innermost?] at husr
  | cons s outer =>
      obtain ⟨c, hc⟩ := Option.isSome_iff_exists.mp (hscopes s (by simp))
      obtain rfl : s.usr = usr := by simpa [innermost?] using husr
      rw [chainMentions_cons hc, seen_append, seen_singleton]
      exact Or.inr rfl

/-- **If the innermost scope of a chain was seen, the whole chain was.** -/
theorem Tracks.chain_seen (hplace : OnePlace all) (h : Tracks idOf all seen r)
    {chain : List Symbol} (hscopes : ∀ s ∈ chain, s.classify?.isSome = true)
    (hall : ∀ m ∈ chainMentions chain, m ∈ all)
    (hseen : ∀ usr, innermost? chain = some usr → Seen seen usr) :
    ∀ m ∈ chainMentions chain, Seen seen m.usr := by
  induction chain with
  | nil => simp [chainMentions]
  | cons s outer ih =>
      obtain ⟨hs, hscopes⟩ := List.forall_mem_cons.mp hscopes
      obtain ⟨c, hc⟩ := Option.isSome_iff_exists.mp hs
      rw [chainMentions_cons hc, List.forall_mem_append, List.forall_mem_singleton] at hall ⊢
      obtain ⟨m', hm', husr⟩ := hseen s.usr rfl
      refine ⟨ih hscopes hall.1 ?_, m', hm', husr⟩
      -- The scope was seen in its one place, so that what is around it was seen, too.
      intro usr hinner
      refine h.closed m' hm' usr ?_
      rw [hplace m' (h.known m' hm') _ hall.2 husr]
      exact hinner

theorem isScope_of_classify? {s : Symbol} {c : Classification} (hc : s.classify? = some c) :
    c.kind.isScope = true :=
  (Option.filter_eq_some_iff.mp hc).2

/-- **Asking for a scope gives its id**, and mentions all scopes of the chain. -/
theorem Tracks.ensureScope (hnames : Names idOf all) (hplace : OnePlace all)
    (h : Tracks idOf all seen r) {chain : List Symbol}
    (hscopes : ∀ s ∈ chain, s.classify?.isSome = true)
    (hall : ∀ m ∈ chainMentions chain, m ∈ all) :
    (r.ensureScope chain).1 = scopeId idOf (innermost? chain) ∧
      Tracks idOf all (seen ++ chainMentions chain) (r.ensureScope chain).2 := by
  induction chain with
  | nil => exact ⟨rfl, by rwa [chainMentions, List.append_nil]⟩
  | cons s outer ih =>
      rw [Registry.ensureScope]
      cases hlookup : r.lookup? s.usr with
      | some id =>
          obtain ⟨hseen, rfl⟩ := (h.bound s.usr id).mp hlookup
          refine ⟨rfl, h.append_seen hnames hplace hall (h.chain_seen hplace hscopes hall ?_)⟩
          intro usr husr
          obtain rfl : s.usr = usr := by simpa [innermost?] using husr
          exact hseen
      | none =>
          dsimp only
          obtain ⟨hs, houter⟩ := List.forall_mem_cons.mp hscopes
          obtain ⟨c, hc⟩ := Option.isSome_iff_exists.mp hs
          rw [chainMentions_cons hc, List.forall_mem_append, List.forall_mem_singleton] at hall
          obtain ⟨hparent, htracks⟩ := ih houter hall.1
          rw [hc, hparent, chainMentions_cons hc, ← List.append_assoc]
          dsimp only
          have hknown : ∀ usr, innermost? outer = some usr →
              Seen (seen ++ chainMentions outer) usr :=
            fun usr husr => seen_append.mpr (Or.inr (seen_innermost houter husr))
          split
          · rename_i hname
            have hunnamed : (s.mention (innermost? outer) c).isNamed = false := by
              simp [Mention.isNamed, Symbol.mention, hname, isScope_of_classify? hc]
            refine ⟨hnames.unnamed _ hall.2 hunnamed, ?_⟩
            exact htracks.add hnames hplace hall.2 hknown
              (htracks.takes_register hnames hall.2 hunnamed)
          · rename_i hname
            obtain ⟨hid, htakes⟩ :=
              htracks.takes_holdPlace hnames hplace hall.2 (by simpa using hname)
            exact ⟨hid, htracks.add hnames hplace hall.2 hknown htakes⟩

end Registry

end DocForest
