/-
What has members is a scope, unless a scope that was asked for strays.

Where a declaration belongs is asked of the registry, and the registry answers with an id.  The
empty id is the outermost scope; any other should be that of a namespace, a class or an
enumeration.  There are two ways in which it is not.  A symbol that is known is answered with
its id before anybody asks what it is, so a function that is known is taken for a scope; and a
scope that is not known is bound to the id that belongs to it even if a function or a variable
was there first.

The two ways are all there is.  As long as no call strays, the registry stays proper and every
answer is a scope.  So the first call that strays is the first that is answered wrongly, and some
call is answered wrongly exactly if some call strays (`Blames`).
-/
import DocForest.Proofs.Retention
import DocForest.Proofs.ScopeKinds

namespace DocForest

open Source

namespace Registry

variable {kindOf : String → DeclKind} {r : Registry}

/-! ### Asking for a scope -/

/-- The id of a scope that is not known, under the scope around it. -/
def addScope (r : Registry) (s : Symbol) (parent : String) : String × Registry :=
  match s.classify? with
  | none => (parent, r)
  | some c =>
    if isAnonymous s.name then (parent, r.register s.usr parent) else r.holdPlace s c parent

theorem ensureScope_cons (r : Registry) (s : Symbol) (outer : List Symbol) :
    r.ensureScope (s :: outer) =
      ((r.lookup? s.usr).map (·, r)).getD
        ((r.ensureScope outer).2.addScope s (r.ensureScope outer).1) := by
  rw [ensureScope]
  cases r.lookup? s.usr <;> rfl

/-- Whether a scope that is not known gets an id that an entity has which can hold no members. -/
def intrudesOnLeaf (r : Registry) (s : Symbol) (parent : String) : Bool :=
  s.classify?.any fun c => !isAnonymous s.name && r.forest.isLeaf (r.holdPlace s c parent).1

/-- Whether asking for a scope is answered with the id of an entity that can hold no members, or
asking for one of the scopes around it, if that is necessary. -/
def leaks (r : Registry) : List Symbol → Bool
  | [] => false
  | s :: outer =>
    ((r.lookup? s.usr).isNone && r.leaks outer) ||
      let (id, r') := r.ensureScope (s :: outer)
      id != "" && r'.forest.isLeaf id

/-- Whether asking for a scope comes upon a symbol that is known and can hold no members, or
gives a scope the id of an entity that can hold none. -/
def strays (r : Registry) : List Symbol → Bool
  | [] => false
  | s :: outer =>
    match r.lookup? s.usr with
    | some id => !s.kind.isScope && id != ""
    | none =>
      r.strays outer ||
        let (parent, r') := r.ensureScope outer
        r'.intrudesOnLeaf s parent

/-- One registry comes out of another by something that goes wrong exactly if it has a cause,
and that leaves the registry proper otherwise. -/
structure Blames (kindOf : String → DeclKind) (r r' : Registry) (wrong cause : Prop) : Prop where
  improves : ¬ cause → r.Improves kindOf r'
  iff : wrong ↔ cause

theorem Blames.trans {r₁ r₂ r₃ : Registry} {wrong wrong' cause cause' : Prop}
    (h₁ : r₁.Blames kindOf r₂ wrong cause)
    (h₂ : ¬ cause → r₂.Blames kindOf r₃ wrong' cause') :
    r₁.Blames kindOf r₃ (wrong ∨ wrong') (cause ∨ cause') := by
  by_cases hcause : cause
  · have hwrong : wrong := h₁.iff.mpr hcause
    exact ⟨fun hno => absurd (Or.inl hcause) hno, by simp [hcause, hwrong]⟩
  · have h₂ := h₂ hcause
    refine ⟨fun hno => (h₁.improves hcause).trans (h₂.improves fun h => hno (Or.inr h)), ?_⟩
    rw [h₁.iff, h₂.iff]

/-- Something that cannot go wrong. -/
theorem Improves.blames {r' : Registry} (h : r.Improves kindOf r') {wrong cause : Prop}
    (hwrong : ¬ wrong) (hcause : ¬ cause) : r.Blames kindOf r' wrong cause :=
  ⟨fun _ => h, by simp [hwrong, hcause]⟩

theorem not_leaf_of_houses {f : Forest} {id : String} (h : f.Houses id) :
    ¬ (id != "" && f.isLeaf id) = true := by
  by_cases hid : id = ""
  · simp [hid]
  · simp [h.isLeaf_eq_false hid]

/-- One scope that is not known. -/
theorem Proper.addScope (h : r.Proper kindOf) {s : Symbol} (hs : s.kind = kindOf s.usr)
    {parent : String} (hparent : r.forest.Houses parent) :
    r.Blames kindOf (r.addScope s parent).2
        (((r.addScope s parent).1 != "" &&
          (r.addScope s parent).2.forest.isLeaf (r.addScope s parent).1) = true)
        (r.intrudesOnLeaf s parent = true) ∧
      (r.intrudesOnLeaf s parent = false →
        (r.addScope s parent).2.forest.Houses (r.addScope s parent).1) := by
  unfold Registry.addScope intrudesOnLeaf
  cases hclassify : s.classify? with
  | none =>
      exact ⟨(Improves.refl h).blames (not_leaf_of_houses hparent) (by simp), fun _ => hparent⟩
  | some c =>
      have hc : c.kind.isScope = true := (Option.filter_eq_some_iff.mp hclassify).2
      have husr : (kindOf s.usr).isScope = true := by
        rw [← hs, ← isSome_classify?, hclassify]
        rfl
      by_cases hname : isAnonymous s.name = true
      · simp only [hname, if_true, Option.any_some, Bool.not_true, Bool.false_and]
        exact ⟨(h.register husr hparent).blames (not_leaf_of_houses hparent) (by simp),
          fun _ => hparent⟩
      · rw [Bool.not_eq_true] at hname
        simp only [hname, Option.any_some, Bool.not_false, Bool.true_and, Bool.false_eq_true,
          if_false]
        cases hfree : r.forest.isLeaf (r.holdPlace s c parent).1 with
        | false =>
            obtain ⟨himproves, hhouses⟩ := h.holdPlace husr hc hparent hfree
            exact ⟨himproves.blames (not_leaf_of_houses hhouses) (by simp), fun _ => hhouses⟩
        | true =>
            have hid : (r.holdPlace s c parent).1 ≠ "" :=
              memberId_ne_empty (ne_empty_of_not_anonymous hname) _ _ _
            rw [forest_holdPlace_of_isLeaf hfree, hfree]
            exact ⟨⟨fun hno => absurd rfl hno, by simp [hid]⟩, fun hno => by cases hno⟩

/-- **Asking for a scope** is answered wrongly exactly if it strays; otherwise members can stand
under the answer. -/
theorem Proper.ensureScope (h : r.Proper kindOf) {chain : List Symbol}
    (hkinds : ∀ s ∈ chain, s.kind = kindOf s.usr) :
    r.Blames kindOf (r.ensureScope chain).2 (r.leaks chain = true) (r.strays chain = true) ∧
      (r.strays chain = false → (r.ensureScope chain).2.forest.Houses (r.ensureScope chain).1) := by
  induction chain with
  | nil =>
      exact ⟨(Improves.refl h).blames (by simp [leaks]) (by simp [strays]), fun _ => Or.inl rfl⟩
  | cons s outer ih =>
      obtain ⟨hs, houter⟩ := List.forall_mem_cons.mp hkinds
      obtain ⟨hblames, hhouses⟩ := ih houter
      rw [leaks, strays, ensureScope_cons]
      cases hlookup : r.lookup? s.usr with
      | some id =>
          dsimp only
          cases hkind : s.kind.isScope with
          | true =>
              have hid : r.forest.Houses id := h.scopes s.usr id hlookup (hs ▸ hkind)
              exact ⟨(Improves.refl h).blames (by simpa using not_leaf_of_houses hid) (by simp),
                fun _ => hid⟩
          | false =>
              have hid : r.forest.isLeaf id = true := h.leaves s.usr id hlookup (hs ▸ hkind)
              refine ⟨⟨fun _ => .refl h, by simp [hid]⟩, ?_⟩
              intro hempty
              exact Or.inl (by simpa using hempty)
      | none =>
          have hstep : r.strays outer = false → _ := fun hno =>
            (hblames.improves (by simp [hno])).proper.addScope hs (hhouses hno)
          simp only [Option.isNone_none, Bool.true_and, Bool.or_eq_true, Option.map_none,
            Option.getD_none, Bool.or_eq_false_iff]
          refine ⟨hblames.trans fun hno => (hstep (by simpa using hno)).1, ?_⟩
          intro hno
          exact (hstep hno.1).2 hno.2

end Registry

/-! ### The walk -/

namespace Walk

/-- A scope that a walk asks for, with the scopes around it, innermost first. -/
structure ScopeCall where
  registry : Registry
  chain : List Symbol

/-- Whether the call is answered with the id of an entity that can hold no members. -/
def ScopeCall.leaks (call : ScopeCall) : Bool :=
  call.registry.leaks call.chain

/-- Whether the call comes upon a symbol, or an entity, that can hold no members. -/
def ScopeCall.strays (call : ScopeCall) : Bool :=
  call.registry.strays call.chain

/-- Whether a declaration is looked at, and neither looked through nor passed over. -/
def looksAt (file : FileContext) (d : Decl) : Bool :=
  d.file.any fun path => Path.same path file.path && !(d.kind == .unexposed || d.kind == .linkage)

mutual

/-- The scopes that a walk asks for when it visits a declaration.  A declaration that names no
scope stands in the one it is found in; its chain is empty, and nothing can go wrong with it. -/
def scopeCalls (file : FileContext) (parent : String) (s : State) : DeclTree → List ScopeCall
  | .node d children =>
    (if looksAt file d then [⟨s.registry, d.scopes⟩] else []) ++
      match enter file s d (children.map DeclTree.decl) parent with
      | (_, none) => []
      | (s', some inner) => scopeCallsAll file inner s' children

/-- The scopes that a walk asks for when it visits several declarations. -/
def scopeCallsAll (file : FileContext) (parent : String) (s : State) :
    List DeclTree → List ScopeCall
  | [] => []
  | t :: ts => scopeCalls file parent s t ++ scopeCallsAll file parent (visit file parent s t) ts

end

/-- What becomes of a declaration, by whether it is looked at. -/
theorem enter_cases (file : FileContext) (s : State) (d : Decl) (inner : List Decl)
    (parent : String) :
    (looksAt file d = true ∧
      enter file s d inner parent =
        declare file (scopeOf s d parent).2 d inner (scopeOf s d parent).1) ∨
    (looksAt file d = false ∧
      (enter file s d inner parent = (s, none) ∨
        enter file s d inner parent = (s, some parent))) := by
  unfold looksAt enter
  cases d.file with
  | none => exact Or.inr ⟨rfl, Or.inr rfl⟩
  | some path =>
      dsimp only [Option.any_some]
      by_cases hsame : Path.same path file.path = true
      · by_cases hthrough : d.kind = .unexposed ∨ d.kind = .linkage
        · exact Or.inr ⟨by simpa [hsame, or_iff_not_imp_left] using hthrough,
            Or.inr (by simp [hsame, hthrough])⟩
        · exact Or.inl ⟨by simp [hsame, not_or.mp hthrough], by simp [hsame, hthrough]⟩
      · exact Or.inr ⟨by simp [hsame], Or.inl (by simp [hsame])⟩

/-- The declaration, if it can become anything, and the scopes that it names are of the kinds that
their symbols have. -/
def KindsAre (kindOf : String → DeclKind) (d : Decl) : Prop :=
  ((classify d.kind d.name d.tokens none).isSome = true → d.kind = kindOf d.usr) ∧
    ∀ s ∈ d.scopes, s.kind = kindOf s.usr

instance (kindOf : String → DeclKind) : DecidablePred (KindsAre kindOf) :=
  fun _ => inferInstanceAs (Decidable (_ ∧ _))

variable {kindOf : String → DeclKind}

/-- The registry is proper, and members can stand in the scope that is opened. -/
structure Directs (kindOf : String → DeclKind) (s : State) (result : State × Option String) :
    Prop where
  improves : s.registry.Improves kindOf result.1.registry
  houses : ∀ scope, result.2 = some scope → result.1.registry.forest.Houses scope

theorem Directs.refl {s : State} (h : s.registry.Proper kindOf) {scope : Option String}
    (hscope : ∀ id, scope = some id → s.registry.forest.Houses id) : Directs kindOf s (s, scope) :=
  ⟨.refl h, hscope⟩

theorem store_directs (file : FileContext) {s : State} (h : s.registry.Proper kindOf) {d : Decl}
    (hd : d.kind = kindOf d.usr) {c : Classification} (hc : c.kind.isScope = d.kind.isScope)
    {e : Entity} (hkind : e.kind = c.kind) (hchildren : e.children = []) (hghost : e.ghost = false)
    (hparent : s.registry.forest.Houses e.parent) : Directs kindOf s (store file s d c e) := by
  have himproves : s.registry.Improves kindOf (s.registry.resolve d.usr e).2 :=
    h.resolve (by rw [hkind, hc, hd]) hchildren hghost hparent
  refine ⟨(registry_store file s d c e).symm ▸ himproves, ?_⟩
  rw [registry_store]
  intro scope hscope
  have hstored : c.kind.isScope = true ∧ (s.registry.resolve d.usr e).1.stored? = some scope := by
    unfold store at hscope
    split at hscope <;> rename_i hresolve
    · cases hscope
    all_goals
      rw [hresolve]
      simpa [Sighting.stored?] using hscope
  exact himproves.proper.scopes d.usr scope (Registry.lookup?_resolve hstored.2)
    (by rw [← hd, ← hc, hstored.1])

/-- **A declaration in a scope** keeps the registry proper. -/
theorem declare_directs (file : FileContext) {s : State} (h : s.registry.Proper kindOf) {d : Decl}
    (hkinds : KindsAre kindOf d) (inner : List Decl) {parent : String}
    (hparent : s.registry.forest.Houses parent) :
    Directs kindOf s (declare file s d inner parent) := by
  have haround := classify_around d.kind d.name d.tokens
    ((s.registry.forest.get? parent).map fun p => (p.kind, p.name))
  unfold declare
  dsimp only
  cases hclassify : classify d.kind d.name d.tokens
      ((s.registry.forest.get? parent).map fun p => (p.kind, p.name)) with
  | none => exact .refl h (by simp)
  | some c =>
      have hc : c.kind.isScope = d.kind.isScope := isScope_of_classify hclassify
      have hd : d.kind = kindOf d.usr := by
        rcases haround with ⟨hnone, -⟩ | ⟨_, c', -, hc', -⟩
        · rw [hclassify] at hnone
          cases hnone
        · exact hkinds.1 (by rw [hc']; rfl)
      dsimp only
      split
      · exact .refl h (by simp)
      split
      · rename_i hanonymous
        have hscope : (kindOf d.usr).isScope = true := by
          rw [← hd, ← hc]
          exact (Bool.and_eq_true_iff.mp hanonymous).1
        refine ⟨h.register hscope hparent, ?_⟩
        rintro scope ⟨⟩
        exact hparent
      · exact store_directs file h hd hc (kind_detailOf d inner c) rfl rfl hparent

theorem scopeOf_blames {s : State} (h : s.registry.Proper kindOf) {d : Decl}
    (hd : ∀ s ∈ d.scopes, s.kind = kindOf s.usr) {parent : String}
    (hparent : s.registry.forest.Houses parent) :
    s.registry.Blames kindOf (scopeOf s d parent).2.registry (s.registry.leaks d.scopes = true)
        (s.registry.strays d.scopes = true) ∧
      (s.registry.strays d.scopes = false →
        (scopeOf s d parent).2.registry.forest.Houses (scopeOf s d parent).1) := by
  have hensure := h.ensureScope hd
  unfold scopeOf
  cases hscopes : d.scopes with
  | nil =>
      refine ⟨(Registry.Improves.refl h).blames ?_ ?_, fun _ => hparent⟩
      · simp [Registry.leaks]
      · simp [Registry.strays]
  | cons symbol outer =>
      rw [hscopes] at hensure
      exact hensure

/-- Some of the calls are answered wrongly exactly if some of them stray, and otherwise the
registry is proper behind them. -/
abbrev Answers (kindOf : String → DeclKind) (calls : List ScopeCall) (r r' : Registry) : Prop :=
  r.Blames kindOf r' (∃ call ∈ calls, call.leaks = true) (∃ call ∈ calls, call.strays = true)

theorem Answers.append {calls calls' : List ScopeCall} {r₁ r₂ r₃ : Registry}
    (h₁ : Answers kindOf calls r₁ r₂)
    (h₂ : (¬ ∃ call ∈ calls, call.strays = true) → Answers kindOf calls' r₂ r₃) :
    Answers kindOf (calls ++ calls') r₁ r₃ := by
  have htrans := Registry.Blames.trans h₁ h₂
  simpa only [Answers, List.mem_append, or_and_right, exists_or] using htrans

/-- What a declaration that is visited asks for. -/
theorem enter_answers (file : FileContext) {s : State} (h : s.registry.Proper kindOf) {d : Decl}
    (hd : KindsAre kindOf d) (inner : List Decl) {parent : String}
    (hparent : s.registry.forest.Houses parent) :
    let calls := if looksAt file d then [ScopeCall.mk s.registry d.scopes] else []
    Answers kindOf calls s.registry (enter file s d inner parent).1.registry ∧
      ((¬ ∃ call ∈ calls, call.strays = true) →
        ∀ scope, (enter file s d inner parent).2 = some scope →
          (enter file s d inner parent).1.registry.forest.Houses scope) := by
  intro calls
  rcases enter_cases file s d inner parent with ⟨hlooks, henter⟩ | ⟨hlooks, henter⟩
  · obtain ⟨hblames, hhouses⟩ := scopeOf_blames h hd.2 hparent
    have hcalls : calls = [⟨s.registry, d.scopes⟩] := if_pos hlooks
    have hdirects : s.registry.strays d.scopes = false →
        Directs kindOf (scopeOf s d parent).2 (enter file s d inner parent) := by
      intro hno
      rw [henter]
      exact declare_directs file (hblames.improves (by simp [hno])).proper hd inner (hhouses hno)
    have hdeclare : ¬ s.registry.strays d.scopes = true → (scopeOf s d parent).2.registry.Blames
        kindOf (enter file s d inner parent).1.registry False False :=
      fun hno => (hdirects (by simpa using hno)).improves.blames not_false not_false
    have htrans := hblames.trans hdeclare
    rw [hcalls]
    refine ⟨by simpa [Answers, ScopeCall.leaks, ScopeCall.strays] using htrans, ?_⟩
    intro hno
    exact (hdirects (by simpa [ScopeCall.strays] using hno)).houses
  · have hcalls : calls = [] := if_neg (by simp [hlooks])
    have hdirects : Directs kindOf s (enter file s d inner parent) := by
      rcases henter with henter | henter
      · rw [henter]
        exact .refl h (by simp)
      · rw [henter]
        exact .refl h (by simpa using hparent)
    rw [hcalls]
    exact ⟨hdirects.improves.blames (by simp) (by simp), fun _ => hdirects.houses⟩

mutual

/-- **All that a declaration asks for**, together with what is inside it. -/
theorem visit_answers (file : FileContext) (t : DeclTree) {parent : String} {s : State}
    (h : s.registry.Proper kindOf) (hparent : s.registry.forest.Houses parent)
    (hkinds : ∀ d ∈ t.decls, KindsAre kindOf d) :
    Answers kindOf (scopeCalls file parent s t) s.registry (visit file parent s t).registry := by
  cases t with
  | node d children =>
      obtain ⟨hd, hchildren⟩ := List.forall_mem_cons.mp hkinds
      obtain ⟨hfirst, hhouses⟩ := enter_answers file h hd (children.map DeclTree.decl) hparent
      rw [scopeCalls, visit]
      refine hfirst.append ?_
      intro hno
      have hproper := (hfirst.improves hno).proper
      have hscope := hhouses hno
      cases henter : enter file s d (children.map DeclTree.decl) parent with
      | mk s' scope =>
          rw [henter] at hproper hscope
          cases scope with
          | none => exact (Registry.Improves.refl hproper).blames (by simp) (by simp)
          | some inner => exact visitAll_answers file children hproper (hscope inner rfl) hchildren

theorem visitAll_answers (file : FileContext) (ts : List DeclTree) {parent : String} {s : State}
    (h : s.registry.Proper kindOf) (hparent : s.registry.forest.Houses parent)
    (hkinds : ∀ d ∈ declsOf ts, KindsAre kindOf d) :
    Answers kindOf (scopeCallsAll file parent s ts) s.registry
      (visitAll file parent s ts).registry := by
  cases ts with
  | nil =>
      rw [scopeCallsAll, visitAll]
      exact (Registry.Improves.refl h).blames (by simp) (by simp)
  | cons t ts =>
      rw [declsOf, List.forall_mem_append] at hkinds
      have hfirst := visit_answers file t h hparent hkinds.1
      rw [scopeCallsAll, visitAll]
      refine hfirst.append ?_
      intro hno
      have himproves := hfirst.improves hno
      exact visitAll_answers file ts himproves.proper (himproves.kinds.houses hparent) hkinds.2

end

end Walk

namespace Build

/-- The scopes that a walk over some files asks for, one file after the other. -/
def scopeCallsFrom (b : Build) : List ParsedFile → List Walk.ScopeCall
  | [] => []
  | f :: files =>
    Walk.scopeCallsAll f.context "" b.walkState f.decls ++
      scopeCallsFrom (b.walk f.context f.decls) files

variable {kindOf : String → DeclKind}

theorem foldl_walk_answers (files : List ParsedFile) :
    ∀ b : Build, b.registry.Proper kindOf →
      (∀ f ∈ files, ∀ d ∈ declsOf f.decls, Walk.KindsAre kindOf d) →
      Walk.Answers kindOf (scopeCallsFrom b files) b.registry
        (files.foldl (fun b f => b.walk f.context f.decls) b).registry := by
  induction files with
  | nil =>
      intro b h _
      exact (Registry.Improves.refl h).blames (by simp [scopeCallsFrom]) (by simp [scopeCallsFrom])
  | cons f files ih =>
      intro b h hkinds
      obtain ⟨hf, hfiles⟩ := List.forall_mem_cons.mp hkinds
      have hfirst : Walk.Answers kindOf (Walk.scopeCallsAll f.context "" b.walkState f.decls)
          b.registry (b.walk f.context f.decls).registry :=
        Walk.visitAll_answers f.context f.decls (s := b.walkState) h (Or.inl rfl) hf
      rw [scopeCallsFrom, List.foldl_cons]
      exact hfirst.append fun hno => ih _ (hfirst.improves hno).proper hfiles

/--
**Only scopes have members, unless a call strays.**

Files are walked in any number and any order, and every symbol is of one kind.  Some scope that
is asked for is answered with the id of an entity that can hold no members exactly if some call
comes upon a symbol that is known and can hold none, or gives a scope the id of an entity that
can hold none.  If there is no such call, all entities that have members are namespaces, classes
or enumerations.
-/
theorem leaks_iff_strays {files : List ParsedFile}
    (hkinds : ∀ f ∈ files, ∀ d ∈ declsOf f.decls, Walk.KindsAre kindOf d) :
    ((∃ call ∈ scopeCallsFrom {} files, call.leaks = true) ↔
      ∃ call ∈ scopeCallsFrom {} files, call.strays = true) ∧
    ((¬ ∃ call ∈ scopeCallsFrom {} files, call.strays = true) →
      ∀ id e, (walkAll files).document.forest.get? id = some e → e.children ≠ [] →
        e.kind.isScope = true) := by
  obtain ⟨himproves, hiff⟩ :=
    foldl_walk_answers files {} (Registry.empty_proper kindOf) hkinds
  refine ⟨hiff, ?_⟩
  intro hno id e he hchildren
  exact (himproves hno).proper.roomy id e he (Or.inl hchildren)

def methodKinds : String → DeclKind
  | "A" => .record .cls
  | "f" => .method
  | "x" => .var
  | _ => .nameSpace

/-- A class that holds a place for its method at first is a scope all the time. -/
theorem leaks_iff_strays_definitionFile :
    (∀ f ∈ [definitionFile, classFile], ∀ d ∈ declsOf f.decls, Walk.KindsAre methodKinds d) ∧
      (¬ ∃ call ∈ scopeCallsFrom {} [definitionFile, classFile], call.strays = true) ∧
      (¬ ∃ call ∈ scopeCallsFrom {} [definitionFile, classFile], call.leaks = true) ∧
      ∃ e, (walkAll [definitionFile, classFile]).document.forest.get? "N-A" = some e ∧
        e.children = ["N-A-f"] ∧ e.kind.isScope = true := by
  have hkinds : ∀ f ∈ [definitionFile, classFile], ∀ d ∈ declsOf f.decls,
      Walk.KindsAre methodKinds d := by decide +kernel
  have hno : ¬ ∃ call ∈ scopeCallsFrom {} [definitionFile, classFile], call.strays = true := by
    decide +kernel
  obtain ⟨hiff, hscopes⟩ := leaks_iff_strays hkinds
  obtain ⟨e, he, hchildren⟩ :
      ∃ e, (walkAll [definitionFile, classFile]).document.forest.get? "N-A" = some e ∧
        e.children = ["N-A-f"] :=
    Option.map_eq_some_iff.mp (by decide +kernel)
  have hscope := hscopes hno "N-A" e he (by simp [hchildren])
  exact ⟨hkinds, hno, mt hiff.mp hno, e, he, hchildren, hscope⟩

/-- A function, and a variable that stands inside it. -/
def localFile : ParsedFile :=
  bareFile "a.h"
    [.node { kind := .function, name := "f", usr := "f", file := some "a.h" } [],
     .node { kind := .var, name := "x", usr := "x", file := some "a.h",
             scopes := [{ usr := "f", kind := .function, name := "f" }] } []]

/-- A function that has the name of a class in another file. -/
def statFile : ParsedFile :=
  bareFile "a.h" [.node { kind := .function, name := "stat", usr := "f", file := some "a.h" } []]

/-- A method of the class, which is not declared anywhere. -/
def statMethodFile : ParsedFile :=
  bareFile "a.cpp"
    [.node { kind := .method, name := "size", usr := "m", file := some "a.cpp",
             scopes := [{ usr := "c", kind := .record .struct, name := "stat" }] } []]

def localKinds : String → DeclKind
  | "f" => .function
  | _ => .var

def statKinds : String → DeclKind
  | "f" => .function
  | "c" => .record .struct
  | _ => .method

/-- A function gets a member in either way: it is known when it is asked for, or it has the id of
a class. -/
theorem functions_with_members :
    ((∀ f ∈ [localFile], ∀ d ∈ declsOf f.decls, Walk.KindsAre localKinds d) ∧
      ((walkAll [localFile]).document.forest.get? "f").map (fun e => (e.kind, e.children)) =
        some (.function, ["f-x"])) ∧
    ((∀ f ∈ [statFile, statMethodFile], ∀ d ∈ declsOf f.decls, Walk.KindsAre statKinds d) ∧
      ((walkAll [statFile, statMethodFile]).document.forest.get? "stat").map
        (fun e => (e.kind, e.children)) = some (.function, ["stat-size"])) := by
  refine ⟨⟨?_, ?_⟩, ?_, ?_⟩
  all_goals decide +kernel

end Build

end DocForest
