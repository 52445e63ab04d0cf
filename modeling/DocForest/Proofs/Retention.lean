/-
Entities and bindings are only ever added.

`Retains` compares two moments of a run.  The later one knows the ids of the earlier one, in
the same order and before its own; an entity is in the same place, and what was said of its
name, its header and its group is still said; its children come first among the children it has
then; and a symbol that stands for an entity still stands for it.

All changes that a run makes to symbols and entities are listed in `Step`, and each of them
retains what was there.  That the moments of a run follow each other by such steps is said once
for each function (`Passes`), with the registry that it comes to.  Two steps could do harm.
Merging fills gaps only.  Binding a symbol overwrites, so it is a step only where the symbol
stands for no entity yet; the walk keeps to that because it looks a scope up before it asks for
the scopes around it, and these are other symbols.
-/
import DocForest.Proofs.Decoration
import DocForest.Proofs.Moments
import DocForest.Proofs.Symbols
import Mathlib.Data.List.Chain

namespace DocForest

/-! ### Two moments -/

/-- What a later moment has kept of an entity. -/
structure Entity.KeptIn (e e' : Entity) : Prop where
  id : e'.id = e.id
  parent : e'.parent = e.parent
  name : e.name ≠ "" → e'.name = e.name
  header : e.header ≠ "" → e'.header = e.header
  group : e.group ≠ "" → e'.group = e.group
  children : e.children <+: e'.children
  ghost : e.ghost = false → e'.ghost = false

namespace Entity.KeptIn

theorem refl (e : Entity) : e.KeptIn e :=
  ⟨rfl, rfl, fun _ => rfl, fun _ => rfl, fun _ => rfl, List.prefix_rfl, fun h => h⟩

theorem trans {e₁ e₂ e₃ : Entity} (h₁ : e₁.KeptIn e₂) (h₂ : e₂.KeptIn e₃) : e₁.KeptIn e₃ where
  id := h₂.id.trans h₁.id
  parent := h₂.parent.trans h₁.parent
  name hne := (h₂.name (by rwa [h₁.name hne])).trans (h₁.name hne)
  header hne := (h₂.header (by rwa [h₁.header hne])).trans (h₁.header hne)
  group hne := (h₂.group (by rwa [h₁.group hne])).trans (h₁.group hne)
  children := h₁.children.trans h₂.children
  ghost hfull := h₂.ghost (h₁.ghost hfull)

theorem of_undecorated {e e' : Entity} (h : e'.undecorated = e.undecorated) : e.KeptIn e' := by
  obtain ⟨hid, hname, hparent, hheader, -, -, hgroup, -, -, -, -, -, -, hghost, hchildren, -⟩ :=
    Entity.mk.inj h
  exact ⟨hid, hparent, fun _ => hname, fun _ => hheader, fun _ => hgroup,
    hchildren ▸ List.prefix_rfl, fun hfull => hghost.trans hfull⟩

theorem addChild (e : Entity) (child : String) : e.KeptIn (e.addChild child) := by
  unfold Entity.addChild
  split
  · exact refl e
  · exact { refl e with children := List.prefix_append e.children [child] }

end Entity.KeptIn

theorem fillText_eq_left {s : String} (h : s ≠ "") (other : String) : fillText s other = s :=
  if_neg (by simpa using h)

theorem prefix_union (xs others : List String) : xs <+: union xs others := by
  unfold union
  induction others generalizing xs with
  | nil => exact List.prefix_rfl
  | cons x others ih =>
      rw [List.foldl_cons]
      refine List.IsPrefix.trans ?_ (ih _)
      split
      · exact List.prefix_rfl
      · exact List.prefix_append xs [x]

namespace Entity.KeptIn

theorem merge (e other : Entity) : e.KeptIn (e.merge other) where
  id := rfl
  parent := rfl
  name h := fillText_eq_left h other.name
  header h := fillText_eq_left h other.header
  group h := fillText_eq_left h other.group
  children := prefix_union e.children other.children
  ghost _ := rfl

theorem describeEntity (e : Entity) (description : DocText.Description) (group : Option String) :
    e.KeptIn (Deferred.describeEntity e description group) :=
  { refl e with group := fun h => if_neg (by simpa using h) }

end Entity.KeptIn

namespace Forest

/-- A later forest has the entities of an earlier one, and has kept what was said of them. -/
structure Retains (f f' : Forest) : Prop where
  ids : f.ids <+: f'.ids
  entities : ∀ id e, f.get? id = some e → ∃ e', f'.get? id = some e' ∧ e.KeptIn e'

theorem Retains.refl (f : Forest) : f.Retains f :=
  ⟨List.prefix_rfl, fun _ e h => ⟨e, h, .refl e⟩⟩

theorem Retains.trans {f₁ f₂ f₃ : Forest} (h₁ : f₁.Retains f₂) (h₂ : f₂.Retains f₃) :
    f₁.Retains f₃ := by
  refine ⟨h₁.ids.trans h₂.ids, fun id e₁ he₁ => ?_⟩
  obtain ⟨e₂, he₂, hkept₁⟩ := h₁.entities id e₁ he₁
  obtain ⟨e₃, he₃, hkept₂⟩ := h₂.entities id e₂ he₂
  exact ⟨e₃, he₃, hkept₁.trans hkept₂⟩

theorem Retains.contains {f f' : Forest} (h : f.Retains f') {id : String}
    (hid : f.contains id = true) : f'.contains id = true := by
  rw [contains_iff_mem_ids] at hid ⊢
  exact h.ids.subset hid

theorem retains_modify (f : Forest) (id : String) {g : Entity → Entity}
    (hg : ∀ e : Entity, e.KeptIn (g e)) : f.Retains (f.modify id g) := by
  refine ⟨(f.ids_modify id g).symm ▸ List.prefix_rfl, fun k e he => ?_⟩
  rw [get?_modify]
  by_cases hk : k = id
  · exact ⟨g e, by rw [if_pos hk, he]; rfl, hg e⟩
  · exact ⟨e, by rw [if_neg hk, he], .refl e⟩

theorem retains_of_undecorated {f f' : Forest} (h : f'.undecorated = f.undecorated) :
    f.Retains f' := by
  refine ⟨(ids_of_undecorated h).symm ▸ List.prefix_rfl, fun id e he => ?_⟩
  have hget : (f'.get? id).map Entity.undecorated = some e.undecorated := by
    rw [← get?_undecorated, h, get?_undecorated, he]
    rfl
  obtain ⟨e', he', hsame⟩ := Option.map_eq_some_iff.mp hget
  exact ⟨e', he', .of_undecorated hsame⟩

theorem retains_insert (f : Forest) (e : Entity) : f.Retains (f.insert e) := by
  unfold insert
  split
  · exact .refl f
  rename_i hnew
  have hstored : ∀ roots, f.Retains ⟨f.entities.insertNew e.id e, roots⟩ := by
    intro roots
    constructor
    · have hids : ids ⟨f.entities.insertNew e.id e, roots⟩ = f.ids ++ [e.id] :=
        (Table.keys_insertNew f.entities e.id e).trans (if_neg hnew)
      rw [hids]
      exact List.prefix_append f.ids [e.id]
    · intro id e₀ he₀
      have hne : id ≠ e.id := by
        rintro rfl
        exact hnew (contains_of_get? he₀)
      exact ⟨e₀, ((Table.get?_insertNew f.entities e.id e id).trans (if_neg hne)).trans he₀,
        .refl e₀⟩
  unfold link
  split
  · exact hstored _
  · exact (hstored _).trans (retains_modify _ _ fun e₀ => .addChild e₀ _)

end Forest

namespace Registry

/-- A later registry has the entities of an earlier one, and symbols that stood for one of them
still do. -/
structure Retains (r r' : Registry) : Prop where
  forest : r.forest.Retains r'.forest
  bound : ∀ usr id, r.lookup? usr = some id → r.forest.contains id = true →
    r'.lookup? usr = some id

theorem Retains.refl (r : Registry) : r.Retains r :=
  ⟨.refl r.forest, fun _ _ hbound _ => hbound⟩

theorem Retains.trans {r₁ r₂ r₃ : Registry} (h₁ : r₁.Retains r₂) (h₂ : r₂.Retains r₃) :
    r₁.Retains r₃ :=
  ⟨h₁.forest.trans h₂.forest, fun usr id hbound hid =>
    h₂.bound usr id (h₁.bound usr id hbound hid) (h₁.forest.contains hid)⟩

instance : IsTrans Registry Retains :=
  ⟨fun _ _ _ => Retains.trans⟩

theorem retains_of_forest (r : Registry) {f : Forest} (h : r.forest.Retains f) :
    r.Retains { r with forest := f } :=
  ⟨h, fun _ _ hbound _ => hbound⟩

/-! ### One step -/

/-- All that a run does to symbols and entities, one change at a time. -/
inductive Step (r : Registry) : Registry → Prop
  /-- A call finds nothing to do. -/
  | rest : Step r r
  /-- A symbol that stands for no entity is bound to an id. -/
  | bind (usr id : String) (hfree : r.storedId? usr = none) :
      Step r { r with bindings := r.bindings.insert usr id }
  | store (e : Entity) : Step r { r with forest := r.forest.insert e }
  | merge (id : String) (e : Entity) :
      Step r { r with forest := r.forest.modify id (·.merge e) }
  /-- A description that was put aside is added to an entity. -/
  | describe (id : String) (description : DocText.Description) (group : Option String) :
      Step r { r with
        forest := r.forest.modify id (Deferred.describeEntity · description group) }
  | base (l : BaseLink) : Step r { r with forest := r.forest.linkBase l }
  | types : Step r { r with forest := r.forest.linkTypes }
  | marks : Step r { r with
      forest := { r.forest with entities := r.forest.entities.map Entity.mark } }
  /-- The texts of a record are rendered, in a document with these entities. -/
  | texts (d : Document) (hd : d.forest = r.forest) (anchors : List String) (owner : Owner) :
      Step r { r with forest := (d.renderOwner anchors owner).1.forest }

/-- **Every step retains what was there.** -/
theorem Step.retains {r r' : Registry} (h : r.Step r') : r.Retains r' := by
  cases h with
  | rest => exact .refl r
  | bind usr id hfree =>
      refine ⟨.refl r.forest, fun u i hbound hid => ?_⟩
      have hne : u ≠ usr := by
        rintro rfl
        rw [storedId?_eq_some.mpr ⟨hbound, hid⟩] at hfree
        cases hfree
      rw [lookup?_insert, if_neg hne]
      exact hbound
  | store e => exact r.retains_of_forest (r.forest.retains_insert e)
  | merge id e => exact r.retains_of_forest (r.forest.retains_modify id fun e₀ => .merge e₀ e)
  | describe id description group =>
      exact r.retains_of_forest
        (r.forest.retains_modify id fun e => .describeEntity e description group)
  | base l =>
      exact r.retains_of_forest (Forest.retains_of_undecorated (r.forest.undecorated_linkBase l))
  | types =>
      exact r.retains_of_forest (Forest.retains_of_undecorated r.forest.undecorated_linkTypes)
  | marks =>
      refine r.retains_of_forest (Forest.retains_of_undecorated ?_)
      exact (Document.mk.inj (Document.undecorated_mark { forest := r.forest })).1
  | texts d hd anchors owner =>
      refine r.retains_of_forest (Forest.retains_of_undecorated ?_)
      rw [← hd]
      exact (Document.mk.inj (Document.undecorated_of_bare (d.bare_renderOwner anchors owner))).1

/-! ### From moment to moment -/

/-- The moments lead from one registry to another, one step at a time. -/
inductive Passes : Registry → List Registry → Registry → Prop
  | here (r : Registry) : Passes r [] r
  | step {r m r' : Registry} {moments : List Registry} (h : r.Step m)
      (hmore : Passes m moments r') : Passes r (m :: moments) r'

namespace Passes

variable {r r' r'' : Registry} {moments moments' : List Registry}

theorem single (h : r.Step r') : r.Passes [r'] r' :=
  .step h (.here r')

theorem append (h : r.Passes moments r') (h' : r'.Passes moments' r'') :
    r.Passes (moments ++ moments') r'' := by
  induction h with
  | here r => exact h'
  | step hstep _ ih => exact .step hstep (ih h')

theorem isChain (h : r.Passes moments r') : (r :: moments).IsChain Step := by
  induction h with
  | here r => exact .singleton r
  | step hstep _ ih => exact List.isChain_cons_cons.mpr ⟨hstep, ih⟩

theorem getLast? (h : r.Passes moments r') : (r :: moments).getLast? = some r' := by
  induction h with
  | here r => rfl
  | step _ _ ih => rw [List.getLast?_cons_cons, ih]

/-- A fold whose function makes one step each time. -/
theorem scanl {α β : Type} (view : β → Registry) (f : β → α → β)
    (hstep : ∀ b a, (view b).Step (view (f b a))) (xs : List α) (b : β) (h : r.Step (view b)) :
    r.Passes ((xs.scanl f b).map view) (view (xs.foldl f b)) := by
  induction xs generalizing r b with
  | nil =>
      rw [List.scanl_nil]
      exact .single h
  | cons a xs ih =>
      rw [List.scanl_cons, List.map_cons, List.foldl_cons]
      exact .step h (ih (f b a) (hstep b a))

end Passes

/-- **Any two moments.**  Along any steps, each moment retains what was there at every earlier
one. -/
theorem pairwise_retains {moments : List Registry} (h : moments.IsChain Step) :
    moments.Pairwise Retains :=
  List.isChain_iff_pairwise.mp (h.imp fun _ _ => Step.retains)

/-! ### The moments of a walk -/

theorem storedId?_eq_none {r : Registry} {usr : String} (h : r.lookup? usr = none) :
    r.storedId? usr = none := by
  rw [storedId?, h]
  rfl

theorem register_step (r : Registry) (usr id : String) : r.Step (r.register usr id) := by
  unfold register Table.insertNew
  split
  · exact .rest
  · rename_i hfree
    have hlookup : r.lookup? usr = none := Table.contains_eq_false_iff.mp (by simpa using hfree)
    have hstep := Step.bind usr id (storedId?_eq_none hlookup)
    rw [Table.insert, if_neg hfree] at hstep
    exact hstep

theorem resolve_passes (r : Registry) (usr : String) (e : Entity) :
    r.Passes [{ r with bindings := (r.resolve usr e).2.bindings }, (r.resolve usr e).2]
      (r.resolve usr e).2 := by
  rcases r.resolve_cases usr e with ⟨id, -, hres⟩ | ⟨-, -, hres⟩ | ⟨hnone, -, hres⟩
  · rw [hres]
    exact .step .rest (.single (.merge id e))
  · rw [hres]
    exact .step .rest (.single .rest)
  · rw [hres]
    exact .step (.bind usr e.id hnone) (.single (.store e))

theorem holdPlace_passes {r : Registry} {s : Source.Symbol} (hfree : r.lookup? s.usr = none)
    (c : Source.Classification) (parent : String) :
    r.Passes [{ r with forest := (r.holdPlace s c parent).2.forest }, (r.holdPlace s c parent).2]
      (r.holdPlace s c parent).2 := by
  have hbind : ∀ f id, Step { r with forest := f } ⟨r.bindings.insert s.usr id, f⟩ :=
    fun f id => .bind s.usr id (storedId?_eq_none (r := { r with forest := f }) hfree)
  refine .step ?_ (.single (hbind _ _))
  unfold holdPlace
  dsimp only
  split
  · exact .rest
  · exact .store _

/-- Asking for a scope takes steps only, if no symbol is in the chain twice: a symbol that was
free before its outer scopes were asked for is free after that. -/
theorem ensureScope_passes (r : Registry) {chain : List Source.Symbol}
    (hchain : (chain.map (·.usr)).Nodup) :
    r.Passes (r.scopeMoments chain) (r.ensureScope chain).2 := by
  induction chain with
  | nil => exact .here r
  | cons s outer ih =>
      obtain ⟨hother, houter⟩ := List.nodup_cons.mp hchain
      rw [scopeMoments, ensureScope]
      cases hbound : r.lookup? s.usr with
      | some id => exact .here r
      | none =>
          have hfree : (r.ensureScope outer).2.lookup? s.usr = none := by
            rw [lookup?_ensureScope r hother, hbound]
          refine (ih houter).append ?_
          dsimp only
          cases s.classify? with
          | none => exact .step .rest (.single .rest)
          | some c =>
              dsimp only
              split
              · exact .step .rest (.single (register_step _ s.usr _))
              · exact holdPlace_passes hfree c _

end Registry

namespace Source

mutual

/-- The declarations of a tree. -/
def DeclTree.decls : DeclTree → List Decl
  | .node d children => d :: declsOf children

/-- The declarations of several trees. -/
def declsOf : List DeclTree → List Decl
  | [] => []
  | t :: ts => t.decls ++ declsOf ts

end

/-- No symbol is named twice among the scopes around a declaration. -/
def Decl.ScopesDistinct (d : Decl) : Prop :=
  (d.scopes.map (·.usr)).Nodup

instance : DecidablePred Decl.ScopesDistinct :=
  fun d => inferInstanceAs (Decidable (d.scopes.map (·.usr)).Nodup)

end Source

namespace Walk

open Source Registry

theorem registry_store (file : FileContext) (s : State) (d : Decl) (c : Classification)
    (e : Entity) : (store file s d c e).1.registry = (s.registry.resolve d.usr e).2 := by
  unfold store
  split <;> rename_i h <;> rw [h]

theorem declare_passes (file : FileContext) (s : State) (d : Decl) (inner : List Decl)
    (parent : String) :
    s.registry.Passes
      [{ s.registry with bindings := (declare file s d inner parent).1.registry.bindings },
        (declare file s d inner parent).1.registry]
      (declare file s d inner parent).1.registry := by
  unfold declare
  dsimp only
  split
  · exact .step .rest (.single .rest)
  · split
    · exact .step .rest (.single .rest)
    split
    · exact .step (register_step s.registry d.usr parent) (.single .rest)
    · rw [registry_store]
      exact resolve_passes s.registry d.usr _

theorem scopeOf_passes (s : State) {d : Decl} (hd : d.ScopesDistinct) (parent : String) :
    s.registry.Passes (s.registry.scopeMoments d.scopes) (scopeOf s d parent).2.registry := by
  have hscopes := ensureScope_passes s.registry hd
  unfold scopeOf
  split <;> rename_i hempty
  · rw [hempty]
    exact .here s.registry
  · exact hscopes

theorem enter_passes (file : FileContext) (s : State) {d : Decl} (hd : d.ScopesDistinct)
    (inner : List Decl) (parent : String) :
    s.registry.Passes (enterMoments file s d inner parent)
      (enter file s d inner parent).1.registry := by
  unfold enterMoments enter
  cases d.file with
  | none => exact .here s.registry
  | some path =>
      dsimp only
      by_cases hother : (!Path.same path file.path) = true
      · rw [if_pos hother, if_pos hother]
        exact .here s.registry
      by_cases hwraps : d.kind = .unexposed ∨ d.kind = .linkage
      · rw [if_neg hother, if_neg hother, if_pos hwraps, if_pos hwraps]
        exact .here s.registry
      · rw [if_neg hother, if_neg hother, if_neg hwraps, if_neg hwraps]
        exact (scopeOf_passes s hd parent).append (.step .rest (declare_passes file _ d inner _))

mutual

theorem visit_passes (file : FileContext) (t : DeclTree) (parent : String) (s : State)
    (h : ∀ d ∈ t.decls, d.ScopesDistinct) :
    s.registry.Passes (visitMoments file parent s t) (visit file parent s t).registry := by
  cases t with
  | node d children =>
      obtain ⟨hd, hchildren⟩ := List.forall_mem_cons.mp h
      have hfirst := enter_passes file s hd (children.map DeclTree.decl) parent
      rw [visitMoments, visit]
      refine hfirst.append ?_
      cases henter : enter file s d (children.map DeclTree.decl) parent with
      | mk s' scope =>
          cases scope with
          | none => exact .here s'.registry
          | some inner => exact visitAll_passes file children inner s' hchildren

theorem visitAll_passes (file : FileContext) (ts : List DeclTree) (parent : String) (s : State)
    (h : ∀ d ∈ declsOf ts, d.ScopesDistinct) :
    s.registry.Passes (visitAllMoments file parent s ts) (visitAll file parent s ts).registry := by
  cases ts with
  | nil => exact .here s.registry
  | cons t ts =>
      rw [declsOf, List.forall_mem_append] at h
      rw [visitAllMoments, visitAll]
      refine (visit_passes file t parent s h.1).append (.step .rest ?_)
      exact visitAll_passes file ts parent _ h.2

end

end Walk

theorem Build.walk_passes (files : List ParsedFile) (b : Build)
    (h : ∀ f ∈ files, ∀ d ∈ Source.declsOf f.decls, d.ScopesDistinct) :
    b.registry.Passes (b.walkMoments files)
      (files.foldl (fun b f => b.walk f.context f.decls) b).registry := by
  induction files generalizing b with
  | nil => exact .here b.registry
  | cons f files ih =>
      obtain ⟨hf, hfiles⟩ := List.forall_mem_cons.mp h
      have hwalk : b.registry.Passes (Walk.visitAllMoments f.context "" b.walkState f.decls)
          (b.walk f.context f.decls).registry :=
        Walk.visitAll_passes f.context f.decls "" b.walkState hf
      exact hwalk.append (.step .rest (ih _ hfiles))

/-! ### The moments behind the walk -/

namespace Deferred

variable (bindings : Table String)

theorem applyMacro_step (d : Document) (c : DeferredCommand) :
    Registry.Step ⟨bindings, d.forest⟩ ⟨bindings, (applyMacro d c).1.forest⟩ := by
  rcases applyMacro_cases d c with ⟨code, message, happly⟩ | ⟨e, -, -, happly⟩ |
    ⟨e, name, old, new, -, happly⟩
  · rw [happly]
    exact .rest
  · rw [happly]
    exact .store e
  · rw [happly]
    exact .merge _ e

theorem applyDeclaration_step {d d' : Document} {c : DeferredCommand} {notes : List Diagnostic}
    (hok : applyDeclaration d c = .ok (d', notes)) :
    Registry.Step ⟨bindings, d.forest⟩ ⟨bindings, d'.forest⟩ := by
  rcases applyDeclaration_cases hok with ⟨code, message, heq⟩ | heq |
    ⟨id, e, name, description, group, -, heq⟩
  · obtain ⟨rfl, -⟩ := Prod.mk.inj heq
    exact .rest
  · obtain ⟨rfl, -⟩ := Prod.mk.inj heq
    exact .rest
  · obtain ⟨rfl, -⟩ := Prod.mk.inj heq
    exact .describe id description group

theorem apply_step {d d' : Document} {c : DeferredCommand} {notes : List Diagnostic}
    (hok : apply d c = .ok (d', notes)) :
    Registry.Step ⟨bindings, d.forest⟩ ⟨bindings, d'.forest⟩ := by
  rcases apply_cases hok with ⟨-, heq⟩ | ⟨-, heq⟩ | ⟨-, heq⟩ | ⟨-, heq⟩ | ⟨-, hok⟩
  · have hd : d' = (applyMacro d c).1 := congrArg Prod.fst heq
    rw [hd]
    exact applyMacro_step bindings d c
  · have hd : d' = applyFile d c := congrArg Prod.fst heq
    rw [hd]
    exact .rest
  · have hd : d' = (applyPage d c).1 := congrArg Prod.fst heq
    rw [hd]
    rcases applyPage_cases d c rfl rfl with ⟨-, happly⟩ | ⟨-, code, message, happly⟩
    · rw [happly]
      exact .rest
    · rw [happly]
      exact .rest
  · have hd : d' = appendPage d mainPage (unquoted c.args) c.body := congrArg Prod.fst heq
    rw [hd]
    exact .rest
  · exact applyDeclaration_step bindings hok

/-- Commands that can all be carried out lead to the document that they leave. -/
theorem process_passes (queue : List DeferredCommand) (d : Document) :
    ∃ r, Registry.Passes ⟨bindings, d.forest⟩
        ((processMoments d queue).map fun f => ⟨bindings, f⟩) r ∧
      ∀ d' notes, process d queue = .ok (d', notes) → r = ⟨bindings, d'.forest⟩ := by
  induction queue generalizing d with
  | nil =>
      refine ⟨_, .here _, fun d' notes hok => ?_⟩
      have hd : d = d' := congrArg Prod.fst (Except.ok.inj hok)
      rw [hd]
  | cons c queue ih =>
      rw [processMoments]
      cases happly : apply d c with
      | error cause =>
          refine ⟨_, .here _, fun d' notes hok => ?_⟩
          obtain ⟨d₁, first, rest, hfirst, -, -⟩ := process_cons_eq_ok hok
          rw [happly] at hfirst
          cases hfirst
      | ok applied =>
          obtain ⟨r, hpasses, hend⟩ := ih applied.1
          refine ⟨r, .step (apply_step bindings happly) hpasses, fun d' notes hok => ?_⟩
          obtain ⟨d₁, first, rest, hfirst, hrest, -⟩ := process_cons_eq_ok hok
          rw [happly] at hfirst
          cases hfirst
          exact hend d' rest hrest

end Deferred

theorem Document.resolve_passes (bindings : Table String) (d : Document) :
    Registry.Passes ⟨bindings, d.forest⟩ (d.resolveMoments.map fun f => ⟨bindings, f⟩)
      ⟨bindings, d.resolve.1.forest⟩ := by
  have hbases := Registry.Passes.scanl (fun f : Forest => (⟨bindings, f⟩ : Registry))
    Forest.linkBase (fun _ l => .base l) d.forest.baseLinks d.forest .rest
  have htexts := Registry.Passes.scanl
    (fun s : Document × List Diagnostic => (⟨bindings, s.1.forest⟩ : Registry))
    (renderStep d.link.anchorIds) (fun s owner => .texts s.1 rfl d.link.anchorIds owner)
    d.link.mark.owners (d.link.mark, []) .rest
  rw [resolveMoments, resolve, renderTexts, List.map_append, List.map_cons, List.map_cons,
    List.map_map]
  exact hbases.append (.step .types (.step .marks htexts))

namespace Build

theorem finish_passes (b : Build) :
    ∃ r, b.registry.Passes (b.finishMoments.map fun f => ⟨b.bindings, f⟩) r ∧
      ∀ result, b.finish = .ok result → r = ⟨b.bindings, result.document.forest⟩ := by
  obtain ⟨r, hprocess, hend⟩ := Deferred.process_passes b.bindings b.queue b.document
  rw [finishMoments, finish, List.map_append, List.map_cons]
  cases hqueue : Deferred.process b.document b.queue with
  | error cause =>
      refine ⟨r, .step .rest (hprocess.append (.here r)), fun result hresult => ?_⟩
      cases hresult
  | ok processed =>
      rw [hend processed.1 processed.2 hqueue] at hprocess
      refine ⟨_, .step .rest (hprocess.append (processed.1.resolve_passes b.bindings)), ?_⟩
      intro result hresult
      rw [← Except.ok.inj hresult]
      rfl

/--
**Entities and bindings are only ever added.**

Files are walked in any number, any commands are carried out, and all names are looked up; only
that no symbol is named twice among the scopes around a declaration is asked for.  Each moment of
the run then retains what was there at every earlier one.

From one moment to the next there is one change at most.  The ends of all first files, of all
first commands and of the passes are moments in this order; so are, inside each file, the ends of
all first declarations; and a run that comes to its end ends with the last moment.
-/
theorem moments_retain {files : List ParsedFile}
    (hscopes : ∀ f ∈ files, ∀ d ∈ Source.declsOf f.decls, d.ScopesDistinct)
    {b : Build} (hread : b.registry = (walkAll files).registry) :
    (b.moments files).Pairwise Registry.Retains ∧
      (b.moments files).IsChain Registry.Step ∧
      (b.stages files).Sublist (b.moments files) ∧
      (∀ earlier f later, files = earlier ++ f :: later →
        (f.decls.inits.map fun done => ((walkAll earlier).walk f.context done).registry).Sublist
          (b.moments files)) ∧
      ∀ result, b.finish = .ok result →
        (b.moments files).getLast? = some ⟨b.bindings, result.document.forest⟩ := by
  have hwalk : Registry.Passes {} (walkMoments {} files) b.registry :=
    hread ▸ walk_passes files {} hscopes
  obtain ⟨r, hfinish, hend⟩ := b.finish_passes
  have hrun := hwalk.append hfinish
  refine ⟨Registry.pairwise_retains hrun.isChain, hrun.isChain, b.stages_sublist_moments files,
    ?_, ?_⟩
  · rintro earlier f later rfl
    exact b.decls_sublist_moments earlier later f
  · intro result hresult
    rw [← hend result hresult]
    exact hrun.getLast?

/-- The method and its class, with a macro. -/
def methodBuild : Build :=
  { walkAll [definitionFile, classFile] with queue := [maxCommand] }

/-- The class is a ghost while only its method is known, the variable comes with the second file,
and the macro with the command. -/
theorem moments_retain_methodBuild :
    (∀ f ∈ [definitionFile, classFile], ∀ d ∈ Source.declsOf f.decls, d.ScopesDistinct) ∧
      methodBuild.registry = (walkAll [definitionFile, classFile]).registry ∧
      ((methodBuild.stages [definitionFile, classFile]).map fun r =>
          (r.forest.size, (r.forest.get? "N-A").map (·.ghost))) =
        [(0, none), (3, some true), (4, some false), (4, some false), (5, some false),
          (5, some false), (5, some false), (5, some false), (5, some false)] ∧
      (methodBuild.stages [definitionFile, classFile]).Sublist
        (methodBuild.moments [definitionFile, classFile]) ∧
      (methodBuild.moments [definitionFile, classFile]).Pairwise Registry.Retains := by
  have hscopes : ∀ f ∈ [definitionFile, classFile], ∀ d ∈ Source.declsOf f.decls,
      d.ScopesDistinct := by decide +kernel
  obtain ⟨hretain, -, hstages, -⟩ := moments_retain hscopes (b := methodBuild) rfl
  exact ⟨hscopes, rfl, by decide +kernel, hstages, hretain⟩

end Build

end DocForest
