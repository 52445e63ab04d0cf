/-
The moments of a run.

Beside each function that changes symbols or entities stands one that lists the registries it
passes through, in their order.  It calls the function itself for each of them, so that a moment
is what a call really came to: inside a file there is one for every scope that is made sure of,
for every declaration and for every tree, and then come the ends of the files, of the commands
that were put aside, and of the passes over all names.

A moment does not tell which call it belongs to, and a call that changes nothing gives one too.
So the checkpoints of a run are a sublist of its moments: the ends of all first files, then of
all first commands, and then of the passes (`stages_sublist_moments`).
-/
import DocForest.Proofs.FileOrder
import DocForest.Proofs.Run
import Mathlib.Data.List.Infix

namespace DocForest

/-- A trace that has the value after each item has those of all first items, in their order. -/
theorem map_inits_sublist {α β γ : Type} (value : β → List α → γ) {next : β → α → β}
    {trace : β → List α → List γ} (hvalue : ∀ b a as, value b (a :: as) = value (next b a) as)
    (htrace : ∀ b a as, ∃ during,
      trace b (a :: as) = during ++ value (next b a) [] :: trace (next b a) as)
    (as : List α) (b : β) : (as.inits.map (value b)).Sublist (value b [] :: trace b as) := by
  induction as generalizing b with
  | nil => exact (List.nil_sublist _).cons_cons _
  | cons a as ih =>
      obtain ⟨during, heq⟩ := htrace b a as
      have hfirst : value b ∘ (a :: ·) = value (next b a) := funext (hvalue b a)
      rw [List.inits_cons, List.map_cons, List.map_map, hfirst, heq]
      exact ((ih (next b a)).trans (List.sublist_append_right during _)).cons_cons _

/-! ### Inside a file -/

/-- The moments in which a scope is made sure of.  The scopes around it come first; then a ghost
is stored if one is needed, and the symbol is bound. -/
def Registry.scopeMoments (r : Registry) : List Source.Symbol → List Registry
  | [] => []
  | s :: outer =>
    if (r.lookup? s.usr).isSome then []
    else
      let before := (r.ensureScope outer).2
      let after := (r.ensureScope (s :: outer)).2
      r.scopeMoments outer ++ [{ before with forest := after.forest }, after]

namespace Walk

open Source

/-- The moments of one declaration.  The scope that it names is made sure of; then its symbol is
bound, and its entity is stored or merged. -/
def enterMoments (file : FileContext) (s : State) (d : Decl) (inner : List Decl)
    (parent : String) : List Registry :=
  match d.file with
  | none => []
  | some path =>
    if !Path.same path file.path then []
    else if d.kind = .unexposed ∨ d.kind = .linkage then []
    else
      let (parent, before) := scopeOf s d parent
      let after := (declare file before d inner parent).1.registry
      s.registry.scopeMoments d.scopes ++
        [before.registry, { before.registry with bindings := after.bindings }, after]

mutual

/-- The moments of a declaration and of what is inside it. -/
def visitMoments (file : FileContext) (parent : String) (s : State) : DeclTree → List Registry
  | .node d children =>
    enterMoments file s d (children.map DeclTree.decl) parent ++
      match enter file s d (children.map DeclTree.decl) parent with
      | (_, none) => []
      | (s, some inner) => visitAllMoments file inner s children

/-- The moments of declarations one after the other, with the end of each. -/
def visitAllMoments (file : FileContext) (parent : String) (s : State) :
    List DeclTree → List Registry
  | [] => []
  | t :: ts =>
    visitMoments file parent s t ++
      (visit file parent s t).registry :: visitAllMoments file parent (visit file parent s t) ts

end

theorem visitAll_inits_sublist (file : FileContext) (parent : String) (ts : List DeclTree)
    (s : State) :
    (ts.inits.map fun done => (visitAll file parent s done).registry).Sublist
      (s.registry :: visitAllMoments file parent s ts) :=
  map_inits_sublist (fun s done => (visitAll file parent s done).registry)
    (fun _ _ _ => rfl) (fun _ _ _ => ⟨_, rfl⟩) ts s

end Walk

/-! ### From file to file -/

namespace Build

/-- The moments of a walk over some files, with the end of each. -/
def walkMoments (b : Build) : List ParsedFile → List Registry
  | [] => []
  | f :: files =>
    Walk.visitAllMoments f.context "" b.walkState f.decls ++
      (b.walk f.context f.decls).registry :: (b.walk f.context f.decls).walkMoments files

theorem walk_inits_sublist (files : List ParsedFile) (b : Build) :
    (files.inits.map fun done =>
        (done.foldl (fun b f => b.walk f.context f.decls) b).registry).Sublist
      (b.registry :: b.walkMoments files) :=
  map_inits_sublist
    (fun b done => (done.foldl (fun b f => b.walk f.context f.decls) b).registry)
    (fun _ _ _ => rfl) (fun _ _ _ => ⟨_, rfl⟩) files b

/-- The moments of a file are among those of the walk. -/
theorem visitAllMoments_sublist (f : ParsedFile) (later : List ParsedFile) {start : Build}
    (earlier : List ParsedFile) (b : Build)
    (hstart : earlier.foldl (fun b f => b.walk f.context f.decls) b = start) :
    (start.registry :: Walk.visitAllMoments f.context "" start.walkState f.decls).Sublist
      (b.registry :: b.walkMoments (earlier ++ f :: later)) := by
  induction earlier generalizing b with
  | nil =>
      subst hstart
      exact (List.sublist_append_left _ _).cons_cons _
  | cons g earlier ih =>
      rw [List.cons_append, walkMoments]
      refine List.Sublist.cons _ ?_
      exact (ih (b.walk g.context g.decls) hstart).trans (List.sublist_append_right _ _)

end Build

/-! ### Behind the walk -/

namespace Deferred

/-- The entities after some commands, if all of them can be carried out. -/
def forestAfter? (d : Document) (queue : List DeferredCommand) : Option Forest :=
  (process d queue).toOption.map (·.1.forest)

/-- The entities after each command, up to one that cannot be carried out. -/
def processMoments (d : Document) : List DeferredCommand → List Forest
  | [] => []
  | c :: queue =>
    match apply d c with
    | .ok (d, _) => d.forest :: processMoments d queue
    | .error _ => []

theorem forestAfter?_cons (d : Document) (c : DeferredCommand) (queue : List DeferredCommand) :
    forestAfter? d (c :: queue) =
      (apply d c).toOption.bind fun applied => forestAfter? applied.1 queue := by
  rw [forestAfter?, process]
  cases apply d c with
  | error cause => rfl
  | ok applied =>
      rw [Except.toOption, Option.bind_some, forestAfter?]
      show (process applied.1 queue >>= _).toOption.map _ = _
      cases process applied.1 queue <;> rfl

theorem forestAfter?_inits_sublist (queue : List DeferredCommand) (d : Document) :
    (queue.inits.filterMap (forestAfter? d)).Sublist (d.forest :: processMoments d queue) := by
  induction queue generalizing d with
  | nil => exact .refl _
  | cons c queue ih =>
      have hcons : forestAfter? d ∘ (c :: ·) =
          fun done => (apply d c).toOption.bind fun applied => forestAfter? applied.1 done :=
        funext (forestAfter?_cons d c)
      rw [List.inits_cons, List.filterMap_cons, List.filterMap_map, hcons, processMoments]
      refine List.Sublist.cons_cons _ ?_
      cases apply d c with
      | error cause => simp [Except.toOption]
      | ok applied => exact ih applied.1

end Deferred

namespace Document

/-- The entities while all names are looked up: after each base that is linked, after the types
are linked, after headings and anchors are noted, and after the texts of each record. -/
def resolveMoments (d : Document) : List Forest :=
  d.forest.baseLinks.scanl Forest.linkBase d.forest ++
    d.link.forest :: d.link.mark.forest ::
      (d.link.mark.owners.scanl (renderStep d.link.anchorIds) (d.link.mark, [])).map (·.1.forest)

/-- The entities after each pass. -/
def passes (d : Document) : List Forest :=
  [d.forest.linkBases, d.link.forest, d.link.mark.forest, d.resolve.1.forest]

theorem passes_sublist_resolveMoments (d : Document) : d.passes.Sublist d.resolveMoments := by
  have hbases : [d.forest.linkBases].Sublist
      (d.forest.baseLinks.scanl Forest.linkBase d.forest) :=
    List.singleton_sublist.mpr (List.mem_of_getLast? List.getLast?_scanl)
  have htexts : [d.resolve.1.forest].Sublist
      ((d.link.mark.owners.scanl (renderStep d.link.anchorIds) (d.link.mark, [])).map
        (·.1.forest)) := by
    rw [resolve, renderTexts, List.singleton_sublist, List.mem_map]
    exact ⟨_, List.mem_of_getLast? List.getLast?_scanl, rfl⟩
  exact hbases.append ((htexts.cons_cons _).cons_cons _)

end Document

/-! ### The whole run -/

namespace Build

/-- The entities when all files are read, and then while the run is brought to its end. -/
def finishMoments (b : Build) : List Forest :=
  b.document.forest :: Deferred.processMoments b.document b.queue ++
    match Deferred.process b.document b.queue with
    | .ok (d, _) => d.resolveMoments
    | .error _ => []

/-- The moments of a run that walks over some files and so comes to `b`. -/
def moments (b : Build) (files : List ParsedFile) : List Registry :=
  {} :: walkMoments {} files ++ b.finishMoments.map fun f => ⟨b.bindings, f⟩

/-- The entities after all first commands, and after each pass behind them. -/
def finishStages (b : Build) : List Forest :=
  b.queue.inits.filterMap (Deferred.forestAfter? b.document) ++
    match Deferred.process b.document b.queue with
    | .ok (d, _) => d.passes
    | .error _ => []

/-- The checkpoints of a run: the ends of all first files, then of all first commands, and then
of the passes. -/
def stages (b : Build) (files : List ParsedFile) : List Registry :=
  (files.inits.map fun done => (walkAll done).registry) ++
    b.finishStages.map fun f => ⟨b.bindings, f⟩

theorem finishStages_sublist (b : Build) : b.finishStages.Sublist b.finishMoments := by
  refine (Deferred.forestAfter?_inits_sublist b.queue b.document).append ?_
  cases Deferred.process b.document b.queue with
  | error cause => exact .refl _
  | ok processed => exact processed.1.passes_sublist_resolveMoments

theorem stages_sublist_moments (b : Build) (files : List ParsedFile) :
    (b.stages files).Sublist (b.moments files) :=
  (walk_inits_sublist files {}).append (b.finishStages_sublist.map _)

/-- Inside a file, the ends of all first declarations are among the moments. -/
theorem decls_sublist_moments (b : Build) (earlier later : List ParsedFile) (f : ParsedFile) :
    (f.decls.inits.map fun done => ((walkAll earlier).walk f.context done).registry).Sublist
      (b.moments (earlier ++ f :: later)) := by
  refine (Walk.visitAll_inits_sublist f.context "" f.decls (walkAll earlier).walkState).trans ?_
  refine (visitAllMoments_sublist f later earlier {} rfl).trans ?_
  exact List.sublist_append_left _ _

end Build

end DocForest
