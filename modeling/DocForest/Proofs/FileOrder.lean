/-
The order of the files does not matter for identities.

Whether a scope is first met as a declaration or has to be guessed from the declarations inside
it depends on the order in which files are walked, and members may come before their classes.
But what a walk mentions depends on the declarations alone: `visits` gives the declarations that
it looks at, with the symbol around each, without a word about the registry.  A walk leaves the
registry that its mentions describe (`visit_reaches`, by induction on the declarations, with a
step for each declaration), and another order of the files has the same mentions.

That a symbol has one place is needed.  Two places can give it one id, and then the one that is
met first is kept; and even two scopes of one id are not enough, since the chain of scopes around
a symbol that is known is not looked at any more.
-/
import DocForest.Proofs.Mentions
import DocForest.Run.Basic

namespace DocForest

open Source

namespace Walk

/-! ### What a walk looks at -/

/-- A declaration that a walk looks at. -/
structure Visit where
  decl : Decl
  /-- The declarations directly inside it. -/
  inner : List Decl
  /-- The USR of the declaration that it stands in, if there is one. -/
  around : Option String

namespace Visit

/-- The USR of the enclosing scope: the one that the declaration names goes before the one that
it stands in. -/
def outer (v : Visit) : Option String :=
  (innermost? v.decl.scopes).or v.around

/-- The declaration as a mention of its symbol. -/
def mention (v : Visit) (c : Classification) : Mention where
  usr := v.decl.usr
  outer := v.outer
  kind := c.kind
  name := v.decl.name
  signature := (detailOf v.decl v.inner c).signature

/-- The mention of a declaration that becomes an entity or a scope.  A class that is not defined
is passed over. -/
def mention? (v : Visit) : Option Mention :=
  (classify v.decl.kind v.decl.name v.decl.tokens none).bind fun c =>
    if c.kind.isRecord && !v.decl.isDefinition then none else some (v.mention c)

/-- The scopes that the declaration names, and the declaration itself. -/
def mentions (v : Visit) : List Mention :=
  chainMentions v.decl.scopes ++ v.mention?.toList

/-- Whether the declarations inside it are looked at as well. -/
def opens (v : Visit) : Bool :=
  v.mention?.any (·.kind.isScope)

end Visit

mutual

/-- The declarations that a walk looks at, from one that stands in the scope `around`. -/
def visits (file : FileContext) (around : Option String) : DeclTree → List Visit
  | .node d children =>
    match d.file with
    | none => visitsAll file around children
    | some path =>
      if !Path.same path file.path then []
      else if d.kind = .unexposed ∨ d.kind = .linkage then visitsAll file around children
      else
        let v : Visit := ⟨d, children.map DeclTree.decl, around⟩
        v :: if v.opens then visitsAll file (some d.usr) children else []

/-- The declarations that a walk looks at, from several that stand in the scope `around`. -/
def visitsAll (file : FileContext) (around : Option String) : List DeclTree → List Visit
  | [] => []
  | t :: ts => visits file around t ++ visitsAll file around ts

end

/-- **What becomes of a declaration**: it is looked through, passed over, or looked at. -/
theorem visits_cases (file : FileContext) (d : Decl) (children : List DeclTree)
    (around : Option String) :
    (visits file around (.node d children) = visitsAll file around children ∧
      ∀ s parent, enter file s d (children.map DeclTree.decl) parent = (s, some parent)) ∨
    (visits file around (.node d children) = [] ∧
      ∀ s parent, enter file s d (children.map DeclTree.decl) parent = (s, none)) ∨
    (visits file around (.node d children) =
        ⟨d, children.map DeclTree.decl, around⟩ ::
          (if Visit.opens ⟨d, children.map DeclTree.decl, around⟩ then
            visitsAll file (some d.usr) children else []) ∧
      ∀ s parent, enter file s d (children.map DeclTree.decl) parent =
        declare file (scopeOf s d parent).2 d (children.map DeclTree.decl)
          (scopeOf s d parent).1) := by
  unfold visits enter
  cases d.file with
  | none => exact Or.inl ⟨rfl, fun _ _ => rfl⟩
  | some path =>
      dsimp only
      split
      · exact Or.inr (Or.inl ⟨rfl, fun _ _ => rfl⟩)
      · split
        · exact Or.inl ⟨rfl, fun _ _ => rfl⟩
        · exact Or.inr (Or.inr ⟨rfl, fun _ _ => rfl⟩)

/-! ### One declaration -/

/-- The scope around a declaration has a say in its role only. -/
theorem classify_around (kind : DeclKind) (name : String) (tokens : List String)
    (around : Option (Kind × String)) :
    (classify kind name tokens around = none ∧ classify kind name tokens none = none) ∨
      ∃ c c', classify kind name tokens around = some c ∧ classify kind name tokens none = some c' ∧
        c.kind = c'.kind ∧ c.isTemplate = c'.isTemplate := by
  cases kind <;> simp [classify]

theorem signature_detailOf_congr (d : Decl) (inner : List Decl) {c c' : Classification}
    (hkind : c.kind = c'.kind) (htemplate : c.isTemplate = c'.isTemplate) :
    (detailOf d inner c).signature = (detailOf d inner c').signature := by
  unfold detailOf
  rw [hkind]
  split <;> simp [Detail.signature, recordDetail, functionDetail, htemplate]

/-- The mention of a declaration does not depend on the scope around it. -/
theorem Visit.mention?_eq (v : Visit) (around : Option (Kind × String)) :
    v.mention? = (classify v.decl.kind v.decl.name v.decl.tokens around).bind fun c =>
      if c.kind.isRecord && !v.decl.isDefinition then none else some (v.mention c) := by
  unfold Visit.mention?
  rcases classify_around v.decl.kind v.decl.name v.decl.tokens around with
    ⟨hnone, hnone'⟩ | ⟨c, c', hc, hc', hkind, htemplate⟩
  · rw [hnone, hnone']
  · have hsame : v.mention c' = v.mention c := by
      unfold Visit.mention
      rw [hkind, signature_detailOf_congr v.decl v.inner hkind htemplate]
    rw [hc, hc', Option.bind_some, Option.bind_some, hkind, hsame]

theorem id_entityOf (file : FileContext) (d : Decl) (inner : List Decl) (c : Classification)
    (parent : String) (parentKind : Option Kind) :
    (entityOf file d inner c parent parentKind).id =
      memberId c.kind d.name parent (detailOf d inner c).signature :=
  rfl

/-- A walk has come across some mentions and has had nothing to report. -/
structure Reaches (idOf : String → String) (all seen : List Mention) (s : State) : Prop where
  tracks : s.registry.Tracks idOf all seen
  quiet : s.notes = []

variable {idOf : String → String} {all seen : List Mention} {s : State}

/-- One more mention, with nothing to report. -/
theorem Reaches.add (hnames : Names idOf all) (hplace : OnePlace all) (h : Reaches idOf all seen s)
    {m : Mention} (hm : m ∈ all) (houter : ∀ usr, m.outer = some usr → Seen seen usr)
    {r : Registry} (htakes : s.registry.Takes idOf m r) :
    Reaches idOf all (seen ++ [m]) { s with registry := r } :=
  ⟨h.tracks.add hnames hplace hm houter htakes, h.quiet⟩

theorem store_reaches (hnames : Names idOf all) (hplace : OnePlace all) (file : FileContext)
    (h : Reaches idOf all seen s) {m : Mention} (hm : m ∈ all) (hnamed : m.isNamed = true)
    (houter : ∀ usr, m.outer = some usr → Seen seen usr) {d : Decl} (hd : d.usr = m.usr)
    (c : Classification) {e : Entity} (hid : e.id = idOf m.usr)
    (hparent : e.parent = scopeId idOf m.outer) :
    Reaches idOf all (seen ++ [m]) (store file s d c e).1 ∧
      (store file s d c e).2 = if c.kind.isScope then some (idOf m.usr) else none := by
  obtain ⟨hstored, htakes⟩ := h.tracks.takes_resolve hnames hplace hm hnamed hid hparent
  have hadd := h.add hnames hplace hm houter htakes
  unfold store
  rw [hd]
  cases hresolve : s.registry.resolve m.usr e with
  | mk sighting registry =>
      rw [hresolve] at hstored hadd
      cases sighting with
      | collision id => simp [Sighting.stored?] at hstored
      | created id =>
          obtain rfl : id = idOf m.usr := Option.some.inj hstored
          exact ⟨hadd, rfl⟩
      | merged id =>
          obtain rfl : id = idOf m.usr := Option.some.inj hstored
          exact ⟨hadd, rfl⟩

/-- **A declaration is taken in as its mention**, and opens the scope of its symbol. -/
theorem declare_reaches (hnames : Names idOf all) (hplace : OnePlace all) (file : FileContext)
    (v : Visit) (h : Reaches idOf all seen s)
    (houter : ∀ usr, v.outer = some usr → Seen seen usr) (hall : ∀ m ∈ v.mention?, m ∈ all) :
    Reaches idOf all (seen ++ v.mention?.toList)
        (declare file s v.decl v.inner (scopeId idOf v.outer)).1 ∧
      (declare file s v.decl v.inner (scopeId idOf v.outer)).2 =
        if v.opens then some (idOf v.decl.usr) else none := by
  have hpassed : v.mention? = none → Reaches idOf all (seen ++ v.mention?.toList) s ∧
      none = if v.opens then some (idOf v.decl.usr) else none := by
    intro hnone
    simpa [Visit.opens, hnone] using h
  have hmention := v.mention?_eq
    ((s.registry.forest.get? (scopeId idOf v.outer)).map fun p => (p.kind, p.name))
  unfold declare
  dsimp only
  cases hclassify : classify v.decl.kind v.decl.name v.decl.tokens
      ((s.registry.forest.get? (scopeId idOf v.outer)).map fun p => (p.kind, p.name)) with
  | none =>
      rw [hclassify, Option.bind_none] at hmention
      exact hpassed hmention
  | some c =>
      rw [hclassify, Option.bind_some] at hmention
      dsimp only
      split
      · rename_i hforward
        rw [if_pos hforward] at hmention
        exact hpassed hmention
      · rename_i hforward
        rw [if_neg hforward] at hmention
        have hm : v.mention c ∈ all := hall _ hmention
        have hopens : v.opens = c.kind.isScope := by
          rw [Visit.opens, hmention]
          rfl
        rw [hmention, hopens, Option.toList_some]
        split
        · rename_i hanonymous
          have hunnamed : (v.mention c).isNamed = false := by
            rw [Mention.isNamed, Bool.not_eq_false']
            exact hanonymous
          refine ⟨h.add hnames hplace hm houter (h.tracks.takes_register hnames hm hunnamed), ?_⟩
          rw [if_pos (Bool.and_eq_true_iff.mp hanonymous).1]
          exact congrArg some (hnames.unnamed _ hm hunnamed)
        · rename_i hanonymous
          have hnamed : (v.mention c).isNamed = true := by
            rw [Mention.isNamed, Bool.not_eq_true']
            exact Bool.eq_false_iff.mpr hanonymous
          refine store_reaches hnames hplace file h hm hnamed houter rfl c ?_ rfl
          rw [id_entityOf]
          simpa only [Mention.idIn, Visit.mention] using hnames.named _ hm hnamed

/-! ### The whole tree -/

/-- The mentions of a declaration are among those that are expected, and its scopes can hold
members. -/
structure Visit.Fits (all : List Mention) (v : Visit) : Prop where
  scopes : ∀ s ∈ v.decl.scopes, s.classify?.isSome = true
  mentions : ∀ m ∈ v.mentions, m ∈ all

/-- The scopes that a declaration names are mentioned before it. -/
theorem scopeOf_reaches (hnames : Names idOf all) (hplace : OnePlace all) (v : Visit)
    (hfits : v.Fits all) (h : Reaches idOf all seen s)
    (haround : ∀ usr, v.around = some usr → Seen seen usr) :
    (scopeOf s v.decl (scopeId idOf v.around)).1 = scopeId idOf v.outer ∧
      Reaches idOf all (seen ++ chainMentions v.decl.scopes)
        (scopeOf s v.decl (scopeId idOf v.around)).2 ∧
      ∀ usr, v.outer = some usr → Seen (seen ++ chainMentions v.decl.scopes) usr := by
  obtain ⟨hscopes, hmentions⟩ := hfits
  rw [Visit.mentions, List.forall_mem_append] at hmentions
  unfold scopeOf Visit.outer
  cases hchain : v.decl.scopes with
  | nil =>
      rw [chainMentions, List.append_nil]
      exact ⟨rfl, h, haround⟩
  | cons symbol outer =>
      rw [hchain] at hscopes hmentions
      obtain ⟨hid, htracks⟩ := h.tracks.ensureScope hnames hplace hscopes hmentions.1
      refine ⟨hid, ⟨htracks, h.quiet⟩, ?_⟩
      intro usr husr
      exact seen_append.mpr (Or.inr (Registry.seen_innermost hscopes husr))

/-- **A declaration that is looked at** is taken in together with the scopes that it names. -/
theorem enter_reaches (hnames : Names idOf all) (hplace : OnePlace all) (file : FileContext)
    (v : Visit) (hfits : v.Fits all) (h : Reaches idOf all seen s)
    (haround : ∀ usr, v.around = some usr → Seen seen usr) {result : State × Option String}
    (hresult : result = declare file (scopeOf s v.decl (scopeId idOf v.around)).2 v.decl v.inner
      (scopeOf s v.decl (scopeId idOf v.around)).1) :
    Reaches idOf all (seen ++ v.mentions) result.1 ∧
      result.2 = if v.opens then some (idOf v.decl.usr) else none := by
  obtain ⟨hid, hreaches, houter⟩ := scopeOf_reaches hnames hplace v hfits h haround
  have hown : ∀ m ∈ v.mention?, m ∈ all := by
    intro m hm
    exact hfits.mentions m (List.mem_append_right _ (Option.mem_toList.mpr hm))
  rw [hresult, hid, Visit.mentions, ← List.append_assoc]
  exact declare_reaches hnames hplace file v hreaches houter hown

theorem Visit.seen_of_opens {v : Visit} (h : v.opens = true) : Seen v.mentions v.decl.usr := by
  obtain ⟨m, hm, -⟩ := (Option.any_eq_true _ _).mp h
  refine ⟨m, List.mem_append_right _ (Option.mem_toList.mpr hm), ?_⟩
  obtain ⟨c, -, hc⟩ := Option.bind_eq_some_iff.mp hm
  split at hc
  · cases hc
  · rw [← Option.some.inj hc]
    rfl

mutual

/-- **A walk mentions the declarations that it looks at, and reports nothing.** -/
theorem visit_reaches (hnames : Names idOf all) (hplace : OnePlace all) (file : FileContext)
    (t : DeclTree) {around : Option String} {seen : List Mention} {s : State}
    (h : Reaches idOf all seen s) (haround : ∀ usr, around = some usr → Seen seen usr)
    (hfits : ∀ v ∈ visits file around t, v.Fits all) :
    Reaches idOf all (seen ++ (visits file around t).flatMap Visit.mentions)
      (visit file (scopeId idOf around) s t) := by
  cases t with
  | node d children =>
      rw [visit]
      rcases visits_cases file d children around with
        ⟨hvisits, henter⟩ | ⟨hvisits, henter⟩ | ⟨hvisits, henter⟩
      · rw [hvisits] at hfits ⊢
        rw [henter]
        exact visitAll_reaches hnames hplace file children h haround hfits
      · rw [hvisits, henter, List.flatMap_nil, List.append_nil]
        exact h
      · rw [hvisits] at hfits ⊢
        obtain ⟨hv, hinside⟩ := List.forall_mem_cons.mp hfits
        obtain ⟨hreaches, hscope⟩ :=
          enter_reaches hnames hplace file _ hv h haround (henter s (scopeId idOf around))
        rw [List.flatMap_cons, ← List.append_assoc]
        cases hresult : enter file s d (children.map DeclTree.decl) (scopeId idOf around) with
        | mk s' scope =>
            rw [hresult] at hreaches hscope
            dsimp only at hreaches hscope ⊢
            rw [hscope]
            split at hinside
            · rename_i hopens
              rw [if_pos hopens, if_pos hopens]
              refine visitAll_reaches hnames hplace file children hreaches ?_ hinside
              intro usr husr
              obtain rfl : d.usr = usr := Option.some.inj husr
              exact seen_append.mpr (Or.inr (Visit.seen_of_opens hopens))
            · rename_i hopens
              rw [if_neg hopens, if_neg hopens, List.flatMap_nil, List.append_nil]
              exact hreaches

theorem visitAll_reaches (hnames : Names idOf all) (hplace : OnePlace all) (file : FileContext)
    (ts : List DeclTree) {around : Option String} {seen : List Mention} {s : State}
    (h : Reaches idOf all seen s) (haround : ∀ usr, around = some usr → Seen seen usr)
    (hfits : ∀ v ∈ visitsAll file around ts, v.Fits all) :
    Reaches idOf all (seen ++ (visitsAll file around ts).flatMap Visit.mentions)
      (visitAll file (scopeId idOf around) s ts) := by
  cases ts with
  | nil =>
      rw [visitsAll, visitAll, List.flatMap_nil, List.append_nil]
      exact h
  | cons t ts =>
      rw [visitsAll, List.forall_mem_append] at hfits
      have hfirst := visit_reaches hnames hplace file t h haround hfits.1
      rw [visitsAll, visitAll, List.flatMap_append, ← List.append_assoc]
      refine visitAll_reaches hnames hplace file ts hfirst ?_ hfits.2
      exact fun usr husr => seen_append.mpr (Or.inl (haround usr husr))

end

end Walk

/-! ### All files -/

/-- A file whose comments have been looked at, and the declarations in it. -/
structure ParsedFile where
  context : FileContext
  decls : List DeclTree

/-- The declarations that a walk over some files looks at. -/
def visitsOf (files : List ParsedFile) : List Walk.Visit :=
  files.flatMap fun f => Walk.visitsAll f.context none f.decls

/-- What a walk over some files mentions. -/
def mentionsOf (files : List ParsedFile) : List Mention :=
  (visitsOf files).flatMap Walk.Visit.mentions

namespace Build

/-- Visits the declarations of some files, one file after the other, and nothing else. -/
def walkAll (files : List ParsedFile) : Build :=
  files.foldl (fun b f => b.walk f.context f.decls) {}

/-- What a walk sees of a run. -/
def walkState (b : Build) : Walk.State :=
  { registry := ⟨b.bindings, b.document.forest⟩, notes := b.notes }

theorem walkState_walk (b : Build) (f : ParsedFile) :
    (b.walk f.context f.decls).walkState = Walk.visitAll f.context "" b.walkState f.decls :=
  rfl

/-- Two runs know the same entities in the same places, and the same symbols. -/
structure SameIdentities (b b' : Build) : Prop where
  ids : ∀ id, b.document.forest.contains id = b'.document.forest.contains id
  parents : ∀ id, b.document.forest.parent? id = b'.document.forest.parent? id
  bindings : ∀ usr, b.bindings.get? usr = b'.bindings.get? usr

variable {idOf : String → String} {all : List Mention}

theorem foldl_walk_reaches (hnames : Names idOf all) (hplace : OnePlace all)
    {files : List ParsedFile} (hfits : ∀ v ∈ visitsOf files, v.Fits all) :
    ∀ {seen : List Mention} {b : Build}, Walk.Reaches idOf all seen b.walkState →
      Walk.Reaches idOf all (seen ++ mentionsOf files)
        (files.foldl (fun b f => b.walk f.context f.decls) b).walkState := by
  induction files with
  | nil =>
      intro seen b h
      rwa [mentionsOf, visitsOf, List.flatMap_nil, List.flatMap_nil, List.append_nil]
  | cons f files ih =>
      intro seen b h
      rw [visitsOf, List.flatMap_cons, List.forall_mem_append] at hfits
      have hfile := Walk.visitAll_reaches hnames hplace f.context f.decls h (by simp) hfits.1
      rw [scopeId, Option.map_none, Option.getD_none, ← walkState_walk] at hfile
      rw [mentionsOf, visitsOf, List.flatMap_cons, List.flatMap_append, ← List.append_assoc]
      exact ih hfits.2 hfile

/-- **A walk over all files comes to the registry that their mentions describe.** -/
theorem walkAll_reaches (hnames : Names idOf all) (hplace : OnePlace all) {files : List ParsedFile}
    (hscopes : ∀ v ∈ visitsOf files, ∀ s ∈ v.decl.scopes, s.classify?.isSome = true)
    (hall : ∀ m ∈ mentionsOf files, m ∈ all) :
    Walk.Reaches idOf all (mentionsOf files) (walkAll files).walkState := by
  have hfits : ∀ v ∈ visitsOf files, v.Fits all := by
    intro v hv
    exact ⟨hscopes v hv, fun m hm => hall m (List.mem_flatMap.mpr ⟨v, hv, hm⟩)⟩
  have hempty : Walk.Reaches idOf all [] (walkState {}) := ⟨Registry.empty_tracks idOf all, rfl⟩
  exact foldl_walk_reaches hnames hplace hfits hempty

/--
**Identities do not depend on the order of files.**

The ids may be any that the mentions of symbols agree with, and every symbol has one enclosing
scope.  Then all orders lead to the same entities in the same scopes and to the same bindings,
and no id is refused.
-/
theorem walkAll_perm {files files' : List ParsedFile} (hperm : files.Perm files')
    (hscopes : ∀ v ∈ visitsOf files, ∀ s ∈ v.decl.scopes, s.classify?.isSome = true)
    (hnames : Names idOf (mentionsOf files)) (hplace : OnePlace (mentionsOf files)) :
    SameIdentities (walkAll files) (walkAll files') ∧
      (walkAll files).notes = [] ∧ (walkAll files').notes = [] := by
  have hvisits : ∀ v, v ∈ visitsOf files' ↔ v ∈ visitsOf files :=
    fun v => (hperm.flatMap_right _).mem_iff.symm
  have hmentions : ∀ m, m ∈ mentionsOf files' ↔ m ∈ mentionsOf files := by
    intro m
    simp only [mentionsOf, List.mem_flatMap, hvisits]
  have h := walkAll_reaches hnames hplace hscopes fun m hm => hm
  have h' := walkAll_reaches hnames hplace (fun v hv => hscopes v ((hvisits v).mp hv))
    fun m hm => (hmentions m).mp hm
  obtain ⟨hlookup, hparent⟩ := h.tracks.eq_of_mem_iff h'.tracks fun m => (hmentions m).symm
  refine ⟨⟨?_, hparent, hlookup⟩, h.quiet, h'.quiet⟩
  intro id
  rw [Forest.contains_eq_isSome_parent?, Forest.contains_eq_isSome_parent?]
  exact congrArg Option.isSome (hparent id)

/-- A file without comments. -/
def bareFile (path : String) (decls : List DeclTree) : ParsedFile :=
  ⟨{ path, name := path, header := path, scope := { file := path } }, decls⟩

def namespaceN : Symbol := { usr := "N", kind := .nameSpace, name := "N" }

def classA : Symbol := { usr := "A", kind := .record .cls, name := "A" }

def unnamedSpace : Symbol := { usr := "unnamed", kind := .nameSpace, name := "" }

/-- A method that is defined outside of its class. -/
def definitionFile : ParsedFile :=
  bareFile "a.cpp"
    [.node { kind := .method, name := "f", usr := "f", file := some "a.cpp",
             scopes := [classA, namespaceN], isDefinition := true } []]

/-- The class with its method, in a namespace that also has a part without a name. -/
def classFile : ParsedFile :=
  bareFile "a.h"
    [.node { kind := .nameSpace, name := "N", usr := "N", file := some "a.h" }
      [.node { kind := .record .cls, name := "A", usr := "A", file := some "a.h",
               scopes := [namespaceN], isDefinition := true }
        [.node { kind := .method, name := "f", usr := "f", file := some "a.h",
                 scopes := [classA, namespaceN] } []],
       .node { kind := .nameSpace, usr := "unnamed", file := some "a.h", scopes := [namespaceN] }
        [.node { kind := .var, name := "x", usr := "x", file := some "a.h",
                 scopes := [unnamedSpace, namespaceN] } []]]]

def methodIds : String → String
  | "A" => "N-A"
  | "f" => "N-A-f"
  | "x" => "N-x"
  | _ => "N"

/-- The class is the same whether it is declared first or held a place for its method. -/
theorem walkAll_definitionFile :
    Names methodIds (mentionsOf [definitionFile, classFile]) ∧
      OnePlace (mentionsOf [definitionFile, classFile]) ∧
      SameIdentities (walkAll [definitionFile, classFile]) (walkAll [classFile, definitionFile]) ∧
      (walkAll [definitionFile, classFile]).notes = [] ∧
      (walkAll [definitionFile, classFile]).document.forest.parent? "N-A-f" = some "N-A" := by
  have hnames : Names methodIds (mentionsOf [definitionFile, classFile]) :=
    ⟨by decide +kernel, by decide +kernel, by decide +kernel, by decide +kernel⟩
  have hplace : OnePlace (mentionsOf [definitionFile, classFile]) := by
    unfold OnePlace
    decide +kernel
  obtain ⟨hsame, hquiet, -⟩ :=
    walkAll_perm (List.Perm.swap classFile definitionFile []) (by decide +kernel) hnames hplace
  exact ⟨hnames, hplace, hsame, hquiet, by decide +kernel⟩

/-- A symbol that is a class template at the outermost level. -/
def templateFile : ParsedFile :=
  bareFile "x.h"
    [.node { kind := .classTemplate, name := "a", usr := "u", file := some "x.h",
             isDefinition := true } []]

/-- The same symbol as a class in a namespace, with the same id. -/
def memberFile : ParsedFile :=
  bareFile "y.h"
    [.node { kind := .nameSpace, name := "a", usr := "a", file := some "y.h" }
      [.node { kind := .record .cls, name := "T", usr := "u", file := some "y.h",
               isDefinition := true } []]]

def templateIds : String → String
  | "u" => "a-T"
  | _ => "a"

/-- A method of a class in a namespace without a name. -/
def innerFile : ParsedFile :=
  bareFile "x.cpp"
    [.node { kind := .method, name := "f", usr := "f", file := some "x.cpp",
             scopes := [classA, unnamedSpace] } []]

/-- Another method of the class, which is now at the outermost level. -/
def outerFile : ParsedFile :=
  bareFile "y.cpp"
    [.node { kind := .method, name := "g", usr := "g", file := some "y.cpp",
             scopes := [classA] } []]

def classIds : String → String
  | "A" => "A"
  | "f" => "A-f"
  | "g" => "A-g"
  | _ => ""

/-- Ids that all mentions agree with are not enough.  A symbol in two scopes stays in the one that
is met first; and if the two scopes have one id, the first decides whether the other is bound. -/
theorem walkAll_order_matters :
    (Names templateIds (mentionsOf [templateFile, memberFile]) ∧
      (∀ v ∈ visitsOf [templateFile, memberFile], ∀ s ∈ v.decl.scopes,
        s.classify?.isSome = true) ∧
      (walkAll [templateFile, memberFile]).document.forest.parent? "a-T" = some "" ∧
      (walkAll [memberFile, templateFile]).document.forest.parent? "a-T" = some "a") ∧
    (Names classIds (mentionsOf [innerFile, outerFile]) ∧
      (∀ v ∈ visitsOf [innerFile, outerFile], ∀ s ∈ v.decl.scopes, s.classify?.isSome = true) ∧
      (∀ m ∈ mentionsOf [innerFile, outerFile], ∀ m' ∈ mentionsOf [innerFile, outerFile],
        m.usr = m'.usr → scopeId classIds m.outer = scopeId classIds m'.outer) ∧
      (walkAll [innerFile, outerFile]).bindings.get? "unnamed" = some "" ∧
      (walkAll [outerFile, innerFile]).bindings.get? "unnamed" = none) := by
  refine ⟨⟨⟨?_, ?_, ?_, ?_⟩, ?_, ?_, ?_⟩, ⟨?_, ?_, ?_, ?_⟩, ?_, ?_, ?_, ?_⟩
  all_goals decide +kernel

end Build

end DocForest
