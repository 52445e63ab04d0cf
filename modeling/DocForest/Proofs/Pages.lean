/-
Pages form a tree, and the links in their texts show it.

The texts are rendered one after the other, and a page takes in others while its text is
rendered.  All commands of one text are decided against the document as it was before, and
the pages are taken in only afterwards, several at once.  That is safe because the walk
upwards from the page at hand does not change meanwhile: whatever it takes in stands
outside of that walk.

`renderOwner_cases` says all that one record can do to the pages.  From it come two facts
about a whole pass: it keeps the pages arranged (`Underway`), and when the text of a page
is done, nobody else changes what it took in (`Keeps`).  So the links in its text, which
were decided at that time, still fit at the end.
-/
import DocForest.Proofs.Rendering
import DocForest.Proofs.Run

namespace DocForest

open DocText Relation

/-! ### Taking in a page -/

@[simp] theorem Page.parent_addSubpage (p : Page) (id : String) :
    (p.addSubpage id).parent = p.parent := by
  unfold Page.addSubpage
  split <;> rfl

theorem Page.subpages_addSubpage (p : Page) (id : String) :
    (p.addSubpage id).subpages = if id ∈ p.subpages then p.subpages else p.subpages ++ [id] := by
  unfold Page.addSubpage
  split <;> rfl

/-- What is written on a page. -/
def Page.writing (p : Page) : String × String :=
  (p.title, p.doc)

theorem Page.writing_addSubpage (p : Page) (id : String) :
    (p.addSubpage id).writing = p.writing := by
  unfold Page.addSubpage
  split <;> rfl

namespace Document

theorem up_addSubpage {d : Document} {parent child : String}
    (hchild : d.pages.contains child = true) (hparent : parent ≠ "") (id : String) :
    (d.addSubpage parent child).pages.up Page.parent id =
      if id = child then some parent else d.pages.up Page.parent id := by
  unfold addSubpage
  dsimp only
  rw [Table.up_modify_of_eq _ parent fun p => p.parent_addSubpage child]
  exact Table.up_modify_set hparent (fun _ => rfl) hchild id

theorem parts_addSubpage {d : Document} {parent : String} (hparent : d.pages.contains parent = true)
    (child id : String) :
    (d.addSubpage parent child).pages.parts Page.subpages id =
      if id = parent then
        (if child ∈ d.pages.parts Page.subpages id then d.pages.parts Page.subpages id
         else d.pages.parts Page.subpages id ++ [child])
      else d.pages.parts Page.subpages id := by
  have hset : (d.pages.modify child fun p => { p with parent := parent }).parts Page.subpages =
      d.pages.parts Page.subpages := Table.parts_modify_of_eq d.pages child fun _ => rfl
  have hknown : (d.pages.modify child fun p => { p with parent := parent }).contains parent =
      true := by
    rw [Table.contains_modify]
    exact hparent
  unfold addSubpage
  dsimp only
  rw [Table.parts_modify_add (fun p => p.subpages_addSubpage child) hknown, hset]

theorem keys_addSubpage (d : Document) (parent child : String) :
    (d.addSubpage parent child).pages.keys = d.pages.keys := by
  simp [addSubpage]

theorem writing_addSubpage (d : Document) (parent child id : String) :
    ((d.addSubpage parent child).pages.get? id).map Page.writing =
      (d.pages.get? id).map Page.writing := by
  unfold addSubpage
  dsimp only
  rw [Table.map_get?_modify _ parent fun p => p.writing_addSubpage child]
  refine Table.map_get?_modify d.pages child ?_ id
  intro p
  rfl

/-- What it does to the pages if one of them takes in others. -/
structure Taken (d : Document) (cur : String) (subs : List String) (d' : Document) : Prop where
  keys : d'.pages.keys = d.pages.keys
  writing : ∀ id, (d'.pages.get? id).map Page.writing = (d.pages.get? id).map Page.writing
  up : ∀ id, d'.pages.up Page.parent id =
    if id ∈ subs then some cur else d.pages.up Page.parent id
  arranged : d'.PagesArranged

theorem contains_of_keys_eq {d d' : Document} (h : d'.pages.keys = d.pages.keys) (id : String) :
    d'.pages.contains id = true ↔ d.pages.contains id = true := by
  rw [Table.contains_iff_mem_keys, h, Table.contains_iff_mem_keys]

theorem taken_addSubpage {d : Document} (harr : d.PagesArranged) {cur child : String}
    (hcur : cur ≠ "") (hknown : d.pages.contains cur = true) (htake : d.MayTake cur child) :
    Taken d cur [child] (d.addSubpage cur child) where
  keys := keys_addSubpage d cur child
  writing := writing_addSubpage d cur child
  up := by
    intro id
    rw [up_addSubpage htake.known hcur]
    simp
  arranged := Hierarchy.attach (up_addSubpage htake.known hcur) harr htake.free htake.outside
    (parts_addSubpage hknown child)

/-- Taking in one page does not stand in the way of another. -/
theorem MayTake.of_taken {d d' : Document} {cur child other : String} (h : d.MayTake cur other)
    (htake : d.MayTake cur child) (htaken : Taken d cur [child] d') : d'.MayTake cur other where
  known := (contains_of_keys_eq htaken.keys other).mpr h.known
  free := by
    rw [htaken.up]
    by_cases hother : other ∈ [child]
    · rw [if_pos hother]
      exact Or.inr rfl
    · rw [if_neg hother]
      exact h.free
  outside := by
    have hup : ∀ id, d'.pages.up Page.parent id =
        if id = child then some cur else d.pages.up Page.parent id := by
      intro id
      rw [htaken.up]
      simp
    intro hreach
    exact h.outside (Hierarchy.reach_of_attach hup htake.outside hreach)

/-- **Pages that may be taken in one by one may be taken in together.** -/
theorem taken_foldl {cur : String} (hcur : cur ≠ "") (subs : List String) :
    ∀ d : Document, d.PagesArranged → d.pages.contains cur = true →
      (∀ child ∈ subs, d.MayTake cur child) →
      Taken d cur subs (subs.foldl (fun d child => d.addSubpage cur child) d) := by
  induction subs with
  | nil =>
      intro d harr _ _
      exact ⟨rfl, fun _ => rfl, fun _ => by simp, harr⟩
  | cons child rest ih =>
      intro d harr hknown hall
      have htake := hall child List.mem_cons_self
      have hone := taken_addSubpage harr hcur hknown htake
      have hrest := ih (d.addSubpage cur child) hone.arranged
        ((contains_of_keys_eq hone.keys cur).mpr hknown)
        (fun other hother => (hall other (List.mem_cons_of_mem _ hother)).of_taken htake hone)
      refine ⟨hrest.keys.trans hone.keys, fun id => (hrest.writing id).trans (hone.writing id), ?_,
        hrest.arranged⟩
      intro id
      rw [List.foldl_cons, hrest.up, hone.up]
      by_cases hid : id ∈ rest
      · simp [hid]
      · by_cases hchild : id = child <;> simp [hid, hchild]

/-! ### One record of the pass -/

/-- What it does to the pages if the text of one of them is rendered. -/
structure Rendered (now : Document) (cur shown : String) (subs : List String)
    (next : Document) : Prop where
  allowed : ∀ child ∈ subs, now.MayTake cur child
  keys : next.pages.keys = now.pages.keys
  titles : ∀ id, (next.pages.get? id).map Page.title = (now.pages.get? id).map Page.title
  shown : (next.pages.get? cur).map Page.doc = some shown
  docs : ∀ id, id ≠ cur → (next.pages.get? id).map Page.doc = (now.pages.get? id).map Page.doc
  up : ∀ id, next.pages.up Page.parent id =
    if id ∈ subs then some cur else now.pages.up Page.parent id
  arranged : next.PagesArranged

theorem renderOwner_page {now : Document} {cur : String} {page : Page}
    (hget : now.pages.get? cur = some page) (anchors : List String) :
    let w : Renderer := { document := now, anchors, owner := .page cur }
    (now.renderOwner anchors (.page cur)).1 =
      (w.text {} page.doc).2.subpages.foldl (fun d child => d.addSubpage cur child)
        (now.setTexts "" (w.text {} page.doc).1 (.page cur)) := by
  intro w
  have htexts : now.texts? (.page cur) = some ("", page.doc) := by
    simp [texts?, hget]
  have hbrief : w.text {} "" = ("", {}) := w.text_empty
  unfold renderOwner
  rw [htexts]
  simp only [w] at hbrief ⊢
  rw [hbrief]
  rfl

theorem pages_renderOwner {now : Document} {owner : Owner}
    (h : ∀ id, now.pages.contains id = true → owner ≠ .page id) (anchors : List String) :
    (now.renderOwner anchors owner).1.pages = now.pages := by
  unfold renderOwner
  cases htexts : now.texts? owner with
  | none => rfl
  | some texts =>
      cases owner with
      | entity id =>
          simp only [applyOutcome]
          split <;> rfl
      | header id => rfl
      | group id => rfl
      | page id =>
          refine absurd rfl (h id (Table.contains_iff_exists.mpr ?_))
          simp only [texts?, Option.map_eq_some_iff] at htexts
          obtain ⟨page, hget, -⟩ := htexts
          exact ⟨page, hget⟩

theorem rendered_renderOwner {now : Document} (harr : now.PagesArranged)
    (hempty : now.pages.contains "" = false) {cur : String} {page : Page}
    (hget : now.pages.get? cur = some page) (anchors : List String) :
    let w : Renderer := { document := now, anchors, owner := .page cur }
    Rendered now cur (w.text {} page.doc).1 (w.text {} page.doc).2.subpages
      (now.renderOwner anchors (.page cur)).1 := by
  intro w
  have hknown : now.pages.contains cur = true := Table.contains_of_get? hget
  have hcur : cur ≠ "" := by
    intro heq
    obtain rfl := heq
    rw [hknown] at hempty
    simp at hempty
  have hallowed : ∀ child ∈ (w.text {} page.doc).2.subpages, now.MayTake cur child :=
    fun child hchild => ((Renderer.mem_subpages_text harr rfl hcur hempty page.doc child).mp hchild).2
  rw [renderOwner_page hget anchors]
  generalize (w.text {} page.doc).2.subpages = subs at hallowed ⊢
  generalize (w.text {} page.doc).1 = shown
  -- Writing the text changes no link, so what may be taken in is the same afterwards.
  have hset : ∀ id, (now.setTexts "" shown (.page cur)).pages.get? id =
      if id = cur then (now.pages.get? id).map (fun p => { p with doc := shown })
      else now.pages.get? id := Table.get?_modify now.pages cur _
  have hkeys : (now.setTexts "" shown (.page cur)).pages.keys = now.pages.keys :=
    Table.keys_modify now.pages cur _
  have hup : (now.setTexts "" shown (.page cur)).pages.up Page.parent = now.pages.up Page.parent :=
    Table.up_modify_of_eq now.pages cur (by intro p; rfl)
  have hparts : (now.setTexts "" shown (.page cur)).pages.parts Page.subpages =
      now.pages.parts Page.subpages :=
    Table.parts_modify_of_eq now.pages cur (by intro p; rfl)
  have harr' : (now.setTexts "" shown (.page cur)).PagesArranged := by
    unfold PagesArranged
    rw [hup, hparts]
    exact harr
  have htaken := taken_foldl hcur subs (now.setTexts "" shown (.page cur)) harr'
    ((contains_of_keys_eq hkeys cur).mpr hknown)
    (fun child hchild => ⟨(contains_of_keys_eq hkeys child).mpr (hallowed child hchild).known,
      by rw [hup]; exact (hallowed child hchild).free,
      by rw [hup]; exact (hallowed child hchild).outside⟩)
  generalize subs.foldl (fun d child => d.addSubpage cur child)
    (now.setTexts "" shown (.page cur)) = next at htaken ⊢
  have htitle : ∀ id, (next.pages.get? id).map Page.title =
      ((now.setTexts "" shown (.page cur)).pages.get? id).map Page.title := by
    intro id
    simpa [Option.map_map, Function.comp_def, Page.writing] using
      congrArg (Option.map Prod.fst) (htaken.writing id)
  have hdoc : ∀ id, (next.pages.get? id).map Page.doc =
      ((now.setTexts "" shown (.page cur)).pages.get? id).map Page.doc := by
    intro id
    simpa [Option.map_map, Function.comp_def, Page.writing] using
      congrArg (Option.map Prod.snd) (htaken.writing id)
  refine ⟨hallowed, htaken.keys.trans hkeys, ?_, ?_, ?_, ?_, htaken.arranged⟩
  · intro id
    rw [htitle, hset]
    by_cases hid : id = cur
    · rw [if_pos hid, Option.map_map]
      rfl
    · rw [if_neg hid]
  · rw [hdoc, hset, if_pos rfl, hget]
    rfl
  · intro id hid
    rw [hdoc, hset, if_neg hid]
  · intro id
    rw [htaken.up, hup]

/-- **All that rendering the texts of one record can do to the pages.** -/
theorem renderOwner_cases {now : Document} (harr : now.PagesArranged)
    (hempty : now.pages.contains "" = false) (anchors : List String) (owner : Owner) :
    (now.renderOwner anchors owner).1.pages = now.pages ∨
      ∃ cur shown subs, owner = .page cur ∧
        Rendered now cur shown subs (now.renderOwner anchors owner).1 := by
  by_cases h : ∀ id, now.pages.contains id = true → owner ≠ .page id
  · exact Or.inl (pages_renderOwner h anchors)
  · obtain ⟨cur, hknown, rfl⟩ : ∃ cur, now.pages.contains cur = true ∧ owner = .page cur := by
      simpa using h
    obtain ⟨page, hget⟩ := Table.contains_iff_exists.mp hknown
    exact Or.inr ⟨cur, _, _, rfl, rendered_renderOwner harr hempty hget anchors⟩

/-! ### The whole pass -/

/-- Pages before any text is rendered: each has a name, and none is part of another. -/
structure FreshPages (d : Document) : Prop where
  distinct : d.pages.WellFormed
  named : ∀ id page, d.pages.get? id = some page → id ≠ ""
  free : ∀ id page, d.pages.get? id = some page → page.parent = "" ∧ page.subpages = []

/-- Where the pages stand when the texts of some records are rendered. -/
structure Underway (d : Document) (done : List Owner) (now : Document) : Prop where
  keys : now.pages.keys = d.pages.keys
  titles : ∀ id, (now.pages.get? id).map Page.title = (d.pages.get? id).map Page.title
  arranged : now.PagesArranged
  /-- A page whose turn has not come still has its text. -/
  docs : ∀ id, .page id ∉ done →
    (now.pages.get? id).map Page.doc = (d.pages.get? id).map Page.doc
  /-- A page whose turn has not come has taken in nothing. -/
  waiting : ∀ id, .page id ∉ done → ∀ part, now.pages.up Page.parent part ≠ some id

/-- Neither the text of a page nor what it has taken in is changed. -/
structure Keeps (id : String) (now next : Document) : Prop where
  docs : (next.pages.get? id).map Page.doc = (now.pages.get? id).map Page.doc
  up : ∀ part, next.pages.up Page.parent part = some id ↔ now.pages.up Page.parent part = some id

theorem Keeps.trans {id : String} {d₁ d₂ d₃ : Document} (h : Keeps id d₁ d₂) (h' : Keeps id d₂ d₃) :
    Keeps id d₁ d₃ :=
  ⟨h'.docs.trans h.docs, fun part => (h'.up part).trans (h.up part)⟩

theorem FreshPages.contains_empty {d : Document} (h : d.FreshPages) :
    d.pages.contains "" = false := by
  refine Table.contains_eq_false_iff.mpr ?_
  cases hget : d.pages.get? "" with
  | none => rfl
  | some page => exact absurd rfl (h.named "" page hget)

theorem FreshPages.underway {d : Document} (h : d.FreshPages) : Underway d [] d := by
  have hup : ∀ id, d.pages.up Page.parent id = none :=
    fun id => Table.up_eq_none.mpr fun page hget => (h.free id page hget).1
  have hparts : ∀ id part, part ∉ d.pages.parts Page.subpages id := by
    intro id part hmem
    obtain ⟨page, hget, hpart⟩ := Table.mem_parts.mp hmem
    rw [(h.free id page hget).2] at hpart
    simp at hpart
  refine ⟨rfl, fun _ => rfl, ⟨?_, ?_, ?_⟩, fun _ _ => rfl, ?_⟩
  · intro part whole
    simp [hup, hparts whole part]
  · intro whole
    rw [List.eq_nil_iff_forall_not_mem.mpr (hparts whole)]
    exact List.nodup_nil
  · intro id hcycle
    obtain ⟨n, hn⟩ := Hierarchy.transGen_iff_climb.mp hcycle
    simp [Hierarchy.climb, hup] at hn
  · intro id _ part
    simp [hup]

section Pass

variable {d now : Document} {done : List Owner} (hempty : d.pages.contains "" = false)
  (anchors : List String)

include hempty

theorem Underway.contains_empty (h : Underway d done now) : now.pages.contains "" = false := by
  rw [Bool.eq_false_iff] at hempty ⊢
  intro hcontains
  exact hempty ((contains_of_keys_eq h.keys "").mp hcontains)

/-- One record keeps the pages arranged. -/
theorem Underway.step (h : Underway d done now) (owner : Owner) :
    Underway d (done ++ [owner]) (now.renderOwner anchors owner).1 := by
  rcases renderOwner_cases h.arranged (h.contains_empty hempty) anchors owner with
    hsame | ⟨cur, shown, subs, rfl, hr⟩
  · generalize (now.renderOwner anchors owner).1 = next at hsame ⊢
    have hdone : ∀ id, Owner.page id ∉ done ++ [owner] → Owner.page id ∉ done :=
      fun id hid hmem => hid (List.mem_append_left _ hmem)
    refine ⟨by rw [hsame]; exact h.keys, by rw [hsame]; exact h.titles, ?_, ?_, ?_⟩
    · unfold PagesArranged
      rw [hsame]
      exact h.arranged
    · intro id hid
      rw [hsame]
      exact h.docs id (hdone id hid)
    · intro id hid
      rw [hsame]
      exact h.waiting id (hdone id hid)
  · have hother : ∀ id, Owner.page id ∉ done ++ [Owner.page cur] →
        id ≠ cur ∧ Owner.page id ∉ done := by
      intro id hid
      simp only [List.mem_append, List.mem_singleton, Owner.page.injEq, not_or] at hid
      exact ⟨hid.2, hid.1⟩
    refine ⟨hr.keys.trans h.keys, fun id => (hr.titles id).trans (h.titles id), hr.arranged, ?_, ?_⟩
    · intro id hid
      obtain ⟨hne, hwait⟩ := hother id hid
      exact (hr.docs id hne).trans (h.docs id hwait)
    · intro id hid part
      obtain ⟨hne, hwait⟩ := hother id hid
      rw [hr.up]
      by_cases hpart : part ∈ subs
      · rw [if_pos hpart]
        intro hid
        exact hne (Option.some.inj hid).symm
      · rw [if_neg hpart]
        exact h.waiting id hwait part

/-- One record keeps what another page has taken in: a page that somebody has is refused. -/
theorem Underway.keeps (h : Underway d done now) {owner : Owner} {id : String}
    (hne : owner ≠ .page id) : Keeps id now (now.renderOwner anchors owner).1 := by
  rcases renderOwner_cases h.arranged (h.contains_empty hempty) anchors owner with
    hsame | ⟨cur, shown, subs, rfl, hr⟩
  · refine ⟨by rw [hsame], fun part => by rw [hsame]⟩
  · have hcur : id ≠ cur := by
      intro hid
      exact hne (by rw [hid])
    refine ⟨hr.docs id hcur, ?_⟩
    intro part
    rw [hr.up]
    by_cases hpart : part ∈ subs
    · have hcur' : cur ≠ id := Ne.symm hcur
      rw [if_pos hpart]
      rcases (hr.allowed part hpart).free with hfree | hfree
      · simp [hfree, hcur']
      · simp [hfree]
    · rw [if_neg hpart]

theorem Underway.foldl (owners : List Owner) :
    ∀ (done : List Owner) (s : Document × List Diagnostic), Underway d done s.1 →
      Underway d (done ++ owners) (owners.foldl (renderStep anchors) s).1 := by
  induction owners with
  | nil =>
      intro done s h
      rw [List.append_nil]
      exact h
  | cons owner rest ih =>
      intro done s h
      have hnext := ih (done ++ [owner]) (renderStep anchors s owner) (h.step hempty anchors owner)
      rw [List.append_assoc] at hnext
      exact hnext

theorem Underway.keeps_foldl {id : String} (owners : List Owner) :
    ∀ (done : List Owner) (s : Document × List Diagnostic), Underway d done s.1 →
      .page id ∉ owners → Keeps id s.1 (owners.foldl (renderStep anchors) s).1 := by
  induction owners with
  | nil => intro done s _ _; exact ⟨rfl, fun _ => Iff.rfl⟩
  | cons owner rest ih =>
      intro done s h hid
      have hne : owner ≠ .page id := fun heq => hid (by rw [heq]; exact List.mem_cons_self)
      have hone : Keeps id s.1 (renderStep anchors s owner).1 := h.keeps hempty anchors hne
      exact hone.trans (ih (done ++ [owner]) (renderStep anchors s owner)
        (h.step hempty anchors owner) fun hmem => hid (List.mem_cons_of_mem _ hmem))

end Pass

/-! ### The turn of a page -/

/-- What a pass has come to when it is the turn of a record. -/
def reaching (d : Document) (anchors : List String) (owner : Owner) : Document :=
  ((d.owners.takeWhile (· != owner)).foldl (renderStep anchors) (d, [])).1

/-- What the text of a page is rendered against. -/
def pageRenderer (d : Document) (anchors : List String) (id : String) : Renderer :=
  { document := d.reaching anchors (.page id), anchors, owner := .page id }

/-- A page has its turn once. -/
theorem exists_turn {d : Document} (hd : d.pages.WellFormed) {id : String}
    (hid : d.pages.contains id = true) :
    ∃ before after, d.owners = before ++ .page id :: after ∧ .page id ∉ before ∧
      .page id ∉ after := by
  obtain ⟨first, last, hkeys⟩ := List.mem_iff_append.mp (Table.contains_iff_mem_keys.mp hid)
  have hnodup : (first ++ id :: last).Nodup := by
    rw [← hkeys]
    exact hd
  obtain ⟨-, hlast, hdisjoint⟩ := List.nodup_append.mp hnodup
  refine ⟨d.forest.ids.map .entity ++ d.headers.keys.map .header ++ d.groups.keys.map .group ++
    first.map .page, last.map .page, ?_, ?_, ?_⟩
  · simp [owners, hkeys]
  · intro hmem
    have hfirst : id ∈ first := by simpa using hmem
    exact hdisjoint id hfirst id List.mem_cons_self rfl
  · intro hmem
    have hmem' : id ∈ last := by simpa using hmem
    exact (List.nodup_cons.mp hlast).1 hmem'

theorem reaching_eq {d : Document} {owner : Owner} {before after : List Owner}
    (h : d.owners = before ++ owner :: after) (hbefore : owner ∉ before) (anchors : List String) :
    d.reaching anchors owner = (before.foldl (renderStep anchors) (d, [])).1 := by
  have htake : d.owners.takeWhile (· != owner) = before := by
    rw [h, List.takeWhile_append_of_pos, List.takeWhile_cons_of_neg (by simp), List.append_nil]
    intro other hother
    have hne : other ≠ owner := by
      intro heq
      exact hbefore (by rw [← heq]; exact hother)
    simpa using hne
  rw [reaching, htake]

/-- What the turn of a page leaves for the end of the pass. -/
structure Turn (d : Document) (anchors : List String) (id : String) (page : Page) : Prop where
  arranged : (d.pageRenderer anchors id).document.PagesArranged
  contains_empty : (d.pageRenderer anchors id).document.pages.contains "" = false
  titles : ∀ target, ((d.renderTexts anchors).1.pages.get? target).map Page.title =
    ((d.pageRenderer anchors id).document.pages.get? target).map Page.title
  shown : ((d.renderTexts anchors).1.pages.get? id).map Page.doc =
    some ((d.pageRenderer anchors id).text {} page.doc).1
  taken : ∀ part, (d.renderTexts anchors).1.pages.up Page.parent part = some id ↔
    part ∈ ((d.pageRenderer anchors id).text {} page.doc).2.subpages

theorem FreshPages.turn {d : Document} (h : d.FreshPages) (anchors : List String) {id : String}
    {page : Page} (hget : d.pages.get? id = some page) : Turn d anchors id page := by
  have hempty := h.contains_empty
  obtain ⟨before, after, howners, hbefore, hafter⟩ :=
    exists_turn h.distinct (Table.contains_of_get? hget)
  have hreach := reaching_eq howners hbefore anchors
  have hnow : Underway d before (d.reaching anchors (.page id)) := by
    rw [hreach]
    exact Underway.foldl hempty anchors before [] (d, []) h.underway
  -- The pass after the turn starts where rendering the page has led.
  have hfinal : (d.renderTexts anchors).1 =
      (after.foldl (renderStep anchors) (renderStep anchors
        (before.foldl (renderStep anchors) (d, [])) (.page id))).1 := by
    rw [renderTexts, howners, List.foldl_append, List.foldl_cons]
  have hnext : (renderStep anchors (before.foldl (renderStep anchors) (d, [])) (.page id)).1 =
      ((d.reaching anchors (.page id)).renderOwner anchors (.page id)).1 := by
    rw [hreach]
    rfl
  obtain ⟨p, hp, hdoc⟩ : ∃ p, (d.reaching anchors (.page id)).pages.get? id = some p ∧
      p.doc = page.doc := by
    have hdocs := hnow.docs id hbefore
    rw [hget] at hdocs
    exact Option.map_eq_some_iff.mp hdocs
  have hr : Rendered (d.reaching anchors (.page id)) id
      ((d.pageRenderer anchors id).text {} page.doc).1
      ((d.pageRenderer anchors id).text {} page.doc).2.subpages
      ((d.reaching anchors (.page id)).renderOwner anchors (.page id)).1 := by
    rw [← hdoc]
    exact rendered_renderOwner hnow.arranged (hnow.contains_empty hempty) hp anchors
  have hstep := hnow.step hempty anchors (.page id)
  have hlater := Underway.keeps_foldl hempty anchors after (before ++ [.page id])
    (renderStep anchors (before.foldl (renderStep anchors) (d, [])) (.page id))
    (by rw [hnext]; exact hstep) hafter
  have hend := Underway.foldl hempty anchors d.owners [] (d, []) h.underway
  rw [← hfinal, hnext] at hlater
  refine ⟨hnow.arranged, hnow.contains_empty hempty, ?_, hlater.docs.trans hr.shown, ?_⟩
  · intro target
    exact (hend.titles target).trans (hnow.titles target).symm
  · intro part
    rw [hlater.up, hr.up]
    by_cases hpart : part ∈ ((d.pageRenderer anchors id).text {} page.doc).2.subpages
    · simp [hpart]
    · rw [if_neg hpart]
      exact ⟨fun hup => absurd hup (hnow.waiting id hbefore part), fun hmem => absurd hmem hpart⟩

/-! ### Links in the text and parts in the tree -/

/-- A page names another as the one that it is part of. -/
def IsSubpage (d : Document) (part whole : String) : Prop :=
  ∃ page, d.pages.get? part = some page ∧ page.parent = whole

theorem isSubpage_iff {d : Document} {part whole : String} (hwhole : whole ≠ "") :
    d.IsSubpage part whole ↔ d.pages.up Page.parent part = some whole := by
  rw [Table.up_eq_some, IsSubpage]
  simp [hwhole]

theorem pageLabel_congr {d d' : Document} {target : String}
    (h : (d'.pages.get? target).map Page.title = (d.pages.get? target).map Page.title)
    (text : Option String) : d'.pageLabel target text = d.pageLabel target text := by
  unfold pageLabel
  cases hget : d.pages.get? target with
  | none =>
      cases hget' : d'.pages.get? target with
      | none => rfl
      | some page' => rw [hget, hget'] at h; simp at h
  | some page =>
      cases hget' : d'.pages.get? target with
      | none => rw [hget, hget'] at h; simp at h
      | some page' =>
          rw [hget, hget'] at h
          have htitle : page'.title = page.title := Option.some.inj h
          simp only [htitle]

/-- How a part of the text of a page is shown.  A command for a part of the page is shown
as a link if the pages are linked that way in the end, and by its label alone if they are
not. -/
def Shown (final : Document) (w : Renderer) (whole : String) : Part → String → Prop
  | .text cs, s => s = String.ofList cs
  | .command c raw, s =>
    (∃ o, s = (w.command o raw c).1) ∧
      ∀ target text, c = .subpage target text →
        (s = Renderer.markdownLink (final.pageLabel target text) target ↔
          final.IsSubpage target whole) ∧
        (s = final.pageLabel target text ↔ ¬ final.IsSubpage target whole)

/-- **A command is shown as a link exactly if the page is a part in the end.** -/
theorem Turn.shown_command {d : Document} {anchors : List String} {id : String} {page : Page}
    (h : Turn d anchors id page) (hid : id ≠ "") {c : Command} {raw : List Char}
    (hmem : .command c raw ∈ DocText.parts page.doc.toList) (o : Outcome) :
    Shown (d.renderTexts anchors).1 (d.pageRenderer anchors id) id (.command c raw)
      ((d.pageRenderer anchors id).command o raw c).1 := by
  refine ⟨⟨o, rfl⟩, ?_⟩
  intro target text hc
  subst hc
  have howner : (d.pageRenderer anchors id).owner = .page id := rfl
  have hlabel : (d.renderTexts anchors).1.pageLabel target text =
      (d.pageRenderer anchors id).document.pageLabel target text :=
    pageLabel_congr (h.titles target) text
  have hpart : (d.renderTexts anchors).1.IsSubpage target id ↔
      (d.pageRenderer anchors id).document.MayTake id target := by
    rw [isSubpage_iff hid, h.taken,
      Renderer.mem_subpages_text h.arranged howner hid h.contains_empty page.doc target]
    exact ⟨fun hboth => hboth.2, fun htake => ⟨⟨text, raw, hmem⟩, htake⟩⟩
  rw [hlabel, hpart, Renderer.command_subpage]
  rcases Renderer.subpage_cases h.arranged howner hid h.contains_empty o target text with
    ⟨htake, hshown, -⟩ | ⟨hrefused, hshown, -⟩
  · rw [hshown]
    simp [htake, Renderer.markdownLink_ne]
  · rw [hshown]
    simp [hrefused, Ne.symm (Renderer.markdownLink_ne _ target)]

/--
**After the texts are rendered the pages form a tree, and the texts show it.**

A page names another exactly when that one lists it, nothing is listed twice and no page
is part of itself.  The text of each page is put together from one piece for each part of
what was written, and the links among the pieces are those of the tree.
-/
theorem renderTexts_page_tree {d : Document} (h : d.FreshPages) (anchors : List String) :
    let final := (d.renderTexts anchors).1
    (∀ child parent, parent ≠ "" →
      ((∃ page, final.pages.get? child = some page ∧ page.parent = parent) ↔
        ∃ page, final.pages.get? parent = some page ∧ child ∈ page.subpages)) ∧
    (∀ id page, final.pages.get? id = some page → page.subpages.Nodup) ∧
    (∀ id, ¬ TransGen (PartOf (final.pages.up Page.parent)) id id) ∧
    (∀ id page, d.pages.get? id = some page →
      ∃ page' shown, final.pages.get? id = some page' ∧
        page'.doc = String.ofList (Text.trim (String.join shown).toList) ∧
        List.Forall₂ (final.Shown (d.pageRenderer anchors id) id)
          (DocText.parts page.doc.toList) shown) := by
  intro final
  have harr : final.PagesArranged :=
    (Underway.foldl h.contains_empty anchors d.owners [] (d, []) h.underway).arranged
  refine ⟨?_, ?_, harr.acyclic, ?_⟩
  · intro child parent hparent
    rw [← Table.mem_parts, ← harr.linked, ← isSubpage_iff hparent, IsSubpage]
  · intro id page hget
    have honce := harr.once id
    rwa [Table.parts, hget] at honce
  · intro id page hget
    have hturn := h.turn anchors hget
    have hid := h.named id page hget
    obtain ⟨page', hget', hdoc⟩ := Option.map_eq_some_iff.mp hturn.shown
    obtain ⟨shown, hjoin, hall⟩ := Renderer.exists_pieces
      (P := final.Shown (d.pageRenderer anchors id) id) (fun _ => rfl)
      (DocText.parts page.doc.toList) {} (fun _ _ hmem o => hturn.shown_command hid hmem o)
    refine ⟨page', shown, hget', ?_, hall⟩
    rw [hdoc, ← hjoin]
    rfl

/-- Two pages that want to be part of each other. -/
def rivals : Document :=
  { pages := ⟨[("a", { id := "a", title := "A", doc := "See \\subpage b" }),
      ("b", { id := "b", title := "B", doc := "See \\subpage a" })]⟩ }

theorem freshPages_rivals : rivals.FreshPages := by
  have hkeys : ["a", "b"].Nodup := by decide
  have hdistinct : rivals.pages.WellFormed := hkeys
  have hpage : ∀ id page, rivals.pages.get? id = some page →
      id ≠ "" ∧ page.parent = "" ∧ page.subpages = [] := by
    intro id page hget
    have hmem := (Table.mem_entries_iff hdistinct).mpr hget
    simp only [rivals, List.mem_cons, List.not_mem_nil, or_false, Prod.mk.injEq] at hmem
    rcases hmem with ⟨rfl, rfl⟩ | ⟨rfl, rfl⟩
    · exact ⟨by decide, rfl, rfl⟩
    · exact ⟨by decide, rfl, rfl⟩
  exact ⟨hdistinct, fun id page hget => (hpage id page hget).1,
    fun id page hget => (hpage id page hget).2⟩

/-- The first of them gets the other, and only its text has a link. -/
theorem rivals_page_tree :
    rivals.FreshPages ∧
      (rivals.renderTexts []).1.pages.values.map (fun p => (p.parent, p.subpages, p.doc)) =
        [("", ["b"], "See [B](#b)"), ("a", [], "See A")] ∧
      ∀ id, ¬ TransGen (PartOf ((rivals.renderTexts []).1.pages.up Page.parent)) id id :=
  ⟨freshPages_rivals, by decide +kernel, (renderTexts_page_tree freshPages_rivals []).2.2.1⟩

/-! ### Pages of a run

The pages that a run renders are fresh: only a command that was put aside makes a page,
and it says nothing about parts.
-/

theorem FreshPages.of_pages {d d' : Document} (h : d.FreshPages) (hpages : d'.pages = d.pages) :
    d'.FreshPages := by
  refine ⟨?_, ?_, ?_⟩
  · rw [hpages]
    exact h.distinct
  · rw [hpages]
    exact h.named
  · rw [hpages]
    exact h.free

theorem FreshPages.appendPage {d : Document} (h : d.FreshPages) {id : String} (hid : id ≠ "")
    (title body : String) : (Deferred.appendPage d id title body).FreshPages := by
  refine ⟨h.distinct.upsert id _ _, ?_, ?_⟩
  · intro k page hget
    simp only [Deferred.appendPage, Table.get?_upsert] at hget
    by_cases hk : k = id
    · rw [hk]
      exact hid
    · rw [if_neg hk] at hget
      exact h.named k page hget
  · intro k page hget
    simp only [Deferred.appendPage, Table.get?_upsert] at hget
    by_cases hk : k = id
    · rw [if_pos hk] at hget
      obtain rfl := Option.some.inj hget
      cases hold : d.pages.get? k with
      | none => exact ⟨rfl, rfl⟩
      | some old => exact h.free k old hold
    · rw [if_neg hk] at hget
      exact h.free k page hget

theorem FreshPages.mark {d : Document} (h : d.FreshPages) : d.mark.FreshPages := by
  have hget : ∀ id page, d.mark.pages.get? id = some page →
      ∃ old, d.pages.get? id = some old ∧ page = old.mark := by
    intro id page hpage
    have hmap : (d.pages.get? id).map Page.mark = some page := by
      rw [← Table.get?_map]
      exact hpage
    obtain ⟨old, hold, heq⟩ := Option.map_eq_some_iff.mp hmap
    exact ⟨old, hold, heq.symm⟩
  refine ⟨?_, ?_, ?_⟩
  · exact Table.WellFormed.map h.distinct Page.mark
  · intro id page hpage
    obtain ⟨old, hold, -⟩ := hget id page hpage
    exact h.named id old hold
  · intro id page hpage
    obtain ⟨old, hold, rfl⟩ := hget id page hpage
    exact h.free id old hold

/-- A command that was put aside leaves the pages fresh. -/
theorem FreshPages.of_effect {d d' : Document} (h : d.FreshPages)
    (heffect : Deferred.Effect d d') : d'.FreshPages := by
  cases heffect with
  | nothing => exact h
  | header id name body => exact h.of_pages rfl
  | page id title body hid => exact h.appendPage hid title body
  | entity e _ _ => exact h.of_pages rfl
  | description id f _ => exact h.of_pages rfl

/-- Files that are read leave no pages behind. -/
theorem pages_of_reachable {b : Build} (h : b.Reachable) : b.document.pages = {} := by
  induction h with
  | init => rfl
  | messages _ path name ms hok ih =>
      rw [Build.checkMessages_eq_ok hok]
      exact ih
  | header _ name includes ih => exact ih
  | @comments b _ name blocks ih =>
      have hsame : (b.scanComments name blocks).1.document.pages = b.document.pages :=
        congrArg Prod.snd (Build.untouched_scanComments b name blocks)
      rw [hsame]
      exact ih
  | walk _ file decls ih => exact ih

/-- **In every finished document the pages form a tree.** -/
theorem Finished.pagesArranged {d : Document} (h : d.Finished) : d.PagesArranged := by
  obtain ⟨b, queue, d₁, notes, hb, hq, rfl⟩ := h
  have hread : b.document.FreshPages := by
    have hnone : ∀ id, b.document.pages.get? id = none := by
      intro id
      rw [pages_of_reachable hb]
      rfl
    refine ⟨by rw [pages_of_reachable hb]; exact List.nodup_nil, ?_, ?_⟩
    · intro id page hget
      rw [hnone id] at hget
      simp at hget
    · intro id page hget
      rw [hnone id] at hget
      simp at hget
  have hdone : d₁.FreshPages := Deferred.process_induction
    (P := FreshPages) (fun _ _ h heffect => h.of_effect heffect) queue hread hq
  have hlinked : d₁.link.FreshPages := hdone.of_pages rfl
  have hpass := Underway.foldl hlinked.mark.contains_empty d₁.link.anchorIds d₁.link.mark.owners []
    (d₁.link.mark, []) hlinked.mark.underway
  exact hpass.arranged

end Document

end DocForest
