/-
Pages and headers are put together from all that is said of them.

A comment in any file can add to a page or to a header, and commands for different pages,
headers, macros and declarations stand in one queue.  What becomes of one page can be said
without the others: its title is the first that is not empty, and its text is all texts in
order, with blank lines between them.  Pages that are new come behind those that were there,
in the order in which they are first named.  For headers it is the same, with the brief text
in place of the title.

`pageAddition?` and `headerAddition?` say what a command adds, if anything.  A command that
adds to a page leaves the headers alone and the other way round, and all other commands leave
both alone (`apply_additions`), so over a queue each of the two tables takes in its own
additions and sees no others.  What a table comes to that takes in additions is proved once,
for all records that have a brief text and a long one.
-/
import DocForest.Proofs.MergedAttributes
import DocForest.Proofs.Run

namespace DocForest

open DocText

/-! ### Descriptions that are added to each other -/

/-- The texts that are not empty, with a blank line between neighbours. -/
def paragraphs (texts : List String) : String :=
  "\n\n".intercalate (texts.filter (!·.isEmpty))

theorem paragraphs_singleton (s : String) : paragraphs [s] = s := by
  unfold paragraphs
  by_cases hs : s = ""
  · rw [hs]
    rfl
  · rw [List.filter_cons_of_pos (by simpa using hs)]
    rfl

theorem paragraphs_appendDoc (doc more : String) (rest : List String) :
    paragraphs (appendDoc doc more :: rest) = paragraphs (doc :: more :: rest) := by
  unfold appendDoc paragraphs
  by_cases hmore : more.isEmpty = true
  · rw [if_pos hmore]
    simp only [List.filter_cons, hmore, Bool.not_true, Bool.false_eq_true, if_false]
  rw [if_neg hmore]
  by_cases hdoc : doc.isEmpty = true
  · rw [if_pos hdoc]
    simp only [List.filter_cons, hdoc, Bool.not_true, Bool.false_eq_true, if_false]
  rw [if_neg hdoc]
  have hboth : (doc ++ "\n\n" ++ more).isEmpty = false := by
    simp
  rw [Bool.not_eq_true] at hmore hdoc
  simp only [List.filter_cons, hmore, hdoc, hboth, Bool.not_false, if_true]
  rfl

/-- What several descriptions come to: the first brief text that is not empty, and all long
texts. -/
def collected (ds : List Description) : Description where
  brief := firstText (ds.map (·.brief))
  doc := paragraphs (ds.map (·.doc))

theorem collected_singleton (d : Description) : collected [d] = d := by
  show Description.mk (firstText [d.brief]) (paragraphs [d.doc]) = d
  rw [firstText_singleton, paragraphs_singleton]

theorem collected_add (d more : Description) (rest : List Description) :
    collected (d.add more :: rest) = collected (d :: more :: rest) := by
  show Description.mk (firstText (fillText d.brief more.brief :: rest.map (·.brief)))
    (paragraphs (appendDoc d.doc more.doc :: rest.map (·.doc))) = _
  rw [firstText_fillText, paragraphs_appendDoc]
  rfl

/-! ### Records that take in descriptions -/

/-- What a command adds to the record under an id.  The name is for the record, if there is
none yet. -/
structure Addition where
  id : String
  name : String := ""
  said : Description

/-- A kind of records that have a brief text and a long one. -/
structure Described (α : Type) where
  /-- The record that an addition makes. -/
  make : Addition → α
  texts : α → Description
  put : α → Description → α
  texts_put : ∀ v d, texts (put v d) = d
  put_put : ∀ v d d', put (put v d) d' = put v d'
  put_texts : ∀ v, put v (texts v) = v

namespace Described

variable {α : Type} (k : Described α)

/-- A record that takes in a description. -/
def add (v : α) (more : Description) : α :=
  k.put v ((k.texts v).add more)

/-- A record with the texts that several descriptions give it. -/
def collect (v : α) (said : List Description) : α :=
  k.put v (collected (k.texts v :: said))

/-- **Descriptions that are taken in one after the other** can be collected at once. -/
theorem foldl_add (said : List Description) : ∀ v, said.foldl k.add v = k.collect v said := by
  induction said with
  | nil =>
      intro v
      show v = k.put v (collected [k.texts v])
      rw [collected_singleton, k.put_texts]
  | cons more rest ih =>
      intro v
      rw [List.foldl_cons, ih, collect, add, k.texts_put, k.put_put, collected_add, collect]

end Described

/-! ### Tables that take in additions -/

/-- What is said under an id, in order. -/
def saidOf (id : String) (additions : List Addition) : List Description :=
  (additions.filter (·.id == id)).map (·.said)

theorem saidOf_cons (id : String) (a : Addition) (rest : List Addition) :
    saidOf id (a :: rest) = if a.id = id then a.said :: saidOf id rest else saidOf id rest := by
  unfold saidOf
  by_cases ha : a.id = id
  · rw [if_pos ha, List.filter_cons_of_pos (by simpa using ha)]
    rfl
  · rw [if_neg ha, List.filter_cons_of_neg (by simpa using ha)]

namespace Table

variable {α : Type} (k : Described α)

/-- Takes in an addition. -/
def take (t : Table α) (a : Addition) : Table α :=
  t.upsert a.id (k.make a) (k.add · a.said)

/-- Takes in additions one after the other. -/
def takeAll (t : Table α) (additions : List Addition) : Table α :=
  additions.foldl (take k) t

theorem takeAll_append (t : Table α) (additions more : List Addition) :
    t.takeAll k (additions ++ more) = (t.takeAll k additions).takeAll k more :=
  List.foldl_append

theorem get?_take (t : Table α) (a : Addition) (id : String) :
    (t.take k a).get? id =
      if id = a.id then some (k.add ((t.get? id).getD (k.make a)) a.said) else t.get? id :=
  get?_upsert t a.id (k.make a) (k.add · a.said) id

theorem keys_take (t : Table α) (a : Addition) : (t.take k a).keys = union t.keys [a.id] := by
  unfold take upsert
  rw [keys_modify, keys_insertNew]
  show _ = if a.id ∈ t.keys then t.keys else t.keys ++ [a.id]
  by_cases hc : t.contains a.id = true
  · rw [if_pos hc, if_pos (contains_iff_mem_keys.mp hc)]
  · rw [if_neg hc, if_neg (fun hmem => hc (contains_iff_mem_keys.mpr hmem))]

theorem keys_takeAll (additions : List Addition) :
    ∀ t : Table α, (t.takeAll k additions).keys = union t.keys (additions.map (·.id)) := by
  induction additions with
  | nil => intro t; rfl
  | cons a rest ih =>
      intro t
      show ((t.take k a).takeAll k rest).keys = _
      rw [ih, keys_take]
      rfl

/-- A record that is there takes in what is said of it. -/
theorem get?_takeAll_of_some {id : String} (additions : List Addition) :
    ∀ {t : Table α} {v : α}, t.get? id = some v →
      (t.takeAll k additions).get? id = some ((saidOf id additions).foldl k.add v) := by
  induction additions with
  | nil => intro t v h; exact h
  | cons a rest ih =>
      intro t v h
      show ((t.take k a).takeAll k rest).get? id = _
      rw [saidOf_cons]
      by_cases ha : a.id = id
      · rw [if_pos ha, List.foldl_cons]
        refine ih ?_
        rw [get?_take, if_pos ha.symm, h]
        rfl
      · rw [if_neg ha]
        refine ih ?_
        rw [get?_take, if_neg (Ne.symm ha)]
        exact h

/-- A record that is not there is made by the first addition to it. -/
theorem get?_takeAll_of_none {id : String} (additions : List Addition) :
    ∀ {t : Table α}, t.get? id = none →
      (t.takeAll k additions).get? id =
        (additions.find? (·.id == id)).map fun a => (saidOf id additions).foldl k.add (k.make a) := by
  induction additions with
  | nil => intro t h; exact h
  | cons a rest ih =>
      intro t h
      show ((t.take k a).takeAll k rest).get? id = _
      rw [saidOf_cons]
      by_cases ha : a.id = id
      · rw [if_pos ha, List.find?_cons_of_pos (by simpa using ha)]
        refine get?_takeAll_of_some k rest ?_
        rw [get?_take, if_pos ha.symm, h]
        rfl
      · rw [if_neg ha, List.find?_cons_of_neg (by simpa using ha)]
        refine ih ?_
        rw [get?_take, if_neg (Ne.symm ha)]
        exact h

/-- One table comes out of another by additions: every record holds what was in it and what is
said of it, and new records are behind the old ones, in the order in which they are first
named. -/
structure Collects (t : Table α) (additions : List Addition) (t' : Table α) : Prop where
  known : ∀ id v, t.get? id = some v → t'.get? id = some (k.collect v (saidOf id additions))
  made : ∀ id a, t.get? id = none → additions.find? (·.id == id) = some a →
    t'.get? id = some (k.collect (k.make a) (saidOf id additions))
  /-- What nothing is said of is as it was. -/
  others : ∀ id, id ∉ additions.map (·.id) → t'.get? id = t.get? id
  keys : t'.keys = t.keys ++ ((additions.map (·.id)).filter (· ∉ t.keys)).eraseDups

theorem collects_takeAll (t : Table α) (additions : List Addition) :
    t.Collects k additions (t.takeAll k additions) := by
  refine ⟨?_, ?_, ?_, ?_⟩
  · intro id v h
    rw [get?_takeAll_of_some k additions h, k.foldl_add]
  · intro id a h ha
    rw [get?_takeAll_of_none k additions h, ha, Option.map_some, k.foldl_add]
  · intro id hid
    have hother : ∀ a ∈ additions, ¬ (a.id == id) = true := by
      intro a ha hsame
      exact hid (List.mem_map.mpr ⟨a, ha, beq_iff_eq.mp hsame⟩)
    cases h : t.get? id with
    | none => rw [get?_takeAll_of_none k additions h, List.find?_eq_none.mpr hother, Option.map_none]
    | some v =>
        have hsaid : saidOf id additions = [] := by
          rw [saidOf, List.filter_eq_nil_iff.mpr hother, List.map_nil]
        rw [get?_takeAll_of_some k additions h, hsaid, List.foldl_nil]
  · rw [keys_takeAll, union_eq_append]

end Table

/-! ### What a command adds -/

/-- Pages, with the title for a brief text. -/
def describedPages : Described Page where
  make a := { id := a.id }
  texts p := ⟨p.title, p.doc⟩
  put p d := { p with title := d.brief, doc := d.doc }
  texts_put _ _ := rfl
  put_put _ _ _ := rfl
  put_texts _ := rfl

/-- Headers. -/
def describedHeaders : Described Header where
  make a := { id := a.id, name := a.name }
  texts h := ⟨h.brief, h.doc⟩
  put h d := { h with brief := d.brief, doc := d.doc }
  texts_put _ _ := rfl
  put_put _ _ _ := rfl
  put_texts _ := rfl

namespace Deferred

/-- The text of a command for a page. -/
def pageText (c : DeferredCommand) : String :=
  String.ofList (Text.trim c.body.toList)

/-- What a command adds to a page.  A command for a page other than the main one has to give an
id that can stand in a link, and a title. -/
def pageAddition? (c : DeferredCommand) : Option Addition :=
  if c.name = "page" then
    let (id, rest) := Text.splitFirstWord c.args.toList
    let title := Text.stripQuotes (Text.trim rest)
    if id ≠ [] ∧ title ≠ [] ∧ Text.isValidId id = true then
      some { id := String.ofList id, said := ⟨String.ofList title, pageText c⟩ }
    else none
  else if c.name = "mainpage" then some { id := mainPage, said := ⟨unquoted c.args, pageText c⟩ }
  else none

/-- What a command adds to a header: the one that it names, or else that of its own file. -/
def headerAddition? (c : DeferredCommand) : Option Addition :=
  if c.name = "file" then
    let name := unquoted c.args
    some
      { id := if name.isEmpty then c.header else headerId name, name, said := describe c.body }
  else none

-- The next two are equations of their own so that nothing below has to unfold the texts.

theorem describedPages_add (p : Page) (more : Description) : describedPages.add p more =
    { p with
      title := if p.title.isEmpty then more.brief else p.title
      doc := appendDoc p.doc more.doc } := rfl

theorem describedHeaders_add (h : Header) (more : Description) : describedHeaders.add h more =
    { h with brief := (Description.add ⟨h.brief, h.doc⟩ more).brief
             doc := (Description.add ⟨h.brief, h.doc⟩ more).doc } := rfl

theorem appendPage_eq (d : Document) (id title body : String) :
    appendPage d id title body =
      { d with
        pages := d.pages.take describedPages
          { id, said := ⟨title, String.ofList (Text.trim body.toList)⟩ } } := by
  unfold appendPage Table.take
  simp only [describedPages_add]
  rfl

theorem describeHeader_eq (d : Document) (id name body : String) :
    describeHeader d id name body =
      { d with headers := d.headers.take describedHeaders { id, name, said := describe body } } := by
  unfold describeHeader Table.take
  simp only [describedHeaders_add]
  rfl

/-- What a command for a page does: it adds to the page, or it is rejected. -/
theorem applyPage_addition (d : Document) {c : DeferredCommand} (hname : c.name = "page") :
    (∃ a, pageAddition? c = some a ∧
      applyPage d c = ({ d with pages := d.pages.take describedPages a }, [])) ∨
    (pageAddition? c = none ∧ ∃ code message, applyPage d c = (d, [error c code message])) := by
  rw [pageAddition?, if_pos hname]
  dsimp only
  rcases applyPage_cases d c rfl rfl with ⟨hgiven, happly⟩ | ⟨hlacks, hrejected⟩
  · rw [if_pos hgiven, happly, appendPage_eq]
    exact Or.inl ⟨_, rfl, rfl⟩
  · rw [if_neg hlacks]
    exact Or.inr ⟨rfl, hrejected⟩

/-- A command for a page is rejected exactly if something is reported about it. -/
theorem isSome_pageAddition?_iff {c : DeferredCommand} (hname : c.name = "page") (d : Document) :
    (pageAddition? c).isSome = true ↔ ∃ d', apply d c = .ok (d', []) := by
  have hpage : apply d c = .ok (applyPage d c) := by
    rw [apply, hname]
    rfl
  rw [hpage]
  rcases applyPage_addition d hname with ⟨a, ha, happly⟩ | ⟨hnone, code, message, happly⟩
  · rw [ha, happly]
    exact ⟨fun _ => ⟨_, rfl⟩, fun _ => rfl⟩
  · rw [hnone, happly]
    simp

theorem pageAddition?_eq_none {c : DeferredCommand} (hpage : c.name ≠ "page")
    (hmain : c.name ≠ "mainpage") : pageAddition? c = none := by
  rw [pageAddition?, if_neg hpage, if_neg hmain]

theorem headerAddition?_eq_none {c : DeferredCommand} (hfile : c.name ≠ "file") :
    headerAddition? c = none :=
  if_neg hfile

/-- The pages and the headers of a document. -/
def addedTo (d : Document) : Table Page × Table Header :=
  (d.pages, d.headers)

theorem addedTo_applyMacro (d : Document) (c : DeferredCommand) :
    addedTo (applyMacro d c).1 = addedTo d := by
  rcases applyMacro_cases d c with ⟨code, message, happly⟩ | ⟨e, -, -, happly⟩ |
    ⟨e, name, old, new, -, happly⟩
  · rw [happly]
  · rw [happly]
    rfl
  · rw [happly]
    rfl

theorem addedTo_applyDeclaration {d : Document} {c : DeferredCommand}
    {result : Document × List Diagnostic} (hok : applyDeclaration d c = .ok result) :
    addedTo result.1 = addedTo d := by
  rcases applyDeclaration_cases hok with ⟨code, message, rfl⟩ | rfl |
    ⟨id, e, name, description, group, -, rfl⟩
  all_goals rfl

/-- The pages and headers of a document after what a command adds to them. -/
def addedBy (d : Document) (c : DeferredCommand) : Table Page × Table Header :=
  (d.pages.takeAll describedPages (pageAddition? c).toList,
    d.headers.takeAll describedHeaders (headerAddition? c).toList)

/-- **A command changes the pages and headers by what it adds to them**, and by nothing else. -/
theorem apply_additions {d d' : Document} {c : DeferredCommand} {notes : List Diagnostic}
    (hok : apply d c = .ok (d', notes)) : addedTo d' = addedBy d c := by
  -- Commands for macros and declarations add nothing.
  have hframe : c.name ≠ "page" → c.name ≠ "mainpage" → c.name ≠ "file" →
      addedTo d = addedBy d c := by
    intro hpage hmain hfile
    rw [addedBy, pageAddition?_eq_none hpage hmain, headerAddition?_eq_none hfile]
    rfl
  have hmacro : c.name = "macro" ∨ c.name = "def" → addedTo (applyMacro d c).1 = addedBy d c := by
    intro hname
    rw [addedTo_applyMacro]
    rcases hname with hname | hname
    · exact hframe (by simp [hname]) (by simp [hname]) (by simp [hname])
    · exact hframe (by simp [hname]) (by simp [hname]) (by simp [hname])
  rcases apply_cases hok with ⟨hname, heq⟩ | ⟨hname, heq⟩ | ⟨hname, heq⟩ | ⟨hname, heq⟩ |
    ⟨⟨hfile, hpage, hmain⟩, hok⟩
  · have hd : d' = (applyMacro d c).1 := congrArg Prod.fst heq
    rw [hd]
    exact hmacro hname
  · have hd : d' = applyFile d c := congrArg Prod.fst heq
    have hpage : pageAddition? c = none :=
      pageAddition?_eq_none (by simp [hname]) (by simp [hname])
    rw [hd, addedBy, hpage, headerAddition?, if_pos hname, applyFile, describeHeader_eq]
    rfl
  · have hd : d' = (applyPage d c).1 := congrArg Prod.fst heq
    have hheader : headerAddition? c = none := headerAddition?_eq_none (by simp [hname])
    rw [hd, addedBy, hheader]
    rcases applyPage_addition d hname with ⟨a, ha, happly⟩ | ⟨hnone, code, message, happly⟩
    · rw [ha, happly]
      rfl
    · rw [hnone, happly]
      rfl
  · have hd : d' = appendPage d mainPage (unquoted c.args) c.body := congrArg Prod.fst heq
    have hheader : headerAddition? c = none := headerAddition?_eq_none (by simp [hname])
    rw [hd, addedBy, hheader, pageAddition?, if_neg (by simp [hname]), if_pos hname,
      appendPage_eq]
    rfl
  · have hframed : addedTo d' = addedTo d := addedTo_applyDeclaration hok
    rw [hframed]
    exact hframe hpage hmain hfile

/-- What a queue adds to the pages. -/
def pageAdditions (queue : List DeferredCommand) : List Addition :=
  queue.filterMap pageAddition?

/-- What a queue adds to the headers. -/
def headerAdditions (queue : List DeferredCommand) : List Addition :=
  queue.filterMap headerAddition?

theorem filterMap_cons_toList {α β : Type} (f : α → Option β) (x : α) (xs : List α) :
    (x :: xs).filterMap f = (f x).toList ++ xs.filterMap f := by
  rw [List.filterMap_cons]
  cases f x <;> rfl

/-- **Over a queue, pages and headers take in what is added to them.** -/
theorem process_additions {queue : List DeferredCommand} :
    ∀ {d d' : Document} {notes : List Diagnostic}, process d queue = .ok (d', notes) →
      d'.pages = d.pages.takeAll describedPages (pageAdditions queue) ∧
        d'.headers = d.headers.takeAll describedHeaders (headerAdditions queue) := by
  induction queue with
  | nil =>
      intro d d' notes hok
      obtain ⟨rfl, -⟩ := Prod.mk.inj (Except.ok.inj hok)
      exact ⟨rfl, rfl⟩
  | cons c queue ih =>
      intro d d' notes hok
      obtain ⟨d₁, first, rest, hfirst, hrest, -⟩ := process_cons_eq_ok hok
      obtain ⟨hpages, hheaders⟩ := Prod.mk.inj (apply_additions hfirst)
      obtain ⟨hpages', hheaders'⟩ := ih hrest
      rw [pageAdditions, headerAdditions, filterMap_cons_toList, filterMap_cons_toList,
        Table.takeAll_append, Table.takeAll_append, ← hpages, ← hheaders]
      exact ⟨hpages', hheaders'⟩

/--
**Pages and headers are put together from all that is said of them, in order.**

The queue may hold any commands in any order, and the document is any.  A page that is there
keeps its first title that is not empty and gets all texts with blank lines between them; a page
that is not there is made by the first command that is accepted for it.  A command for a page is
accepted exactly if nothing is reported about it.  Headers are put together in the same way, and
no command for a header is rejected.
-/
theorem process_collects {d d' : Document} {queue : List DeferredCommand}
    {notes : List Diagnostic} (hok : process d queue = .ok (d', notes)) :
    d.pages.Collects describedPages (pageAdditions queue) d'.pages ∧
      d.headers.Collects describedHeaders (headerAdditions queue) d'.headers ∧
      ∀ c ∈ queue, c.name = "page" →
        ∀ now, (pageAddition? c).isSome = true ↔ ∃ later, apply now c = .ok (later, []) := by
  obtain ⟨hpages, hheaders⟩ := process_additions hok
  rw [hpages, hheaders]
  refine ⟨d.pages.collects_takeAll describedPages _,
    d.headers.collects_takeAll describedHeaders _, ?_⟩
  intro c _ hname now
  exact isSome_pageAddition?_iff hname now

/-- A document with a page that has no title yet. -/
def untitledDocument : Document :=
  { pages := ⟨[("intro", { id := "intro", doc := "Old." })]⟩ }

/-- A command in some file. -/
def inFile (name args body : String) : DeferredCommand :=
  { name, args, body, file := "a.h", header := "a_h", line := 1 }

/-- Commands for two pages and two headers, with one that is rejected and a macro. -/
def mixedQueue : List DeferredCommand :=
  [inFile "page" "intro \"Getting started\"" "First part.",
    inFile "file" "lib/b.h" "Helpers.\n\nMore.",
    inFile "mainpage" "Widgets" "Welcome.",
    inFile "macro" "MAX" "Larger.",
    inFile "page" "in/tro Title" "Lost.",
    inFile "page" "intro Ignored" "Second part.",
    inFile "file" "" "Current.",
    inFile "file" "lib/b.h" "Ignored.\nStill more."]

/-- The pages and headers with their texts. -/
def shownTexts (d : Document) : List (String × String × String) × List (String × String × String) :=
  (d.pages.values.map fun p => (p.id, p.title, p.doc),
    d.headers.values.map fun h => (h.id, h.brief, h.doc))

/-- What the commands make of the document. -/
def mixedTexts : List (String × String × String) × List (String × String × String) :=
  ([("intro", "Getting started", "Old.\n\nFirst part.\n\nSecond part."),
      ("index", "Widgets", "Welcome.")],
    [("lib%2Fb.h", "Helpers.", "More.\n\nStill more."), ("a_h", "Current.", "")])

/-- The two parts of the page come together behind the old text. -/
theorem mixedQueue_collects : ∃ d' notes, process untitledDocument mixedQueue = .ok (d', notes) ∧
    shownTexts d' = mixedTexts ∧
    untitledDocument.pages.Collects describedPages (pageAdditions mixedQueue) d'.pages ∧
    untitledDocument.headers.Collects describedHeaders (headerAdditions mixedQueue) d'.headers := by
  have hrun : (process untitledDocument mixedQueue).toOption.map (shownTexts ·.1) =
      some mixedTexts := by
    decide +kernel
  cases hok : process untitledDocument mixedQueue with
  | error cause =>
      rw [hok] at hrun
      cases hrun
  | ok result =>
      obtain ⟨d', notes⟩ := result
      rw [hok] at hrun
      obtain ⟨hpages, hheaders, -⟩ := process_collects hok
      exact ⟨d', notes, rfl, Option.some.inj hrun, hpages, hheaders⟩

end Deferred

end DocForest
