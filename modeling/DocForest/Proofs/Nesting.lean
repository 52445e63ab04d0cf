/-
The tree of a document holds every entity once.

`nest` follows the lists of children and stops after as many levels as there are
entities.  `Nested` is the same recursion without a bound, as a relation, so it holds of
a list of trees exactly if the recursion ends with it.  With sound links the bound is
never met: every level down is younger than the one above.

That no entity is missing and none is there twice is a matter of counting.  An id stands
in the tree as often as it is at the top or among the children of what stands in the
tree.  An entity is listed once, by its parent, so it stands there as often as its parent
does; and a root is at the top once.
-/
import DocForest.Proofs.Run
import Mathlib.Data.List.Nodup

namespace DocForest

namespace Member

mutual

/-- A tree and all trees inside it. -/
def nodes : Member → List Member
  | mk e ms => mk e ms :: nodesOf ms

/-- Some trees and all trees inside them. -/
def nodesOf : List Member → List Member
  | [] => []
  | m :: ms => m.nodes ++ nodesOf ms

end

/-- The id of the entity at the top. -/
def id (m : Member) : String :=
  m.entity.id

end Member

namespace Forest

open Member

/-! ### The recursion without a bound -/

/-- The trees that the entities under some ids stand for. -/
inductive Nested (f : Forest) : List String → List Member → Prop
  | nil : Nested f [] []
  | skip {id : String} {ids : List String} {ms : List Member} (hget : f.get? id = none)
      (rest : Nested f ids ms) : Nested f (id :: ids) ms
  | cons {id : String} {ids : List String} {e : Entity} {inner ms : List Member}
      (hget : f.get? id = some e) (below : Nested f e.children inner)
      (rest : Nested f ids ms) : Nested f (id :: ids) (.mk e inner :: ms)

/-- The recursion has one result at most. -/
theorem Nested.unique {f : Forest} {ids : List String} {ms ms' : List Member}
    (h : f.Nested ids ms) (h' : f.Nested ids ms') : ms = ms' := by
  induction h generalizing ms' with
  | nil =>
      cases h'
      rfl
  | skip hget _ ih =>
      cases h' with
      | skip _ rest => exact ih rest
      | cons hget' _ _ => rw [hget] at hget'; simp at hget'
  | cons hget _ _ ihbelow ihrest =>
      cases h' with
      | skip hget' _ => rw [hget] at hget'; simp at hget'
      | cons hget' below rest =>
          rw [hget] at hget'
          obtain rfl := Option.some.inj hget'
          rw [ihbelow below, ihrest rest]

namespace Nested

variable {f : Forest} {ids : List String} {ms : List Member}

/-- What stands in the tree stands under its own children in the same way. -/
theorem sub (h : f.Nested ids ms) :
    ∀ m ∈ nodesOf ms, ∃ id, f.get? id = some m.entity ∧ f.Nested m.entity.children m.members := by
  induction h with
  | nil => intro m hm; simp [nodesOf] at hm
  | skip _ _ ih => exact ih
  | @cons id _ e inner _ hget hbelow _ ihbelow ihrest =>
      intro m hm
      simp only [nodesOf, nodes, List.cons_append, List.mem_cons, List.mem_append] at hm
      rcases hm with rfl | hm | hm
      · exact ⟨id, hget, hbelow⟩
      · exact ihbelow m hm
      · exact ihrest m hm

/-- What is at the top is under one of the given ids. -/
theorem mem_top (h : f.Nested ids ms) {m : Member} (hm : m ∈ ms) :
    ∃ id ∈ ids, f.get? id = some m.entity := by
  induction h with
  | nil => simp at hm
  | skip _ _ ih =>
      obtain ⟨id, hid, hget⟩ := ih hm
      exact ⟨id, List.mem_cons_of_mem _ hid, hget⟩
  | cons hget _ _ _ ih =>
      rcases List.mem_cons.mp hm with rfl | hm
      · exact ⟨_, List.mem_cons_self, hget⟩
      · obtain ⟨id, hid, hget⟩ := ih hm
        exact ⟨id, List.mem_cons_of_mem _ hid, hget⟩

/-- What stands in the tree is at the top, or directly under something else in it. -/
theorem top_or_under (h : f.Nested ids ms) :
    ∀ c ∈ nodesOf ms, c ∈ ms ∨ ∃ m ∈ nodesOf ms, c ∈ m.members := by
  induction h with
  | nil => intro c hc; simp [nodesOf] at hc
  | skip _ _ ih => exact ih
  | @cons id _ e inner ms _ _ _ ihbelow ihrest =>
      intro c hc
      simp only [nodesOf, nodes, List.cons_append, List.mem_cons, List.mem_append] at hc ⊢
      rcases hc with rfl | hc | hc
      · exact Or.inl (Or.inl rfl)
      · rcases ihbelow c hc with htop | ⟨m, hm, hcm⟩
        · exact Or.inr ⟨.mk e inner, Or.inl rfl, htop⟩
        · exact Or.inr ⟨m, Or.inr (Or.inl hm), hcm⟩
      · rcases ihrest c hc with htop | ⟨m, hm, hcm⟩
        · exact Or.inl (Or.inr htop)
        · exact Or.inr ⟨m, Or.inr (Or.inr hm), hcm⟩

/-- An id stands in the tree as often as it is at the top or a child of what stands in
the tree. -/
theorem count_id (h : f.Nested ids ms) (hkeyed : ∀ id e, f.get? id = some e → e.id = id)
    {x : String} (hx : f.contains x = true) :
    ((nodesOf ms).map Member.id).count x =
      ids.count x + ((nodesOf ms).flatMap (·.entity.children)).count x := by
  induction h with
  | nil => rfl
  | @skip id ids ms hget _ ih =>
      have hne : id ≠ x := by
        intro heq
        obtain rfl := heq
        obtain ⟨e, he⟩ := contains_iff_exists.mp hx
        rw [hget] at he
        simp at he
      rw [ih, List.count_cons_of_ne hne]
  | @cons id ids e inner ms hget _ _ ihbelow ihrest =>
      have hid : Member.id (.mk e inner) = id := hkeyed id e hget
      have htop : (Member.mk e inner).entity.children = e.children := rfl
      simp only [nodesOf, nodes, List.cons_append, List.map_cons, List.map_append,
        List.flatMap_cons, List.flatMap_append, List.count_append, List.count_cons, hid, htop,
        ihbelow, ihrest]
      omega

end Nested

/-! ### No bound is met -/

/-- The bound suffices for ids that are old enough. -/
theorem Sound.nested_nestWithin {f : Forest} (h : f.Sound) (bound : Nat) :
    ∀ ids : List String,
      (∀ id ∈ ids, f.contains id = true → f.size ≤ bound + f.ids.idxOf id) →
      f.Nested ids (f.nestWithin bound ids) := by
  induction bound with
  | zero =>
      intro ids hids
      induction ids with
      | nil => exact .nil
      | cons id rest ih =>
          refine .skip ?_ (ih fun i hi => hids i (List.mem_cons_of_mem _ hi))
          refine Table.contains_eq_false_iff.mp (Bool.eq_false_iff.mpr fun hid => ?_)
          have hsize := hids id List.mem_cons_self hid
          have hlt := idxOf_lt_size hid
          omega
  | succ bound ihbound =>
      intro ids hids
      induction ids with
      | nil => exact .nil
      | cons id rest ih =>
          have hrest := ih fun i hi => hids i (List.mem_cons_of_mem _ hi)
          cases hget : f.get? id with
          | none =>
              simp only [nestWithin, List.filterMap_cons, hget]
              exact .skip hget hrest
          | some e =>
              simp only [nestWithin, List.filterMap_cons, hget, List.map_cons]
              refine .cons hget (ihbound e.children fun child hchild _ => ?_) hrest
              -- A child is younger, so one level less is enough for it.
              obtain ⟨hid, c, hc, hparent⟩ := h.parent_of_mem_children hget hchild
              have hold := h.older child c hc (by rw [hparent]; exact hid)
              have hsize := hids id List.mem_cons_self (contains_of_get? hget)
              rw [hparent] at hold
              omega

/-- **The nesting follows the children to the end.** -/
theorem Sound.nested_nest {f : Forest} (h : f.Sound) : f.Nested f.roots f.nest :=
  h.nested_nestWithin f.size f.roots fun _ _ _ => Nat.le_add_right _ _

/-! ### Each entity once -/

namespace Sound

variable {f : Forest} {ids : List String} {ms : List Member}

theorem get?_node (h : f.Sound) (hms : f.Nested ids ms) {m : Member} (hm : m ∈ nodesOf ms) :
    f.get? m.id = some m.entity := by
  obtain ⟨id, hget, -⟩ := hms.sub m hm
  have hid : m.id = id := h.keyed id m.entity hget
  rw [hid]
  exact hget

/-- An entity is listed once by its parent, and by nobody else. -/
theorem count_children (h : f.Sound) {id child : String} {p c : Entity}
    (hp : f.get? id = some p) (hc : f.get? child = some c) :
    p.children.count child = if c.parent = id ∧ id ≠ "" then 1 else 0 := by
  rw [h.children id p hp]
  by_cases hid : id = ""
  · rw [if_pos hid, if_neg (fun hboth => hboth.2 hid)]
    rfl
  · rw [if_neg hid, (h.nodup_idsUnder id).count]
    by_cases hparent : c.parent = id
    · rw [if_pos (h.mem_idsUnder.mpr ⟨c, hc, hparent⟩), if_pos ⟨hparent, hid⟩]
    · rw [if_neg, if_neg (fun hboth => hparent hboth.1)]
      intro hmem
      obtain ⟨c', hc', hparent'⟩ := h.mem_idsUnder.mp hmem
      rw [hc] at hc'
      exact hparent ((congrArg Entity.parent (Option.some.inj hc')).trans hparent')

/-- Among the children of some nodes an entity stands as often as its parent among the
nodes. -/
theorem count_flatMap_children (h : f.Sound) {child : String} {c : Entity}
    (hc : f.get? child = some c) :
    ∀ nodes : List Member, (∀ m ∈ nodes, f.get? m.id = some m.entity) →
      (nodes.flatMap (·.entity.children)).count child =
        if c.parent = "" then 0 else (nodes.map Member.id).count c.parent := by
  intro nodes
  induction nodes with
  | nil => intro _; simp
  | cons m rest ih =>
      intro hnodes
      have hm := hnodes m List.mem_cons_self
      have hrest := ih fun n hn => hnodes n (List.mem_cons_of_mem _ hn)
      rw [List.flatMap_cons, List.count_append, h.count_children hm hc, hrest, List.map_cons,
        List.count_cons]
      by_cases hroot : c.parent = ""
      · rw [if_pos hroot, if_pos hroot, if_neg]
        intro hboth
        obtain ⟨hparent, hid⟩ := hboth
        exact hid (hparent.symm.trans hroot)
      · rw [if_neg hroot, if_neg hroot]
        by_cases hparent : c.parent = m.id
        · rw [if_pos ⟨hparent, by rw [← hparent]; exact hroot⟩, if_pos (by simpa using hparent.symm)]
          omega
        · rw [if_neg (fun hboth => hparent hboth.1),
            if_neg (by simpa using fun hid => hparent hid.symm)]
          omega

theorem count_roots (h : f.Sound) {id : String} {e : Entity} (hget : f.get? id = some e) :
    f.roots.count id = if e.parent = "" then 1 else 0 := by
  rw [h.roots, (h.nodup_idsUnder "").count]
  by_cases hroot : e.parent = ""
  · rw [if_pos (h.mem_idsUnder.mpr ⟨e, hget, hroot⟩), if_pos hroot]
  · rw [if_neg, if_neg hroot]
    intro hmem
    obtain ⟨e', hget', hroot'⟩ := h.mem_idsUnder.mp hmem
    rw [hget] at hget'
    exact hroot ((congrArg Entity.parent (Option.some.inj hget')).trans hroot')

/-- Every entity stands in the tree once, since its parent does. -/
theorem count_nodes_of_contains (h : f.Sound) (hms : f.Nested f.roots ms) :
    ∀ id, f.contains id = true → ((nodesOf ms).map Member.id).count id = 1 := by
  have hnodes : ∀ m ∈ nodesOf ms, f.get? m.id = some m.entity := fun m hm => h.get?_node hms hm
  refine h.parent_induction ?_ ?_
  · intro id e hget hroot
    rw [hms.count_id h.keyed (contains_of_get? hget), h.count_roots hget,
      h.count_flatMap_children hget _ hnodes, if_pos hroot, if_pos hroot]
  · intro id e hget hparent _ ih
    rw [hms.count_id h.keyed (contains_of_get? hget), h.count_roots hget,
      h.count_flatMap_children hget _ hnodes, if_neg hparent, if_neg hparent, ih]

theorem count_nodes (h : f.Sound) (hms : f.Nested f.roots ms) (id : String) :
    ((nodesOf ms).map Member.id).count id = if f.contains id then 1 else 0 := by
  by_cases hid : f.contains id = true
  · rw [if_pos hid]
    exact h.count_nodes_of_contains hms id hid
  · rw [if_neg hid, List.count_eq_zero]
    intro hmem
    obtain ⟨m, hm, rfl⟩ := List.mem_map.mp hmem
    exact hid (contains_of_get? (h.get?_node hms hm))

/-- The tree holds the entities of the table, whole. -/
theorem perm_nodes (h : f.Sound) (hms : f.Nested f.roots ms) :
    ((nodesOf ms).map Member.entity).Perm f.entities.values := by
  have hids : ((nodesOf ms).map Member.entity).map (·.id) = (nodesOf ms).map Member.id :=
    List.map_map
  have hnodup : ((nodesOf ms).map Member.entity).Nodup := by
    refine List.Nodup.of_map (·.id) ?_
    rw [hids, List.nodup_iff_count]
    intro id
    rw [h.count_nodes hms id]
    split <;> omega
  have hvalues : f.entities.values.Nodup := by
    refine List.Nodup.of_map (·.id) ?_
    rw [h.map_id_values]
    exact h.distinct
  rw [List.perm_ext_iff_of_nodup hnodup hvalues]
  intro e
  rw [h.mem_values_iff]
  constructor
  · intro he
    obtain ⟨m, hm, rfl⟩ := List.mem_map.mp he
    exact h.get?_node hms hm
  · intro hget
    have hmem : e.id ∈ (nodesOf ms).map Member.id := by
      rw [← List.count_pos_iff, h.count_nodes_of_contains hms _ (contains_of_get? hget)]
      omega
    obtain ⟨m, hm, hid⟩ := List.mem_map.mp hmem
    have hnode := h.get?_node hms hm
    rw [hid, hget] at hnode
    exact List.mem_map.mpr ⟨m, hm, (Option.some.inj hnode).symm⟩

/-- A member stands under the entity that it names as its parent. -/
theorem parent_of_mem_members (h : f.Sound) (hms : f.Nested ids ms) {m c : Member}
    (hm : m ∈ nodesOf ms) (hc : c ∈ m.members) : c.entity.parent = m.id := by
  obtain ⟨-, -, hbelow⟩ := hms.sub m hm
  obtain ⟨child, hchild, hget⟩ := hbelow.mem_top hc
  obtain ⟨-, e, he, hparent⟩ := h.parent_of_mem_children (h.get?_node hms hm) hchild
  rw [hget] at he
  rw [Option.some.inj he]
  exact hparent

theorem parent_of_mem_top (h : f.Sound) (hms : f.Nested f.roots ms) {m : Member} (hm : m ∈ ms) :
    m.entity.parent = "" := by
  obtain ⟨root, hroot, hget⟩ := hms.mem_top hm
  rw [h.roots] at hroot
  obtain ⟨e, he, hparent⟩ := h.mem_idsUnder.mp hroot
  rw [hget] at he
  rw [Option.some.inj he]
  exact hparent

end Sound

/-! ### What a tree has to hold -/

/-- The trees of a forest, with nothing lost and nothing twice. -/
structure Unfolding (f : Forest) (ms : List Member) : Prop where
  /-- The recursion over the lists of children ends, and this is what it ends with. -/
  ends : ∀ ms', f.Nested f.roots ms' ↔ ms' = ms
  /-- Each id stands in the trees once, and no other does. -/
  once : ∀ id, ((nodesOf ms).map Member.id).count id = if f.contains id then 1 else 0
  /-- What stands there is the entity of the table. -/
  entities : ((nodesOf ms).map Member.entity).Perm f.entities.values
  top : ∀ m ∈ ms, m.entity.parent = ""
  under : ∀ m ∈ nodesOf ms, ∀ c ∈ m.members, c.entity.parent = m.id
  /-- What has a parent stands directly under it. -/
  placed : ∀ c ∈ nodesOf ms, c.entity.parent ≠ "" →
    ∃ m ∈ nodesOf ms, m.id = c.entity.parent ∧ c ∈ m.members

theorem Sound.unfolding_nest {f : Forest} (h : f.Sound) : f.Unfolding f.nest where
  ends := by
    intro ms'
    constructor
    · intro hms'
      exact hms'.unique h.nested_nest
    · intro heq
      obtain rfl := heq
      exact h.nested_nest
  once := h.count_nodes h.nested_nest
  entities := h.perm_nodes h.nested_nest
  top := fun _ hm => h.parent_of_mem_top h.nested_nest hm
  under := fun _ hm _ hc => h.parent_of_mem_members h.nested_nest hm hc
  placed := by
    intro c hc hparent
    rcases h.nested_nest.top_or_under c hc with htop | ⟨m, hm, hcm⟩
    · exact absurd (h.parent_of_mem_top h.nested_nest htop) hparent
    · exact ⟨m, hm, (h.parent_of_mem_members h.nested_nest hm hcm).symm, hcm⟩

end Forest

/-- **The tree of every finished document holds every entity once, under its parent.** -/
theorem Document.Finished.nest_holds_all {d : Document} (h : d.Finished) :
    d.forest.Unfolding d.forest.nest :=
  h.sound.unfolding_nest

/-- A field under two ghosts, and a macro beside them. -/
theorem nest_strayDocument :
    strayDocument.resolve.1.Finished ∧
      (Member.nodesOf strayDocument.resolve.1.forest.nest).map Member.id =
        ["N", "N-S", "N-S-x", "MAX"] ∧
      strayDocument.resolve.1.forest.Unfolding strayDocument.resolve.1.forest.nest :=
  ⟨finished_strayDocument, by decide +kernel, finished_strayDocument.nest_holds_all⟩

end DocForest
