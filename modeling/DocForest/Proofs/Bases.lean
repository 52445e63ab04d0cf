/-
Bases and derived classes name each other.

The bases of all classes are looked up first, and the links are set afterwards, one after
the other, in both directions.  What comes of this can be said without the order.  Each
base of a class has the class that it names for its target (`bases?_linkBases`), and a
class lists every class that names it, in order of creation, with the access of the first
base that does so (`derived?_linkBases`).

A link touches the bases of one class and the derived classes of another, so the two
lists of a class are followed separately.
-/
import DocForest.Proofs.Links
import DocForest.Proofs.Lookups
import DocForest.Reference.Resolve
import Mathlib.Data.List.Find
import Mathlib.Data.List.Nodup

namespace DocForest

theorem Detail.record?_mapRecord (d : Detail) (g : RecordDetail → RecordDetail) :
    (d.mapRecord g).record? = d.record?.map g := by
  cases d <;> rfl

namespace Forest

/-- What is said of the class with this id. -/
def record? (f : Forest) (id : String) : Option RecordDetail :=
  (f.get? id).bind (·.detail.record?)

/-- The bases of a class. -/
def bases? (f : Forest) (id : String) : Option (List Base) :=
  (f.record? id).map (·.bases)

/-- The classes that are noted as derived from a class. -/
def derived? (f : Forest) (id : String) : Option (List Derived) :=
  (f.record? id).map (·.derived)

theorem record?_of_get? {f : Forest} {id : String} {e : Entity} {r : RecordDetail}
    (hget : f.get? id = some e) (hr : e.detail.record? = some r) : f.record? id = some r := by
  rw [record?, hget, Option.bind_some, hr]

/-- What is said of a class is part of what is said of it as an entity. -/
theorem record?_congr {f f' : Forest} {id : String}
    (h : (f'.get? id).map (·.detail) = (f.get? id).map (·.detail)) :
    f'.record? id = f.record? id := by
  have hrecord : ∀ f : Forest, f.record? id = ((f.get? id).map (·.detail)).bind (·.record?) := by
    intro f
    rw [Option.bind_map]
    rfl
  rw [hrecord f', h, hrecord f]

theorem record?_modifyRecord (f : Forest) (key : String) (g : RecordDetail → RecordDetail)
    (id : String) :
    (f.modifyRecord key g).record? id =
      if id = key then (f.record? id).map g else f.record? id := by
  unfold record?
  rw [modifyRecord, get?_modify]
  by_cases hid : id = key
  · rw [if_pos hid, if_pos hid]
    cases f.get? id with
    | none => rfl
    | some e => exact Detail.record?_mapRecord e.detail g
  · rw [if_neg hid, if_neg hid]

/-- A change of classes that a view does not show is not seen in the view. -/
theorem map_record?_modifyRecord {β : Type} (f : Forest) (key : String) {view : RecordDetail → β}
    {g : RecordDetail → RecordDetail} (hg : ∀ r, view (g r) = view r) (id : String) :
    ((f.modifyRecord key g).record? id).map view = (f.record? id).map view := by
  rw [record?_modifyRecord]
  by_cases hid : id = key
  · rw [if_pos hid, Option.map_map]
    exact congrArg (Option.map · _) (funext hg)
  · rw [if_neg hid]

/-! ### One link -/

/-- Notes where a base is found. -/
def settle (index : Nat) (base : String) (bs : List Base) : List Base :=
  bs.modify index fun b => { b with type := { b.type with target := some base } }

/-- Notes a derived class, once. -/
def noteDerived (derived : String) (access : Access) (ds : List Derived) : List Derived :=
  if ds.any (·.id == derived) then ds else ds ++ [⟨derived, access⟩]

theorem bases_addDerived (derived : String) (access : Access) (r : RecordDetail) :
    (addDerived derived access r).bases = r.bases := by
  unfold addDerived
  split <;> rfl

theorem derived_addDerived (derived : String) (access : Access) (r : RecordDetail) :
    (addDerived derived access r).derived = noteDerived derived access r.derived := by
  unfold addDerived noteDerived
  split <;> rfl

theorem bases?_linkBase (f : Forest) (l : BaseLink) (id : String) :
    (f.linkBase l).bases? id =
      (f.bases? id).map fun bs => if l.derived = id then settle l.index l.base bs else bs := by
  unfold bases? linkBase
  rw [map_record?_modifyRecord _ _ (bases_addDerived l.derived l.access), record?_modifyRecord]
  by_cases hid : id = l.derived
  · rw [if_pos hid, Option.map_map, Option.map_map]
    simp only [Function.comp_def, hid, if_true]
    rfl
  · simp only [if_neg hid, if_neg (Ne.symm hid), Option.map_id']

theorem derived?_linkBase (f : Forest) (l : BaseLink) (id : String) :
    (f.linkBase l).derived? id =
      (f.derived? id).map fun ds =>
        if l.base = id then noteDerived l.derived l.access ds else ds := by
  have hbase : ((f.modifyRecord l.derived (setBase l.index l.base)).record? id).map (·.derived) =
      (f.record? id).map (·.derived) := map_record?_modifyRecord f l.derived (by intro r; rfl) id
  unfold derived? linkBase
  rw [record?_modifyRecord, ← hbase]
  by_cases hid : id = l.base
  · rw [if_pos hid, Option.map_map, Option.map_map]
    simp only [Function.comp_def, hid, if_true, derived_addDerived]
  · simp only [if_neg hid, if_neg (Ne.symm hid), Option.map_id']

/-! ### All links -/

theorem bases?_foldl_linkBase (links : List BaseLink) (id : String) :
    ∀ f : Forest, (links.foldl linkBase f).bases? id =
      (f.bases? id).map fun bs =>
        links.foldl (fun bs l => if l.derived = id then settle l.index l.base bs else bs) bs := by
  induction links with
  | nil => intro f; simp
  | cons l rest ih =>
      intro f
      rw [List.foldl_cons, ih, bases?_linkBase, Option.map_map]
      rfl

theorem derived?_foldl_linkBase (links : List BaseLink) (id : String) :
    ∀ f : Forest, (links.foldl linkBase f).derived? id =
      (f.derived? id).map fun ds =>
        links.foldl (fun ds l => if l.base = id then noteDerived l.derived l.access ds else ds)
          ds := by
  induction links with
  | nil => intro f; simp
  | cons l rest ih =>
      intro f
      rw [List.foldl_cons, ih, derived?_linkBase, Option.map_map]
      rfl

/-! ### The bases of one class -/

/-- A base with the class that it names for its target. -/
def linked (f : Forest) (e : Entity) (b : Base) : Base :=
  { b with type := { b.type with target := (f.baseTarget? e b).or b.type.target } }

theorem settle_append (base : String) (done : List Base) (b : Base) (rest : List Base) :
    settle done.length base (done ++ b :: rest) =
      done ++ { b with type := { b.type with target := some base } } :: rest := by
  unfold settle
  induction done with
  | nil => rfl
  | cons c done ih => simp [ih]

/-- The links of some bases of a class, counted from `start` on. -/
def linksFrom (f : Forest) (e : Entity) (start : Nat) (bs : List Base) : List BaseLink :=
  (bs.zipIdx start).filterMap fun (b, index) =>
    (f.baseTarget? e b).map fun base => { derived := e.id, index, base, access := b.access }

theorem baseLinksOf_eq (f : Forest) (e : Entity) :
    f.baseLinksOf e = (e.detail.record?.map fun r => f.linksFrom e 0 r.bases).getD [] := by
  unfold baseLinksOf
  cases e.detail.record? <;> rfl

theorem linksFrom_cons (f : Forest) (e : Entity) (start : Nat) (b : Base) (bs : List Base) :
    f.linksFrom e start (b :: bs) =
      ((f.baseTarget? e b).map fun base => ⟨e.id, start, base, b.access⟩).toList ++
        f.linksFrom e (start + 1) bs := by
  unfold linksFrom
  rw [List.zipIdx_cons, List.filterMap_cons]
  dsimp only
  cases f.baseTarget? e b <;> rfl

theorem derived_of_mem_linksFrom {f : Forest} {e : Entity} {start : Nat} {bs : List Base}
    {l : BaseLink} (h : l ∈ f.linksFrom e start bs) : l.derived = e.id := by
  obtain ⟨p, -, hp⟩ := List.mem_filterMap.mp h
  obtain ⟨base, -, rfl⟩ := Option.map_eq_some_iff.mp hp
  rfl

theorem foldl_settle_linksFrom (f : Forest) (e : Entity) (bs : List Base) :
    ∀ done : List Base,
      (f.linksFrom e done.length bs).foldl
          (fun bs l => if l.derived = e.id then settle l.index l.base bs else bs) (done ++ bs) =
        done ++ bs.map (f.linked e) := by
  induction bs with
  | nil => intro done; rfl
  | cons b rest ih =>
      intro done
      -- The bases up to `b` are done once its own link is set.
      have hnext := ih (done ++ [f.linked e b])
      simp only [List.length_append, List.length_singleton, List.append_assoc,
        List.singleton_append] at hnext
      rw [linksFrom_cons, List.foldl_append, List.map_cons, ← hnext]
      congr 1
      cases htarget : f.baseTarget? e b with
      | none =>
          have hsame : f.linked e b = b := by
            simp [linked, htarget]
          rw [hsame]
          rfl
      | some base =>
          have hnew : f.linked e b = { b with type := { b.type with target := some base } } := by
            simp [linked, htarget]
          rw [hnew, ← settle_append]
          simp

/-! ### The classes derived from one class -/

/-- The entry for a class among those derived from `base`: the first of its bases that
names `base` says with which access. -/
def derivation? (f : Forest) (base : String) (e : Entity) : Option Derived :=
  e.detail.record?.bind fun r =>
    (r.bases.find? (f.baseTarget? e · == some base)).map fun b => ⟨e.id, b.access⟩

theorem noteDerived_of_mem {derived : String} {ds : List Derived} (h : derived ∈ ds.map (·.id))
    (access : Access) : noteDerived derived access ds = ds := by
  obtain ⟨x, hx, hid⟩ := List.mem_map.mp h
  exact if_pos (List.any_eq_true.mpr ⟨x, hx, by simpa using hid⟩)

theorem noteDerived_of_notMem {derived : String} {ds : List Derived}
    (h : derived ∉ ds.map (·.id)) (access : Access) :
    noteDerived derived access ds = ds ++ [⟨derived, access⟩] := by
  refine if_neg fun hany => h ?_
  obtain ⟨x, hx, hid⟩ := List.any_eq_true.mp hany
  exact List.mem_map.mpr ⟨x, hx, by simpa using hid⟩

/-- A class that is noted already is not noted again. -/
theorem foldl_noteDerived_of_mem {f : Forest} {e : Entity} {base : String} {ds : List Derived}
    (h : e.id ∈ ds.map (·.id)) (bs : List Base) :
    ∀ start : Nat, (f.linksFrom e start bs).foldl
      (fun ds l => if l.base = base then noteDerived l.derived l.access ds else ds) ds = ds := by
  induction bs with
  | nil => intro start; rfl
  | cons b rest ih =>
      intro start
      rw [linksFrom_cons, List.foldl_append]
      cases f.baseTarget? e b with
      | none => exact ih (start + 1)
      | some target =>
          simp only [Option.map_some, Option.toList_some, List.foldl_cons, List.foldl_nil,
            noteDerived_of_mem h, ite_self]
          exact ih (start + 1)

theorem foldl_noteDerived_linksFrom {f : Forest} {e : Entity} {base : String} {ds : List Derived}
    (h : e.id ∉ ds.map (·.id)) (bs : List Base) :
    ∀ start : Nat, (f.linksFrom e start bs).foldl
        (fun ds l => if l.base = base then noteDerived l.derived l.access ds else ds) ds =
      ds ++ ((bs.find? (f.baseTarget? e · == some base)).map fun b => ⟨e.id, b.access⟩).toList := by
  induction bs with
  | nil => intro start; simp [linksFrom]
  | cons b rest ih =>
      intro start
      rw [linksFrom_cons, List.foldl_append, List.find?_cons]
      cases htarget : f.baseTarget? e b with
      | none => exact ih (start + 1)
      | some target =>
          simp only [Option.map_some, Option.toList_some, List.foldl_cons, List.foldl_nil]
          by_cases hbase : target = base
          · rw [if_pos hbase, noteDerived_of_notMem h, foldl_noteDerived_of_mem (by simp), hbase]
            simp
          · have hother : (some target == some base) = false := by simpa using hbase
            rw [if_neg hbase, hother]
            exact ih (start + 1)

theorem foldl_noteDerived_baseLinksOf {f : Forest} {e : Entity} {base : String}
    {ds : List Derived} (h : e.id ∉ ds.map (·.id)) :
    (f.baseLinksOf e).foldl
        (fun ds l => if l.base = base then noteDerived l.derived l.access ds else ds) ds =
      ds ++ (f.derivation? base e).toList := by
  rw [baseLinksOf_eq, derivation?]
  cases e.detail.record? with
  | none => simp
  | some r => exact foldl_noteDerived_linksFrom h r.bases 0

/-- An entry among the derived classes is that of the entity it comes from. -/
theorem id_of_derivation? {f : Forest} {base : String} {e : Entity} {x : Derived}
    (h : f.derivation? base e = some x) : x.id = e.id := by
  obtain ⟨r, -, hr⟩ := Option.bind_eq_some_iff.mp h
  obtain ⟨b, -, rfl⟩ := Option.map_eq_some_iff.mp hr
  rfl

theorem foldl_noteDerived_entities (f : Forest) (base : String) (es : List Entity) :
    ∀ ds : List Derived, (ds.map (·.id) ++ es.map (·.id)).Nodup →
      es.foldl (fun ds e => (f.baseLinksOf e).foldl
          (fun ds l => if l.base = base then noteDerived l.derived l.access ds else ds) ds) ds =
        ds ++ es.filterMap (f.derivation? base) := by
  induction es with
  | nil => intro ds _; simp
  | cons e rest ih =>
      intro ds hnodup
      have hnew : e.id ∉ ds.map (·.id) := by
        rw [List.map_cons, List.nodup_middle, List.nodup_cons, List.mem_append, not_or] at hnodup
        exact hnodup.1.1
      rw [List.foldl_cons, foldl_noteDerived_baseLinksOf hnew, List.filterMap_cons]
      cases hx : f.derivation? base e with
      | none =>
          rw [Option.toList_none, List.append_nil]
          refine ih ds (hnodup.sublist ?_)
          exact (List.Sublist.refl _).append (List.sublist_cons_self _ _)
      | some x =>
          have hid : x.id = e.id := id_of_derivation? hx
          have hnext : ((ds ++ [x]).map (·.id) ++ rest.map (·.id)).Nodup := by
            simpa [hid] using hnodup
          rw [Option.toList_some, ih (ds ++ [x]) hnext, List.append_assoc]
          rfl

/-! ### Bases and derived classes after all links are set -/

/-- Links of other classes leave the bases of a class alone. -/
theorem foldl_settle_of_ne {id : String} {links : List BaseLink} (h : ∀ l ∈ links, l.derived ≠ id)
    (bs : List Base) :
    links.foldl (fun bs l => if l.derived = id then settle l.index l.base bs else bs) bs = bs := by
  induction links with
  | nil => rfl
  | cons l rest ih =>
      rw [List.foldl_cons, if_neg (h l List.mem_cons_self)]
      exact ih fun l' hl' => h l' (List.mem_cons_of_mem _ hl')

theorem derived_of_mem_baseLinksOf {f : Forest} {e : Entity} {l : BaseLink}
    (h : l ∈ f.baseLinksOf e) : l.derived = e.id := by
  rw [baseLinksOf_eq] at h
  cases hr : e.detail.record? with
  | none => simp [hr] at h
  | some r =>
      rw [hr] at h
      exact derived_of_mem_linksFrom h

/-- **Each base of a class gets the class that it names for its target.** -/
theorem Keyed.bases?_linkBases {f : Forest} (h : f.Keyed) {id : String} {e : Entity}
    (hget : f.get? id = some e) :
    f.linkBases.bases? id = (f.bases? id).map (·.map (f.linked e)) := by
  have hid : e.id = id := h.keyed id e hget
  have hmem : e ∈ f.entities.values := h.mem_values_iff.mpr (by rw [hid]; exact hget)
  have hnodup : (f.entities.values.map (·.id)).Nodup := by
    rw [h.map_id_values]
    exact h.distinct
  obtain ⟨before, after, hvalues⟩ := List.mem_iff_append.mp hmem
  rw [hvalues, List.map_append, List.map_cons, List.nodup_middle, List.nodup_cons, List.mem_append,
    not_or] at hnodup
  obtain ⟨⟨hbefore, hafter⟩, -⟩ := hnodup
  have hother : ∀ {es : List Entity}, e.id ∉ es.map (·.id) →
      ∀ l ∈ es.flatMap f.baseLinksOf, l.derived ≠ id := by
    intro es hes l hl hderived
    obtain ⟨e', he', hl'⟩ := List.mem_flatMap.mp hl
    rw [derived_of_mem_baseLinksOf hl', ← hid] at hderived
    exact hes (List.mem_map.mpr ⟨e', he', hderived⟩)
  rw [linkBases, bases?_foldl_linkBase, baseLinks, hvalues, List.flatMap_append, List.flatMap_cons]
  simp only [List.foldl_append, foldl_settle_of_ne (hother hbefore),
    foldl_settle_of_ne (hother hafter)]
  unfold bases? record?
  rw [hget, Option.bind_some, baseLinksOf_eq]
  cases e.detail.record? with
  | none => rfl
  | some r =>
      have hlinks := foldl_settle_linksFrom f e r.bases []
      rw [hid] at hlinks
      exact congrArg some hlinks

/-- **A class lists every class that names it as a base**, in order of creation. -/
theorem Keyed.derived?_linkBases {f : Forest} (h : f.Keyed) {id : String}
    (hnone : f.derived? id = some []) :
    f.linkBases.derived? id = some (f.entities.values.filterMap (f.derivation? id)) := by
  have hnodup : (([] : List Derived).map (·.id) ++ f.entities.values.map (·.id)).Nodup := by
    rw [h.map_id_values]
    exact h.distinct
  rw [linkBases, derived?_foldl_linkBase, hnone, baseLinks, Option.map_some, List.foldl_flatMap,
    foldl_noteDerived_entities f id f.entities.values [] hnodup, List.nil_append]

/-! ### Both directions -/

/-- Bases and derived classes name each other. -/
structure BasesPaired (f : Forest) : Prop where
  /-- A class lists another exactly if that one has a base that leads to it. -/
  derived_iff : ∀ base r, f.record? base = some r → ∀ derived,
    (∃ x ∈ r.derived, x.id = derived) ↔
      derived ≠ base ∧ ∃ r', f.record? derived = some r' ∧ ∃ b ∈ r'.bases, b.type.target = some base
  /-- It is listed once. -/
  once : ∀ base r, f.record? base = some r → (r.derived.map (·.id)).Nodup
  /-- It is listed with the access of the first base that leads there. -/
  access : ∀ base r, f.record? base = some r → ∀ x ∈ r.derived,
    ∃ r', f.record? x.id = some r' ∧
      (r'.bases.find? (·.type.target == some base)).map (·.access) = some x.access

/-- No class knows yet where its bases are, and which classes are derived from it. -/
structure Unlinked (f : Forest) : Prop extends f.Keyed where
  derived : ∀ id r, f.record? id = some r → r.derived = []
  bases : ∀ id r, f.record? id = some r → ∀ b ∈ r.bases, b.type.target = none

theorem linked_of_target_none {f : Forest} {e : Entity} {b : Base} (h : b.type.target = none) :
    (f.linked e b).type.target = f.baseTarget? e b := by
  simp [linked, h]

/-- No class is its own base. -/
theorem ne_of_baseTarget? {f : Forest} {e : Entity} {b : Base} {base : String}
    (h : f.baseTarget? e b = some base) : base ≠ e.id := by
  have hkept := Option.filter_eq_some_iff.mp h
  simp only [Bool.and_eq_true, bne_iff_ne] at hkept
  exact hkept.2.1

section Linked

variable {f : Forest} (h : f.Unlinked) {id base : String}

include h

/-- What is said of a class after all links are set. -/
theorem Unlinked.of_record?_linkBases {r' : RecordDetail} (hr' : f.linkBases.record? id = some r') :
    ∃ e r, f.get? id = some e ∧ e.detail.record? = some r ∧
      r'.bases = r.bases.map (f.linked e) ∧
      r'.derived = f.entities.values.filterMap (f.derivation? id) := by
  have hbases : f.linkBases.bases? id = some r'.bases := by rw [bases?, hr', Option.map_some]
  have hderived : f.linkBases.derived? id = some r'.derived := by
    rw [derived?, hr', Option.map_some]
  obtain ⟨r, hr⟩ : ∃ r, f.record? id = some r := by
    have hsome : (f.bases? id).isSome := by
      rw [linkBases, bases?_foldl_linkBase] at hbases
      rw [← Option.isSome_map, hbases, Option.isSome_some]
    rw [bases?, Option.isSome_map] at hsome
    exact Option.isSome_iff_exists.mp hsome
  obtain ⟨e, hget, hrecord⟩ := Option.bind_eq_some_iff.mp hr
  refine ⟨e, r, hget, hrecord, ?_, ?_⟩
  · rw [h.bases?_linkBases hget, bases?, hr] at hbases
    exact (Option.some.inj hbases).symm
  · have hnone : f.derived? id = some [] := by
      rw [derived?, hr, Option.map_some, h.derived id r hr]
    rw [h.derived?_linkBases hnone] at hderived
    exact (Option.some.inj hderived).symm

theorem Unlinked.exists_record?_linkBases {e : Entity} {r : RecordDetail}
    (hget : f.get? id = some e) (hr : e.detail.record? = some r) :
    ∃ r', f.linkBases.record? id = some r' ∧ r'.bases = r.bases.map (f.linked e) := by
  have hbases : f.linkBases.bases? id = some (r.bases.map (f.linked e)) := by
    rw [h.bases?_linkBases hget, bases?, record?_of_get? hget hr]
    rfl
  exact Option.map_eq_some_iff.mp hbases

/-- The first base that leads to a class is the first that names it. -/
theorem Unlinked.find?_linked {e : Entity} {r : RecordDetail} (hget : f.get? id = some e)
    (hr : e.detail.record? = some r) :
    (r.bases.map (f.linked e)).find? (·.type.target == some base) =
      (r.bases.find? (f.baseTarget? e · == some base)).map (f.linked e) := by
  have hrecord : f.record? id = some r := record?_of_get? hget hr
  have hsame : ∀ b ∈ r.bases,
      ((f.linked e b).type.target == some base) = (f.baseTarget? e b == some base) :=
    fun b hb => by rw [linked_of_target_none (h.bases id r hrecord b hb)]
  rw [List.find?_map]
  exact congrArg _ (List.find?_congr hsame)

/-- **A class lists another with the access of the first base that leads there**, and
lists nothing else. -/
theorem Unlinked.mem_derived_iff {r : RecordDetail} (hr : f.linkBases.record? base = some r)
    {x : Derived} :
    x ∈ r.derived ↔ ∃ r', f.linkBases.record? x.id = some r' ∧
      (r'.bases.find? (·.type.target == some base)).map (·.access) = some x.access := by
  obtain ⟨-, -, -, -, -, hderived⟩ := h.of_record?_linkBases hr
  rw [hderived, List.mem_filterMap]
  constructor
  · intro hx
    obtain ⟨e, he, hx⟩ := hx
    have hget : f.get? x.id = some e := by
      rw [id_of_derivation? hx]
      exact h.mem_values_iff.mp he
    obtain ⟨r₀, hr₀, hb⟩ := Option.bind_eq_some_iff.mp hx
    obtain ⟨r', hr', hbases⟩ := h.exists_record?_linkBases hget hr₀
    refine ⟨r', hr', ?_⟩
    rw [hbases, h.find?_linked hget hr₀, Option.map_map]
    simpa [Function.comp_def, linked] using congrArg (Option.map (·.access)) hb
  · intro hx
    obtain ⟨r', hr', haccess⟩ := hx
    obtain ⟨e, r₀, hget, hr₀, hbases, -⟩ := h.of_record?_linkBases hr'
    rw [hbases, h.find?_linked hget hr₀, Option.map_map] at haccess
    obtain ⟨b, hb, haccess⟩ := Option.map_eq_some_iff.mp haccess
    have hid : e.id = x.id := h.keyed x.id e hget
    refine ⟨e, h.mem_values_iff.mpr (by rw [hid]; exact hget), ?_⟩
    rw [derivation?, hr₀, Option.bind_some, hb, Option.map_some, hid]
    exact congrArg (fun access => some (Derived.mk x.id access)) haccess

theorem Unlinked.target_ne {r' : RecordDetail} (hr' : f.linkBases.record? id = some r') {b : Base}
    (hb : b ∈ r'.bases) (htarget : b.type.target = some base) : base ≠ id := by
  obtain ⟨e, r, hget, hr, hbases, -⟩ := h.of_record?_linkBases hr'
  rw [hbases] at hb
  obtain ⟨b₀, hb₀, rfl⟩ := List.mem_map.mp hb
  rw [linked_of_target_none (h.bases id r (record?_of_get? hget hr) b₀ hb₀)] at htarget
  rw [← h.keyed id e hget]
  exact ne_of_baseTarget? htarget

/-- **Bases and derived classes name each other after all links are set.** -/
theorem Unlinked.basesPaired : f.linkBases.BasesPaired where
  derived_iff := by
    intro base r hr derived
    constructor
    · intro hx
      obtain ⟨x, hx, rfl⟩ := hx
      obtain ⟨r', hr', haccess⟩ := (h.mem_derived_iff hr).mp hx
      obtain ⟨b, hfind, -⟩ := Option.map_eq_some_iff.mp haccess
      have hb : b ∈ r'.bases := List.mem_of_find?_eq_some hfind
      have htarget : b.type.target = some base := by simpa using List.find?_some hfind
      exact ⟨(h.target_ne hr' hb htarget).symm, r', hr', b, hb, htarget⟩
    · intro hbase
      obtain ⟨-, r', hr', b, hb, htarget⟩ := hbase
      have hsome : (r'.bases.find? (·.type.target == some base)).isSome := by
        rw [List.find?_isSome]
        exact ⟨b, hb, by simpa using htarget⟩
      obtain ⟨first, hfirst⟩ := Option.isSome_iff_exists.mp hsome
      refine ⟨⟨derived, first.access⟩, (h.mem_derived_iff hr).mpr ⟨r', hr', ?_⟩, rfl⟩
      rw [hfirst]
      rfl
  once := by
    intro base r hr
    obtain ⟨-, -, -, -, -, hderived⟩ := h.of_record?_linkBases hr
    have hnodup : (f.entities.values.map (·.id)).Nodup := by
      rw [h.map_id_values]
      exact h.distinct
    rw [hderived, List.Nodup, List.pairwise_map, List.pairwise_filterMap]
    rw [List.Nodup, List.pairwise_map] at hnodup
    refine hnodup.imp fun hne x hx x' hx' => ?_
    rwa [id_of_derivation? hx, id_of_derivation? hx']
  access := fun base r hr x hx => (h.mem_derived_iff hr).mp hx

end Linked

end Forest

end DocForest
