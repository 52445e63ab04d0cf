/-
Merging the same declarations once more changes nothing.

A single declaration that comes again may well change an entity: it brings its description
back, over one that came later, and it overwrites a parameter type that has no name.  Only
when all declarations come again, in their order, is everything as it was.

Most of what is merged forms a band: merging is associative, and a thing merged with itself
is itself.  Then a list of declarations acts like a single one, and that one acts twice as
it acts once (`of_band`).  Two places are no band, because what is there decides what is
taken from a declaration: a list of parameters takes only from lists of its own length, and
a detail only from details of its own kind.  There it is enough to leave out the
declarations from which nothing is taken (`optional`).
-/
import DocForest.Identity.Merge

namespace DocForest

/-- Taking in the same things once more changes nothing. -/
def Settles {σ α : Type} (take : σ → α → σ) : Prop :=
  ∀ (s : σ) (xs : List α), xs.foldl take (xs.foldl take s) = xs.foldl take s

namespace Settles

variable {σ τ α β : Type}

/-- In a band a list of things acts like one thing. -/
theorem of_band {take : α → α → α} (assoc : ∀ a b c, take (take a b) c = take a (take b c))
    (self : ∀ a, take a a = a) : Settles take := by
  have : Std.Associative take := ⟨assoc⟩
  intro s xs
  cases xs with
  | nil => rfl
  | cons x rest =>
      have hone : ∀ t, (x :: rest).foldl take t = take t (rest.foldl take x) :=
        fun t => List.foldl_assoc
      rw [hone s, hone, assoc, self]

/-- Things from which nothing is taken may be left out. -/
theorem optional {take : σ → α → σ} (h : Settles take) (part : β → Option α) :
    Settles fun s x => (part x).elim s (take s) := by
  have hsome : ∀ (s : σ) (xs : List β),
      xs.foldl (fun s x => (part x).elim s (take s)) s = (xs.filterMap part).foldl take s := by
    intro s xs
    rw [List.foldl_filterMap]
    congr 1
    funext s x
    cases part x <;> rfl
  intro s xs
  rw [hsome, hsome]
  exact h s (xs.filterMap part)

theorem comap {take : σ → α → σ} (h : Settles take) (part : β → α) :
    Settles fun s x => take s (part x) :=
  h.optional fun x => some (part x)

/-- What is seen of a state settles if it changes on its own. -/
theorem view {take : σ → α → σ} {take' : τ → α → τ} (h : Settles take') {v : σ → τ}
    (hv : ∀ s x, take' (v s) x = v (take s x)) (s : σ) (xs : List α) :
    v (xs.foldl take (xs.foldl take s)) = v (xs.foldl take s) := by
  rw [← List.foldl_hom v hv, ← List.foldl_hom v hv]
  exact h (v s) xs

/-- A state that only wraps another one settles if that one does. -/
theorem wrap {take : σ → α → σ} {take' : τ → α → τ} (h : Settles take') {c : τ → σ}
    (hc : ∀ t x, take (c t) x = c (take' t x)) (t : τ) (xs : List α) :
    xs.foldl take (xs.foldl take (c t)) = xs.foldl take (c t) := by
  rw [List.foldl_hom c hc, List.foldl_hom c hc, h t xs]

end Settles

/-! ### Single attributes -/

@[simp] theorem fillText_assoc (s t u : String) :
    fillText (fillText s t) u = fillText s (fillText t u) := by
  unfold fillText
  split <;> rfl

@[simp] theorem fillText_self (s : String) : fillText s s = s := by
  unfold fillText
  split <;> rfl

@[simp] theorem fillList_assoc {α : Type} (xs ys zs : List α) :
    fillList (fillList xs ys) zs = fillList xs (fillList ys zs) := by
  unfold fillList
  split <;> rfl

@[simp] theorem fillList_self {α : Type} (xs : List α) : fillList xs xs = xs := by
  unfold fillList
  split <;> rfl

theorem mem_union {x : String} {xs ys : List String} : x ∈ union xs ys ↔ x ∈ xs ∨ x ∈ ys := by
  unfold union
  induction ys generalizing xs with
  | nil => simp
  | cons y rest ih =>
      rw [List.foldl_cons, ih]
      split
      · rename_i hy
        constructor
        · intro hx
          exact hx.imp_right (List.mem_cons_of_mem y)
        · intro hx
          rcases hx with hx | hx
          · exact Or.inl hx
          · rcases List.mem_cons.mp hx with rfl | hx
            · exact Or.inl hy
            · exact Or.inr hx
      · simp [or_assoc]

/-- Nothing is added to a list that holds it all. -/
theorem union_eq_left {xs ys : List String} (h : ∀ y ∈ ys, y ∈ xs) : union xs ys = xs := by
  unfold union
  induction ys with
  | nil => rfl
  | cons y rest ih =>
      rw [List.foldl_cons, if_pos (h y (by simp))]
      exact ih fun z hz => h z (by simp [hz])

@[simp] theorem union_self (xs : List String) : union xs xs = xs :=
  union_eq_left fun _ h => h

theorem union_append_singleton (xs ys : List String) (y : String) :
    union xs (ys ++ [y]) = if y ∈ union xs ys then union xs ys else union xs ys ++ [y] := by
  rw [union, List.foldl_append]
  rfl

@[simp] theorem union_assoc (xs ys zs : List String) :
    union (union xs ys) zs = union xs (union ys zs) := by
  induction zs generalizing ys with
  | nil => rfl
  | cons z rest ih =>
      have hstep : ∀ ws, union ws (z :: rest) = union (if z ∈ ws then ws else ws ++ [z]) rest :=
        fun ws => rfl
      rw [hstep, hstep, ← ih]
      congr 1
      by_cases hz : z ∈ ys
      · rw [if_pos hz, if_pos (mem_union.mpr (Or.inr hz))]
      · rw [if_neg hz, union_append_singleton]

/-! ### Details without parameters -/

namespace RecordDetail

theorem merge_assoc (a b c : RecordDetail) : (a.merge b).merge c = a.merge (b.merge c) := by
  simp [merge, Bool.or_assoc]

theorem merge_self (a : RecordDetail) : a.merge a = a := by
  simp [merge]

end RecordDetail

namespace EnumDetail

theorem merge_assoc (a b c : EnumDetail) : (a.merge b).merge c = a.merge (b.merge c) := by
  simp [merge, Bool.or_assoc, Option.or_assoc]

theorem merge_self (a : EnumDetail) : a.merge a = a := by
  simp [merge]

end EnumDetail

namespace VarDetail

theorem merge_assoc (a b c : VarDetail) : (a.merge b).merge c = a.merge (b.merge c) := by
  simp [merge, Bool.or_assoc, Option.or_assoc]

theorem merge_self (a : VarDetail) : a.merge a = a := by
  simp [merge]

end VarDetail

namespace AliasDetail

theorem merge_assoc (a b c : AliasDetail) : (a.merge b).merge c = a.merge (b.merge c) := by
  simp [merge, Bool.or_assoc, Option.or_assoc]

theorem merge_self (a : AliasDetail) : a.merge a = a := by
  simp [merge]

end AliasDetail

/-! ### Parameters -/

namespace Argument

theorem merge_assoc (a b c : Argument) : (a.merge b).merge c = a.merge (b.merge c) := by
  simp only [merge, fillText_assoc, mk.injEq, true_and, and_true]
  by_cases ha : a.type.isEmpty = true
  · simp only [if_pos ha]
  · simp only [if_neg ha]

theorem merge_self (a : Argument) : a.merge a = a := by
  simp [merge]

end Argument

theorem zipWith_merge_assoc (xs ys zs : List Argument) :
    (xs.zipWith Argument.merge ys).zipWith Argument.merge zs =
      xs.zipWith Argument.merge (ys.zipWith Argument.merge zs) := by
  induction xs generalizing ys zs with
  | nil => simp
  | cons x rest ih =>
      cases ys with
      | nil => simp
      | cons y ys =>
          cases zs with
          | nil => simp
          | cons z zs => simp only [List.zipWith_cons_cons, Argument.merge_assoc, ih]

theorem zipWith_merge_self (xs : List Argument) : xs.zipWith Argument.merge xs = xs := by
  induction xs with
  | nil => rfl
  | cons x rest ih => rw [List.zipWith_cons_cons, Argument.merge_self, ih]

theorem mergeArguments_self (xs : List Argument) : mergeArguments xs xs = xs := by
  rw [mergeArguments, if_pos rfl, zipWith_merge_self]

theorem mergeArguments_nil (xs : List Argument) : mergeArguments xs [] = xs := by
  cases xs <;> rfl

/-- Parameters that are there keep their number, and take only from lists as long. -/
theorem mergeArguments_eq {xs : List Argument} (hxs : xs ≠ []) (ys : List Argument) :
    mergeArguments xs ys =
      (if xs.length = ys.length then some ys else none).elim xs (xs.zipWith Argument.merge) := by
  unfold mergeArguments
  split
  · rfl
  · cases xs with
    | nil => exact absurd rfl hxs
    | cons x rest => rfl

/-- The fold over parameters that are there is one over the lists as long as they are. -/
theorem foldl_mergeArguments {n : Nat} (yss : List (List Argument)) :
    ∀ {xs : List Argument}, xs.length = n + 1 →
      yss.foldl mergeArguments xs = yss.foldl (fun xs ys =>
        (if n + 1 = ys.length then some ys else none).elim xs (xs.zipWith Argument.merge)) xs ∧
      (yss.foldl mergeArguments xs).length = n + 1 := by
  induction yss with
  | nil => intro xs hxs; exact ⟨rfl, hxs⟩
  | cons ys rest ih =>
      intro xs hxs
      have hstep := mergeArguments_eq (List.ne_nil_of_length_eq_add_one hxs) ys
      rw [hxs] at hstep
      have hlength : (mergeArguments xs ys).length = n + 1 := by
        rw [hstep]
        by_cases hys : n + 1 = ys.length
        · simp [hxs, ← hys]
        · simp [hys, hxs]
      obtain ⟨hfold, hlen⟩ := ih hlength
      refine ⟨?_, hlen⟩
      rw [List.foldl_cons, hfold, hstep, List.foldl_cons]

theorem settled_arguments {xs : List Argument} (hxs : xs ≠ []) (yss : List (List Argument)) :
    yss.foldl mergeArguments (yss.foldl mergeArguments xs) = yss.foldl mergeArguments xs := by
  obtain ⟨n, hn⟩ := Nat.exists_eq_add_one_of_ne_zero (mt List.length_eq_zero_iff.mp hxs)
  obtain ⟨hfold, hlen⟩ := foldl_mergeArguments yss hn
  rw [(foldl_mergeArguments yss hlen).1, hfold]
  exact (Settles.of_band zipWith_merge_assoc zipWith_merge_self).optional _ xs yss

theorem mergeArguments_settles : Settles mergeArguments := by
  intro xs yss
  by_cases hxs : xs = []
  · subst hxs
    -- The first list that is not empty becomes the state, and acts on itself like nothing.
    induction yss with
    | nil => rfl
    | cons ys rest ih =>
        by_cases hys : ys = []
        · subst hys
          simp only [List.foldl_cons, mergeArguments_nil]
          exact ih
        · have hfirst : mergeArguments [] ys = ys := by
            unfold mergeArguments
            rw [if_neg (by simpa [eq_comm] using hys)]
            rfl
          have hagain : (ys :: rest).foldl mergeArguments [] =
              (ys :: rest).foldl mergeArguments ys := by
            rw [List.foldl_cons, List.foldl_cons, hfirst, mergeArguments_self]
          rw [hagain]
          exact settled_arguments hys (ys :: rest)
  · exact settled_arguments hxs yss

/-! ### Functions -/

namespace FunctionDetail

/-- A function without its parameters. -/
def frame (f : FunctionDetail) : FunctionDetail :=
  { f with arguments := [] }

/-- Merges all but the parameters. -/
def mergeFrame (a b : FunctionDetail) : FunctionDetail :=
  { a.merge b with arguments := a.arguments }

theorem eq_of_frame_eq {a b : FunctionDetail} (hframe : a.frame = b.frame)
    (harguments : a.arguments = b.arguments) : a = b := by
  have hwhole : ∀ f : FunctionDetail, f = { f.frame with arguments := f.arguments } := fun _ => rfl
  rw [hwhole a, hwhole b, hframe, harguments]

theorem mergeFrame_settles : Settles mergeFrame :=
  Settles.of_band (by simp [mergeFrame, merge, Bool.or_assoc, Option.or_assoc])
    (by simp [mergeFrame, merge])

theorem merge_settles : Settles merge := by
  intro f gs
  refine eq_of_frame_eq (mergeFrame_settles.view (fun _ _ => rfl) f gs) ?_
  exact (mergeArguments_settles.comap arguments).view (fun _ _ => rfl) f gs

theorem merge_self (f : FunctionDetail) : f.merge f = f := by
  simp [merge, mergeArguments_self]

end FunctionDetail

/-! ### All kinds of details -/

namespace Detail

theorem merge_of_kind_ne {a b : Detail} (h : a.kind ≠ b.kind) : a.merge b = a := by
  cases a <;> cases b <;> try rfl
  all_goals simp_all [kind, merge]

theorem merge_self (a : Detail) : a.merge a = a := by
  cases a <;> simp [merge, RecordDetail.merge_self, EnumDetail.merge_self,
    FunctionDetail.merge_self, VarDetail.merge_self, AliasDetail.merge_self]

/-- What is said of a class that has this key. -/
def recordOf? (key : ClassKey) : Detail → Option RecordDetail
  | record key' b => if key = key' then some b else none
  | _ => none

/-- What is said of an enumeration. -/
def enumeration? : Detail → Option EnumDetail
  | enumeration b => some b
  | _ => none

/-- What is said of a value of an enumeration. -/
def enumerator? : Detail → Option (Option Int)
  | enumerator b => some b
  | _ => none

/-- What is said of a variable. -/
def var? : Detail → Option VarDetail
  | var b => some b
  | _ => none

/-- What is said of another name for a type. -/
def typeAlias? : Detail → Option AliasDetail
  | typeAlias b => some b
  | _ => none

/-- What is said of a macro. -/
def macroDef? : Detail → Option (Option (List String))
  | macroDef b => some b
  | _ => none

/-- **A detail settles**: of what comes, only things of its own kind count. -/
theorem merge_settles : Settles merge := by
  intro d ds
  cases d with
  | nameSpace =>
      have hstays : ds.foldl merge nameSpace = nameSpace := by
        induction ds with
        | nil => rfl
        | cons x rest ih => exact ih
      rw [hstays, hstays]
  | record key a =>
      refine ((Settles.of_band RecordDetail.merge_assoc RecordDetail.merge_self).optional
        (recordOf? key)).wrap (c := record key) ?_ a ds
      intro a x
      cases x with
      | record key' b =>
          dsimp only [merge, recordOf?]
          split <;> rfl
      | _ => rfl
  | enumeration a =>
      refine ((Settles.of_band EnumDetail.merge_assoc EnumDetail.merge_self).optional
        enumeration?).wrap (c := enumeration) ?_ a ds
      intro a x
      cases x <;> rfl
  | enumerator a =>
      refine ((Settles.of_band (fun _ _ _ => Option.or_assoc) (fun _ => Option.or_self)).optional
        enumerator?).wrap (c := enumerator) ?_ a ds
      intro a x
      cases x <;> rfl
  | function a =>
      refine (FunctionDetail.merge_settles.optional function?).wrap (c := function) ?_ a ds
      intro a x
      cases x <;> rfl
  | var a =>
      refine ((Settles.of_band VarDetail.merge_assoc VarDetail.merge_self).optional
        var?).wrap (c := var) ?_ a ds
      intro a x
      cases x <;> rfl
  | typeAlias a =>
      refine ((Settles.of_band AliasDetail.merge_assoc AliasDetail.merge_self).optional
        typeAlias?).wrap (c := typeAlias) ?_ a ds
      intro a x
      cases x <;> rfl
  | macroDef a =>
      refine ((Settles.of_band (fun _ _ _ => Option.or_assoc) (fun _ => Option.or_self)).optional
        macroDef?).wrap (c := macroDef) ?_ a ds
      intro a x
      cases x <;> rfl

end Detail

/-! ### Entities -/

namespace Entity

/-- The detail alone, with whether it is a guess. -/
def guess (e : Entity) : Bool × Detail :=
  (e.ghost, e.detail)

/-- An entity without its detail. -/
def frame (e : Entity) : Entity :=
  { e with ghost := false, detail := .nameSpace }

/-- Merges all but the detail. -/
def mergeFrame (e other : Entity) : Entity :=
  { e.merge other with ghost := e.ghost, detail := e.detail }

theorem eq_of_frame_eq {e e' : Entity} (hframe : e.frame = e'.frame)
    (hguess : e.guess = e'.guess) : e = e' := by
  have hwhole : ∀ e : Entity, e = { e.frame with ghost := e.guess.1, detail := e.guess.2 } :=
    fun _ => rfl
  rw [hwhole e, hwhole e', hframe, hguess]

theorem mergeFrame_settles : Settles mergeFrame := by
  refine Settles.of_band (fun e₁ e₂ e₃ => ?_) (fun e => ?_)
  · simp only [mergeFrame, merge, fillText_assoc, fillList_assoc, union_assoc, Bool.or_assoc,
      Option.or_assoc]
    by_cases h : e₃.brief.isEmpty = true
    · simp only [if_pos h]
    · simp only [if_neg h]
  · simp [mergeFrame, merge]

/-- Merges details, where a guess gives way. -/
def mergeGuess (guess : Bool × Detail) (other : Entity) : Bool × Detail :=
  (false, if guess.2.kind = other.kind then guess.2.merge other.detail
    else if guess.1 then other.detail else guess.2)

/-- Once a declaration was seen, the detail is no guess any more. -/
theorem mergeGuess_known (d : Detail) (other : Entity) :
    mergeGuess (false, d) other = (false, d.merge other.detail) := by
  unfold mergeGuess
  by_cases h : d.kind = other.kind
  · rw [if_pos h]
  · rw [if_neg h, if_neg (by simp), Detail.merge_of_kind_ne h]

/-- What the first declaration leaves behind takes nothing from it any more. -/
theorem mergeGuess_twice (guess : Bool × Detail) (other : Entity) :
    mergeGuess (mergeGuess guess other) other = mergeGuess guess other := by
  have hfirst : mergeGuess guess other = (false, (mergeGuess guess other).2) := rfl
  rw [hfirst, mergeGuess_known]
  refine congrArg (Prod.mk false) ?_
  unfold mergeGuess
  dsimp only
  split
  · exact Detail.merge_settles guess.2 [other.detail]
  · rename_i hkind
    split
    · exact Detail.merge_self other.detail
    · exact Detail.merge_of_kind_ne hkind

theorem mergeGuess_settles : Settles mergeGuess := by
  intro guess others
  cases others with
  | nil => rfl
  | cons other rest =>
      have hfirst : mergeGuess guess other = (false, (mergeGuess guess other).2) := rfl
      have hagain : (other :: rest).foldl mergeGuess guess =
          (other :: rest).foldl mergeGuess (mergeGuess guess other) := by
        rw [List.foldl_cons, List.foldl_cons, mergeGuess_twice]
      rw [hagain, hfirst]
      exact (Detail.merge_settles.comap Entity.detail).wrap (c := Prod.mk false)
        mergeGuess_known _ (other :: rest)

/-- **Merging the same declarations once more, in their order, changes nothing.** -/
theorem merge_settles : Settles merge := by
  intro e others
  refine eq_of_frame_eq (mergeFrame_settles.view (fun _ _ => rfl) e others) ?_
  exact mergeGuess_settles.view (v := guess) (fun _ _ => rfl) e others

/-- A declaration takes nothing from itself. -/
theorem merge_self {e : Entity} (h : e.ghost = false) : e.merge e = e := by
  have hframe : (e.merge e).frame = e.frame := by
    simp [frame, merge]
  refine eq_of_frame_eq hframe ?_
  simp [guess, merge, mergedDetail, Detail.merge_self, h]

end Entity

end DocForest
