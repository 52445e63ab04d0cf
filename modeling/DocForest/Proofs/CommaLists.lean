/-
A comma list gives back the items it was joined from.

Cutting at commas goes by one count for all kinds of brackets, which is carried from each item
over to the next and may go below zero.  What keeps it right is that an item leaves the count as
it found it (`IsItem`): behind it the count is zero, so that the comma there divides, and a comma
inside of it is met with the count that it has in the item alone.

Each bracket changes the count by one, so that it is never further from zero than there are
brackets.  A signed number of 32 bits holds it as long as these are fewer than `2 ^ 31`.
-/
import DocForest.Proofs.References
import Mathlib.Algebra.Group.Nat.Defs
import Mathlib.Data.List.Infix

namespace DocForest.Text

/-! ### Items -/

/-- How many more brackets a text opens than it closes. -/
def bracketSum : List Char → Int
  | [] => 0
  | c :: cs => bracketStep c + bracketSum cs

@[simp] theorem bracketSum_nil : bracketSum [] = 0 := rfl

@[simp] theorem bracketSum_cons (c : Char) (cs : List Char) :
    bracketSum (c :: cs) = bracketStep c + bracketSum cs := rfl

/-- The count of open brackets is that of all kinds together. -/
theorem bracketSum_eq_count (cs : List Char) :
    bracketSum cs = (cs.count '<' - cs.count '>') + (cs.count '(' - cs.count ')') +
      (cs.count '[' - cs.count ']') := by
  induction cs with
  | nil => rfl
  | cons c cs ih =>
      rw [bracketSum_cons, ih]
      simp only [List.count_cons, bracketStep, Bool.or_eq_true, beq_iff_eq]
      grind

/-- How many brackets a text opens, of whatever kind. -/
def opened (cs : List Char) : Nat :=
  cs.count '<' + cs.count '(' + cs.count '['

/-- How many brackets a text closes, of whatever kind. -/
def closed (cs : List Char) : Nat :=
  cs.count '>' + cs.count ')' + cs.count ']'

theorem bracketSum_eq (cs : List Char) : bracketSum cs = opened cs - closed cs := by
  rw [bracketSum_eq_count, opened, closed]
  omega

theorem natAbs_bracketSum_le {before cs : List Char} (h : before <+: cs) :
    (bracketSum before).natAbs ≤ opened cs + closed cs := by
  have hle := fun c => h.sublist.count_le c
  have hopened : opened before ≤ opened cs :=
    Nat.add_le_add (Nat.add_le_add (hle '<') (hle '(')) (hle '[')
  have hclosed : closed before ≤ closed cs :=
    Nat.add_le_add (Nat.add_le_add (hle '>') (hle ')')) (hle ']')
  rw [bracketSum_eq]
  omega

/-- An item of a comma list: its brackets even out, and it has no comma outside of them. -/
structure IsItem (cs : List Char) : Prop where
  even : bracketSum cs = 0
  inside : ∀ before after, cs = before ++ ',' :: after → bracketSum before ≠ 0

/-! ### Cutting -/

theorem foldr_consFirst (cs piece : List Char) (rest : List (List Char)) :
    cs.foldr consFirst (piece :: rest) = (cs ++ piece) :: rest := by
  induction cs with
  | nil => rfl
  | cons c cs ih => rw [List.foldr_cons, ih, consFirst, List.cons_append]

/-- A text without a dividing comma lengthens the stretch that it starts. -/
theorem stretchesFrom_append {cs : List Char} (rest : List Char) :
    ∀ {depth : Int}, (∀ before after, cs = before ++ ',' :: after → depth + bracketSum before ≠ 0) →
      stretchesFrom depth (cs ++ rest) =
        cs.foldr consFirst (stretchesFrom (depth + bracketSum cs) rest) := by
  induction cs with
  | nil => intro depth _; simp
  | cons c cs ih =>
      intro depth hinside
      have hnot : ¬ (c == ',' && depth == 0) = true := by
        rintro hcut
        simp only [Bool.and_eq_true, beq_iff_eq] at hcut
        obtain ⟨rfl, rfl⟩ := hcut
        exact hinside [] cs rfl (by simp)
      rw [List.cons_append, stretchesFrom, if_neg hnot, ih, bracketSum_cons, List.foldr_cons,
        Int.add_assoc]
      intro before after heq
      have hne := hinside (c :: before) after (by rw [heq, List.cons_append])
      rwa [bracketSum_cons, ← Int.add_assoc] at hne

theorem IsItem.stretchesFrom_append {cs : List Char} (h : IsItem cs) (rest : List Char) :
    stretchesFrom 0 (cs ++ rest) = cs.foldr consFirst (stretchesFrom 0 rest) := by
  rw [Text.stretchesFrom_append rest (by simpa using h.inside), h.even, Int.add_zero]

/-- **A joined list is cut into its items.** -/
theorem stretchesFrom_join {items : List (List Char)} (hne : items ≠ [])
    (h : ∀ item ∈ items, IsItem item) : stretchesFrom 0 (join [','] items) = items := by
  induction items with
  | nil => exact absurd rfl hne
  | cons item items ih =>
      obtain ⟨hitem, hitems⟩ := List.forall_mem_cons.mp h
      cases items with
      | nil =>
          have hcut := hitem.stretchesFrom_append []
          rwa [List.append_nil, stretchesFrom, foldr_consFirst, List.append_nil] at hcut
      | cons next items =>
          have hcut : stretchesFrom 0 (',' :: join [','] (next :: items)) =
              [] :: next :: items := by
            rw [stretchesFrom, if_pos (by decide), ih (by simp) hitems]
          rw [join_cons_cons, List.append_assoc, List.singleton_append,
            hitem.stretchesFrom_append, hcut, foldr_consFirst, List.append_nil]

theorem commaItems_join {items : List (List Char)} (h : ∀ item ∈ items, IsItem item) :
    commaItems (join [','] items) = (items.map trim).filter (!·.isEmpty) := by
  by_cases hne : items = []
  · subst hne
    rfl
  · rw [commaItems, stretchesFrom_join hne h]

theorem IsItem.cons_space {cs : List Char} (h : IsItem cs) : IsItem (' ' :: cs) := by
  have hstep : bracketStep ' ' = 0 := by decide
  refine ⟨by rw [bracketSum_cons, hstep, h.even]; rfl, ?_⟩
  intro before after heq
  cases before with
  | nil => simp at heq
  | cons c before =>
      obtain ⟨rfl, hrest⟩ := List.cons.inj heq
      rw [bracketSum_cons, hstep, Int.zero_add]
      exact h.inside before after hrest

theorem join_comma_space (item : List Char) (items : List (List Char)) :
    join [',', ' '] (item :: items) = join [','] (item :: items.map (' ' :: ·)) := by
  induction items generalizing item with
  | nil => rfl
  | cons next items ih =>
      rw [join_cons_cons, ih next, List.map_cons, join_cons_cons]
      cases items with
      | nil => simp [join]
      | cons last items => simp [join_cons_cons]

theorem trim_cons_blank {b : Char} (hb : isBlank b = true) (cs : List Char) :
    trim (b :: cs) = trim cs := by
  rw [trim, trimStart, List.dropWhile_cons_of_pos hb]
  rfl

/-- A list with spaces behind its commas has the same items, trimmed. -/
theorem commaItems_join_space {items : List (List Char)} (h : ∀ item ∈ items, IsItem item)
    (hblank : ∀ item ∈ items, trim item ≠ []) :
    commaItems (join [',', ' '] items) = items.map trim := by
  cases items with
  | nil => rfl
  | cons item items =>
      obtain ⟨hitem, hitems⟩ := List.forall_mem_cons.mp h
      have htrim : (items.map (' ' :: ·)).map trim = items.map trim := by
        rw [List.map_map]
        exact List.map_congr_left fun i _ => trim_cons_blank (by decide) i
      rw [join_comma_space, commaItems_join, List.map_cons, htrim, ← List.map_cons,
        List.filter_eq_self]
      · intro t ht
        obtain ⟨i, hi, rfl⟩ := List.mem_map.mp ht
        simpa using hblank i hi
      · refine List.forall_mem_cons.mpr ⟨hitem, ?_⟩
        intro i hi
        obtain ⟨j, hj, rfl⟩ := List.mem_map.mp hi
        exact (hitems j hj).cons_space

/-! ### Joining and cutting -/

/-- Of trimmed items those stay that are not blank. -/
theorem filter_map_trim (items : List (List Char)) :
    (items.map trim).filter (!·.isEmpty) = (items.filter (·.any (!isBlank ·))).map trim := by
  rw [List.filter_map]
  congr 1
  refine List.filter_congr fun item _ => ?_
  rw [Function.comp_apply, Bool.eq_iff_iff, List.any_eq_true, Bool.not_eq_true',
    List.isEmpty_eq_false_iff, DocText.trim_ne_nil_iff]
  simp only [Bool.not_eq_true']

/-- **Cutting undoes joining.**  The items come back trimmed and without the blank ones, however
the brackets of different kinds stand among each other, and with fewer than `2 ^ 31` brackets the
count at no place needs more than 32 bits. -/
theorem commaItems_undo_join {items : List (List Char)}
    (heven : ∀ item ∈ items, opened item = closed item)
    (hinside : ∀ item ∈ items, ∀ before after, item = before ++ ',' :: after →
      opened before ≠ closed before) :
    commaItems (join [','] items) = (items.filter (·.any (!isBlank ·))).map trim ∧
      (opened (join [','] items) + closed (join [','] items) < 2 ^ 31 →
        ∀ before, before <+: join [','] items → (bracketSum before).natAbs < 2 ^ 31) := by
  have hitems : ∀ item ∈ items, IsItem item := by
    intro item hitem
    refine ⟨?_, fun before after heq => ?_⟩
    · rw [bracketSum_eq, heven item hitem, Int.sub_self]
    · have hne := hinside item hitem before after heq
      rw [bracketSum_eq]
      omega
  refine ⟨?_, fun hfew before hbefore => ?_⟩
  · rw [commaItems_join hitems, filter_map_trim]
  · exact Nat.lt_of_le_of_lt (natAbs_bracketSum_le hbefore) hfew

/-- Items with brackets of several kinds, a blank one, and one that closes before it opens. -/
def mixedItems : List (List Char) :=
  ["std::map<K, V(&)[2]> ".toList, " ".toList, "a > b, c < d".toList, "[(f], x)".toList]

theorem commaItems_mixedItems :
    (∀ item ∈ mixedItems, opened item = closed item) ∧
      (∀ item ∈ mixedItems, ∀ before after, item = before ++ ',' :: after →
        opened before ≠ closed before) ∧
      opened (join [','] mixedItems) + closed (join [','] mixedItems) < 2 ^ 31 ∧
      commaItems "std::map<K, V(&)[2]> , ,a > b, c < d,[(f], x)".toList =
        ["std::map<K, V(&)[2]>".toList, "a > b, c < d".toList, "[(f], x)".toList] ∧
      (bracketSum "std::map<K, V(&)[2]> , ,a >".toList).natAbs < 2 ^ 31 := by
  have heven : ∀ item ∈ mixedItems, opened item = closed item := by decide +kernel
  have hinside : ∀ item ∈ mixedItems, ∀ before after, item = before ++ ',' :: after →
      opened before ≠ closed before := by
    have hall : ∀ item ∈ mixedItems, ∀ us ∈ item.inits, us.getLast? = some ',' →
        opened us.dropLast ≠ closed us.dropLast := by decide +kernel
    intro item hitem before after heq
    have hinit : before ++ [','] ∈ item.inits :=
      (List.mem_inits _ _).mpr ⟨after, by simp [heq]⟩
    simpa using hall item hitem _ hinit (by simp)
  have hfew : opened (join [','] mixedItems) + closed (join [','] mixedItems) < 2 ^ 31 := by
    decide +kernel
  obtain ⟨hcut, hcount⟩ := commaItems_undo_join heven hinside
  exact ⟨heven, hinside, hfew, hcut, hcount hfew _ (by decide +kernel)⟩

end DocForest.Text
