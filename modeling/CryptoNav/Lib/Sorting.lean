import Mathlib.Data.List.Destutter
import Mathlib.Data.List.Sort

/-!
# Sorting by a key

A stable sort by key, and the sorted set of a list's elements: the two forms in which programs
fix an order before a loop. Both are insertion sorts, so they run by structural recursion.

The stability of the sort is in the definition and is used in one form only: elements that a
test keeps apart are sorted among themselves as if alone (`sortByKey_filter`). How long sorting
takes is left out, and with it the choice of insertion: a list that is sorted by a key without
duplicates is the same by whichever algorithm (`eq_of_strictly_sorted`).

Beside sorting stands what programs do instead of it when they need one element: `Best` follows
a fold that keeps the better of two, and says which one is left where several are equally good.
-/

set_option autoImplicit false

namespace CryptoNav.Lib

variable {α κ : Type*} [LinearOrder κ]

/-- The stable sort by `key`: elements of one key keep their order. -/
def sortByKey (key : α → κ) (l : List α) : List α :=
  l.insertionSort fun a b => key a ≤ key b

theorem sortByKey_perm (key : α → κ) (l : List α) : (sortByKey key l).Perm l :=
  List.perm_insertionSort _ l

@[simp] theorem mem_sortByKey {key : α → κ} {l : List α} {a : α} :
    a ∈ sortByKey key l ↔ a ∈ l := (sortByKey_perm key l).mem_iff

theorem sortByKey_pairwise (key : α → κ) (l : List α) :
    (sortByKey key l).Pairwise fun a b => key a ≤ key b := by
  have : Std.Total fun a b : α => key a ≤ key b := ⟨fun a b => le_total (key a) (key b)⟩
  have : IsTrans α fun a b => key a ≤ key b := ⟨fun _ _ _ => le_trans⟩
  exact List.pairwise_insertionSort _ l

/-- Where keys are distinct the sort is strict. -/
theorem sortByKey_strict {key : α → κ} {l : List α} (h : (l.map key).Nodup) :
    (sortByKey key l).Pairwise fun a b => key a < key b := by
  have hnodup : ((sortByKey key l).map key).Nodup :=
    ((sortByKey_perm key l).map key).nodup_iff.mpr h
  refine ((sortByKey_pairwise key l).and (List.pairwise_map.mp hnodup)).imp ?_
  intro a b hab
  exact lt_of_le_of_ne hab.1 hab.2

/-- A sorted list is its own sort. -/
theorem sortByKey_of_sorted {key : α → κ} {l : List α}
    (h : l.Pairwise fun a b => key a ≤ key b) : sortByKey key l = l :=
  h.insertionSort_eq

theorem filter_orderedInsert {key : α → κ} {p : α → Bool} {a : α} {l : List α}
    (h : l.Pairwise fun a b => key a ≤ key b) :
    (l.orderedInsert (fun a b => key a ≤ key b) a).filter p =
      if p a then (l.filter p).orderedInsert (fun a b => key a ≤ key b) a else l.filter p := by
  induction l with
  | nil => cases hp : p a <;> simp [hp]
  | cons b l ih =>
    obtain ⟨hb, hl⟩ := List.pairwise_cons.mp h
    by_cases hab : key a ≤ key b
    · rw [List.orderedInsert_cons_of_le _ l hab]
      by_cases hpa : p a
      · rw [List.filter_cons_of_pos hpa, if_pos hpa]
        -- what is left of the list is not before `a` either
        cases hrest : (b :: l).filter p with
        | nil => rfl
        | cons c rest =>
          have hc : c ∈ b :: l := (List.mem_filter.mp (hrest ▸ List.mem_cons_self)).1
          have hac : key a ≤ key c := by
            rcases List.mem_cons.mp hc with rfl | hc
            · exact hab
            · exact hab.trans (hb c hc)
          rw [List.orderedInsert_cons_of_le _ rest hac]
      · rw [List.filter_cons_of_neg hpa, if_neg hpa]
    · rw [List.orderedInsert_of_not_le _ l hab]
      by_cases hpb : p b
      · rw [List.filter_cons_of_pos hpb, List.filter_cons_of_pos hpb, ih hl]
        split
        · rw [List.orderedInsert_of_not_le (r := fun a b => key a ≤ key b) (l.filter p) hab]
        · rfl
      · rw [List.filter_cons_of_neg hpb, List.filter_cons_of_neg hpb, ih hl]

/-- The sort of some of the elements is what the sort of all has of them. -/
theorem sortByKey_filter (key : α → κ) (p : α → Bool) (l : List α) :
    sortByKey key (l.filter p) = (sortByKey key l).filter p := by
  induction l with
  | nil => rfl
  | cons a l ih =>
    have hinsert := filter_orderedInsert (p := p) (a := a) (sortByKey_pairwise key l)
    rw [show sortByKey key (a :: l) =
      (sortByKey key l).orderedInsert (fun a b => key a ≤ key b) a from rfl, hinsert, ← ih]
    by_cases hpa : p a
    · rw [List.filter_cons_of_pos hpa, if_pos hpa]
      rfl
    · rw [List.filter_cons_of_neg hpa, if_neg hpa]

theorem mem_destutter' {α : Type*} [DecidableEq α] {a b : α} {l : List α} :
    a ∈ l.destutter' (· ≠ ·) b ↔ a = b ∨ a ∈ l := by
  induction l generalizing b with
  | nil => simp
  | cons c l ih =>
    by_cases hbc : b ≠ c
    · rw [List.destutter'_cons_pos _ hbc, List.mem_cons, ih, List.mem_cons]
    · rw [List.destutter'_cons_neg _ hbc, ih, List.mem_cons]
      rw [not_not.mp hbc]
      simp

/-- `dedup` of a vector drops repetitions, no element. -/
theorem mem_destutter {α : Type*} [DecidableEq α] {a : α} {l : List α} :
    a ∈ l.destutter (· ≠ ·) ↔ a ∈ l := by
  cases l with
  | nil => simp
  | cons b l => rw [List.destutter_cons', mem_destutter', List.mem_cons]

/-- Strictly sorted lists with the same elements are equal. -/
theorem eq_of_strictly_sorted (key : α → κ) {l l' : List α}
    (hl : l.Pairwise fun a b => key a < key b) (hl' : l'.Pairwise fun a b => key a < key b)
    (h : ∀ a, a ∈ l ↔ a ∈ l') : l = l' := by
  have nodup : ∀ {l : List α}, (l.Pairwise fun a b => key a < key b) → l.Nodup :=
    fun hl => hl.imp fun hlt he => absurd (congrArg key he) (ne_of_lt hlt)
  have hperm : l.Perm l' := (List.perm_ext_iff_of_nodup (nodup hl) (nodup hl')).mpr h
  exact hperm.eq_of_pairwise (fun a b _ _ hab hba => absurd hab (lt_asymm hba)) hl hl'

/-- A list without repeated keys is sorted into the one order it can be sorted into. -/
theorem sortByKey_eq_of_perm {key : α → κ} {l l' : List α} (h : l.Perm l')
    (hl' : l'.Pairwise fun a b => key a < key b) : sortByKey key l = l' := by
  have hnodup : (l.map key).Nodup :=
    (h.map key).nodup_iff.mpr (List.pairwise_map.mpr (hl'.imp ne_of_lt))
  exact eq_of_strictly_sorted key (sortByKey_strict hnodup) hl' fun a =>
    mem_sortByKey.trans h.mem_iff

/-- A strictly sorted list of some of the elements is a sublist. -/
theorem sublist_of_strictly_sorted (key : α → κ) {l l' : List α}
    (hl : l.Pairwise fun a b => key a < key b) (hl' : l'.Pairwise fun a b => key a < key b)
    (h : l ⊆ l') : l.Sublist l' := by
  have : Std.Antisymm fun a b : α => key a < key b :=
    ⟨fun a b hab hba => absurd hab (lt_asymm hba)⟩
  have hnodup : l.Nodup := hl.imp fun hlt he => absurd (congrArg key he) (ne_of_lt hlt)
  exact List.sublist_of_subperm_of_pairwise (List.subperm_of_subset hnodup h) hl hl'

/-- `dedup_by_key` after a sort leaves each key once. -/
theorem destutter_strict {key : α → κ} {l : List α} (h : l.Pairwise fun a b => key a ≤ key b) :
    (l.destutter fun a b => key a ≠ key b).Pairwise fun a b => key a < key b := by
  have hle := h.sublist (l.destutter_sublist fun a b => key a ≠ key b)
  have hne := List.isChain_destutter (fun a b => key a ≠ key b) l
  generalize l.destutter (fun a b => key a ≠ key b) = m at hle hne
  induction m with
  | nil => exact .nil
  | cons a m ih =>
    obtain ⟨hall, hle⟩ := List.pairwise_cons.mp hle
    refine List.pairwise_cons.mpr ⟨fun c hc => ?_, ih hle hne.tail⟩
    cases m with
    | nil => cases hc
    | cons b m =>
      have hab : key a < key b :=
        lt_of_le_of_ne (hall b List.mem_cons_self) (List.isChain_cons_cons.mp hne).1
      rcases List.mem_cons.mp hc with rfl | hc
      · exact hab
      · exact hab.trans_le ((List.pairwise_cons.mp hle).1 c hc)

/-- Filtering a list does not move where a test that stays false begins to fail. -/
theorem takeWhile_filter_sorted {q : α → Bool} {l : List α} (h : l.Pairwise fun a b => q b → q a)
    (p : α → Bool) : (l.filter p).takeWhile q = (l.takeWhile q).filter p ∧
      (l.filter p).dropWhile q = (l.dropWhile q).filter p := by
  induction h with
  | nil => exact ⟨rfl, rfl⟩
  | @cons a l hall _ ih =>
    by_cases hq : q a
    · by_cases hp : p a
      · simp only [List.filter_cons_of_pos hp, List.takeWhile_cons_of_pos hq,
          List.dropWhile_cons_of_pos hq, ih, and_self]
      · simp only [List.filter_cons_of_neg hp, List.takeWhile_cons_of_pos hq,
          List.dropWhile_cons_of_pos hq, ih, and_self]
    · have hnone : ∀ b ∈ (a :: l).filter p, ¬ q b := by
        intro b hb hqb
        rcases List.mem_cons.mp (List.mem_filter.mp hb).1 with rfl | hl
        · exact hq hqb
        · exact hq (hall b hl hqb)
      rw [List.takeWhile_cons_of_neg hq, List.dropWhile_cons_of_neg hq]
      cases hf : (a :: l).filter p with
      | nil => exact ⟨rfl, rfl⟩
      | cons b rest =>
        have hb := hnone b (hf ▸ List.mem_cons_self)
        exact ⟨List.takeWhile_cons_of_neg hb, List.dropWhile_cons_of_neg hb⟩

/-- What is left once such a test has failed fails it. -/
theorem not_of_mem_dropWhile {q : α → Bool} {l : List α} (h : l.Pairwise fun a b => q b → q a) {a : α}
    (ha : a ∈ l.dropWhile q) : ¬q a := by
  induction h with
  | nil => cases ha
  | @cons b l hall _ ih =>
    by_cases hq : q b
    · rw [List.dropWhile_cons_of_pos hq] at ha
      exact ih ha
    · rw [List.dropWhile_cons_of_neg hq] at ha
      rcases List.mem_cons.mp ha with rfl | ha
      · exact hq
      · exact fun hqa => hq (hall a ha hqa)

/-- In a sorted list the elements up to a bound come first. -/
theorem filter_le_eq_takeWhile {key : α → κ} {l : List α}
    (h : l.Pairwise fun a b => key a ≤ key b) (c : κ) :
    l.filter (key · ≤ c) = l.takeWhile (key · ≤ c) := by
  induction h with
  | nil => rfl
  | @cons a l hall _ ih =>
    by_cases ha : key a ≤ c
    · rw [List.filter_cons_of_pos (by simpa using ha), List.takeWhile_cons_of_pos (by simpa using ha),
        ih]
    · rw [List.takeWhile_cons_of_neg (by simpa using ha), List.filter_eq_nil_iff]
      intro b hb
      rcases List.mem_cons.mp hb with rfl | hb
      · simpa using ha
      · have := hall b hb
        simpa using lt_of_lt_of_le (not_le.mp ha) this

/-- A weaker bound is reached through the stronger one. -/
theorem takeWhile_eq_append {p q : α → Bool} (h : ∀ a, p a = true → q a = true) (l : List α) :
    l.takeWhile q = l.takeWhile p ++ (l.dropWhile p).takeWhile q := by
  induction l with
  | nil => rfl
  | cons a l ih =>
    by_cases ha : p a = true
    · simp [ha, h a ha, ih]
    · simp [ha]

/-- The elements of a list as an ordered set holds them: each once, in increasing order. -/
def sortedSet (l : List κ) : List κ := l.dedup.insertionSort (· ≤ ·)

@[simp] theorem mem_sortedSet {l : List κ} {a : κ} : a ∈ sortedSet l ↔ a ∈ l :=
  (List.perm_insertionSort _ _).mem_iff.trans List.mem_dedup

theorem sortedSet_nodup (l : List κ) : (sortedSet l).Nodup :=
  (List.perm_insertionSort _ _).nodup_iff.mpr l.nodup_dedup

/-! ## The best element -/

section

variable {r : α → α → Prop}

/-- `best` is an element of `l` that stands in `r` to all of them, or nothing if `l` is empty. -/
def Best (r : α → α → Prop) : Option α → List α → Prop
  | none, l => l = []
  | some a, l => a ∈ l ∧ ∀ b ∈ l, r a b

theorem Best.congr {best : Option α} {l l' : List α} (h : Best r best l)
    (hl : ∀ a, a ∈ l ↔ a ∈ l') : Best r best l' := by
  cases best with
  | none =>
    replace h : l = [] := h
    refine List.eq_nil_iff_forall_not_mem.mpr fun a ha => ?_
    rw [← hl, h] at ha
    cases ha
  | some a => exact ⟨(hl a).mp h.1, fun b hb => h.2 b ((hl b).mpr hb)⟩

theorem Best.mem_of_toList {best : Option α} {l : List α} (h : Best r best l) {a : α}
    (ha : a ∈ best.toList) : a ∈ l := by
  obtain rfl := Option.mem_toList.mp ha
  exact h.1

theorem Best.exists_mem {best : Option α} {l : List α} (h : Best r best l) (hne : l ≠ []) :
    ∃ a ∈ l, ∀ b ∈ l, r a b := by
  cases best with
  | none => exact absurd h hne
  | some a => exact ⟨a, h⟩

/-- A first element is the best, whatever it is. -/
theorem Best.single (hrefl : ∀ a, r a a) (a : α) : Best r (some a) [a] :=
  ⟨List.mem_singleton.mpr rfl, fun _ hb => List.mem_singleton.mp hb ▸ hrefl a⟩

/-- The best so far stays the best if it stands in `r` to a new element. -/
theorem Best.keep {a b : α} {l : List α} (h : Best r (some a) l) (hab : r a b) :
    Best r (some a) (l ++ [b]) := by
  refine ⟨List.mem_append_left _ h.1, fun c hc => ?_⟩
  rcases List.mem_append.mp hc with hc | hc
  · exact h.2 c hc
  · exact List.mem_singleton.mp hc ▸ hab

/-- A new element that stands in `r` to the best so far is the best. -/
theorem Best.replace (hrefl : ∀ a, r a a) (htrans : ∀ a b c, r a b → r b c → r a c) {a b : α}
    {l : List α} (h : Best r (some a) l) (hba : r b a) : Best r (some b) (l ++ [b]) := by
  refine ⟨List.mem_append_right _ (List.mem_singleton.mpr rfl), fun c hc => ?_⟩
  rcases List.mem_append.mp hc with hc | hc
  · exact htrans b a c hba (h.2 c hc)
  · exact List.mem_singleton.mp hc ▸ hrefl b

/-- A fold that keeps the better of two elements ends with the best. -/
theorem Best.foldl (hrefl : ∀ a, r a a) (htrans : ∀ a b c, r a b → r b c → r a c)
    {better : α → α → α} (hbetter : ∀ a b, better a b = a ∧ r a b ∨ better a b = b ∧ r b a) {a : α}
    {l l' : List α} (h : Best r (some a) l) : Best r (some (l'.foldl better a)) (l ++ l') := by
  induction l' generalizing a l with
  | nil => rwa [List.append_nil]
  | cons b l' ih =>
    rw [List.foldl_cons, List.append_cons]
    rcases hbetter a b with ⟨heq, hr⟩ | ⟨heq, hr⟩
    · rw [heq]
      exact ih (h.keep hr)
    · rw [heq]
      exact ih (h.replace hrefl htrans hr)

/-- The best of a first part and a rest, given the best of the first part. -/
theorem Best.append (htrans : ∀ a b c, r a b → r b c → r a c) {a b : Option α} {l l' : List α}
    (ha : Best r a l) (hb : Best r b (a.toList ++ l')) : Best r b (l ++ l') := by
  cases a with
  | none =>
    replace ha : l = [] := ha
    rw [ha]
    exact hb
  | some a =>
    cases b with
    | none => exact absurd (show [a] ++ l' = [] from hb) (by simp)
    | some b =>
      obtain ⟨hmem, hall⟩ := hb
      have hba : r b a := hall a List.mem_cons_self
      refine ⟨?_, fun c hc => ?_⟩
      · rcases List.mem_cons.mp hmem with rfl | hmem
        · exact List.mem_append_left _ ha.1
        · exact List.mem_append_right _ hmem
      · rcases List.mem_append.mp hc with hc | hc
        · exact htrans b a c hba (ha.2 c hc)
        · exact hall c (List.mem_cons_of_mem _ hc)

/-- There is one best element where `r` is antisymmetric. -/
theorem Best.unique {a b : Option α} {l : List α}
    (hanti : ∀ x ∈ l, ∀ y ∈ l, r x y → r y x → x = y) (ha : Best r a l) (hb : Best r b l) :
    a = b := by
  cases a with
  | none =>
    replace ha : l = [] := ha
    cases b with
    | none => rfl
    | some b => exact absurd (ha ▸ hb.1) List.not_mem_nil
  | some a =>
    cases b with
    | none =>
      replace hb : l = [] := hb
      exact absurd (hb ▸ ha.1) List.not_mem_nil
    | some b => rw [hanti a ha.1 b hb.1 (ha.2 b hb.1) (hb.2 a ha.1)]

/-- The first element of a sorted list is the best by its key. -/
theorem best_head? (key : α → κ) (l : List α) :
    Best (fun a b => key a ≤ key b) (sortByKey key l).head? l := by
  have hsorted := sortByKey_pairwise key l
  have hperm := sortByKey_perm key l
  cases h : sortByKey key l with
  | nil =>
    rw [h] at hperm
    exact hperm.symm.eq_nil
  | cons a rest =>
    rw [h] at hperm hsorted
    refine ⟨hperm.mem_iff.mp List.mem_cons_self, fun b hb => ?_⟩
    rcases List.mem_cons.mp (hperm.mem_iff.mpr hb) with rfl | hb
    · exact le_rfl
    · exact (List.pairwise_cons.mp hsorted).1 b hb

/-- It is the first of the least: what stands before it in the unsorted list has a greater key. -/
theorem head?_sortByKey {key : α → κ} {l : List α} {a : α} (h : (sortByKey key l).head? = some a) :
    ∃ before after, l = before ++ a :: after ∧ (∀ b ∈ before, key a < key b) ∧
      ∀ b ∈ after, key a ≤ key b := by
  induction l with
  | nil => cases h
  | cons c l ih =>
    have hbest := best_head? key l
    have hinsert : (sortByKey key (c :: l)).head?
        = ((sortByKey key l).orderedInsert (fun a b => key a ≤ key b) c).head? := rfl
    rw [hinsert] at h
    cases hl : sortByKey key l with
    | nil =>
      rw [hl] at h hbest
      obtain rfl : c = a := Option.some.inj h
      obtain rfl : l = [] := hbest
      exact ⟨[], [], rfl, fun _ hb => (by cases hb), fun _ hb => by cases hb⟩
    | cons d rest =>
      rw [hl] at h hbest ih
      by_cases hcd : key c ≤ key d
      · rw [List.orderedInsert_cons_of_le _ rest hcd] at h
        obtain rfl : c = a := Option.some.inj h
        exact ⟨[], l, rfl, fun _ hb => (by cases hb), fun b hb => hcd.trans (hbest.2 b hb)⟩
      · rw [List.orderedInsert_of_not_le _ rest hcd] at h
        obtain ⟨before, after, rfl, hbefore, hafter⟩ := ih h
        obtain rfl : d = a := Option.some.inj h
        refine ⟨c :: before, after, rfl, fun b hb => ?_, hafter⟩
        rcases List.mem_cons.mp hb with rfl | hb
        · exact not_le.mp hcd
        · exact hbefore b hb

end

theorem best_max? (l : List ℤ) : Best (· ≥ ·) l.max? l := by
  cases h : l.max? with
  | none => exact List.max?_eq_none_iff.mp h
  | some a =>
    obtain ⟨hmem, hle⟩ := List.max?_eq_some_iff.mp h
    exact ⟨hmem, hle⟩

end CryptoNav.Lib
