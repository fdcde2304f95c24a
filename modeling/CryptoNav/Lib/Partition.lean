import CryptoNav.Lib.Sorting
import Mathlib.Data.List.TakeWhile

/-!
# Partition points

`slice::partition_point` finds by bisection where a test begins to fail. It is documented for a slice
that the test partitions; for another one the result is unspecified. In a list that is sorted by a
time the tests "up to `t`" and "before `t`" partition, and the two elements at the partition point are
the neighbours of `t`.

What bisection does on a slice that is not partitioned depends on how it is implemented, so the
function is a parameter, `PartitionPoint`, with only the documented law as its field; whatever
is proved over it holds of every implementation. `unspecified` is one that answers wrongly
wherever it is allowed to, and shows that a theorem does not use more.
-/

set_option autoImplicit false

namespace CryptoNav.Lib

variable {α : Type} {p : α → Bool} {l : List α}

/-- The elements that satisfy the test come first. -/
def Partitioned (p : α → Bool) (l : List α) : Prop := ∀ a ∈ l.dropWhile p, ¬p a

instance (p : α → Bool) (l : List α) : Decidable (Partitioned p l) :=
  inferInstanceAs (Decidable (∀ a ∈ l.dropWhile p, ¬p a))

theorem Partitioned.mem_takeWhile (h : Partitioned p l) {a : α} (ha : a ∈ l) :
    a ∈ l.takeWhile p ↔ p a := by
  constructor
  · exact List.mem_takeWhile_imp
  · intro hp
    rw [← List.takeWhile_append_dropWhile (p := p) (l := l)] at ha
    rcases List.mem_append.mp ha with hmem | hmem
    · exact hmem
    · exact absurd hp (h a hmem)

theorem Partitioned.mem_dropWhile (h : Partitioned p l) {a : α} (ha : a ∈ l) :
    a ∈ l.dropWhile p ↔ ¬p a := by
  constructor
  · exact h a
  · intro hp
    rw [← List.takeWhile_append_dropWhile (p := p) (l := l)] at ha
    rcases List.mem_append.mp ha with hmem | hmem
    · exact absurd (List.mem_takeWhile_imp hmem) hp
    · exact hmem

theorem Partitioned.of_cons {a : α} (h : Partitioned p (a :: l)) : Partitioned p l := by
  intro b hb
  by_cases ha : p a
  · exact h b (by rwa [List.dropWhile_cons_of_pos ha])
  · refine h b ?_
    rw [List.dropWhile_cons_of_neg ha]
    exact List.mem_cons_of_mem a ((List.dropWhile_sublist p).subset hb)

/-- A list is sorted if and only if every bound partitions it. -/
theorem pairwise_iff_partitioned {κ : Type} [LinearOrder κ] (key : α → κ) :
    l.Pairwise (fun a b => key a ≤ key b) ↔ ∀ c, Partitioned (fun a => key a ≤ c) l := by
  constructor
  · intro h c a ha
    refine not_of_mem_dropWhile (h.imp fun {x y} hxy hy => ?_) ha
    exact decide_eq_true (hxy.trans (of_decide_eq_true hy))
  · intro h
    induction l with
    | nil => exact List.Pairwise.nil
    | cons a l ih =>
      refine List.pairwise_cons.mpr ⟨fun b hb => ?_, ih fun c => (h c).of_cons⟩
      by_contra hlt
      refine h (key b) b ?_ (decide_eq_true le_rfl)
      rw [List.dropWhile_cons_of_neg (p := fun x => decide (key x ≤ key b)) (by simpa using hlt)]
      exact List.mem_cons_of_mem a hb

/-- Nothing in a sorted list is greater than its last element. -/
theorem le_of_getLast? {κ : Type} [LinearOrder κ] (key : α → κ)
    (h : l.Pairwise fun a b => key a ≤ key b) {z : α} (hz : l.getLast? = some z) :
    ∀ a ∈ l, key a ≤ key z := by
  obtain ⟨before, rfl⟩ := List.getLast?_eq_some_iff.mp hz
  intro a ha
  rcases List.mem_append.mp ha with ha | ha
  · exact (List.pairwise_append.mp h).2.2 a ha z List.mem_cons_self
  · exact (congrArg key (List.mem_singleton.mp ha)).le

/-! ## The function -/

/-- A function that does what is documented of `partition_point`. -/
structure PartitionPoint where
  index : {α : Type} → (α → Bool) → List α → ℕ
  index_le : ∀ {α : Type} (p : α → Bool) (l : List α), index p l ≤ l.length
  index_eq : ∀ {α : Type} {p : α → Bool} {l : List α}, Partitioned p l →
    index p l = (l.takeWhile p).length

namespace PartitionPoint

/-- Where nothing is documented, it returns `n`. -/
def unspecified (n : ℕ) : PartitionPoint where
  index p l := if Partitioned p l then (l.takeWhile p).length else min n l.length
  index_le p l := by
    split
    · exact (List.takeWhile_sublist p).length_le
    · exact min_le_right _ _
  index_eq h := if_pos h

variable (point : PartitionPoint)

theorem take_index (h : Partitioned p l) : l.take (point.index p l) = l.takeWhile p := by
  rw [point.index_eq h]
  exact (List.prefix_iff_eq_take.mp (List.takeWhile_prefix p)).symm

theorem drop_index (h : Partitioned p l) : l.drop (point.index p l) = l.dropWhile p := by
  have hsplit := (List.take_append_drop (point.index p l) l).trans
    (List.takeWhile_append_dropWhile (p := p) (l := l)).symm
  rw [point.take_index h] at hsplit
  exact List.append_cancel_left hsplit

theorem index_eq_zero (h : Partitioned p l) : point.index p l = 0 ↔ ∀ a ∈ l, ¬p a := by
  rw [point.index_eq h, List.length_eq_zero_iff, List.eq_nil_iff_forall_not_mem]
  constructor
  · exact fun hnone a ha hp => hnone a ((h.mem_takeWhile ha).mpr hp)
  · exact fun hnone a ha => hnone a ((List.takeWhile_sublist p).subset ha) (List.mem_takeWhile_imp ha)

theorem getElem?_index_eq_none (h : Partitioned p l) :
    l[point.index p l]? = none ↔ ∀ a ∈ l, p a := by
  rw [← List.head?_drop, point.drop_index h, List.head?_eq_none_iff,
    List.eq_nil_iff_forall_not_mem]
  constructor
  · exact fun hnone a ha => not_not.mp fun hp => hnone a ((h.mem_dropWhile ha).mpr hp)
  · exact fun hall a ha => h a ha (hall a ((List.dropWhile_sublist p).subset ha))

/-- The element in front of the point is the last one that satisfies the test. -/
theorem previous_spec {κ : Type} [LinearOrder κ] {key : α → κ} (h : Partitioned p l)
    (hsorted : l.Pairwise fun a b => key a ≤ key b) (hindex : point.index p l ≠ 0) {a : α}
    (ha : l[point.index p l - 1]? = some a) :
    a ∈ l ∧ p a ∧ ∀ b ∈ l, p b → key b ≤ key a := by
  have hlast : (l.takeWhile p).getLast? = some a := by
    rw [← point.take_index h, List.getLast?_take, if_neg hindex, ha, Option.some_or]
  have hmem : a ∈ l.takeWhile p := List.mem_of_getLast? hlast
  refine ⟨(List.takeWhile_sublist p).subset hmem, List.mem_takeWhile_imp hmem, fun b hb hp => ?_⟩
  exact le_of_getLast? key (hsorted.sublist (List.takeWhile_sublist p)) hlast b
    ((h.mem_takeWhile hb).mpr hp)

/-- The element at the point is the first one that does not. -/
theorem next_spec {κ : Type} [LinearOrder κ] {key : α → κ} (h : Partitioned p l)
    (hsorted : l.Pairwise fun a b => key a ≤ key b) {a : α} (ha : l[point.index p l]? = some a) :
    a ∈ l ∧ ¬p a ∧ ∀ b ∈ l, ¬p b → key a ≤ key b := by
  rw [← List.head?_drop, point.drop_index h] at ha
  obtain ⟨after, hafter⟩ := List.head?_eq_some_iff.mp ha
  have hmem : a ∈ l.dropWhile p := hafter ▸ List.mem_cons_self
  refine ⟨(List.dropWhile_sublist p).subset hmem, h a hmem, fun b hb hp => ?_⟩
  have hb := (h.mem_dropWhile hb).mpr hp
  have hpairs := hsorted.sublist (List.dropWhile_sublist p)
  rw [hafter] at hb hpairs
  rcases List.mem_cons.mp hb with hb | hb
  · exact (congrArg key hb.symm).le
  · exact (List.pairwise_cons.mp hpairs).1 b hb

end PartitionPoint
end CryptoNav.Lib
