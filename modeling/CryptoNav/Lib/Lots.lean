import Mathlib.Algebra.Order.Field.Basic
import Mathlib.Tactic.Linarith
import Mathlib.Tactic.LinearCombination
import Mathlib.Tactic.Ring

/-!
# First-in-first-out lot queues

A queue of open lots is closed from the front: a closing order of size `q` eats the oldest
lot first, books a gain for each bite, and stops when either the order or the queue is used
up. This file knows nothing about what a lot is. It asks for a `size`, a `price` and a
`resize` that touches only the size, and proves the two accounting facts every such queue
satisfies:

* no size appears or disappears, whatever gain is booked (`drain_size`);
* with a gain that is linear in the bite, `d * (p - price) * bite`, the gain of a whole drain
  is the gain of the cost that left the queue (`drain_gain`).

A program may also keep the lots of several queues in one list and scan it for those that a closing
order meets; to each queue the scan does what a drain of it does (`scan_drain`).

What a bite is worth and how a lot is resized are the user's; the arithmetic is that of an
ordered field, so nothing here is rounded. Fees, marks and prices that change while a lot is
open are left out, as they book something beside the queue and do not touch it.
-/

set_option autoImplicit false

namespace CryptoNav.Lib

/-- What a lot queue needs to know about its lots. `price` is the part of a lot that a partial
    close does not touch. -/
structure LotView (α K : Type*) where
  size : α → K
  price : α → K
  resize : α → K → α
  size_resize : ∀ a k, size (resize a k) = k
  price_resize : ∀ a k, price (resize a k) = price a

/-- The outcome of draining a queue: the gain booked, the part of the order that found no lot,
    and the lots still open. -/
structure Drained (α K : Type*) where
  gain : K
  left : K
  lots : List α

namespace LotView

variable {α K : Type*} [Field K] (V : LotView α K)

/-- The total open size of a queue. -/
def total (lots : List α) : K := (lots.map V.size).sum

/-- The total entry cost of a queue. -/
def cost (lots : List α) : K := (lots.map fun a => V.price a * V.size a).sum

@[simp] theorem total_nil : V.total [] = 0 := rfl
@[simp] theorem cost_nil : V.cost [] = 0 := rfl

@[simp] theorem total_cons (a : α) (l : List α) : V.total (a :: l) = V.size a + V.total l := by
  simp [total]

@[simp] theorem cost_cons (a : α) (l : List α) :
    V.cost (a :: l) = V.price a * V.size a + V.cost l := by simp [cost]

@[simp] theorem total_append (l l' : List α) : V.total (l ++ l') = V.total l + V.total l' := by
  simp [total]

@[simp] theorem cost_append (l l' : List α) : V.cost (l ++ l') = V.cost l + V.cost l' := by
  simp [cost]

variable [LinearOrder K]

/-- Close `q` against the queue, oldest lot first. A lot that a bite uses up leaves the queue;
    a lot that survives its bite has used up the order, so the drain ends there. -/
def drain (gain : α → K → K) : K → List α → Drained α K
  | q, [] => ⟨0, q, []⟩
  | q, a :: rest =>
    if 0 < q then
      if V.size a - min q (V.size a) = 0 then
        let r := drain gain (q - min q (V.size a)) rest
        ⟨gain a (min q (V.size a)) + r.gain, r.left, r.lots⟩
      else
        ⟨gain a (min q (V.size a)), q - min q (V.size a),
          V.resize a (V.size a - min q (V.size a)) :: rest⟩
    else ⟨0, q, a :: rest⟩

/-- An order is never overdrawn, whatever sizes the lots have. -/
theorem drain_left_nonneg [IsStrictOrderedRing K] (gain : α → K → K) {q : K} (hq : 0 ≤ q)
    (lots : List α) : 0 ≤ (V.drain gain q lots).left := by
  induction lots generalizing q with
  | nil => exact hq
  | cons a rest ih =>
    have hbite : 0 ≤ q - min q (V.size a) := sub_nonneg.mpr (min_le_left _ _)
    unfold drain
    split
    · split
      · exact ih hbite
      · exact hbite
    · exact hq

/-- **Size is conserved**: what left the queue is what left the order. -/
theorem drain_size (gain : α → K → K) (q : K) (lots : List α) :
    V.total (V.drain gain q lots).lots + q = V.total lots + (V.drain gain q lots).left := by
  induction lots generalizing q with
  | nil => simp [drain]
  | cons a rest ih =>
    unfold drain
    split
    · split
      · rename_i hz
        have h := ih (q - min q (V.size a))
        simp only [total_cons]
        linear_combination h - hz
      · simp only [total_cons, V.size_resize]
        ring
    · rfl

/-- **The gain of a drain is the gain of the cost that left.** For a gain linear in the bite,
    summing the bites is the same as pricing the closed size at `p` and subtracting its entry
    cost. -/
theorem drain_gain (d p q : K) (lots : List α) :
    let r := V.drain (fun a m => d * (p - V.price a) * m) q lots
    r.gain = d * (p * (q - r.left) - (V.cost lots - V.cost r.lots)) := by
  intro r
  show (V.drain _ q lots).gain = _
  induction lots generalizing q with
  | nil => simp [r, drain]
  | cons a rest ih =>
    simp only [r]
    unfold drain
    split
    · split
      · rename_i hz
        have h := ih (q - min q (V.size a))
        simp only [cost_cons] at h ⊢
        rw [h]
        linear_combination (d * V.price a) * hz
      · simp only [cost_cons, V.size_resize, V.price_resize]
        ring
    · simp

/-- Open lots stay open. -/
theorem drain_pos [IsStrictOrderedRing K] (gain : α → K → K) {q : K} {lots : List α} (h : ∀ a ∈ lots, 0 < V.size a) :
    ∀ a ∈ (V.drain gain q lots).lots, 0 < V.size a := by
  induction lots generalizing q with
  | nil => exact h
  | cons a rest ih =>
    obtain ⟨ha, hrest⟩ := List.forall_mem_cons.mp h
    unfold drain
    split
    · split
      · exact ih hrest
      · rename_i hz
        refine List.forall_mem_cons.mpr ⟨?_, hrest⟩
        rw [V.size_resize]
        exact lt_of_le_of_ne (sub_nonneg.mpr (min_le_right _ _)) (Ne.symm hz)
    · exact h

/-- An order that is not filled has emptied the queue. -/
theorem drain_lots_of_left_pos (gain : α → K → K) {q : K} {lots : List α}
    (h : 0 < (V.drain gain q lots).left) : (V.drain gain q lots).lots = [] := by
  induction lots generalizing q with
  | nil => rfl
  | cons a rest ih =>
    unfold drain at h ⊢
    split at h
    · split at h
      · rename_i hq hz
        rw [if_pos hq, if_pos hz]
        exact ih h
      · rename_i hz
        -- the lot is not used up, so the order is
        rcases min_choice q (V.size a) with hmin | hmin
        · exact absurd h (by simp [hmin])
        · exact absurd (by rw [hmin, sub_self]) hz
    · contradiction

/-- Two views of the same lots drain alike. -/
theorem drain_map {β : Type*} {W : LotView β K} {h : α → β} (hsize : ∀ a, W.size (h a) = V.size a)
    (hresize : ∀ a k, h (V.resize a k) = W.resize (h a) k) {gain : α → K → K} {gain' : β → K → K}
    {q : K} {lots : List α} (hgain : ∀ a ∈ lots, ∀ k, gain' (h a) k = gain a k) :
    W.drain gain' q (lots.map h) = ⟨(V.drain gain q lots).gain, (V.drain gain q lots).left,
      (V.drain gain q lots).lots.map h⟩ := by
  induction lots generalizing q with
  | nil => rfl
  | cons a rest ih =>
    obtain ⟨ha, hrest⟩ := List.forall_mem_cons.mp hgain
    rw [List.map_cons, drain, drain, hsize]
    by_cases hq : 0 < q
    · rw [if_pos hq, if_pos hq]
      by_cases hz : V.size a - min q (V.size a) = 0
      · rw [if_pos hz, if_pos hz, ih hrest, ha]
      · rw [if_neg hz, if_neg hz, ha, ← hresize]
        rfl
    · rw [if_neg hq, if_neg hq]
      rfl

/-- Close `q` against the lots of a list that it `closes`, and keep the others where they are. -/
def scan (closes : α → Bool) (gain : α → K → K) : K → List α → Drained α K
  | q, [] => ⟨0, q, []⟩
  | q, a :: rest =>
    if closes a = false ∨ q = 0 then
      let r := scan closes gain q rest
      ⟨r.gain, r.left, a :: r.lots⟩
    else
      let r := scan closes gain (q - min q (V.size a)) rest
      ⟨gain a (min q (V.size a)) + r.gain, r.left,
        if 0 < V.size a - min q (V.size a) then
          V.resize a (V.size a - min q (V.size a)) :: r.lots
        else r.lots⟩

/-- Nothing is left to close. -/
theorem scan_zero (closes : α → Bool) (gain : α → K → K) (lots : List α) :
    V.scan closes gain 0 lots = ⟨0, 0, lots⟩ := by
  induction lots with
  | nil => rfl
  | cons a rest ih => rw [scan, if_pos (.inr rfl), ih]

/-- **A scan drains the queue of the lots it closes** and leaves the others alone. -/
theorem scan_drain [IsStrictOrderedRing K] {closes : α → Bool}
    (hcloses : ∀ a k, closes (V.resize a k) = closes a) (gain : α → K → K) {q : K} (hq : 0 ≤ q)
    {lots : List α} (h : ∀ a ∈ lots, 0 < V.size a) :
    let scanned := V.scan closes gain q lots
    let drained := V.drain gain q (lots.filter closes)
    scanned.gain = drained.gain ∧ scanned.left = drained.left ∧
      scanned.lots.filter closes = drained.lots ∧
      scanned.lots.filter (!closes ·) = lots.filter (!closes ·) := by
  induction lots generalizing q with
  | nil => exact ⟨rfl, rfl, rfl, rfl⟩
  | cons a rest ih =>
    obtain ⟨ha, hrest⟩ := List.forall_mem_cons.mp h
    intro scanned drained
    by_cases hclosed : closes a = true
    · have hfilter : (a :: rest).filter closes = a :: rest.filter closes :=
        List.filter_cons_of_pos hclosed
      simp only [scanned, drained, hfilter]
      rcases eq_or_lt_of_le hq with rfl | hpos
      · rw [scan_zero, drain, if_neg (lt_irrefl _), hfilter]
        exact ⟨rfl, rfl, rfl, rfl⟩
      · have hskip : ¬(closes a = false ∨ q = 0) := by simp [hclosed, hpos.ne']
        rw [scan, if_neg hskip, drain, if_pos hpos]
        by_cases hz : V.size a - min q (V.size a) = 0
        · obtain ⟨hgain, hleft, hsame, hother⟩ := ih (sub_nonneg.mpr (min_le_left q (V.size a))) hrest
          have hgone : ¬0 < V.size a - min q (V.size a) := fun hlt => absurd hz hlt.ne'
          rw [if_pos hz]
          simp only [if_neg hgone]
          refine ⟨by rw [hgain], hleft, hsame, ?_⟩
          rw [List.filter_cons_of_neg (by simp [hclosed])]
          exact hother
        · -- the lot is not used up, so the order is
          have hmin : min q (V.size a) = q := by
            rcases min_choice q (V.size a) with hmin | hmin
            · exact hmin
            · exact absurd (by rw [hmin, sub_self]) hz
          have hleft : 0 < V.size a - q := by
            rw [hmin] at hz
            exact lt_of_le_of_ne (sub_nonneg.mpr (min_eq_left_iff.mp hmin)) (Ne.symm hz)
          rw [if_neg hz]
          simp only [hmin, sub_self, scan_zero, if_pos hleft, add_zero, true_and]
          constructor
          · rw [List.filter_cons_of_pos (by rw [hcloses, hclosed])]
          · rw [List.filter_cons_of_neg (by simp [hcloses, hclosed]),
              List.filter_cons_of_neg (by simp [hclosed])]
    · have hopen : closes a = false := by simpa using hclosed
      obtain ⟨hgain, hleft, hsame, hother⟩ := ih hq hrest
      simp only [scanned, drained, List.filter_cons_of_neg hclosed]
      rw [scan, if_pos (.inl hopen)]
      refine ⟨hgain, hleft, ?_, ?_⟩
      · rw [List.filter_cons_of_neg hclosed]
        exact hsame
      · rw [List.filter_cons_of_pos (by simp [hopen]), List.filter_cons_of_pos (by simp [hopen]), hother]

theorem scan_pos [IsStrictOrderedRing K] {closes : α → Bool}
    (hcloses : ∀ a k, closes (V.resize a k) = closes a) (gain : α → K → K) {q : K} (hq : 0 ≤ q)
    {lots : List α} (h : ∀ a ∈ lots, 0 < V.size a) :
    ∀ a ∈ (V.scan closes gain q lots).lots, 0 < V.size a := by
  obtain ⟨-, -, hclosed, hkept⟩ := V.scan_drain hcloses gain hq h
  intro a ha
  by_cases hc : closes a = true
  · have hmem := List.mem_filter.mpr ⟨ha, hc⟩
    rw [hclosed] at hmem
    exact V.drain_pos gain (fun b hb => h b (List.mem_filter.mp hb).1) a hmem
  · have hmem : a ∈ (V.scan closes gain q lots).lots.filter (!closes ·) :=
      List.mem_filter.mpr ⟨ha, by simpa using hc⟩
    rw [hkept] at hmem
    exact h a (List.mem_filter.mp hmem).1

end LotView
end CryptoNav.Lib
