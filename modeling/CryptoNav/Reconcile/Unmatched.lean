import CryptoNav.Lib.StepCurve
import CryptoNav.Reconcile.Groups
import Mathlib.Data.List.Perm.Basic
import Mathlib.Data.Rat.Cast.Order

/-!
# Unmatched fills of adjacent windows

What an order has filled in a window is by how much the greatest cumulative quantity reported up to
its end exceeds the greatest reported before it. In exact arithmetic the quantities of adjacent
windows therefore add up, whatever was reported late, twice or with a smaller quantity
(`unmatched_adds_up`).

A cumulative quantity never falls in truth, but reports of it may come late; taking maxima makes
the order of the reports irrelevant, and that is all the algorithm there is. The rows are those
of one order; orders that are known to RocksDB are not counted here.
-/

set_option autoImplicit false

namespace CryptoNav.Reconcile

open CryptoNav.Lib

/-- The greatest quantity reported before a time. -/
def filledBefore (observations : List (Observation ℚ)) (t : ℤ) : ℚ :=
  ((observations.filter fun value => value.timestampUs < t).map Observation.cumulativeQty).foldl max 0

/-- The quantity of a window, 0 where there is none. -/
def unmatchedQty (observations : List (Observation ℚ)) (startUs endUs : ℤ) : ℚ :=
  ((summarizeUnmatched observations startUs endUs 0).map (·.1)).getD 0

variable {observations observations' : List (Observation ℚ)} {startUs endUs : ℤ}

theorem foldl_max_perm {l l' : List ℚ} (h : l.Perm l') (base : ℚ) :
    l.foldl max base = l'.foldl max base :=
  h.foldl_eq base

theorem filledBefore_perm (h : observations.Perm observations') (t : ℤ) :
    filledBefore observations t = filledBefore observations' t :=
  foldl_max_perm ((h.filter _).map _) 0

/-- What is in a window when nothing before it counts. -/
def within (startUs endUs : ℤ) (observations : List (Observation ℚ)) : List (Observation ℚ) :=
  observations.filter fun value => startUs ≤ value.timestampUs && value.timestampUs ≤ endUs

/-- **The summary without the order**: it is read off what was filled before and what is reported in
    the window. -/
theorem summarizeUnmatched_eq (observations : List (Observation ℚ)) (startUs endUs : ℤ) :
    summarizeUnmatched observations startUs endUs 0 =
      let base := filledBefore observations startUs
      let qty := ((within startUs endUs observations).map Observation.cumulativeQty).foldl max base - base
      if qty > 0 then some (qty, (within startUs endUs observations).length) else none := by
  have hsort := sortByKey_perm Observation.timestampUs observations
  have hwithin : (within startUs endUs (sortByKey Observation.timestampUs observations)).Perm
      (within startUs endUs observations) := hsort.filter _
  have hbase := filledBefore_perm hsort startUs
  dsimp only
  rw [← hbase, ← foldl_max_perm (hwithin.map _), ← hwithin.length_eq]
  unfold summarizeUnmatched
  dsimp only
  split
  · rename_i hempty
    rw [if_neg]
    rw [within, hempty]
    exact (sub_self _).not_gt
  · rfl

/-- What is filled up to the end of a window is what was before it and what is reported in it. -/
theorem filledBefore_window (h : startUs ≤ endUs + 1) :
    ((within startUs endUs observations).map Observation.cumulativeQty).foldl max
      (filledBefore observations startUs) = filledBefore observations (endUs + 1) := by
  let before := observations.filter fun value => value.timestampUs < startUs
  have hperm : (before ++ within startUs endUs observations).Perm
      (observations.filter fun value => value.timestampUs < endUs + 1) := by
    have hsplit := List.filter_append_perm (fun value => decide (value.timestampUs < startUs))
      (observations.filter fun value => value.timestampUs < endUs + 1)
    rw [List.filter_filter, List.filter_filter] at hsplit
    convert hsplit using 2
    · refine List.filter_congr fun value _ => ?_
      rw [Bool.eq_iff_iff, Bool.and_eq_true, decide_eq_true_iff, decide_eq_true_iff]
      omega
    · refine List.filter_congr fun value _ => ?_
      rw [Bool.eq_iff_iff, Bool.and_eq_true, Bool.and_eq_true, Bool.not_eq_true', decide_eq_true_iff,
        decide_eq_true_iff, decide_eq_false_iff_not, decide_eq_true_iff]
      omega
  rw [filledBefore, filledBefore, ← foldl_max_perm (hperm.map _), List.map_append, List.foldl_append]

theorem filledBefore_le (h : startUs ≤ endUs + 1) :
    filledBefore observations startUs ≤ filledBefore observations (endUs + 1) := by
  rw [← filledBefore_window h]
  exact (foldl_max_isGreatest _ _).2 (.inl rfl)

/-- **A window has what is filled up to its end beyond what was filled before.** -/
theorem unmatchedQty_eq (h : startUs ≤ endUs + 1) : unmatchedQty observations startUs endUs =
    filledBefore observations (endUs + 1) - filledBefore observations startUs := by
  rw [unmatchedQty, summarizeUnmatched_eq]
  dsimp only
  rw [filledBefore_window h]
  split
  · rfl
  · rename_i hnot
    exact le_antisymm (sub_nonneg.mpr (filledBefore_le h)) (not_lt.mp hnot)

theorem unmatchedQty_nonneg (h : startUs ≤ endUs + 1) : 0 ≤ unmatchedQty observations startUs endUs := by
  rw [unmatchedQty_eq h, sub_nonneg]
  exact filledBefore_le h

theorem summarizeUnmatched_perm (h : observations.Perm observations') :
    summarizeUnmatched observations startUs endUs 0 =
      summarizeUnmatched observations' startUs endUs 0 := by
  have hwithin : (within startUs endUs observations).Perm (within startUs endUs observations') :=
    h.filter _
  rw [summarizeUnmatched_eq, summarizeUnmatched_eq, filledBefore_perm h, hwithin.length_eq]
  dsimp only
  rw [foldl_max_perm (hwithin.map _)]

/-- **Unmatched fills add up over adjacent windows**, in whatever order they are reported, at
    whichever millisecond the window is split, and with any number of reports that come late or
    twice. -/
theorem unmatched_adds_up (observations : List (Observation ℚ)) {s m e : ℤ} (hsm : s ≤ m)
    (hme : m ≤ e) :
    unmatchedQty observations s (m - 1) + unmatchedQty observations m e =
        unmatchedQty observations s e ∧
      0 ≤ unmatchedQty observations s (m - 1) ∧ 0 ≤ unmatchedQty observations m e ∧
      0 ≤ unmatchedQty observations s e ∧
      ∀ observations', observations.Perm observations' → ∀ startUs endUs,
        summarizeUnmatched observations' startUs endUs 0 =
          summarizeUnmatched observations startUs endUs 0 := by
  refine ⟨?_, unmatchedQty_nonneg (by omega), unmatchedQty_nonneg (by omega),
    unmatchedQty_nonneg (by omega), fun _ hperm _ _ => (summarizeUnmatched_perm hperm).symm⟩
  rw [unmatchedQty_eq (by omega), unmatchedQty_eq (by omega), unmatchedQty_eq (by omega),
    sub_add_cancel]
  ring

/-- A report on the edge, one that comes twice and one that goes back. -/
def reports : List (Observation ℚ) :=
  [⟨900, 1⟩, ⟨1100, 3 / 2⟩, ⟨1100, 3 / 2⟩, ⟨1200, 2⟩, ⟨1150, 1⟩]

theorem reports_add_up :
    unmatchedQty reports 1000 (1100 - 1) + unmatchedQty reports 1100 2000 =
        unmatchedQty reports 1000 2000 ∧
      0 ≤ unmatchedQty reports 1000 (1100 - 1) ∧ 0 ≤ unmatchedQty reports 1100 2000 ∧
      0 ≤ unmatchedQty reports 1000 2000 ∧
      ∀ observations', reports.Perm observations' → ∀ startUs endUs,
        summarizeUnmatched observations' startUs endUs 0 =
          summarizeUnmatched reports startUs endUs 0 :=
  unmatched_adds_up reports (by decide) (by decide)

end CryptoNav.Reconcile
