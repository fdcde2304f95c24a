import CryptoNav.Lib.StepCurve
import CryptoNav.Pnl.Report
import Mathlib.Algebra.Order.Field.Basic
import Mathlib.Tactic.Ring
import Mathlib.Tactic.Linarith

/-!
# Drawdowns

`build_performance` goes through the points once and keeps the peak of the PnL so far, the greatest
fall from it and the greatest ratio of a fall to the NAV at the peak. A fall has its own peak for
each of the two, but the NAV is the PnL plus a constant, and so both peaks are the same: the results
are the greatest fall and the greatest ratio over all pairs of points (`drawdowns_isGreatest`), but
for `cleanZero`.

A curve without points has no performance, and at a peak where the NAV is not positive there is
no ratio. The peaks themselves are followed by a loop of `Lib.StepCurve`, which knows nothing of
money; what is left to this file is that the two loops of the source are that one.
-/

set_option autoImplicit false

namespace CryptoNav.Pnl

open CryptoNav.Lib

variable {principal : Option ℚ} {endRelative : ℚ}

/-! ## The loop -/

section Loop

variable {d : Drawdown} {peak : ℚ} (h : d.peakRelative = some peak)

include h

theorem step_peakRelative (point : PnlPoint) :
    (d.step principal endRelative point).peakRelative = some (max peak point.totalPnlUsdt) := by
  unfold Drawdown.step
  rw [h]
  rfl

theorem step_maxUsdt (point : PnlPoint) : (d.step principal endRelative point).maxUsdt
    = max d.maxUsdt (max peak point.totalPnlUsdt - point.totalPnlUsdt) := by
  unfold Drawdown.step
  rw [h]
  rfl

/-- The peak only grows, so that the NAV at it stays positive. -/
theorem step_maxRatio {p : ℚ} (hnav : 0 < p + peak - endRelative) (point : PnlPoint) :
    0 < p + max peak point.totalPnlUsdt - endRelative ∧
    (d.step (some p) endRelative point).maxRatio = max d.maxRatio
      ((max peak point.totalPnlUsdt - point.totalPnlUsdt)
        / (p + max peak point.totalPnlUsdt - endRelative)) := by
  have hnav' : 0 < p + max peak point.totalPnlUsdt - endRelative := by
    linarith [le_max_left peak point.totalPnlUsdt]
  refine ⟨hnav', ?_⟩
  unfold Drawdown.step
  rw [h]
  simp only [Option.map_some, Option.getD_some, if_pos hnav']

theorem foldl_maxUsdt (points : List PnlPoint) :
    (points.foldl (Drawdown.step principal endRelative) d).maxUsdt
      = scanPeaks (· - ·) peak d.maxUsdt (points.map PnlPoint.totalPnlUsdt) := by
  induction points generalizing d peak with
  | nil => rfl
  | cons point points ih =>
    rw [List.foldl_cons, List.map_cons, scanPeaks, ih (step_peakRelative h point), step_maxUsdt h]

theorem foldl_maxRatio {p : ℚ} (hnav : 0 < p + peak - endRelative) (points : List PnlPoint) :
    (points.foldl (Drawdown.step (some p) endRelative) d).maxRatio
      = scanPeaks (fun peak v => (peak - v) / (p + peak - endRelative)) peak d.maxRatio
          (points.map PnlPoint.totalPnlUsdt) := by
  induction points generalizing d peak with
  | nil => rfl
  | cons point points ih =>
    obtain ⟨hnav', hratio⟩ := step_maxRatio h hnav point
    rw [List.foldl_cons, List.map_cons, scanPeaks, ih (step_peakRelative h point) hnav', hratio]

end Loop

/-- The first point is its own peak. -/
theorem step_first (point : PnlPoint) :
    (Drawdown.step principal endRelative {} point).peakRelative = some point.totalPnlUsdt ∧
      (Drawdown.step principal endRelative {} point).maxUsdt = 0 ∧
      (Drawdown.step principal endRelative {} point).maxRatio = 0 := by
  refine ⟨rfl, ?_, ?_⟩
  · exact (congrArg (max 0) (sub_self point.totalPnlUsdt)).trans (max_self 0)
  · unfold Drawdown.step
    cases principal with
    | none => rfl
    | some p =>
      simp only [Option.map_none, Option.getD_none, sub_self, zero_div, max_self, ite_self]

/-! ## The maxima -/

/-- A relative fall is the greater the higher it begins. -/
theorem relative_fall_le {c x y v : ℚ} (hx : 0 < c + x) (hv : 0 ≤ c + v) (h : x ≤ y) :
    (x - v) / (c + x) ≤ (y - v) / (c + y) := by
  have hy : 0 < c + y := by linarith
  rw [div_le_div_iff₀ hx hy]
  nlinarith [mul_nonneg hv (sub_nonneg.mpr h)]

theorem cleanZero_le_cleanZero {x y : ℚ} (hx : 0 ≤ x) (h : x ≤ y) : cleanZero x ≤ cleanZero y := by
  unfold cleanZero
  rw [abs_of_nonneg hx, abs_of_nonneg (hx.trans h)]
  split_ifs with hsmall hsmall' hsmall'
  · exact le_rfl
  · exact hx.trans h
  · exact absurd (h.trans_lt hsmall') hsmall
  · exact h

/-- The NAV at a point, from the principal and what is still to come until the last point. -/
def impliedNav (principal : ℚ) (points : List PnlPoint) (totalPnlUsdt : ℚ) : ℚ :=
  principal + totalPnlUsdt - (points.getLast?.map PnlPoint.totalPnlUsdt).getD 0

/-- The last point is part of the maxima. -/
theorem step_last (d : Drawdown) (point : PnlPoint) : ∃ peak,
    (d.step principal endRelative point).peakRelative = some peak ∧ point.totalPnlUsdt ≤ peak ∧
      peak - point.totalPnlUsdt ≤ (d.step principal endRelative point).maxUsdt ∧
      ∀ p ∈ principal, 0 < p + peak - endRelative →
        (peak - point.totalPnlUsdt) / (p + peak - endRelative)
          ≤ (d.step principal endRelative point).maxRatio := by
  refine ⟨(d.peakRelative.map (max · point.totalPnlUsdt)).getD point.totalPnlUsdt, rfl, ?_,
    le_max_right _ _, ?_⟩
  · cases d.peakRelative with
    | none => exact le_rfl
    | some peak => exact le_max_right _ _
  · rintro p rfl hnav
    unfold Drawdown.step
    simp only [if_pos hnav]
    exact le_max_right _ _

theorem current_le_max (strategyStartMs endMs : ℤ) (principalUsdt : Option ℚ)
    {points : List PnlPoint} (boundaryPnl : List (ℤ × ℚ)) (endTotalPnl : ℚ) (h : points ≠ []) :
    (buildPerformance strategyStartMs endMs principalUsdt points boundaryPnl
        endTotalPnl).currentDrawdownUsdt
      ≤ (buildPerformance strategyStartMs endMs principalUsdt points boundaryPnl
        endTotalPnl).maxDrawdownUsdt ∧
    ∀ x ∈ (buildPerformance strategyStartMs endMs principalUsdt points boundaryPnl
        endTotalPnl).currentDrawdownRatio,
      ∃ y ∈ (buildPerformance strategyStartMs endMs principalUsdt points boundaryPnl
        endTotalPnl).maxDrawdownRatio, x ≤ y := by
  obtain ⟨init, last, rfl⟩ : ∃ init last, points = init ++ [last] :=
    ⟨_, _, (List.dropLast_append_getLast h).symm⟩
  unfold buildPerformance
  simp only [List.getLast?_concat, Option.map_some, Option.getD_some, List.foldl_append,
    List.foldl_cons, List.foldl_nil]
  generalize init.foldl (Drawdown.step _ _) {} = d
  obtain ⟨peak, hpeak, hlast, husdt, hratio⟩ := @step_last (principalUsdt.filter (0 < ·))
    last.totalPnlUsdt d last
  have hfall : 0 ≤ peak - last.totalPnlUsdt := sub_nonneg.mpr hlast
  simp only [hpeak, Option.map_some, Option.getD_some, max_eq_left hfall]
  refine ⟨cleanZero_le_cleanZero hfall husdt, ?_⟩
  generalize principalUsdt.filter (0 < ·) = principal at hpeak husdt hratio ⊢
  cases principal with
  | none => exact nofun
  | some p =>
    intro x hx
    refine ⟨_, rfl, ?_⟩
    by_cases hnav : 0 < p + peak - last.totalPnlUsdt
    · simp only [Option.bind_eq_bind, Option.bind_some, if_pos hnav, Option.map_some,
        Option.mem_some_iff] at hx
      rw [← hx]
      exact cleanZero_le_cleanZero (div_nonneg hfall hnav.le) (hratio p rfl hnav)
    · simp only [Option.bind_eq_bind, Option.bind_some, if_neg hnav, Option.map_none] at hx
      cases hx

/-- **The maxima are those over all pairs of points**, the earlier one first, and the drawdown at
    the last point is no greater. What is reported is rid of values close to zero. -/
theorem drawdowns_isGreatest (strategyStartMs endMs : ℤ) (principalUsdt : Option ℚ)
    {points : List PnlPoint} (boundaryPnl : List (ℤ × ℚ)) (endTotalPnl : ℚ)
    (h : 2 ≤ points.length) :
    let performance :=
      buildPerformance strategyStartMs endMs principalUsdt points boundaryPnl endTotalPnl
    let totals := points.map PnlPoint.totalPnlUsdt
    (∃ x, IsGreatest {x | ∃ u v, UpTo totals u v ∧ x = u - v} x ∧
        performance.maxDrawdownUsdt = cleanZero x) ∧
      (∀ principal ∈ principalUsdt, (∀ u ∈ totals, 0 < impliedNav principal points u) →
        ∃ x, IsGreatest {x | ∃ u v, UpTo totals u v ∧
            x = (impliedNav principal points u - impliedNav principal points v)
              / impliedNav principal points u} x ∧
          performance.maxDrawdownRatio = some (cleanZero x)) ∧
      performance.currentDrawdownUsdt ≤ performance.maxDrawdownUsdt ∧
      ∀ x ∈ performance.currentDrawdownRatio, ∃ y ∈ performance.maxDrawdownRatio, x ≤ y := by
  intro performance totals
  have hne : points ≠ [] := List.ne_nil_of_length_pos (by omega)
  refine ⟨?_, ?_, current_le_max strategyStartMs endMs principalUsdt boundaryPnl endTotalPnl hne⟩
  · obtain ⟨first, rest, rfl⟩ := List.exists_cons_of_ne_nil hne
    have hgreatest := @scanPeaks_isGreatest_upTo _ _ _ _ (· - ·) first.totalPnlUsdt
      (rest.map PnlPoint.totalPnlUsdt) fun x _ y _ v _ hxy => sub_le_sub_right hxy v
    refine ⟨_, hgreatest, ?_⟩
    obtain ⟨hpeak, hzero, -⟩ := @step_first (principalUsdt.filter (0 < ·))
      (((first :: rest).getLast?.map PnlPoint.totalPnlUsdt).getD 0) first
    rw [sub_self, ← hzero, ← foldl_maxUsdt hpeak]
    rfl
  · rintro principal rfl hnav
    set endRelative := (points.getLast?.map PnlPoint.totalPnlUsdt).getD 0 with hend
    have hsub : ∀ u v, impliedNav principal points u - impliedNav principal points v = u - v :=
      fun u v => by
        unfold impliedNav
        ring
    have hpositive : 0 < principal := by
      have hlast := hnav (points.getLast hne).totalPnlUsdt
        (List.mem_map_of_mem (List.getLast_mem hne))
      rw [impliedNav, List.getLast?_eq_some_getLast hne, Option.map_some, Option.getD_some] at hlast
      linarith
    simp only [hsub]
    unfold impliedNav at hnav ⊢
    obtain ⟨first, rest, rfl⟩ := List.exists_cons_of_ne_nil hne
    have hgreatest := @scanPeaks_isGreatest_upTo _ _ _ _
      (fun u v => (u - v) / (principal + u - endRelative)) first.totalPnlUsdt
      (rest.map PnlPoint.totalPnlUsdt) fun x hx y _ v hv hxy => by
        have hc := @relative_fall_le (principal - endRelative) x y v
          (by linarith [hnav x hx]) (by linarith [hnav v hv]) hxy
        rwa [sub_add_eq_add_sub, sub_add_eq_add_sub] at hc
    refine ⟨_, hgreatest, ?_⟩
    obtain ⟨hpeak, -, hzero⟩ := @step_first (some principal) endRelative first
    have hfirst : 0 < principal + first.totalPnlUsdt - endRelative :=
      hnav _ (List.mem_map_of_mem List.mem_cons_self)
    have hfilter : (some principal).filter (0 < ·) = some principal := by
      simp [hpositive]
    rw [sub_self, zero_div, ← hzero, ← foldl_maxRatio hpeak hfirst]
    simp only [performance, buildPerformance, hfilter]
    rfl

def tinyFall : List PnlPoint := [{ ts := 0, totalPnlUsdt := 1 / 10 ^ 13 }, { ts := 1 }]

/-- A drawdown of 10⁻¹³ is reported as zero. -/
theorem tiny_drawdown_cleaned :
    (buildPerformance 0 1 none tinyFall [] 0).maxDrawdownUsdt = 0 ∧
      ¬IsGreatest {x | ∃ u v, UpTo (tinyFall.map PnlPoint.totalPnlUsdt) u v ∧ x = u - v}
        (buildPerformance 0 1 none tinyFall [] 0).maxDrawdownUsdt := by
  have hzero : (buildPerformance 0 1 none tinyFall [] 0).maxDrawdownUsdt = 0 := by decide +kernel
  refine ⟨hzero, fun hgreatest => ?_⟩
  rw [hzero] at hgreatest
  have hle : (1 / 10 ^ 13 - 0 : ℚ) ≤ 0 :=
    hgreatest.2 ⟨_, _, ⟨[1 / 10 ^ 13], [], rfl, List.mem_cons_self⟩, rfl⟩
  norm_num at hle

/-- Two peaks: the second one is higher, and the fall from it is the greater one, but not relative to
    the NAV. -/
def twoPeaks : List PnlPoint :=
  [{ ts := 0, totalPnlUsdt := 10 }, { ts := 1 }, { ts := 2, totalPnlUsdt := 50 },
    { ts := 3, totalPnlUsdt := 39 }, { ts := 4, totalPnlUsdt := 40 }]

theorem twoPeaks_isGreatest :
    (buildPerformance 0 4 (some 100) twoPeaks [] 40).maxDrawdownUsdt = 11 ∧
      (buildPerformance 0 4 (some 100) twoPeaks [] 40).maxDrawdownRatio = some (1 / 7) ∧
      (∃ x, IsGreatest {x | ∃ u v, UpTo (twoPeaks.map PnlPoint.totalPnlUsdt) u v ∧ x = u - v} x ∧
        (buildPerformance 0 4 (some 100) twoPeaks [] 40).maxDrawdownUsdt = cleanZero x) ∧
      ∃ x, IsGreatest {x | ∃ u v, UpTo (twoPeaks.map PnlPoint.totalPnlUsdt) u v ∧
          x = (impliedNav 100 twoPeaks u - impliedNav 100 twoPeaks v)
            / impliedNav 100 twoPeaks u} x ∧
        (buildPerformance 0 4 (some 100) twoPeaks [] 40).maxDrawdownRatio = some (cleanZero x) := by
  obtain ⟨husdt, hratio, -⟩ :=
    drawdowns_isGreatest 0 4 (some 100) [] 40 (show 2 ≤ twoPeaks.length by decide)
  exact ⟨by decide +kernel, by decide +kernel, husdt, hratio 100 rfl (by decide +kernel)⟩

end CryptoNav.Pnl
