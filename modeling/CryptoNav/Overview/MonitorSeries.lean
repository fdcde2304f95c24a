import CryptoNav.Overview.Drawdown
import Mathlib.Data.List.Chain

/-!
# The NAV monitor series

`monitor_value` of `fr_overview.rs` gives the PnL of an account at its start, at every full four
hours after it and at the time of the reconstruction. The times are made twice, once for the replay
to capture and once to look the values up by, and the last value is not looked up at all. Every time
has a value, and it is the PnL since the start (`monitor_series_complete`).

That the times are made twice is the reason for the file: two loops with the same constants
agree only if they begin and end alike, and a look-up that misses would leave a value out
silently. The values themselves are those of the replay, about which nothing is proved here.
-/

set_option autoImplicit false

namespace CryptoNav.Overview

open CryptoNav.Lib CryptoNav.Pnl
open Drawdown (monitorInterval monitorTicks monitorBoundaries reconstruct)

structure MonitorPoint where
  tsMs : ℤ
  pnlQuote : ℚ
  deriving DecidableEq

structure MonitorValue where
  sourceId : String
  startMs : Option ℤ
  endMs : Option ℤ
  generatedAtMs : ℤ
  intervalHours : ℕ := 4
  valuation : String
  funding : String := "actual"
  complete : Bool
  loading : Bool
  unavailableReason : Option String
  points : List MonitorPoint

/-- The points, if there is a value for each. -/
def monitorPoints (realized : Bool) (r : Reconstruction History) : Option (List MonitorPoint) :=
  let values := if realized then r.history.realizedBoundaries else r.history.boundaries
  let baseline := (values.find? (·.1 = r.start)).map (·.2)
  (monitorBoundaries r.start r.atMs).toOption.bind fun ticks =>
    ticks.mapM fun ts => do
      let value ←
        if ts = r.atMs ∧ ts ≠ r.start then
          some (if realized then r.history.finalRealizedNet else r.history.finalPnl)
        else (values.find? (·.1 = ts)).map (·.2)
      return { tsMs := ts, pnlQuote := value - (← baseline) }

def monitorValue (account : Account History) (time : ℤ) : MonitorValue :=
  match account.monitorReconstruction with
  | none =>
    { sourceId := account.row.sourceId
      startMs := none
      endMs := none
      generatedAtMs := time
      valuation := ""
      complete := false
      loading := account.historyError.isNone
      unavailableReason := some (account.historyError.getD "NAV 历史重算中")
      points := [] }
  | some r =>
    let realized := decide (account.row.accountKind = "fr")
    let points := monitorPoints realized r
    let stale := decide (time - r.atMs > 600000)
    { sourceId := account.row.sourceId
      startMs := some r.start
      endMs := some r.atMs
      generatedAtMs := r.atMs
      valuation :=
        if realized then "realized_fifo_after_fees_funding_interest"
        else "nav_latest_trade_after_fees_funding_interest"
      complete := points.isSome && !stale
      loading := false
      unavailableReason :=
        if points.isNone then some "NAV 采样尚未就绪"
        else if stale then some "NAV 历史更新已过期"
        else none
      points := points.getD [] }

/-! ## The times -/

/-- Later, but not by more than the interval. The last step may be shorter than the others. -/
def Follows (t u : ℤ) : Prop := t < u ∧ u - t ≤ monitorInterval

/-- From any time on, the ticks up to the end follow one another, and the end follows the last. -/
theorem monitorTicks_chain {t tick ending : ℤ} {fuel : ℕ} (ht : Follows t tick) (hend : t < ending)
    (hfuel : ending ≤ tick + monitorInterval * fuel) :
    (t :: (monitorTicks tick ending fuel ++ [ending])).IsChain Follows := by
  have hlast : ending ≤ tick → Follows t ending := fun hle =>
    ⟨hend, (sub_le_sub_right hle t).trans ht.2⟩
  induction fuel generalizing t tick with
  | zero =>
    rw [Nat.cast_zero, mul_zero, add_zero] at hfuel
    rw [monitorTicks, List.nil_append, List.isChain_cons_cons]
    exact ⟨hlast hfuel, List.isChain_singleton _⟩
  | succ fuel ih =>
    rw [monitorTicks]
    split
    · rename_i htick
      have hpos : 0 < monitorInterval := by decide
      have hnext : Follows tick (tick + monitorInterval) :=
        ⟨lt_add_of_pos_right _ hpos, (add_sub_cancel_left tick monitorInterval).le⟩
      rw [List.cons_append, List.isChain_cons_cons]
      refine ⟨ht, ih hnext htick ?_ fun hle => ⟨htick, ?_⟩⟩
      · rw [Nat.cast_succ, mul_add, mul_one] at hfuel
        omega
      · exact (sub_le_sub_right hle tick).trans hnext.2
    · rename_i htick
      rw [List.nil_append, List.isChain_cons_cons]
      exact ⟨hlast (not_lt.mp htick), List.isChain_singleton _⟩

theorem mem_monitorTicks {t tick ending : ℤ} {fuel : ℕ} (h : t ∈ monitorTicks tick ending fuel) :
    t < ending := by
  induction fuel generalizing tick with
  | zero => cases h
  | succ fuel ih =>
    rw [monitorTicks] at h
    split at h
    · rcases List.mem_cons.mp h with rfl | h
      · assumption
      · exact ih h
    · cases h

/-- The times from the start to the end. -/
theorem monitorBoundaries_chain {start ending : ℤ} {ticks : List ℤ}
    (h : monitorBoundaries start ending = .ok ticks) :
    ticks.head? = some start ∧ ticks.getLast? = some ending ∧ ticks.IsChain Follows ∧
      ∀ t ∈ ticks, t ≤ ending := by
  unfold monitorBoundaries at h
  split at h
  · cases h
  rename_i hbounds
  obtain ⟨-, hle⟩ := not_not.mp hbounds
  split at h
  · cases h
  rename_i hsize
  obtain rfl := Except.ok.inj h
  rw [List.cons_append]
  refine ⟨rfl, ?_⟩
  have hinterval : monitorInterval = 14400000 := rfl
  rcases hle.eq_or_lt with rfl | hlt
  · have hnone : monitorTicks ((start / monitorInterval + 1) * monitorInterval) start 100000 = [] := by
      rw [monitorTicks, if_neg]
      rw [hinterval]
      omega
    rw [if_neg (lt_irrefl start), hnone]
    exact ⟨rfl, List.isChain_singleton _, fun t ht => (List.mem_singleton.mp ht).le⟩
  · rw [if_pos hlt]
    refine ⟨?_, monitorTicks_chain ?_ hlt ?_, ?_⟩
    · rw [← List.cons_append, List.getLast?_concat]
    · rw [Follows, hinterval]
      omega
    · rw [hinterval] at hsize ⊢
      push_cast
      omega
    · intro t ht
      rcases List.mem_cons.mp ht with rfl | ht
      · exact hle
      · rcases List.mem_append.mp ht with ht | ht
        · exact (mem_monitorTicks ht).le
        · exact (List.mem_singleton.mp ht).le

/-! ## The values -/

/-- The gain that the series shows, before or after the events of a time. -/
def monitorMetric (realized : Bool) : Metrics → ℚ :=
  if realized then realizedNetPnl else Metrics.totalPnlUsdt

/-- The events that are counted at a time: those before it, and at the end those of its time too. -/
def countedAt (r : Reconstruction History) (t : ℤ) (e : PnlEvent) : Bool :=
  if t = r.atMs ∧ t ≠ r.start then decide (e.ts ≤ t) else decide (e.ts < t)

theorem mapM_forall₂ {α β : Type} {f : α → Option β} {P : α → β → Prop} {l : List α}
    (h : ∀ a ∈ l, ∃ b, f a = some b ∧ P a b) : ∃ bs, l.mapM f = some bs ∧ l.Forall₂ P bs := by
  induction l with
  | nil => exact ⟨[], rfl, .nil⟩
  | cons a l ih =>
    obtain ⟨⟨b, hb, hP⟩, hl⟩ := List.forall_mem_cons.mp h
    obtain ⟨bs, hbs, hforall⟩ := ih hl
    exact ⟨b :: bs, by rw [List.mapM_cons, hb, hbs]; rfl, .cons hP hforall⟩

theorem exists_of_mem_right {α β : Type} {P : α → β → Prop} {l : List α} {bs : List β}
    (h : l.Forall₂ P bs) {b : β} (hb : b ∈ bs) : ∃ a ∈ l, P a b := by
  induction h with
  | nil => cases hb
  | cons hP _ ih =>
    rcases List.mem_cons.mp hb with rfl | hb
    · exact ⟨_, List.mem_cons_self, hP⟩
    · obtain ⟨a, ha, hP⟩ := ih hb
      exact ⟨a, List.mem_cons_of_mem _ ha, hP⟩

/-- What has been captured at a time is found there. -/
theorem find?_captured {values : List (ℤ × ℚ)} {t : ℤ} (h : t ∈ values.map (·.1)) :
    ∃ x, (values.find? (·.1 = t)).map (·.2) = some x ∧ (t, x) ∈ values := by
  cases hfind : values.find? (·.1 = t) with
  | none =>
    obtain ⟨c, hc, rfl⟩ := List.mem_map.mp h
    exact absurd (decide_eq_true rfl) (List.find?_eq_none.mp hfind c hc)
  | some c =>
    have hkey : c.1 = t := by simpa using List.find?_some hfind
    exact ⟨c.2, rfl, hkey ▸ List.mem_of_find?_eq_some hfind⟩

variable {source : PnlSourceKind} {inputs : PnlInputs}

/-- Every time has a value. -/
theorem exists_value {r : Reconstruction History} {start : ℤ} {boundaries : List ℤ}
    (h : replay source inputs start r.atMs boundaries = .ok r.history) (realized : Bool) {t : ℤ}
    (ht : t ∈ boundaries) (hle : t ≤ r.atMs) :
    ∃ x, ((if realized then r.history.realizedBoundaries else r.history.boundaries).find?
        (·.1 = t)).map (·.2) = some x ∧
      gainAfter (monitorMetric realized) source inputs (inputs.sortedEvents.filter (·.ts < t))
        = .ok x := by
  obtain ⟨_, hpassed, hfinish⟩ := passed_of_replay h
  have hcaptures := hpassed.captures
  rw [hfinish] at hcaptures
  have hmem : t ∈ sortedSet (boundaries.filter (· ≤ r.atMs)) :=
    mem_sortedSet.mpr (List.mem_filter.mpr ⟨ht, decide_eq_true hle⟩)
  cases realized with
  | false =>
    obtain ⟨x, hx, hvalue⟩ := find?_captured (hcaptures.boundaryKeys ▸ hmem)
    exact ⟨x, hx, hcaptures.boundary _ hvalue⟩
  | true =>
    obtain ⟨x, hx, hvalue⟩ := find?_captured (hcaptures.realizedKeys ▸ hmem)
    exact ⟨x, hx, hcaptures.realizedBoundary _ hvalue⟩

theorem final_value {r : Reconstruction History} {start : ℤ} {boundaries : List ℤ}
    (h : replay source inputs start r.atMs boundaries = .ok r.history) (realized : Bool) :
    gainAfter (monitorMetric realized) source inputs (inputs.sortedEvents.filter (·.ts ≤ r.atMs))
      = .ok (if realized then r.history.finalRealizedNet else r.history.finalPnl) := by
  cases realized with
  | true => exact finalRealizedNet_of_replay h
  | false =>
    obtain ⟨_, hpassed, hfinish⟩ := passed_of_replay h
    have hcaptures := hpassed.captures
    rw [hfinish] at hcaptures
    exact hcaptures.point _
      (hcaptures.points_eq ▸ List.mem_append_right _ (List.mem_singleton.mpr rfl))

/-- The points of the series, from the times of which all up to the end have been captured. -/
theorem monitorPoints_eq_some {r : Reconstruction History} {start : ℤ} {boundaries ticks : List ℤ}
    (h : replay source inputs start r.atMs boundaries = .ok r.history)
    (hticks : monitorBoundaries r.start r.atMs = .ok ticks) (hsubset : ticks ⊆ boundaries)
    (realized : Bool) : ∃ points base, monitorPoints realized r = some points ∧
      gainAfter (monitorMetric realized) source inputs
        (inputs.sortedEvents.filter (·.ts < r.start)) = .ok base ∧
      ticks.Forall₂ (fun t point => point.tsMs = t ∧
        gainAfter (monitorMetric realized) source inputs
          (inputs.sortedEvents.filter (countedAt r t)) = .ok (base + point.pnlQuote)) points := by
  obtain ⟨hhead, -, -, hle⟩ := monitorBoundaries_chain hticks
  have hstart : r.start ∈ ticks := List.mem_of_head? hhead
  obtain ⟨base, hbase, hgain⟩ := exists_value h realized (hsubset hstart) (hle _ hstart)
  have hvalue : ∀ t ∈ ticks, ∃ point : MonitorPoint,
      (do
        let value ←
          if t = r.atMs ∧ t ≠ r.start then
            some (if realized then r.history.finalRealizedNet else r.history.finalPnl)
          else ((if realized then r.history.realizedBoundaries else r.history.boundaries).find?
            (·.1 = t)).map (·.2)
        return ({ tsMs := t, pnlQuote := value - (← some base) } : MonitorPoint)) = some point ∧
      point.tsMs = t ∧ gainAfter (monitorMetric realized) source inputs
        (inputs.sortedEvents.filter (countedAt r t)) = .ok (base + point.pnlQuote) := by
    intro t ht
    by_cases hlast : t = r.atMs ∧ t ≠ r.start
    · refine ⟨_, by rw [if_pos hlast]; rfl, rfl, ?_⟩
      have hcounted : countedAt r t = fun e => decide (e.ts ≤ r.atMs) := by
        funext e
        rw [countedAt, if_pos hlast, hlast.1]
      rw [hcounted, add_sub_cancel]
      exact final_value h realized
    · obtain ⟨x, hx, hgain⟩ := exists_value h realized (hsubset ht) (hle t ht)
      refine ⟨_, by rw [if_neg hlast, hx]; rfl, rfl, ?_⟩
      have hcounted : countedAt r t = fun e => decide (e.ts < t) := by
        funext e
        rw [countedAt, if_neg hlast]
      rw [hcounted, add_sub_cancel]
      exact hgain
  obtain ⟨points, hpoints, hforall⟩ := mapM_forall₂ hvalue
  refine ⟨points, base, ?_, hgain, hforall⟩
  unfold monitorPoints
  rw [hticks]
  simp only [hbase]
  exact hpoints

/-- **The series is complete**: a reconstruction that could be made has a value for each of its
    times, and that is what has been gained since the start. No time is looked up in vain, the last
    one included, whose value is the total of the replay. -/
theorem monitor_series_complete {account : Account History} {r : Reconstruction History}
    {equity : Option ℚ} (haccount : account.monitorReconstruction = some r)
    (hhistory : (reconstruct source inputs r.start r.atMs equity).map (·.history) = .ok r.history)
    (time : ℤ) :
    let value := monitorValue account time
    let metric := monitorMetric (decide (account.row.accountKind = "fr"))
    monitorPoints (decide (account.row.accountKind = "fr")) r = some value.points ∧
      (value.points.map MonitorPoint.tsMs).head? = some r.start ∧
      (value.points.map MonitorPoint.tsMs).getLast? = some r.atMs ∧
      (value.points.map MonitorPoint.tsMs).IsChain Follows ∧
      value.points.head?.map MonitorPoint.pnlQuote = some 0 ∧
      ∃ base, gainAfter metric source inputs (inputs.sortedEvents.filter (·.ts < r.start)) = .ok base ∧
        ∀ point ∈ value.points, gainAfter metric source inputs
          (inputs.sortedEvents.filter (countedAt r point.tsMs)) = .ok (base + point.pnlQuote) := by
  intro value metric
  cases hreconstruct : reconstruct source inputs r.start r.atMs equity with
  | error e =>
    rw [hreconstruct] at hhistory
    cases hhistory
  | ok made =>
    rw [hreconstruct] at hhistory
    obtain ⟨ticks, hticks, hmade⟩ := bind_eq_ok.mp hreconstruct
    obtain ⟨history, hreplay, hmade⟩ := bind_eq_ok.mp hmade
    obtain rfl := pure_eq_ok.mp hmade
    obtain rfl : history = r.history := Except.ok.inj hhistory
    obtain ⟨points, base, hpoints, hbase, hforall⟩ := monitorPoints_eq_some hreplay hticks
      (List.subset_append_right _ _) (decide (account.row.accountKind = "fr"))
    obtain ⟨hhead, hlast, hchain, -⟩ := monitorBoundaries_chain hticks
    have hvalue : value.points = points := by
      simp only [value, monitorValue, haccount, hpoints, Option.getD_some]
    have htimes : ticks = points.map MonitorPoint.tsMs := by
      rw [← List.forall₂_eq_eq_eq, List.forall₂_map_right_iff]
      exact hforall.imp fun _ _ h => h.1.symm
    have hgains : ∀ point ∈ points, gainAfter metric source inputs
        (inputs.sortedEvents.filter (countedAt r point.tsMs)) = .ok (base + point.pnlQuote) := by
      intro point hpoint
      obtain ⟨t, -, rfl, hgain⟩ := exists_of_mem_right hforall hpoint
      exact hgain
    rw [hvalue, ← htimes]
    refine ⟨hpoints, hhead, hlast, hchain, ?_, base, hbase, hgains⟩
    rw [htimes, List.head?_map] at hhead
    obtain ⟨first, hfirst, hstart⟩ := Option.map_eq_some_iff.mp hhead
    have hgain := hgains first (List.mem_of_head? hfirst)
    -- Nothing of the start itself is counted at the start.
    have hcounted : countedAt r first.tsMs = fun e => decide (e.ts < r.start) := by
      funext e
      rw [hstart, countedAt, if_neg fun h => h.2 rfl]
    rw [hcounted, hbase] at hgain
    rw [hfirst, Option.map_some, left_eq_add.mp (Except.ok.inj hgain)]

/-- An account that gets a funding at its second tick. -/
def monitoredAccount : Account History where
  row := { sourceId := "binance-fr-arb01", accountKind := "fr" }
  monitorReconstruction := some
    { atMs := 14400005
      equity := none
      start := 14399990
      history :=
        { boundaries := [(14399990, 0), (14400000, 0), (14400005, 5)]
          points := [(14400000, 5), (14400005, 5)]
          realizedBoundaries := [(14399990, 0), (14400000, 0), (14400005, 5)]
          finalRealizedNet := 5
          finalPnl := 5
          startPnl := 0 } }

theorem monitoredAccount_complete :
    (monitorValue monitoredAccount 14400005).points
        = [⟨14399990, 0⟩, ⟨14400000, 0⟩, ⟨14400005, 5⟩] ∧
      ((monitorValue monitoredAccount 14400005).points.map MonitorPoint.tsMs).IsChain Follows ∧
      ∃ base, gainAfter realizedNetPnl .intra (Drawdown.funded 5 14400000)
          ((Drawdown.funded 5 14400000).sortedEvents.filter (·.ts < 14399990)) = .ok base := by
  obtain ⟨-, -, -, hchain, -, base, hbase, -⟩ := @monitor_series_complete .intra
    (Drawdown.funded 5 14400000) monitoredAccount _ none rfl (by decide +kernel) 14400005
  exact ⟨by decide +kernel, hchain, base, hbase⟩

end CryptoNav.Overview
