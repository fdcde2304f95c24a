import CryptoNav.Overview.Refresh
import CryptoNav.Pnl.Captures

/-!
# The drawdown of an account

`reconstruct` and `Reconstruction::drawdown` of `fr_overview.rs`, in exact arithmetic. An account's
equity is known at one time; the replay of its records says how it got there, so that its equity at
any other time is known as well. The replay keeps the changes of the last 46 days only, and
`drawdown` looks back 15 days from any time at which the account already existed. What it finds is
the drawdown of the equity curve just when these 15 days lie within the 46 (`drawdown_exact_iff`).

The records come from the database and the equity from the host of the account, both inputs. The
arithmetic is exact because the drawdown that is meant is one of mathematics; the program's own
sums are rounded at every record, and how far that takes them off is left out. The two spans of
days are constants of the source.
-/

set_option autoImplicit false

namespace CryptoNav.Overview.Drawdown

open CryptoNav.Lib CryptoNav.Pnl

/-! ## Reconstruction -/

structure Reconstruction where
  atMs : ℤ
  equity : Option ℚ
  start : ℤ
  history : History

def monitorInterval : ℤ := 4 * 3600000

/-- The `while` of `monitor_boundaries`; its guard bounds the number of ticks. -/
def monitorTicks (tick ending : ℤ) : ℕ → List ℤ
  | 0 => []
  | fuel + 1 =>
    if tick < ending then tick :: monitorTicks (tick + monitorInterval) ending fuel else []

def monitorBoundaries (start ending : ℤ) : Except PnlError (List ℤ) :=
  if ¬(0 < start ∧ start ≤ ending) then .error (.message "invalid monitoring history bounds")
  else if 99998 < (ending - start) / monitorInterval then
    .error (.message "monitoring history too large")
  else .ok (start :: monitorTicks ((start / monitorInterval + 1) * monitorInterval) ending 100000
    ++ if start < ending then [ending] else [])

/-- What `reconstruct` makes of the account's records from `start` to `atMs`. -/
def reconstruct (source : PnlSourceKind) (inputs : PnlInputs) (start atMs : ℤ)
    (equity : Option ℚ) : Except PnlError Reconstruction := do
  let boundaries := ((List.range 47).map fun i : ℕ => day atMs - i * dayMs).filter (start ≤ ·)
  let ticks ← monitorBoundaries start atMs
  let history ← replay source inputs (atMs - 46 * dayMs) atMs (boundaries ++ ticks)
  return { atMs, equity, start, history }

/-! ## The drawdown, as it is computed -/

/-- How far `equity` is below `peak`, in percent of it. -/
def fallPercent (peak equity : ℚ) : ℚ := (peak - equity) / peak * 100

namespace Reconstruction

/-- The total at a time: captured, or that of the last point before it, or of the start. -/
def startPnl (r : Reconstruction) (start : ℤ) : ℚ :=
  ((r.history.boundaries.find? (·.1 = start)).map (·.2)).getD
    (((r.history.points.reverse.find? (·.1 < start)).map (·.2)).getD r.history.startPnl)

def drawdown (r : Reconstruction) (ending : ℤ) : Option ℚ := do
  let anchorEquity ← r.equity
  let start := ending - 15 * dayMs
  if start < r.start then none
  else
    let peak := anchorEquity - r.history.finalPnl + r.startPnl start
    if peak ≤ 0 then none
    else
      let points := r.history.points.filter fun c => start ≤ c.1 ∧ c.1 ≤ ending
      some (points.foldl (fun (state : ℚ × ℚ) point =>
        let equity := anchorEquity - r.history.finalPnl + point.2
        let peak := max state.1 equity
        (peak, max state.2 (fallPercent peak equity))) (peak, 0)).2

end Reconstruction

/-! ## The drawdown, as it is meant -/

/-- The equity after `events`, for an account that has the equity `anchor` at `atMs`. -/
def equityAfter (source : PnlSourceKind) (inputs : PnlInputs) (atMs : ℤ) (anchor : ℚ)
    (events : List PnlEvent) : ℚ :=
  let gain events := (gainAfter Metrics.totalPnlUsdt source inputs events).toOption.getD 0
  anchor - gain (inputs.sortedEvents.filter (·.ts ≤ atMs)) + gain events

/-- `x` is the greatest fall of the equity curve, in percent of its peak so far, from the equity
    before the events of 15 days before `ending` up to that after all events of `ending`. -/
def IsDrawdown (source : PnlSourceKind) (inputs : PnlInputs) (atMs : ℤ) (anchor : ℚ) (ending : ℤ)
    (x : ℚ) : Prop :=
  IsGreatestFall fallPercent
    (equityAfter source inputs atMs anchor
      (inputs.sortedEvents.filter (·.ts < ending - 15 * dayMs)))
    (fun t => equityAfter source inputs atMs anchor (inputs.sortedEvents.filter (·.ts ≤ t)))
    (ending - 15 * dayMs) ending x

/-- Whatever the account's records and its equity, a drawdown that is given is the drawdown. It is a
    condition on three times alone. -/
def Exact (start atMs ending : ℤ) : Prop :=
  ∀ source inputs equity r, reconstruct source inputs start atMs equity = .ok r →
    ∀ x, r.drawdown ending = some x →
      ∃ anchor, equity = some anchor ∧ IsDrawdown source inputs atMs anchor ending x

/-! ## Where the points reach back far enough -/

theorem foldl_fall (base : ℚ) (points : List (ℤ × ℚ)) (peak greatest : ℚ) :
    (points.foldl (fun (state : ℚ × ℚ) point =>
      (max state.1 (base + point.2),
        max state.2 (fallPercent (max state.1 (base + point.2)) (base + point.2))))
      (peak, greatest)).2
      = scanPeaks fallPercent peak greatest (points.map fun c => base + c.2) := by
  induction points generalizing peak greatest with
  | nil => rfl
  | cons c points ih => exact ih _ _

theorem fallPercent_self (peak : ℚ) : fallPercent peak peak = 0 := by
  rw [fallPercent, sub_self, zero_div, zero_mul]

/-- A drawdown that is given, taken apart. -/
theorem drawdown_eq_some {r : Reconstruction} {ending : ℤ} {x : ℚ}
    (h : r.drawdown ending = some x) : ∃ anchor, r.equity = some anchor ∧
      r.start ≤ ending - 15 * dayMs ∧
      x = scanPeaks fallPercent
        (anchor - r.history.finalPnl + r.startPnl (ending - 15 * dayMs)) 0
        ((r.history.points.filter fun c => ending - 15 * dayMs ≤ c.1 ∧ c.1 ≤ ending).map
          fun c => anchor - r.history.finalPnl + c.2) := by
  obtain ⟨anchor, hanchor, h⟩ := Option.bind_eq_some_iff.mp h
  refine ⟨anchor, hanchor, ?_⟩
  simp only at h
  split at h
  · cases h
  · rename_i hstart
    split at h
    · cases h
    · rw [foldl_fall] at h
      exact ⟨not_lt.mp hstart, (Option.some.inj h).symm⟩

/-- And put together. -/
theorem drawdown_of_pos {r : Reconstruction} {ending : ℤ} {anchor : ℚ}
    (hanchor : r.equity = some anchor) (hstart : r.start ≤ ending - 15 * dayMs)
    (hpos : 0 < anchor - r.history.finalPnl + r.startPnl (ending - 15 * dayMs)) :
    r.drawdown ending = some (scanPeaks fallPercent
      (anchor - r.history.finalPnl + r.startPnl (ending - 15 * dayMs)) 0
      ((r.history.points.filter fun c => ending - 15 * dayMs ≤ c.1 ∧ c.1 ≤ ending).map
        fun c => anchor - r.history.finalPnl + c.2)) := by
  unfold Reconstruction.drawdown
  rw [hanchor]
  simp only [Option.bind_eq_bind, Option.bind_some]
  rw [if_neg (not_lt.mpr hstart), if_neg (not_le.mpr hpos), foldl_fall]

/-- A time that the points reach back to has the total of the events before it, captured or not. -/
theorem startPnl_eq {source : PnlSourceKind} {inputs : PnlInputs} {replayStart low : ℤ}
    {boundaries : List ℤ} {r : Reconstruction}
    (h : Captures source inputs replayStart r.atMs boundaries r.history) (hlow : replayStart ≤ low)
    (hle : low ≤ r.atMs) : gainAfter Metrics.totalPnlUsdt source inputs
      (inputs.sortedEvents.filter (·.ts < low)) = .ok (r.startPnl low) := by
  have hpoint : ∀ e ∈ inputs.sortedEvents, replayStart ≤ e.ts → e.ts < low →
      ∃ c ∈ r.history.points, c.1 = e.ts := fun e he hstart hlt =>
    h.exists_point he hstart (hlt.le.trans hle)
  unfold Reconstruction.startPnl
  cases hfind : r.history.boundaries.find? (·.1 = low) with
  | some c =>
    have hkey : c.1 = low := by simpa using List.find?_some hfind
    have hvalue := h.boundary c (List.mem_of_find?_eq_some hfind)
    rw [hkey] at hvalue
    exact hvalue
  | none =>
    cases hlast : r.history.points.reverse.find? (·.1 < low) with
    | some c =>
      obtain ⟨hclow, later, before, hsplit, hlater⟩ := List.find?_eq_some_iff_append.mp hlast
      replace hclow : c.1 < low := of_decide_eq_true hclow
      have hpoints : r.history.points = before.reverse ++ c :: later.reverse := by
        rw [← List.reverse_reverse r.history.points, hsplit]
        simp
      have hc : c ∈ r.history.points := hpoints ▸ List.mem_append_right _ List.mem_cons_self
      have hgreatest : ∀ d ∈ r.history.points, d.1 < low → d.1 ≤ c.1 := by
        intro d hd hdlow
        have hsorted := h.isCurve.sorted
        rw [hpoints] at hd hsorted
        rcases List.mem_append.mp hd with hd | hd
        · exact (List.pairwise_append.mp hsorted).2.2 d hd c List.mem_cons_self
        · rcases List.mem_cons.mp hd with rfl | hd
          · exact le_rfl
          · have := hlater d (List.mem_reverse.mp hd)
            simp [hdlow] at this
      have hcstart : replayStart ≤ c.1 := by
        rw [h.points_eq] at hc
        rcases List.mem_append.mp hc with hc | hc
        · exact ((h.pointKeys c.1).mp (List.mem_map_of_mem hc)).1
        · rw [List.mem_singleton.mp hc] at hclow
          exact absurd hle (not_le.mpr hclow)
      refine Eq.trans (congrArg _ (List.filter_congr fun e he => ?_)) (h.point c hc)
      refine decide_eq_decide.mpr ⟨fun hlt => ?_, fun hle => hle.trans_lt hclow⟩
      by_cases hstart : replayStart ≤ e.ts
      · obtain ⟨d, hd, hts⟩ := hpoint e he hstart hlt
        exact hts ▸ hgreatest d hd (hts ▸ hlt)
      · exact (not_le.mp hstart).le.trans hcstart
    | none =>
      -- No event from the start of the replay to the time.
      have hnone := List.find?_eq_none.mp hlast
      refine Eq.trans (congrArg _ (List.filter_congr fun e he => ?_)) h.startPnl
      refine decide_eq_decide.mpr ⟨fun hlt => ⟨?_, hlt.le.trans hle⟩, fun hlt => hlt.1.trans_le hlow⟩
      by_contra hstart
      obtain ⟨c, hc, hts⟩ := hpoint e he (not_lt.mp hstart) hlt
      exact hnone c (List.mem_reverse.mpr hc) (decide_eq_true (hts ▸ hlt))

/-- **The drawdown is the drawdown** where the 15 days lie within the days that were replayed. -/
theorem drawdown_of_replayed {start atMs ending : ℤ} (hend : ending ≤ atMs)
    (hrange : atMs - 46 * dayMs ≤ ending - 15 * dayMs) : Exact start atMs ending := by
  intro source inputs equity r hr x hx
  obtain ⟨ticks, -, hr⟩ := bind_eq_ok.mp hr
  obtain ⟨history, hreplay, hr⟩ := bind_eq_ok.mp hr
  obtain ⟨anchor, hanchor, -, rfl⟩ := drawdown_eq_some hx
  obtain rfl := pure_eq_ok.mp hr
  refine ⟨anchor, hanchor, ?_⟩
  obtain ⟨_, hpassed, hfinish⟩ := passed_of_replay hreplay
  have hcaptures := hpassed.captures
  rw [hfinish] at hcaptures
  have hlow : ending - 15 * dayMs ≤ atMs := by
    have : (0 : ℤ) ≤ dayMs := by decide
    omega
  set r : Reconstruction := { atMs, equity, start, history } with hrdef
  have hopening := startPnl_eq (r := r) hcaptures hrange hlow
  have hfinal : gainAfter Metrics.totalPnlUsdt source inputs
      (inputs.sortedEvents.filter (·.ts ≤ atMs)) = .ok history.finalPnl :=
    hcaptures.point _ (hcaptures.points_eq ▸ List.mem_append_right _ (List.mem_singleton.mpr rfl))
  have hequity : ∀ {events gain}, gainAfter Metrics.totalPnlUsdt source inputs events = .ok gain →
      equityAfter source inputs atMs anchor events = anchor - history.finalPnl + gain := by
    intro events gain hgain
    simp only [equityAfter, hgain, hfinal]
    rfl
  -- The points of the 15 days, as equities.
  have hcurve := (hcaptures.isCurve.filter fun c => decide
    (ending - 15 * dayMs ≤ c.1 ∧ c.1 ≤ ending)).map fun pnl => anchor - history.finalPnl + pnl
  have hwindow : ∀ c ∈ (history.points.filter fun c => decide
      (ending - 15 * dayMs ≤ c.1 ∧ c.1 ≤ ending)).map
        (fun c => (c.1, anchor - history.finalPnl + c.2)),
      c.1 ∈ Set.Icc (ending - 15 * dayMs) ending := by
    intro c hc
    obtain ⟨d, hd, rfl⟩ := List.mem_map.mp hc
    exact of_decide_eq_true (List.mem_filter.mp hd).2
  have hscan := scanPeaks_isGreatestFall fallPercent hcurve hwindow fun t ht =>
    (hequity (hcaptures.stepAt hrange hend ht hopening)).trans (stepAt_map _ t).symm
  rw [List.map_map, fallPercent_self] at hscan
  rw [IsDrawdown, hequity hopening]
  exact hscan

/-! ## Where they do not -/

/-- A funding of one symbol. -/
def funded (amountUsdt : ℚ) (ts : ℤ) : PnlInputs := { funding := [⟨"BTCUSDT", amountUsdt, ts⟩] }

theorem gainAfter_none (source : PnlSourceKind) (amountUsdt : ℚ) (ts : ℤ) :
    gainAfter Metrics.totalPnlUsdt source (funded amountUsdt ts) [] = .ok 0 :=
  congrArg Except.ok (sub_self _)

theorem funded_availableSymbols (amountUsdt : ℚ) (ts : ℤ) :
    (funded amountUsdt ts).availableSymbols = ["BTCUSDT"] := by
  simp [funded, PnlInputs.availableSymbols, sortedSet]

theorem gainAfter_funded (source : PnlSourceKind) (amountUsdt : ℚ) (ts : ℤ) :
    gainAfter Metrics.totalPnlUsdt source (funded amountUsdt ts)
      (funded amountUsdt ts).sortedEvents = .ok amountUsdt := by
  have hevents : (funded amountUsdt ts).sortedEvents = [.funding ⟨"BTCUSDT", amountUsdt, ts⟩] := rfl
  unfold gainAfter
  rw [hevents, funded_availableSymbols]
  simp [funded, initialStates, applyEvent, SymbolState.applyEvent, SymbolState.forSource, sumOver,
    metricsOf, SymbolState.metrics, bind, Except.bind, pure, Except.pure, PnlEvent.symbol]

theorem replay_funded (source : PnlSourceKind) (amountUsdt : ℚ) {ts ending : ℤ} (h : ts ≤ ending)
    (start : ℤ) (boundaries : List ℤ) :
    ∃ history, replay source (funded amountUsdt ts) start ending boundaries = .ok history := by
  have hevents : (funded amountUsdt ts).sortedEvents.filter (·.ts ≤ ending)
      = [.funding ⟨"BTCUSDT", amountUsdt, ts⟩] := List.filter_cons_of_pos (decide_eq_true h)
  unfold replay
  rw [hevents]
  simp [funded, Replay.apply, markStart_eq, Replay.captureThrough, entryOf,
    SymbolState.applyEvent, SymbolState.forSource, SymbolState.metrics, bind, Except.bind, pure,
    Except.pure, PnlEvent.symbol]

/-- The gain of one funding, by whether it counts. -/
theorem gainAfter_counted (source : PnlSourceKind) (amountUsdt : ℚ) (ts : ℤ) {p : PnlEvent → Bool}
    (hp : p (.funding ⟨"BTCUSDT", amountUsdt, ts⟩) = true) :
    gainAfter Metrics.totalPnlUsdt source (funded amountUsdt ts)
      ((funded amountUsdt ts).sortedEvents.filter p) = .ok amountUsdt := by
  have hall : (funded amountUsdt ts).sortedEvents.filter p = (funded amountUsdt ts).sortedEvents :=
    List.filter_cons_of_pos hp
  rw [hall]
  exact gainAfter_funded source amountUsdt ts

theorem gainAfter_uncounted (source : PnlSourceKind) (amountUsdt : ℚ) (ts : ℤ) {p : PnlEvent → Bool}
    (hp : p (.funding ⟨"BTCUSDT", amountUsdt, ts⟩) = false) :
    gainAfter Metrics.totalPnlUsdt source (funded amountUsdt ts)
      ((funded amountUsdt ts).sortedEvents.filter p) = .ok 0 := by
  have hnone : (funded amountUsdt ts).sortedEvents.filter p = [] :=
    List.filter_cons_of_neg (Bool.eq_false_iff.mp hp)
  rw [hnone]
  exact gainAfter_none source amountUsdt ts

/-- **A loss that the points do not reach back to is not seen.** An account loses 50 of 150 just when
    the 15 days begin, before the replay keeps points: the drawdown that is given is 0. -/
theorem lost_before_points {start atMs ending : ℤ} (hbounds : (monitorBoundaries start atMs).isOk)
    (hstart : start ≤ ending - 15 * dayMs) (hrange : ending - 15 * dayMs < atMs - 46 * dayMs) :
    ∃ r, reconstruct .intra (funded (-50) (ending - 15 * dayMs)) start atMs (some 100) = .ok r ∧
      r.drawdown ending = some 0 := by
  have hday : dayMs = 86400000 := rfl
  have hlow : ending - 15 * dayMs ≤ atMs := by omega
  set low := ending - 15 * dayMs with hlowdef
  cases hticks : monitorBoundaries start atMs with
  | error e =>
    rw [hticks] at hbounds
    cases hbounds
  | ok ticks =>
    obtain ⟨history, hreplay⟩ := replay_funded .intra (-50) hlow (atMs - 46 * dayMs)
      (((List.range 47).map fun i : ℕ => day atMs - i * dayMs).filter (start ≤ ·) ++ ticks)
    obtain ⟨_, hpassed, hfinish⟩ := passed_of_replay hreplay
    have hcaptures := hpassed.captures
    rw [hfinish] at hcaptures
    set r : Reconstruction := { atMs, equity := some 100, start, history } with hr
    refine ⟨r, bind_eq_ok.mpr ⟨ticks, hticks, bind_eq_ok.mpr ⟨history, hreplay, rfl⟩⟩, ?_⟩
    have hfinal : history.finalPnl = -50 := by
      have hlast := hcaptures.point _ (hcaptures.points_eq ▸ List.mem_append_right _
        (List.mem_singleton.mpr rfl))
      exact Except.ok.inj
        (hlast.symm.trans (gainAfter_counted .intra (-50) low (decide_eq_true hlow)))
    have hpoints : history.points = [(atMs, -50)] := by
      have hnone : history.points.dropLast = [] := by
        refine List.eq_nil_iff_forall_not_mem.mpr fun c hc => ?_
        obtain ⟨hle, -, e, he, hts⟩ := (hcaptures.pointKeys c.1).mp (List.mem_map_of_mem hc)
        obtain rfl : e = .funding ⟨"BTCUSDT", -50, low⟩ := List.mem_singleton.mp he
        replace hts : low = c.1 := hts
        omega
      rw [hcaptures.points_eq, hnone, hfinal]
      rfl
    -- The opening total is captured before the loss, or else it is the one at the first point.
    have hopening : r.startPnl low = 0 ∨ r.startPnl low = -50 := by
      unfold Reconstruction.startPnl
      cases hfind : r.history.boundaries.find? (·.1 = low) with
      | some c =>
        have hkey : c.1 = low := by simpa using List.find?_some hfind
        have hvalue := hcaptures.boundary c (List.mem_of_find?_eq_some hfind)
        rw [hkey] at hvalue
        exact .inl (Except.ok.inj
          (hvalue.symm.trans (gainAfter_uncounted .intra (-50) low (decide_eq_false (lt_irrefl low)))))
      | none =>
        have hvalue := hcaptures.startPnl.symm.trans
          (gainAfter_counted .intra (-50) low (decide_eq_true ⟨hrange, hlow⟩))
        rw [hpoints, List.reverse_singleton, List.find?_cons_of_neg (by simpa using hlow)]
        exact .inr (Except.ok.inj hvalue)
    have hpositive : 0 < 100 - history.finalPnl + r.startPnl low := by
      rw [hfinal]
      rcases hopening with h | h
      · rw [h]
        norm_num
      · rw [h]
        norm_num
    have hfilter : history.points.filter (fun c => decide (low ≤ c.1 ∧ c.1 ≤ ending)) = [] := by
      rw [hpoints, List.filter_cons_of_neg (by simp; omega), List.filter_nil]
    rw [drawdown_of_pos (r := r) rfl hstart hpositive]
    exact congrArg some (congrArg (scanPeaks fallPercent _ 0 ·) (congrArg (List.map _ ·) hfilter))

theorem equityAfter_funded {ts atMs : ℤ} (hts : ts ≤ atMs) {events : List PnlEvent} {gain : ℚ}
    (h : gainAfter Metrics.totalPnlUsdt .intra (funded (-50) ts) events = .ok gain) :
    equityAfter .intra (funded (-50) ts) atMs 100 events = 150 + gain := by
  have hall := gainAfter_counted .intra (-50) ts (p := fun e => decide (e.ts ≤ atMs))
    (decide_eq_true hts)
  simp only [equityAfter, hall, h, Except.toOption, Option.getD_some]
  norm_num

/-- In truth the account lost a third. -/
theorem not_isDrawdown_zero {atMs ending : ℤ} (hend : ending ≤ atMs) :
    ¬IsDrawdown .intra (funded (-50) (ending - 15 * dayMs)) atMs 100 ending 0 := by
  have hday : dayMs = 86400000 := rfl
  have hlow : ending - 15 * dayMs ≤ atMs := by omega
  set low := ending - 15 * dayMs
  rintro ⟨-, hgreatest⟩
  have hopening := equityAfter_funded hlow (gainAfter_uncounted .intra (-50) low
    (p := fun e => decide (e.ts < low)) (decide_eq_false (lt_irrefl low)))
  have hlost := equityAfter_funded hlow (gainAfter_counted .intra (-50) low
    (p := fun e => decide (e.ts ≤ low)) (decide_eq_true (le_refl low)))
  have hfall := hgreatest (.inr ⟨low, ⟨le_rfl, by omega⟩, 150, ?_, rfl⟩)
  · simp only [hlost] at hfall
    norm_num [fallPercent] at hfall
  · rw [hopening, add_zero]
    refine ⟨.inl rfl, ?_⟩
    rintro v (rfl | ⟨u, ⟨hu, hu'⟩, rfl⟩)
    · exact le_rfl
    · obtain rfl : u = low := le_antisymm hu' hu
      simp only [hlost]
      norm_num

/-- **When the drawdown is exact.** For an account of which a reconstruction can be made, every
    drawdown that is given up to some time is the drawdown of the equity curve, whatever the records
    and the equity, just when the 15 days before it lie within the 46 days before the
    reconstruction, or begin before the account does. -/
theorem drawdown_exact_iff {start atMs ending : ℤ} (hend : ending ≤ atMs)
    (hbounds : (monitorBoundaries start atMs).isOk) : Exact start atMs ending ↔
      atMs - 46 * dayMs ≤ ending - 15 * dayMs ∨ ending - 15 * dayMs < start := by
  constructor
  · intro h
    by_contra hnot
    obtain ⟨hrange, hstart⟩ := not_or.mp hnot
    obtain ⟨r, hr, hzero⟩ :=
      lost_before_points hbounds (not_lt.mp hstart) (not_le.mp hrange)
    obtain ⟨anchor, hanchor, htrue⟩ := h _ _ _ r hr 0 hzero
    cases hanchor
    exact not_isDrawdown_zero hend htrue
  · rintro (hrange | hstart)
    · exact drawdown_of_replayed hend hrange
    · intro source inputs equity r hr x hx
      obtain ⟨-, -, hle, -⟩ := drawdown_eq_some hx
      obtain ⟨ticks, -, hr⟩ := bind_eq_ok.mp hr
      obtain ⟨history, -, hr⟩ := bind_eq_ok.mp hr
      rw [← pure_eq_ok.mp hr] at hle
      exact absurd hle (not_le.mpr hstart)

/-- Up to the time of the reconstruction the drawdown is exact. -/
theorem drawdown_exact_now : Exact 1 (62 * dayMs) (62 * dayMs) :=
  (drawdown_exact_iff le_rfl (by decide +kernel)).mpr (.inl (by decide))

/-- A month before it is not: an account that fell from 150 to 100 shows no drawdown. -/
theorem drawdown_missed : ∃ r,
    reconstruct .intra (funded (-50) (30 * dayMs - 15 * dayMs)) 1 (62 * dayMs) (some 100) = .ok r ∧
      r.drawdown (30 * dayMs) = some 0 ∧
      ¬IsDrawdown .intra (funded (-50) (30 * dayMs - 15 * dayMs)) (62 * dayMs) 100 (30 * dayMs) 0 := by
  obtain ⟨r, hr, hzero⟩ := @lost_before_points 1 (62 * dayMs) (30 * dayMs) (by decide +kernel)
    (by decide) (by decide)
  exact ⟨r, hr, hzero, not_isDrawdown_zero (by decide)⟩

end CryptoNav.Overview.Drawdown
