import CryptoNav.Lib.Runs
import CryptoNav.Pnl.Overview
import Mathlib.Algebra.BigOperators.Group.List.Basic
import Mathlib.Data.List.TakeWhile

/-!
# The two PnL implementations agree

`calculate` keeps a state for every symbol and subtracts baselines; `replay` keeps one running
total of per-event differences over states it creates on demand. `Tracks` is what holds between
them after every event: the same states, and a running total that is the sum of the metrics less
that sum over the seeded states. Both opening values are then the same sum at the start of the
window, and all that is left between the two reports is the `clean_zero` of each row.

Both implementations are taken as they are, each over the same validated events, and neither is
a specification of the other: the theorem says that a page which shows the one and a page which
shows the other agree. In rounded arithmetic they would differ in the last places, because one
of them subtracts totals where the other adds up differences, and that is left out.
-/

set_option autoImplicit false

namespace CryptoNav.Pnl

open CryptoNav.Lib

/-! ## Sums over the symbols -/

/-- A metric summed over the symbols of a state map. -/
def sumOver (f : Metrics → ℚ) (states : States) (symbols : List String) : ℚ :=
  (symbols.map fun symbol => f (metricsOf states symbol)).sum

@[simp] theorem metricsOf_some {states : States} {symbol : String} {s : SymbolState}
    (h : states symbol = some s) : metricsOf states symbol = s.metrics := by
  simp [metricsOf, h]

theorem metricsOf_update_of_ne (states : States) {symbol other : String} (h : other ≠ symbol)
    (s : SymbolState) :
    metricsOf (Function.update states symbol (some s)) other = metricsOf states other := by
  simp [metricsOf, h]

theorem sumOver_update_of_notMem (f : Metrics → ℚ) (states : States) {symbol : String}
    (s : SymbolState) {symbols : List String} (h : symbol ∉ symbols) :
    sumOver f (Function.update states symbol (some s)) symbols = sumOver f states symbols := by
  unfold sumOver
  congr 1
  refine List.map_congr_left fun other ho => ?_
  have hne : other ≠ symbol := by
    rintro rfl
    exact h ho
  rw [metricsOf_update_of_ne states hne]

/-- Replacing one symbol's state moves the sum by that symbol's difference. -/
theorem sumOver_update (f : Metrics → ℚ) {states : States} {symbol : String} {s t : SymbolState}
    (hs : states symbol = some s) {symbols : List String} (hnodup : symbols.Nodup)
    (hmem : symbol ∈ symbols) :
    sumOver f (Function.update states symbol (some t)) symbols
      = sumOver f states symbols + (f t.metrics - f s.metrics) := by
  induction symbols with
  | nil => cases hmem
  | cons head rest ih =>
    obtain ⟨hnot, hnodup⟩ := List.nodup_cons.mp hnodup
    have hcons : ∀ m : States, sumOver f m (head :: rest) = f (metricsOf m head) + sumOver f m rest :=
      fun _ => rfl
    rw [hcons, hcons]
    by_cases he : symbol = head
    · subst he
      rw [sumOver_update_of_notMem f states t hnot, metricsOf_some (Function.update_self ..),
        metricsOf_some hs]
      ring
    · have hrest : symbol ∈ rest := (List.mem_cons.mp hmem).resolve_left he
      rw [ih hnodup hrest, metricsOf_update_of_ne states (Ne.symm he)]
      ring

/-! ## The replay tracks the state map -/

/-- `r` has replayed what took the seeded states `base` to `states`. The running total is what the
    states have gained over `base`, whichever of them were created on the way. -/
structure Tracks (source : PnlSourceKind) (symbols : List String) (base : States) (r : Replay)
    (states : States) : Prop where
  inStep : ∀ symbol ∈ symbols, states symbol = some (entryOf source r.states symbol)
  total : r.total = sumOver Metrics.totalPnlUsdt states symbols
    - sumOver Metrics.totalPnlUsdt base symbols
  realized : r.realizedNet = sumOver realizedNetPnl states symbols
    - sumOver realizedNetPnl base symbols

/-- The bookkeeping of boundaries, start and points leaves what `Tracks` reads alone. -/
theorem apply_eq_ok {source : PnlSourceKind} {start : ℤ} {r r' : Replay} {event : PnlEvent}
    (h : r.apply source start event = .ok r') :
    ∃ after, (entryOf source r.states event.symbol).applyEvent event = .ok after ∧
      r'.states = Function.update r.states event.symbol (some after) ∧
      r'.total = r.total + (after.metrics.totalPnlUsdt
        - (entryOf source r.states event.symbol).metrics.totalPnlUsdt) ∧
      r'.realizedNet = r.realizedNet + (realizedNetPnl after.metrics
        - realizedNetPnl (entryOf source r.states event.symbol).metrics) ∧
      r'.wanted = r.wanted.dropWhile (· ≤ event.ts) ∧
      r'.boundaries = r.boundaries ++ (r.wanted.takeWhile (· ≤ event.ts)).map (·, r.total) ∧
      r'.realizedBoundaries
        = r.realizedBoundaries ++ (r.wanted.takeWhile (· ≤ event.ts)).map (·, r.realizedNet) := by
  have hm : r.markStart start event.ts = { r with
      startPnl := (r.markStart start event.ts).startPnl
      started := (r.markStart start event.ts).started } := by
    unfold Replay.markStart
    split <;> rfl
  unfold Replay.apply at h
  rw [hm] at h
  obtain ⟨after, hafter, h⟩ := bind_eq_ok.mp h
  refine ⟨after, hafter, ?_⟩
  split at h
  · exact absurd h (by simp)
  · have h := pure_eq_ok.mp h
    split at h
    · subst h
      exact ⟨rfl, rfl, rfl, rfl, rfl, rfl⟩
    · subst h
      exact ⟨rfl, rfl, rfl, rfl, rfl, rfl⟩

theorem entryOf_update {source : PnlSourceKind} (states : States) (symbol : String)
    (s : SymbolState) :
    entryOf source (Function.update states symbol (some s))
      = Function.update (entryOf source states) symbol s := by
  ext1 other
  by_cases h : other = symbol
  · subst h; simp [entryOf]
  · simp [entryOf, h]

/-- Inserting the same new state on both sides keeps the two maps in step. -/
theorem inStep_update {source : PnlSourceKind} {symbols : List String} {lazy states : States}
    (h : ∀ symbol ∈ symbols, states symbol = some (entryOf source lazy symbol)) (symbol : String)
    (s : SymbolState) :
    ∀ other ∈ symbols, Function.update states symbol (some s) other
      = some (entryOf source (Function.update lazy symbol (some s)) other) := by
  intro other hother
  rw [entryOf_update]
  by_cases he : other = symbol
  · subst he; simp
  · simp [he, h other hother]

/-- **One event, on both sides.** -/
theorem Tracks.apply {source : PnlSourceKind} {symbols : List String} (hnodup : symbols.Nodup)
    {base states : States} {start : ℤ} {r r' : Replay} {event : PnlEvent}
    (hmem : event.symbol ∈ symbols) (h : Tracks source symbols base r states)
    (hr : r.apply source start event = .ok r') :
    ∃ states', applyEvent states event = .ok states' ∧ Tracks source symbols base r' states' := by
  obtain ⟨after, hafter, hstates, htotal, hrealized, -⟩ := apply_eq_ok hr
  have hs := h.inStep event.symbol hmem
  refine ⟨Function.update states event.symbol (some after), ?_, ?_, ?_, ?_⟩
  · simp only [applyEvent, hs, hafter]
    rfl
  · rw [hstates]
    exact inStep_update h.inStep event.symbol after
  · rw [htotal, h.total, sumOver_update _ hs hnodup hmem]
    ring
  · rw [hrealized, h.realized, sumOver_update _ hs hnodup hmem]
    ring

theorem Tracks.run {source : PnlSourceKind} {symbols : List String} (hnodup : symbols.Nodup)
    {base states : States} {start : ℤ} {r r' : Replay} {events : List PnlEvent}
    (hmem : ∀ event ∈ events, event.symbol ∈ symbols) (h : Tracks source symbols base r states)
    (hr : events.foldlM (Replay.apply source start) r = .ok r') :
    ∃ states', events.foldlM applyEvent states = .ok states' ∧
      Tracks source symbols base r' states' :=
  run_simulation (fun event he _ _ _ ht hstep => ht.apply hnodup (hmem event he) hstep) h hr

/-- Both implementations seed the same states. -/
theorem seeds_inStep {source : PnlSourceKind} {symbols : List String}
    {positions : List InitialPosition} (hmem : ∀ p ∈ positions, p.symbol ∈ symbols)
    {lazy : States} (h : positions.foldlM (seedEntry source) (fun _ => none) = .ok lazy) :
    ∃ states, positions.foldlM seedInitial (initialStates source symbols) = .ok states ∧
      ∀ symbol ∈ symbols, states symbol = some (entryOf source lazy symbol) := by
  refine run_simulation (R := fun (lazy : States) (states : States) =>
    ∀ symbol ∈ symbols, states symbol = some (entryOf source lazy symbol)) ?_ ?_ h
  · intro p hp lazy lazy' states hR hstep
    obtain ⟨state, hstate, hlazy⟩ := bind_eq_ok.mp hstep
    rw [← pure_eq_ok.mp hlazy]
    refine ⟨Function.update states p.symbol (some state), ?_, inStep_update hR p.symbol state⟩
    simp only [seedInitial, hR p.symbol (hmem p hp), hstate]
    rfl
  · intro symbol hsymbol
    simp [initialStates, hsymbol, entryOf]

/-! ## The opening values -/

/-- From the start of the window on, the one wanted boundary is either still wanted and nothing
    was booked since, or captured at the opening values. -/
def Opened (startMs : ℤ) (opening realizedOpening : ℚ) (r : Replay) : Prop :=
  (r.wanted = [startMs] ∧ r.boundaries = [] ∧ r.realizedBoundaries = [] ∧ r.total = opening ∧
      r.realizedNet = realizedOpening) ∨
    (r.wanted = [] ∧ r.boundaries = [(startMs, opening)] ∧
      r.realizedBoundaries = [(startMs, realizedOpening)])

theorem Opened.apply {source : PnlSourceKind} {start startMs : ℤ} {opening realizedOpening : ℚ}
    {r r' : Replay} {event : PnlEvent} (hts : startMs ≤ event.ts)
    (h : Opened startMs opening realizedOpening r)
    (hr : r.apply source start event = .ok r') : Opened startMs opening realizedOpening r' := by
  obtain ⟨-, -, -, -, -, hwanted, hbound, hrealized⟩ := apply_eq_ok hr
  right
  rcases h with ⟨hw, hb, hrb, ht, hn⟩ | ⟨hw, hb, hrb⟩
  · rw [hwanted, hbound, hrealized, hw, hb, hrb, ht, hn]
    simp [hts]
  · rw [hwanted, hbound, hrealized, hw, hb, hrb]
    simp

/-- Before the window the boundary stays wanted. -/
theorem unopened_apply {source : PnlSourceKind} {start startMs : ℤ} {r r' : Replay}
    {event : PnlEvent} (hts : event.ts < startMs)
    (h : r.wanted = [startMs] ∧ r.boundaries = [] ∧ r.realizedBoundaries = [])
    (hr : r.apply source start event = .ok r') :
    r'.wanted = [startMs] ∧ r'.boundaries = [] ∧ r'.realizedBoundaries = [] := by
  obtain ⟨-, -, -, -, -, hwanted, hbound, hrealized⟩ := apply_eq_ok hr
  obtain ⟨hw, hb, hrb⟩ := h
  rw [hwanted, hbound, hrealized, hw, hb, hrb]
  simp [hts]

theorem Opened.finish {startMs ending : ℤ} {opening realizedOpening : ℚ} {r : Replay}
    (h : Opened startMs opening realizedOpening r) :
    (r.finish ending).boundaries = [(startMs, opening)] ∧
      (r.finish ending).realizedBoundaries = [(startMs, realizedOpening)] := by
  unfold Replay.finish
  rcases h with ⟨hw, hb, hrb, ht, hn⟩ | ⟨hw, hb, hrb⟩
  · simp [hw, hb, hrb, ht, hn]
  · simp [hw, hb, hrb]

/-! ## The two loops of `calculate` are one run of `apply_event` -/

theorem walk_run (selected : List String) (w : Walk) (events : List PnlEvent) :
    events.foldlM applyEvent w.states
      = (events.foldlM (Walk.apply selected) w).map Walk.states := by
  refine run_map (fun w event => ?_) w events
  show applyEvent w.states event = Except.map _ (applyEvent w.states event >>= fun _ => _)
  cases applyEvent w.states event <;> rfl

theorem drawing_run (source : PnlSourceKind) (selected : List String)
    (baselines : String → Metrics) (d : Drawing) (events : List PnlEvent) :
    events.foldlM applyEvent d.walk.states
      = (events.foldlM (Drawing.apply source selected baselines) d).map (·.walk.states) := by
  refine run_map (π := fun d : Drawing => d.walk.states) (fun d event => ?_) d events
  simp only [Drawing.apply, Walk.apply, bind, Except.bind, pure, Except.pure, Walk.captureBefore]
  cases applyEvent d.walk.states event with
  | error e => rfl
  | ok states =>
    simp only
    split <;> rfl

/-- **`calculate`, in its own terms.** When the window is well formed, some symbol is selected
    and both runs of `apply_event` succeed, it reports the baselines against the final states. -/
theorem calculate_eq {inputs : PnlInputs} {request : PnlCalculation}
    (hstrategy : request.strategyStartMs ≤ request.startMs)
    (hwindow : request.startMs ≤ request.endMs)
    (hsome : selectSymbols inputs.availableSymbols request.selectedSymbols = [] →
      inputs.availableSymbols = [])
    {seeded opened closed : States}
    (hseeds : inputs.initialPositions.foldlM seedInitial
      (initialStates request.source inputs.availableSymbols) = .ok seeded)
    (hbefore : (inputs.sortedEvents.takeWhile (·.ts < request.startMs)).foldlM applyEvent seeded
      = .ok opened)
    (hrun : ((inputs.sortedEvents.dropWhile (·.ts < request.startMs)).takeWhile
      (·.ts ≤ request.endMs)).foldlM applyEvent opened = .ok closed) :
    ∃ d : Drawing, d.walk.states = closed ∧ calculate inputs request
      = .ok (report inputs request
        (selectSymbols inputs.availableSymbols request.selectedSymbols)
        (selectSymbols inputs.availableSymbols request.selectedSymbols) (metricsOf opened) d) := by
  set selected := selectSymbols inputs.availableSymbols request.selectedSymbols with hsel
  rw [walk_run selected ⟨seeded, rollingBoundaries request, []⟩] at hbefore
  obtain ⟨w, hw, rfl⟩ := map_eq_ok.mp hbefore
  have hstart := drawing_run request.source selected (metricsOf w.states)
    (.start request selected (w.captureBefore selected request.startMs))
    ((inputs.sortedEvents.dropWhile (·.ts < request.startMs)).takeWhile (·.ts ≤ request.endMs))
  rw [show (Drawing.start request selected
    (w.captureBefore selected request.startMs)).walk.states = w.states from rfl, hrun] at hstart
  obtain ⟨d, hd, hclosed⟩ := map_eq_ok.mp hstart.symm
  refine ⟨d, hclosed, ?_⟩
  have hguard : ¬(selected = [] ∧ inputs.availableSymbols ≠ []) := fun h => h.2 (hsome h.1)
  unfold calculate calculateIn
  simp only [if_neg (not_lt.mpr hstrategy), if_neg (not_lt.mpr hwindow), ← hsel, if_neg hguard]
  refine bind_eq_ok.mpr ⟨seeded, hseeds, bind_eq_ok.mpr ⟨w, hw, bind_eq_ok.mpr ⟨d, hd, rfl⟩⟩⟩

/-! ## What the summary adds up -/

/-- A summary field that reports the difference of one metric, rounded once per symbol and then
    added over the rows. -/
structure Reports (field : PnlSummary → ℚ) (metric : Metrics → ℚ) : Prop where
  zero : field {} = 0
  add : ∀ total row, field (total.add row) = field total + field row
  difference : ∀ m baseline,
    field (m.difference baseline) = cleanZero (metric m - metric baseline)
  ratios : ∀ (s : PnlSummary) bps amount,
    field { s with returnBpsOnVolume := bps, openAmountUsdt := amount } = field s

theorem reports_total : Reports PnlSummary.totalPnlUsdt Metrics.totalPnlUsdt :=
  ⟨rfl, fun _ _ => rfl, fun _ _ => rfl, fun _ _ _ => rfl⟩

theorem reports_feeAfter : Reports PnlSummary.feeAfterPnlUsdt Metrics.feeAfterPnlUsdt :=
  ⟨rfl, fun _ _ => rfl, fun _ _ => rfl, fun _ _ _ => rfl⟩

theorem reports_funding : Reports PnlSummary.fundingPnlUsdt Metrics.fundingPnlUsdt :=
  ⟨rfl, fun _ _ => rfl, fun _ _ => rfl, fun _ _ _ => rfl⟩

theorem reports_interest : Reports PnlSummary.interestCostUsdt Metrics.interestCostUsdt :=
  ⟨rfl, fun _ _ => rfl, fun _ _ => rfl, fun _ _ _ => rfl⟩

/-- A summary field that adds up, over the selected rows, what one row reports. -/
structure Sums {N : Type} [AddCommMonoid N] (field : PnlSummary → N) (row : Metrics → Metrics → N) :
    Prop where
  zero : field {} = 0
  add : ∀ total row, field (total.add row) = field total + field row
  difference : ∀ m baseline, field (m.difference baseline) = row m baseline
  ratios : ∀ (s : PnlSummary) bps amount,
    field { s with returnBpsOnVolume := bps, openAmountUsdt := amount } = field s

theorem Reports.sums {field : PnlSummary → ℚ} {metric : Metrics → ℚ} (h : Reports field metric) :
    Sums field fun m baseline => cleanZero (metric m - metric baseline) :=
  ⟨h.zero, h.add, h.difference, h.ratios⟩

section

variable {N : Type} [AddCommMonoid N] {field : PnlSummary → N} {row : Metrics → Metrics → N}

theorem Sums.foldl (h : Sums field row) (total : PnlSummary) (rows : List PnlSummary) :
    field (rows.foldl PnlSummary.add total) = field total + (rows.map field).sum := by
  induction rows generalizing total with
  | nil => exact (add_zero _).symm
  | cons head rows ih =>
    rw [List.foldl_cons, ih, h.add, List.map_cons, List.sum_cons, add_assoc]

/-- A field of a report adds up what the selected ones of the available symbols report. -/
theorem Sums.report_selected (h : Sums field row) (inputs : PnlInputs) (request : PnlCalculation)
    (selected : List String) (baselines : String → Metrics) (d : Drawing) :
    field (report inputs request selected selected baselines d).summary =
      ((inputs.availableSymbols.filter (· ∈ selected)).map fun symbol =>
        row (metricsOf d.walk.states symbol) (baselines symbol)).sum := by
  have hrows : (symbolRows inputs.availableSymbols d.walk.states baselines).Perm
      (inputs.availableSymbols.map fun symbol =>
        ⟨symbol, (metricsOf d.walk.states symbol).difference (baselines symbol)⟩) :=
    sortByKey_perm _ _
  have hreport : field (Pnl.report inputs request selected selected baselines d).summary =
      field ((((symbolRows inputs.availableSymbols d.walk.states baselines).filter
        (·.symbol ∈ selected)).map SymbolPnlSummary.pnl).foldl PnlSummary.add {}) :=
    (h.ratios _ _ _).trans (h.ratios _ _ _)
  rw [hreport, h.foldl, h.zero, zero_add, List.map_map, ((hrows.filter _).map _).sum_eq,
    List.filter_map, List.map_map]
  exact congrArg List.sum (List.map_congr_left fun symbol _ => h.difference _ _)

end

section

variable {field : PnlSummary → ℚ} {metric : Metrics → ℚ}

/-- The change of a metric between two state maps, for one symbol. -/
def change (metric : Metrics → ℚ) (opened closed : States) (symbol : String) : ℚ :=
  metric (metricsOf closed symbol) - metric (metricsOf opened symbol)

/-- With every symbol selected, a field is the sum of the rounded changes. -/
theorem Reports.report (h : Reports field metric) {inputs : PnlInputs} {request : PnlCalculation}
    {selected : List String} (hall : ∀ symbol ∈ inputs.availableSymbols, symbol ∈ selected)
    (opened : States) (d : Drawing) :
    field (report inputs request selected selected (metricsOf opened) d).summary
      = (inputs.availableSymbols.map fun symbol =>
          cleanZero (change metric opened d.walk.states symbol)).sum := by
  have hfilter : inputs.availableSymbols.filter (· ∈ selected) = inputs.availableSymbols :=
    List.filter_eq_self.mpr fun symbol hsymbol => decide_eq_true (hall symbol hsymbol)
  rw [h.sums.report_selected, hfilter]
  rfl

end

/-- `clean_zero` moves a value by less than its threshold. -/
theorem abs_cleanZero_sub_le (value : ℚ) : |cleanZero value - value| ≤ 1 / 10 ^ 12 := by
  unfold cleanZero
  split
  · rename_i h
    rw [zero_sub, abs_neg]
    exact h.le
  · rw [sub_self, abs_zero]
    norm_num

theorem abs_sum_cleanZero_sub_le {α : Type} (value : α → ℚ) (l : List α) :
    |(l.map fun a => cleanZero (value a)).sum - (l.map value).sum| ≤ l.length * (1 / 10 ^ 12) := by
  induction l with
  | nil => simp
  | cons a l ih =>
    simp only [List.map_cons, List.sum_cons, List.length_cons, Nat.cast_add, Nat.cast_one]
    have ha := abs_cleanZero_sub_le (value a)
    rw [abs_le] at ih ha ⊢
    constructor <;> linarith [ih.1, ih.2, ha.1, ha.2]

theorem sum_change (metric : Metrics → ℚ) (opened closed : States) (symbols : List String) :
    (symbols.map (change metric opened closed)).sum
      = sumOver metric closed symbols - sumOver metric opened symbols := by
  induction symbols with
  | nil => simp [sumOver]
  | cons symbol rest ih =>
    have hcons : ∀ m : States,
        sumOver metric m (symbol :: rest) = metric (metricsOf m symbol) + sumOver metric m rest :=
      fun _ => rfl
    rw [List.map_cons, List.sum_cons, ih, hcons, hcons, change]
    ring

/-- A reported field is the change of its summed metric, up to one rounding a symbol. -/
theorem Reports.bound {field : PnlSummary → ℚ} {metric : Metrics → ℚ} (h : Reports field metric)
    {inputs : PnlInputs} (request : PnlCalculation) {selected : List String}
    (hall : ∀ symbol ∈ inputs.availableSymbols, symbol ∈ selected) (opened : States)
    (d : Drawing) :
    |field (CryptoNav.Pnl.report inputs request selected selected (metricsOf opened) d).summary
      - (sumOver metric d.walk.states inputs.availableSymbols
          - sumOver metric opened inputs.availableSymbols)|
      ≤ inputs.availableSymbols.length * (1 / 10 ^ 12) := by
  rw [h.report hall, ← sum_change]
  exact abs_sum_cleanZero_sub_le _ _

theorem sumOver_realizedNet (states : States) (symbols : List String) :
    sumOver realizedNetPnl states symbols = sumOver Metrics.feeAfterPnlUsdt states symbols
      + sumOver Metrics.fundingPnlUsdt states symbols
      - sumOver Metrics.interestCostUsdt states symbols := by
  induction symbols with
  | nil => simp [sumOver]
  | cons symbol rest ih =>
    have hcons : ∀ f : Metrics → ℚ,
        sumOver f states (symbol :: rest) = f (metricsOf states symbol) + sumOver f states rest :=
      fun _ => rfl
    rw [hcons, hcons, hcons, hcons, ih, realizedNetPnl]
    ring

/-! ## The agreement -/

theorem event_symbol_available {inputs : PnlInputs} {event : PnlEvent}
    (h : event ∈ inputs.sortedEvents) : event.symbol ∈ inputs.availableSymbols := by
  have h : event ∈ inputs.events := mem_sortByKey.mp h
  simp only [PnlInputs.events, List.mem_append, List.mem_map] at h
  simp only [PnlInputs.availableSymbols, mem_sortedSet, List.mem_append, List.mem_map]
  rcases h with (⟨t, ht, rfl⟩ | ⟨f, hf, rfl⟩) | ⟨i, hi, rfl⟩
  · exact .inl (.inl (.inr ⟨t, ht, rfl⟩))
  · exact .inl (.inr ⟨f, hf, rfl⟩)
  · exact .inr ⟨i, hi, rfl⟩

theorem sortedEvents_pairwise (inputs : PnlInputs) :
    inputs.sortedEvents.Pairwise fun a b => a.ts ≤ b.ts := by
  refine (sortByKey_pairwise _ _).imp fun {a b} h => ?_
  rcases (Prod.Lex.le_iff.mp h) with h | ⟨h, -⟩
  · exact le_of_lt h
  · exact le_of_eq h

/-- The events `replay` applies are those of the two loops of `calculate`. -/
theorem replayed_events (inputs : PnlInputs) {startMs endMs : ℤ} (h : startMs ≤ endMs) :
    inputs.sortedEvents.filter (·.ts ≤ endMs)
      = inputs.sortedEvents.takeWhile (·.ts < startMs)
        ++ (inputs.sortedEvents.dropWhile (·.ts < startMs)).takeWhile (·.ts ≤ endMs) := by
  rw [filter_le_eq_takeWhile (sortedEvents_pairwise inputs) endMs]
  refine takeWhile_eq_append (fun event he => ?_) _
  simp only [decide_eq_true_eq] at he ⊢
  exact le_of_lt (lt_of_lt_of_le he h)

theorem startMs_le_of_mem_window {inputs : PnlInputs} {startMs : ℤ} {event : PnlEvent}
    (h : event ∈ inputs.sortedEvents.dropWhile (·.ts < startMs)) : startMs ≤ event.ts := by
  have hsorted := (sortedEvents_pairwise inputs).sublist (List.dropWhile_sublist (·.ts < startMs))
  cases hd : inputs.sortedEvents.dropWhile (·.ts < startMs) with
  | nil => rw [hd] at h; cases h
  | cons first rest =>
    have hfirst : startMs ≤ first.ts := by
      have := List.head?_dropWhile_not (fun event : PnlEvent => decide (event.ts < startMs))
        inputs.sortedEvents
      rw [hd] at this
      simpa using this
    rw [hd] at h hsorted
    rcases List.mem_cons.mp h with rfl | hrest
    · exact hfirst
    · exact hfirst.trans ((List.pairwise_cons.mp hsorted).1 event hrest)

/-- **`calculate` and `replay` agree.** Whenever the replay up to the end of a window succeeds,
    `calculate` over the window with all symbols selected succeeds, its total is the replay's
    final total less the one at the start, and its realized net likewise — up to one
    `clean_zero` for each symbol and component. -/
theorem calculate_agrees_with_replay {inputs : PnlInputs} {request : PnlCalculation} {start : ℤ}
    {history : History}
    (hreplay : replay request.source inputs start request.endMs [request.startMs] = .ok history)
    (hwindow : request.startMs ≤ request.endMs)
    (hstrategy : request.strategyStartMs ≤ request.startMs)
    (hall : ∀ symbol ∈ inputs.availableSymbols,
      symbol ∈ selectSymbols inputs.availableSymbols request.selectedSymbols) :
    ∃ response opening realizedOpening,
      calculate inputs request = .ok response ∧
      history.boundaries = [(request.startMs, opening)] ∧
      history.realizedBoundaries = [(request.startMs, realizedOpening)] ∧
      |response.summary.totalPnlUsdt - (history.finalPnl - opening)|
        ≤ inputs.availableSymbols.length * (1 / 10 ^ 12) ∧
      |response.summary.feeAfterPnlUsdt + response.summary.fundingPnlUsdt
          - response.summary.interestCostUsdt - (history.finalRealizedNet - realizedOpening)|
        ≤ 3 * (inputs.availableSymbols.length * (1 / 10 ^ 12)) := by
  obtain ⟨lazy, hlazy, hreplay⟩ := bind_eq_ok.mp hreplay
  obtain ⟨r, hr, hreplay⟩ := bind_eq_ok.mp hreplay
  rw [← pure_eq_ok.mp hreplay]
  set symbols := inputs.availableSymbols with hsymbols
  have hnodup : symbols.Nodup := sortedSet_nodup _
  have hpositions : ∀ p ∈ inputs.initialPositions, p.symbol ∈ symbols := by
    intro p hp
    rw [hsymbols, PnlInputs.availableSymbols, mem_sortedSet]
    simp only [List.mem_append, List.mem_map]
    exact .inl (.inl (.inl ⟨p, hp, rfl⟩))
  obtain ⟨seeded, hseeded, hinStep⟩ := seeds_inStep hpositions hlazy
  -- The replay, split at the start of the window.
  rw [replayed_events inputs hwindow, run_append] at hr
  obtain ⟨r₀, hr₀, hr₁⟩ := hr
  have hwanted : sortedSet ([request.startMs].filter (· ≤ request.endMs)) = [request.startMs] := by
    simp [hwindow, sortedSet]
  rw [hwanted] at hr₀
  have hbefore : ∀ event ∈ inputs.sortedEvents.takeWhile (·.ts < request.startMs),
      event.symbol ∈ symbols ∧ event.ts < request.startMs := by
    intro event he
    refine ⟨event_symbol_available ((List.takeWhile_prefix _).subset he), ?_⟩
    simpa using List.mem_takeWhile_imp he
  have hafter : ∀ event ∈ (inputs.sortedEvents.dropWhile (·.ts < request.startMs)).takeWhile
      (·.ts ≤ request.endMs), event.symbol ∈ symbols ∧ request.startMs ≤ event.ts := by
    intro event he
    have hmem := (List.takeWhile_prefix _).subset he
    exact ⟨event_symbol_available ((List.dropWhile_suffix _).subset hmem),
      startMs_le_of_mem_window hmem⟩
  have htracks : Tracks request.source symbols seeded
      { states := lazy, wanted := [request.startMs] } seeded :=
    ⟨hinStep, (sub_self _).symm, (sub_self _).symm⟩
  obtain ⟨opened, hopened, ht₀⟩ := htracks.run hnodup (fun e he => (hbefore e he).1) hr₀
  obtain ⟨closed, hclosed, ht₁⟩ := ht₀.run hnodup (fun e he => (hafter e he).1) hr₁
  -- The boundary at the start is captured at the totals after the first part.
  have hunopened := run_invariant (P := fun r : Replay => r.wanted = [request.startMs] ∧
      r.boundaries = [] ∧ r.realizedBoundaries = [])
    (fun e he _ _ h hstep => unopened_apply (hbefore e he).2 h hstep) ⟨rfl, rfl, rfl⟩ hr₀
  have hopen : Opened request.startMs r₀.total r₀.realizedNet r := by
    refine run_invariant (P := Opened request.startMs r₀.total r₀.realizedNet)
      (fun e he _ _ h hstep => h.apply (hafter e he).2 hstep) ?_ hr₁
    exact .inl ⟨hunopened.1, hunopened.2.1, hunopened.2.2, rfl, rfl⟩
  -- `calculate` makes the same two runs.
  obtain ⟨d, rfl, hd⟩ := calculate_eq hstrategy hwindow
    (fun hnone => by
      cases hs : inputs.availableSymbols with
      | nil => rfl
      | cons symbol rest =>
        have := hall symbol (by rw [hsymbols, hs]; exact List.mem_cons_self)
        rw [hnone] at this
        cases this)
    hseeded hopened hclosed
  refine ⟨_, r₀.total, r₀.realizedNet, hd, hopen.finish.1, hopen.finish.2, ?_, ?_⟩
  · have hbound := reports_total.bound request hall opened d
    rw [show (r.finish request.endMs).finalPnl = r.total from rfl, ht₁.total, ht₀.total]
    rwa [sub_sub_sub_cancel_right]
  · have hfee := reports_feeAfter.bound request hall opened d
    have hfunding := reports_funding.bound request hall opened d
    have hinterest := reports_interest.bound request hall opened d
    rw [show (r.finish request.endMs).finalRealizedNet = r.realizedNet from rfl, ht₁.realized,
      ht₀.realized, sub_sub_sub_cancel_right, sumOver_realizedNet, sumOver_realizedNet]
    rw [abs_le] at hfee hfunding hinterest ⊢
    constructor
    · linarith [hfee.1, hfunding.1, hinterest.2]
    · linarith [hfee.2, hfunding.2, hinterest.1]

/-- A seeded short, a fill before the window, one exactly at its start, funding on a second
    symbol, and a fill after its end. -/
def sampleInputs : PnlInputs where
  trades := [⟨"BTCUSDT", .buy, .spot, 110, 330, 3, some 2, 10⟩,
    ⟨"BTCUSDT", .sell, .spot, 120, 120, 1, some 1, 20⟩,
    ⟨"BTCUSDT", .sell, .spot, 130, 260, 2, some 1, 40⟩]
  funding := [⟨"ETHUSDT", 5, 25⟩]
  initialPositions := [⟨"BTCUSDT", -1, 1, 100⟩]

def sampleRequest : PnlCalculation where
  source := .intra
  exchange := "binance"
  strategyStartMs := 0
  startMs := 20
  endMs := 30
  maxPoints := 100

theorem calculate_agrees_on_sample :
    Yields (replay .intra sampleInputs 0 30 [20]) fun history =>
      ∃ response opening realizedOpening,
        calculate sampleInputs sampleRequest = .ok response ∧
        history.boundaries = [(20, opening)] ∧
        history.realizedBoundaries = [(20, realizedOpening)] ∧
        |response.summary.totalPnlUsdt - (history.finalPnl - opening)|
          ≤ sampleInputs.availableSymbols.length * (1 / 10 ^ 12) ∧
        |response.summary.feeAfterPnlUsdt + response.summary.fundingPnlUsdt
            - response.summary.interestCostUsdt - (history.finalRealizedNet - realizedOpening)|
          ≤ 3 * (sampleInputs.availableSymbols.length * (1 / 10 ^ 12)) := by
  obtain ⟨history, hreplay, -⟩ :
      Yields (replay sampleRequest.source sampleInputs 0 sampleRequest.endMs
        [sampleRequest.startMs]) fun _ => True := by decide +kernel
  exact ⟨history, hreplay,
    calculate_agrees_with_replay hreplay (by decide) (by decide) fun _ h => h⟩

end CryptoNav.Pnl
