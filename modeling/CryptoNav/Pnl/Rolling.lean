import CryptoNav.Pnl.Agreement

/-!
# The rolling windows of `calculate`

The total at a window's boundary is captured wherever the walk over the events passes it: before
the displayed start, at the start, inside the displayed window or after its last event. `Captured`
is what holds at each of these places, and with it every boundary is found with the total after
all events up to it, whatever the displayed start is.

The windows and their lengths are the source's list. What is proved is which total is found, and
the statement about displayed starts follows; whether a window that reaches back before the
first event should be shown at all is a decision of the page.
-/

set_option autoImplicit false

namespace CryptoNav.Pnl

open CryptoNav.Lib

/-! ## The totals -/

/-- The states after all events with `ts ≤ endMs`. -/
def statesAt (inputs : PnlInputs) (source : PnlSourceKind) (endMs : ℤ) : Except PnlError States := do
  let seeded ← inputs.initialPositions.foldlM seedInitial
    (initialStates source inputs.availableSymbols)
  (inputs.sortedEvents.filter (·.ts ≤ endMs)).foldlM applyEvent seeded

def totalAt (inputs : PnlInputs) (request : PnlCalculation) (ts : ℤ) : ℚ :=
  match statesAt inputs request.source ts with
  | .ok states =>
    selectedTotalPnl states (selectSymbols inputs.availableSymbols request.selectedSymbols)
  | .error _ => 0

/-- What a rolling window is to report: the total at the end less the one at the boundary, or less
nothing when the strategy starts after it. -/
def windowPnl (inputs : PnlInputs) (request : PnlCalculation) (windowMs : ℤ) :
    Option RollingWindowPnl :=
  let boundary := request.endMs - windowMs
  let coveredMs := request.endMs - max boundary request.strategyStartMs
  if coveredMs ≤ 0 then none
  else
    let basePnl :=
      if request.strategyStartMs ≤ boundary then totalAt inputs request boundary else 0
    let pnlUsdt := cleanZero (totalAt inputs request request.endMs - basePnl)
    some {
      windowMs, coveredMs, pnlUsdt
      annualizedReturn := (request.principalUsdt.filter (0 < ·)).map fun principal =>
        pnlUsdt / principal * (yearMs / coveredMs) }

/-! ## Capturing boundaries -/

/-- The walk `w` has applied `past`; `totals` are the values boundaries are to have. -/
structure Captured (totals : ℤ → ℚ → Prop) (boundaries : List ℤ) (past : List PnlEvent)
    (w : Walk) : Prop where
  sorted : w.boundaries.Pairwise (· ≤ ·)
  pending : ∀ b ∈ w.boundaries, ∀ event ∈ past, event.ts ≤ b
  all : w.boundaryPnl.map Prod.fst ++ w.boundaries = boundaries
  values : ∀ entry ∈ w.boundaryPnl, totals entry.1 entry.2

section

variable {selected : List String} {events : List PnlEvent} {seeded : States}

/-- The value a boundary is to have: the selected total after all events up to it. -/
def Totals (selected : List String) (events : List PnlEvent) (seeded : States) (b : ℤ) (v : ℚ) :
    Prop :=
  ∃ states, (events.filter (·.ts ≤ b)).foldlM applyEvent seeded = .ok states ∧
    v = selectedTotalPnl states selected

variable {boundaries : List ℤ}

/-- A boundary between what was applied and what is to come has the present total. -/
theorem totals_between {past rest : List PnlEvent} {states : States}
    (hevents : events = past ++ rest) (hpast : past.foldlM applyEvent seeded = .ok states) {b : ℤ}
    (hbefore : ∀ event ∈ past, event.ts ≤ b) (hafter : ∀ event ∈ rest, b < event.ts) :
    Totals selected events seeded b (selectedTotalPnl states selected) := by
  refine ⟨states, ?_, rfl⟩
  have hfilter : events.filter (·.ts ≤ b) = past := by
    rw [hevents, List.filter_append, List.filter_eq_self.mpr, List.filter_eq_nil_iff.mpr,
      List.append_nil]
    · intro event hevent
      simpa using hafter event hevent
    · intro event hevent
      simpa using hbefore event hevent
  rw [hfilter, hpast]

/-- Capturing what lies before `ts` when no event before `ts` is to come. -/
theorem Captured.captureBefore {past rest : List PnlEvent} {w : Walk} {ts : ℤ}
    (h : Captured (Totals selected events seeded) boundaries past w)
    (hevents : events = past ++ rest) (hpast : past.foldlM applyEvent seeded = .ok w.states)
    (hrest : ∀ event ∈ rest, ts ≤ event.ts) :
    Captured (Totals selected events seeded) boundaries past
      (w.captureBefore selected ts) ∧
      ∀ b ∈ (w.captureBefore selected ts).boundaries, ts ≤ b := by
  have hsplit := List.takeWhile_append_dropWhile (p := (· < ts)) (l := w.boundaries)
  have hsub : ∀ b ∈ w.boundaries.dropWhile (· < ts), b ∈ w.boundaries :=
    fun b hb => (List.dropWhile_suffix _).subset hb
  refine ⟨⟨?_, ?_, ?_, ?_⟩, ?_⟩
  · exact h.sorted.sublist (List.dropWhile_sublist _)
  · exact fun b hb => h.pending b (hsub b hb)
  · have hfst : ((w.boundaries.takeWhile (· < ts)).map
        (·, selectedTotalPnl w.states selected)).map Prod.fst =
          w.boundaries.takeWhile (· < ts) := by
      rw [List.map_map]
      exact List.map_id _
    show (w.boundaryPnl ++ _).map Prod.fst ++ w.boundaries.dropWhile (· < ts) = boundaries
    rw [List.map_append, hfst, List.append_assoc, hsplit, h.all]
  · intro entry hentry
    rcases List.mem_append.mp hentry with hold | hnew
    · exact h.values entry hold
    · obtain ⟨b, hb, rfl⟩ := List.mem_map.mp hnew
      have hmem : b ∈ w.boundaries := (List.takeWhile_prefix _).subset hb
      have hlt : b < ts := by simpa using List.mem_takeWhile_imp hb
      exact totals_between hevents hpast (h.pending b hmem)
        fun event hevent => lt_of_lt_of_le hlt (hrest event hevent)
  · intro b hb
    have hsorted := h.sorted.sublist (List.dropWhile_sublist (· < ts))
    change b ∈ w.boundaries.dropWhile (· < ts) at hb
    cases hd : w.boundaries.dropWhile (· < ts) with
    | nil => rw [hd] at hb; cases hb
    | cons first later =>
      have hfirst : ts ≤ first := by
        have hnot := List.head?_dropWhile_not (· < ts) w.boundaries
        rw [hd] at hnot
        simpa using hnot
      rw [hd] at hb hsorted
      rcases List.mem_cons.mp hb with rfl | hlater
      · exact hfirst
      · exact hfirst.trans ((List.pairwise_cons.mp hsorted).1 b hlater)

/-- **One event.** -/
theorem Captured.apply {past rest : List PnlEvent} {event : PnlEvent} {w w' : Walk}
    (h : Captured (Totals selected events seeded) boundaries past w)
    (hevents : events = past ++ event :: rest) (hsorted : events.Pairwise fun a b => a.ts ≤ b.ts)
    (hpast : past.foldlM applyEvent seeded = .ok w.states)
    (hstep : Walk.apply selected w event = .ok w') :
    Captured (Totals selected events seeded) boundaries (past ++ [event]) w' := by
  have hrest : ∀ other ∈ event :: rest, event.ts ≤ other.ts := by
    rw [hevents] at hsorted
    intro other hother
    rcases List.mem_cons.mp hother with rfl | hlater
    · exact le_rfl
    · exact (List.pairwise_cons.mp (List.pairwise_append.mp hsorted).2.1).1 other hlater
  obtain ⟨hcaptured, hlate⟩ := h.captureBefore hevents hpast hrest
  obtain ⟨states, -, hw⟩ := bind_eq_ok.mp hstep
  rw [← pure_eq_ok.mp hw]
  refine ⟨hcaptured.sorted, ?_, hcaptured.all, hcaptured.values⟩
  intro b hb other hother
  rcases List.mem_append.mp hother with hpast' | hlast
  · exact hcaptured.pending b hb other hpast'
  · rw [List.mem_singleton.mp hlast]
    exact hlate b hb

/-- **A run.** The walk goes on from what was applied before. -/
theorem Captured.run {past next rest : List PnlEvent} {w w' : Walk}
    (h : Captured (Totals selected events seeded) boundaries past w)
    (hevents : events = past ++ (next ++ rest))
    (hsorted : events.Pairwise fun a b => a.ts ≤ b.ts)
    (hpast : past.foldlM applyEvent seeded = .ok w.states)
    (hrun : next.foldlM (Walk.apply selected) w = .ok w') :
    Captured (Totals selected events seeded) boundaries (past ++ next) w' ∧
      (past ++ next).foldlM applyEvent seeded = .ok w'.states := by
  induction next generalizing past w with
  | nil =>
    rw [← run_nil.mp hrun, List.append_nil]
    exact ⟨h, hpast⟩
  | cons event next ih =>
    obtain ⟨t, ht, hrest⟩ := run_cons.mp hrun
    have hstates : (past ++ [event]).foldlM applyEvent seeded = .ok t.states := by
      refine run_append.mpr ⟨w.states, hpast, run_cons.mpr ⟨t.states, ?_, run_nil.mpr rfl⟩⟩
      obtain ⟨states, hstates, hw⟩ := bind_eq_ok.mp ht
      rw [← pure_eq_ok.mp hw]
      exact hstates
    have hnext := ih (h.apply hevents hsorted hpast ht) (hevents.trans (List.append_cons ..))
      hstates hrest
    rwa [List.append_assoc] at hnext

/-- After the loop every boundary has its total, once no event up to one of them is to come. -/
theorem Captured.rest {past rest : List PnlEvent} {w : Walk}
    (h : Captured (Totals selected events seeded) boundaries past w)
    (hevents : events = past ++ rest) (hpast : past.foldlM applyEvent seeded = .ok w.states)
    (hrest : ∀ b ∈ boundaries, ∀ event ∈ rest, b < event.ts) {b : ℤ} (hb : b ∈ boundaries) :
    ∃ v, ((w.captureRest selected).find? (·.1 = b)).map Prod.snd = some v ∧
      Totals selected events seeded b v := by
  have hfst : (w.captureRest selected).map Prod.fst = boundaries := by
    rw [Walk.captureRest, List.map_append, List.map_map, ← h.all]
    congr 1
    exact List.map_id _
  have hvalues : ∀ entry ∈ w.captureRest selected,
      Totals selected events seeded entry.1 entry.2 := by
    intro entry hentry
    rcases List.mem_append.mp hentry with hold | hnew
    · exact h.values entry hold
    · obtain ⟨c, hc, rfl⟩ := List.mem_map.mp hnew
      have hmem : c ∈ boundaries := h.all ▸ List.mem_append_right _ hc
      exact totals_between hevents hpast (h.pending c hc) (hrest c hmem)
  rw [← hfst] at hb
  obtain ⟨entry, hentry, rfl⟩ := List.mem_map.mp hb
  cases hfind : (w.captureRest selected).find? (·.1 = entry.1) with
  | none => exact absurd (List.find?_eq_none.mp hfind entry hentry) (by simp)
  | some found =>
    have hkey : found.1 = entry.1 := by simpa using List.find?_some hfind
    exact ⟨found.2, rfl, hkey ▸ hvalues found (List.mem_of_find?_eq_some hfind)⟩

end

theorem rollingBoundaries_sorted (request : PnlCalculation) :
    (rollingBoundaries request).Pairwise (· ≤ ·) :=
  (sortByKey_pairwise id _).sublist (List.destutter_sublist _ _)

theorem mem_rollingBoundaries {request : PnlCalculation} {b : ℤ} :
    b ∈ rollingBoundaries request ↔
      (∃ windowMs ∈ rollingWindowsMs, request.endMs - windowMs = b) ∧
        request.strategyStartMs ≤ b := by
  unfold rollingBoundaries
  rw [mem_destutter, List.mem_insertionSort, List.mem_filter, List.mem_map, decide_eq_true_eq]

/-! ## `calculate` -/

theorem drawing_walk (source : PnlSourceKind) (selected : List String)
    (baselines : String → Metrics) (d : Drawing) (events : List PnlEvent) :
    events.foldlM (Walk.apply selected) d.walk
      = (events.foldlM (Drawing.apply source selected baselines) d).map Drawing.walk := by
  refine run_map (π := Drawing.walk) (fun d event => ?_) d events
  simp only [Drawing.apply, bind, Except.bind]
  cases d.walk.apply selected event with
  | error e => rfl
  | ok walk =>
    simp only
    split <;> rfl

/-- The two windows of a response. -/
def rolling (response : PnlResponse) : Option RollingWindowPnl × Option RollingWindowPnl :=
  (response.performance.rolling7d, response.performance.rolling30d)

/-- The events up to a later time are those up to an earlier one and some more. -/
theorem events_upTo_split (inputs : PnlInputs) {ts endMs : ℤ} (h : ts ≤ endMs) :
    inputs.sortedEvents.filter (·.ts ≤ endMs) = inputs.sortedEvents.filter (·.ts ≤ ts) ++
      (inputs.sortedEvents.dropWhile (·.ts ≤ ts)).takeWhile (·.ts ≤ endMs) := by
  have hsorted := sortedEvents_pairwise inputs
  rw [filter_le_eq_takeWhile hsorted endMs, filter_le_eq_takeWhile hsorted ts]
  refine takeWhile_eq_append (fun event he => ?_) _
  simp only [decide_eq_true_eq] at he ⊢
  exact he.trans h

theorem statesAt_of_le {inputs : PnlInputs} {source : PnlSourceKind} {ts endMs : ℤ}
    (h : ts ≤ endMs) {closed : States} (hclosed : statesAt inputs source endMs = .ok closed) :
    ∃ states, statesAt inputs source ts = .ok states := by
  obtain ⟨seeded, hseeded, hrun⟩ := bind_eq_ok.mp hclosed
  rw [events_upTo_split inputs h, run_append] at hrun
  obtain ⟨states, hstates, -⟩ := hrun
  exact ⟨states, bind_eq_ok.mpr ⟨seeded, hseeded, hstates⟩⟩

theorem totalAt_eq {inputs : PnlInputs} {request : PnlCalculation} {seeded : States}
    (hseeded : inputs.initialPositions.foldlM seedInitial
      (initialStates request.source inputs.availableSymbols) = .ok seeded) {b : ℤ} {v : ℚ}
    (h : Totals (selectSymbols inputs.availableSymbols request.selectedSymbols)
      inputs.sortedEvents seeded b v) : totalAt inputs request b = v := by
  obtain ⟨states, hstates, rfl⟩ := h
  have hat : statesAt inputs request.source b = .ok states :=
    bind_eq_ok.mpr ⟨seeded, hseeded, hstates⟩
  unfold totalAt
  rw [hat]

theorem endMs_lt_of_mem {inputs : PnlInputs} {endMs : ℤ} {event : PnlEvent}
    (h : event ∈ inputs.sortedEvents.dropWhile (·.ts ≤ endMs)) : endMs < event.ts := by
  have hsame : inputs.sortedEvents.dropWhile (·.ts ≤ endMs) =
      inputs.sortedEvents.dropWhile (·.ts < endMs + 1) := by
    congr 1
    funext event
    exact decide_eq_decide.mpr Int.lt_add_one_iff.symm
  rw [hsame] at h
  exact Int.lt_of_add_one_le (startMs_le_of_mem_window h)

/-- A window reports what it is to report, when its boundary was captured. -/
theorem rollingWindow_eq {inputs : PnlInputs} {request : PnlCalculation} {boundaryPnl : List (ℤ × ℚ)}
    {windowMs : ℤ} (hboundary : request.strategyStartMs ≤ request.endMs - windowMs →
      (boundaryPnl.find? (·.1 = request.endMs - windowMs)).map Prod.snd =
        some (totalAt inputs request (request.endMs - windowMs))) :
    rollingWindow request.strategyStartMs request.endMs (request.principalUsdt.filter (0 < ·))
      boundaryPnl (totalAt inputs request request.endMs) windowMs =
        windowPnl inputs request windowMs := by
  unfold rollingWindow windowPnl
  by_cases hcovered : request.endMs - max (request.endMs - windowMs) request.strategyStartMs ≤ 0
  · simp only [if_pos hcovered]
  · by_cases hstart : request.strategyStartMs ≤ request.endMs - windowMs
    · simp only [if_neg hcovered, if_pos hstart, hboundary hstart]
      rfl
    · simp only [if_neg hcovered, if_neg hstart]
      rfl

/-- After both loops every boundary has its total, and the end has the present one. -/
theorem rolling_report {inputs : PnlInputs} {request : PnlCalculation}
    (hwindow : request.startMs ≤ request.endMs) {seeded : States}
    (hseeded : inputs.initialPositions.foldlM seedInitial
      (initialStates request.source inputs.availableSymbols) = .ok seeded)
    {selected : List String}
    (hselected : selected = selectSymbols inputs.availableSymbols request.selectedSymbols)
    {w : Walk} (hw : (inputs.sortedEvents.takeWhile (·.ts < request.startMs)).foldlM
      (Walk.apply selected) ⟨seeded, rollingBoundaries request, []⟩ = .ok w) {d : Drawing}
    (hd : ((inputs.sortedEvents.dropWhile (·.ts < request.startMs)).takeWhile
      (·.ts ≤ request.endMs)).foldlM (Drawing.apply request.source selected (metricsOf w.states))
        (.start request selected (w.captureBefore selected request.startMs)) = .ok d) :
    rolling (report inputs request selected selected (metricsOf w.states) d) =
      (windowPnl inputs request (7 * dayMs), windowPnl inputs request (30 * dayMs)) := by
  have hsorted := sortedEvents_pairwise inputs
  have hsplit : inputs.sortedEvents = inputs.sortedEvents.takeWhile (·.ts < request.startMs) ++
      inputs.sortedEvents.dropWhile (·.ts < request.startMs) :=
    List.takeWhile_append_dropWhile.symm
  -- before the displayed start
  have hstart : Captured (Totals selected inputs.sortedEvents seeded)
      (rollingBoundaries request) [] ⟨seeded, rollingBoundaries request, []⟩ :=
    ⟨rollingBoundaries_sorted request, fun _ _ _ h => (List.not_mem_nil h).elim, rfl,
      fun _ h => (List.not_mem_nil h).elim⟩
  obtain ⟨hbefore, hbeforeRun⟩ := hstart.run hsplit hsorted rfl hw
  rw [List.nil_append] at hbefore hbeforeRun
  -- at the start
  obtain ⟨hopened, -⟩ := hbefore.captureBefore hsplit hbeforeRun
    fun event hevent => startMs_le_of_mem_window hevent
  -- inside the displayed window
  have hdraw := drawing_walk request.source selected (metricsOf w.states)
    (.start request selected (w.captureBefore selected request.startMs))
    ((inputs.sortedEvents.dropWhile (·.ts < request.startMs)).takeWhile (·.ts ≤ request.endMs))
  rw [hd] at hdraw
  have hall : inputs.sortedEvents = inputs.sortedEvents.takeWhile (·.ts < request.startMs) ++
      ((inputs.sortedEvents.dropWhile (·.ts < request.startMs)).takeWhile (·.ts ≤ request.endMs) ++
        (inputs.sortedEvents.dropWhile (·.ts < request.startMs)).dropWhile
          (·.ts ≤ request.endMs)) := by
    rw [List.takeWhile_append_dropWhile]
    exact hsplit
  obtain ⟨hclosed, hclosedRun⟩ := hopened.run hall hsorted hbeforeRun hdraw
  rw [← replayed_events inputs hwindow] at hclosed hclosedRun
  -- after the last event
  have hpast : inputs.sortedEvents = inputs.sortedEvents.filter (·.ts ≤ request.endMs) ++
      inputs.sortedEvents.dropWhile (·.ts ≤ request.endMs) := by
    rw [filter_le_eq_takeWhile hsorted]
    exact List.takeWhile_append_dropWhile.symm
  have hlate : ∀ b ∈ rollingBoundaries request,
      ∀ event ∈ inputs.sortedEvents.dropWhile (·.ts ≤ request.endMs), b < event.ts := by
    intro b hb event hevent
    obtain ⟨⟨windowMs, hwindowMs, rfl⟩, -⟩ := mem_rollingBoundaries.mp hb
    have hend := endMs_lt_of_mem hevent
    have hpositive : ∀ windowMs ∈ rollingWindowsMs, 0 < windowMs := by decide
    have := hpositive windowMs hwindowMs
    omega
  have hend : totalAt inputs request request.endMs = selectedTotalPnl d.walk.states selected :=
    totalAt_eq hseeded ⟨d.walk.states, hclosedRun, by rw [hselected]⟩
  have hwindowEq : ∀ windowMs ∈ rollingWindowsMs,
      rollingWindow request.strategyStartMs request.endMs (request.principalUsdt.filter (0 < ·))
        (d.walk.captureRest selected) (selectedTotalPnl d.walk.states selected) windowMs =
          windowPnl inputs request windowMs := by
    intro windowMs hwindowMs
    rw [← hend]
    refine rollingWindow_eq fun hboundary => ?_
    obtain ⟨v, hv, htotals⟩ := hclosed.rest hpast hclosedRun hlate
      (mem_rollingBoundaries.mpr ⟨⟨windowMs, hwindowMs, rfl⟩, hboundary⟩)
    rw [hv, totalAt_eq hseeded (hselected ▸ htotals)]
  exact Prod.ext (hwindowEq _ (by simp [rollingWindowsMs])) (hwindowEq _ (by simp [rollingWindowsMs]))

/-- The windows of a response, from the states at its end. -/
theorem calculate_rolling (inputs : PnlInputs) {request : PnlCalculation}
    (hstrategy : request.strategyStartMs ≤ request.startMs)
    (hwindow : request.startMs ≤ request.endMs) :
    (calculate inputs request).map rolling =
      if selectSymbols inputs.availableSymbols request.selectedSymbols = [] ∧
          inputs.availableSymbols ≠ [] then
        .error (.message "none of the requested symbols exist in the selected time range")
      else (statesAt inputs request.source request.endMs).map fun _ =>
        (windowPnl inputs request (7 * dayMs), windowPnl inputs request (30 * dayMs)) := by
  set selected := selectSymbols inputs.availableSymbols request.selectedSymbols with hselected
  unfold calculate calculateIn
  simp only [if_neg (not_lt.mpr hstrategy), if_neg (not_lt.mpr hwindow), ← hselected]
  by_cases hguard : selected = [] ∧ inputs.availableSymbols ≠ []
  · rw [if_pos hguard, if_pos hguard]
    rfl
  rw [if_neg hguard, if_neg hguard]
  have hsplit := replayed_events inputs hwindow
  set before := inputs.sortedEvents.takeWhile (·.ts < request.startMs) with hbefore
  set window := inputs.sortedEvents.dropWhile (·.ts < request.startMs) with hwindowEvents
  unfold statesAt
  rw [hsplit]
  cases hseeded : inputs.initialPositions.foldlM seedInitial
      (initialStates request.source inputs.availableSymbols) with
  | error e => rfl
  | ok seeded =>
  have hwalk := walk_run selected ⟨seeded, rollingBoundaries request, []⟩ before
  simp only [bind, Except.bind, List.foldlM_append, hwalk]
  cases hw : before.foldlM (Walk.apply selected) ⟨seeded, rollingBoundaries request, []⟩ with
  | error e => rfl
  | ok w =>
  have hdraw := drawing_run request.source selected (metricsOf w.states)
    (.start request selected (w.captureBefore selected request.startMs))
    (window.takeWhile (·.ts ≤ request.endMs))
  change (window.takeWhile (·.ts ≤ request.endMs)).foldlM applyEvent w.states = _ at hdraw
  simp only [Except.map, hdraw]
  rw [show (w.captureBefore selected request.startMs).states = w.states from rfl]
  cases hd : (window.takeWhile (·.ts ≤ request.endMs)).foldlM
      (Drawing.apply request.source selected (metricsOf w.states))
      (.start request selected (w.captureBefore selected request.startMs)) with
  | error e => rfl
  | ok d =>
    exact congrArg Except.ok (rolling_report hwindow hseeded hselected hw hd)

/-- **Rolling windows do not depend on the displayed window.** Two requests that differ in their
start only get the same windows, in whatever order each walks the set of the selected symbols, and
a response has the totals at its end less those at the boundaries. -/
theorem rolling_windows {inputs : PnlInputs} {request : PnlCalculation} {startMs : ℤ}
    {order order' : List String}
    (horder : order.Perm (selectSymbols inputs.availableSymbols request.selectedSymbols))
    (horder' : order'.Perm (selectSymbols inputs.availableSymbols request.selectedSymbols))
    (hstrategy : request.strategyStartMs ≤ request.startMs)
    (hwindow : request.startMs ≤ request.endMs) (hstrategy' : request.strategyStartMs ≤ startMs)
    (hwindow' : startMs ≤ request.endMs) :
    (calculateIn order inputs request).map rolling =
        (calculateIn order' inputs { request with startMs := startMs }).map rolling ∧
      ∀ response, calculateIn order inputs request = .ok response →
        (∀ ts ≤ request.endMs, ∃ states, statesAt inputs request.source ts = .ok states) ∧
        response.performance.rolling7d = windowPnl inputs request (7 * dayMs) ∧
        response.performance.rolling30d = windowPnl inputs request (30 * dayMs) := by
  have hfirst := calculate_rolling inputs hstrategy hwindow
  have hsecond :=
    @calculate_rolling inputs { request with startMs := startMs } hstrategy' hwindow'
  rw [calculateIn_eq horder,
    @calculateIn_eq order' inputs { request with startMs := startMs } horder']
  refine ⟨hfirst.trans hsecond.symm, fun response hresponse => ?_⟩
  rw [hresponse] at hfirst
  split at hfirst
  · cases hfirst
  · obtain ⟨closed, hclosed, hrolling⟩ := map_eq_ok.mp hfirst.symm
    exact ⟨fun ts hts => statesAt_of_le hts hclosed, (congrArg Prod.fst hrolling).symm,
      (congrArg Prod.snd hrolling).symm⟩

/-- Forty days of history: a gain on the tenth day and one two days before the end. -/
def fortyDays : PnlInputs where
  trades := [⟨"BTCUSDT", .buy, .spot, 100, 1000, 10, some 0, 1000 + 10 * dayMs⟩,
    ⟨"BTCUSDT", .sell, .spot, 110, 1100, 10, some 0, 1001 + 10 * dayMs⟩,
    ⟨"ETHUSDT", .buy, .spot, 200, 2000, 10, some 0, 1000 + 38 * dayMs⟩,
    ⟨"ETHUSDT", .sell, .spot, 205, 2050, 10, some 0, 1001 + 38 * dayMs⟩]

def lastDays (days : ℤ) : PnlCalculation where
  source := .intra
  exchange := "binance"
  strategyStartMs := 1000
  startMs := 1000 + (40 - days) * dayMs
  endMs := 1000 + 40 * dayMs
  maxPoints := 1000
  principalUsdt := some 10000

/-- Displaying three days or the whole history, with the two symbols in either order. -/
theorem rolling_windows_forty_days :
    (calculateIn ["ETHUSDT", "BTCUSDT"] fortyDays (lastDays 3)).map rolling =
      (calculateIn ["BTCUSDT", "ETHUSDT"] fortyDays (lastDays 40)).map rolling :=
  (@rolling_windows fortyDays (lastDays 3) (lastDays 40).startMs ["ETHUSDT", "BTCUSDT"]
    ["BTCUSDT", "ETHUSDT"] (by decide +kernel) (by decide +kernel) (by decide) (by decide)
    (by decide) (by decide)).1

/-- A funding payment too small to be shown. -/
def dustFunding : PnlInputs where
  funding := [⟨"BTCUSDT", 1 / 10 ^ 13, 10⟩]

/-- The window reports nothing although the total at its end is not that at its boundary. -/
theorem dust_window_cleaned :
    Yields (calculate dustFunding sampleRequest) fun response =>
      response.performance.rolling7d.map RollingWindowPnl.pnlUsdt = some 0 ∧
        sampleRequest.endMs - 7 * dayMs < sampleRequest.strategyStartMs ∧
        totalAt dustFunding sampleRequest sampleRequest.endMs - 0 ≠ 0 := by
  decide +kernel

end CryptoNav.Pnl
