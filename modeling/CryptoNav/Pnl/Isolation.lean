import CryptoNav.Pnl.Rolling

/-!
# Symbols do not interfere

All symbols share one walk over the events, one list of boundaries and one curve, but an event
changes the state of its own symbol only, and everything that is reported of the selected symbols
is read from their states. So `calculate` on the inputs of the selected symbols alone makes the
same report (`calculate_restrict`): its runs leave out the steps of the others, and what is
captured at a boundary is what `windowPnl` says in both.

What the symbols do share are errors: an event that cannot be booked stops the report of all
symbols, also of those that were not selected. The theorem is about reports that are made.
-/

set_option autoImplicit false

namespace CryptoNav.Pnl

open CryptoNav.Lib

/-! ## The inputs of some symbols -/

/-- The inputs of the given symbols. -/
def PnlInputs.restrict (inputs : PnlInputs) (symbols : List String) : PnlInputs where
  trades := inputs.trades.filter (·.symbol ∈ symbols)
  funding := inputs.funding.filter (·.symbol ∈ symbols)
  interest := inputs.interest.filter (·.symbol ∈ symbols)
  initialPositions := inputs.initialPositions.filter (·.symbol ∈ symbols)

theorem restrict_sortedEvents (inputs : PnlInputs) (symbols : List String) :
    (inputs.restrict symbols).sortedEvents = inputs.sortedEvents.filter (·.symbol ∈ symbols) := by
  unfold PnlInputs.sortedEvents
  rw [← sortByKey_filter]
  congr 1
  simp only [PnlInputs.events, PnlInputs.restrict, List.filter_append, List.filter_map]
  rfl

theorem sortedSet_filter (p : String → Bool) (l : List String) :
    sortedSet (l.filter p) = (sortedSet l).filter p := by
  have hsorted : ∀ l : List String, (sortedSet l).Pairwise (· < ·) := by
    intro l
    refine ((sortByKey_pairwise id l.dedup).and (sortedSet_nodup l)).imp ?_
    rintro a b ⟨hle, hne⟩
    exact lt_of_le_of_ne hle hne
  refine eq_of_strictly_sorted id (hsorted _) ((hsorted l).filter p) fun a => ?_
  simp only [mem_sortedSet, List.mem_filter]

theorem restrict_availableSymbols (inputs : PnlInputs) (symbols : List String) :
    (inputs.restrict symbols).availableSymbols =
      inputs.availableSymbols.filter (· ∈ symbols) := by
  unfold PnlInputs.availableSymbols
  rw [← sortedSet_filter]
  congr 1
  simp only [PnlInputs.restrict, List.filter_append, List.filter_map]
  rfl

theorem mem_selectSymbols {available requested : List String} {symbol : String}
    (h : symbol ∈ selectSymbols available requested) : symbol ∈ available := by
  unfold selectSymbols at h
  split at h
  · exact h
  · rw [mem_destutter, List.mem_insertionSort, List.mem_filter] at h
    simpa using h.2

/-- The selected symbols are selected again from themselves. -/
theorem selectSymbols_filter (available requested : List String) :
    selectSymbols (available.filter (· ∈ selectSymbols available requested)) requested =
      selectSymbols available requested := by
  have hmem : ∀ symbol ∈ selectSymbols available requested, symbol ∈ available :=
    fun symbol => mem_selectSymbols
  generalize hselected : selectSymbols available requested = selected at hmem
  unfold selectSymbols at hselected ⊢
  by_cases hnone : requested = []
  · rw [if_pos hnone] at hselected ⊢
    rw [hselected]
    exact List.filter_eq_self.mpr fun symbol h => by simpa using h
  · rw [if_neg hnone] at hselected ⊢
    rw [← hselected]
    congr 2
    refine List.filter_congr fun symbol hsymbol => ?_
    rw [hselected, decide_eq_decide, List.mem_filter, decide_eq_true_eq]
    constructor
    · exact fun h => h.1
    · intro h
      refine ⟨h, ?_⟩
      rw [← hselected, mem_destutter, List.mem_insertionSort, List.mem_filter]
      exact ⟨hsymbol, by simpa using h⟩

/-! ## The runs -/

/-- Two state maps have the same states of some symbols. Of the others nothing is said, and one of
    the maps may not have them at all. -/
def SameOn (symbols : List String) (states states' : States) : Prop :=
  ∀ symbol ∈ symbols, states symbol = states' symbol

theorem SameOn.update {symbols : List String} {states states' : States}
    (h : SameOn symbols states states') (symbol : String) (s : SymbolState) :
    SameOn symbols (Function.update states symbol (some s))
      (Function.update states' symbol (some s)) := by
  intro other hother
  by_cases he : other = symbol
  · rw [he, Function.update_self, Function.update_self]
  · rw [Function.update_of_ne he, Function.update_of_ne he, h other hother]

theorem SameOn.update_left {symbols : List String} {states states' : States}
    (h : SameOn symbols states states') {symbol : String} (hsymbol : symbol ∉ symbols)
    (s : SymbolState) : SameOn symbols (Function.update states symbol (some s)) states' := by
  intro other hother
  have hne : other ≠ symbol := fun he => hsymbol (he ▸ hother)
  rw [Function.update_of_ne hne, h other hother]

theorem SameOn.metricsOf {symbols : List String} {states states' : States}
    (h : SameOn symbols states states') {symbol : String} (hsymbol : symbol ∈ symbols) :
    metricsOf states symbol = metricsOf states' symbol := by
  unfold Pnl.metricsOf
  rw [h symbol hsymbol]

theorem applyEvent_cases {states states' : States} {event : PnlEvent}
    (h : applyEvent states event = .ok states') :
    ∃ s s', states event.symbol = some s ∧ s.applyEvent event = .ok s' ∧
      states' = Function.update states event.symbol (some s') := by
  unfold applyEvent at h
  cases hs : states event.symbol with
  | none => rw [hs] at h; cases h
  | some s =>
    rw [hs] at h
    obtain ⟨s', hs', h⟩ := bind_eq_ok.mp h
    exact ⟨s, s', rfl, hs', (pure_eq_ok.mp h).symm⟩

theorem seedInitial_cases {states states' : States} {position : InitialPosition}
    (h : seedInitial states position = .ok states') :
    ∃ s s', states position.symbol = some s ∧ s.seedPosition position = .ok s' ∧
      states' = Function.update states position.symbol (some s') := by
  unfold seedInitial at h
  cases hs : states position.symbol with
  | none => rw [hs] at h; cases h
  | some s =>
    rw [hs] at h
    obtain ⟨s', hs', h⟩ := bind_eq_ok.mp h
    exact ⟨s, s', rfl, hs', (pure_eq_ok.mp h).symm⟩

/-- An event of the symbols happens on both sides. -/
theorem SameOn.applyEvent {symbols : List String} {states states' after : States}
    {event : PnlEvent} (h : SameOn symbols states states') (hsymbol : event.symbol ∈ symbols)
    (hstep : Pnl.applyEvent states event = .ok after) :
    ∃ after', Pnl.applyEvent states' event = .ok after' ∧ SameOn symbols after after' := by
  obtain ⟨s, s', hs, hs', rfl⟩ := applyEvent_cases hstep
  refine ⟨Function.update states' event.symbol (some s'), ?_, h.update event.symbol s'⟩
  unfold Pnl.applyEvent
  rw [← h event.symbol hsymbol, hs]
  exact bind_eq_ok.mpr ⟨s', hs', rfl⟩

/-- An event of another symbol does not show. -/
theorem SameOn.applyEvent_other {symbols : List String} {states states' after : States}
    {event : PnlEvent} (h : SameOn symbols states states') (hsymbol : event.symbol ∉ symbols)
    (hstep : Pnl.applyEvent states event = .ok after) : SameOn symbols after states' := by
  obtain ⟨s, s', -, -, rfl⟩ := applyEvent_cases hstep
  exact h.update_left hsymbol s'

theorem SameOn.run {symbols : List String} {states states' after : States}
    {events : List PnlEvent} (h : SameOn symbols states states')
    (hrun : events.foldlM Pnl.applyEvent states = .ok after) :
    ∃ after', (events.filter (·.symbol ∈ symbols)).foldlM Pnl.applyEvent states' = .ok after' ∧
      SameOn symbols after after' := by
  refine run_filter (R := SameOn symbols) ?_ ?_ h hrun
  · intro event s s' t hmem hsame hstep
    exact hsame.applyEvent (by simpa using hmem) hstep
  · intro event s s' t hmem hsame hstep
    exact hsame.applyEvent_other (by simpa using hmem) hstep

theorem SameOn.seeds {symbols : List String} {states states' after : States}
    {positions : List InitialPosition} (h : SameOn symbols states states')
    (hrun : positions.foldlM seedInitial states = .ok after) :
    ∃ after', (positions.filter (·.symbol ∈ symbols)).foldlM seedInitial states' = .ok after' ∧
      SameOn symbols after after' := by
  refine run_filter (R := SameOn symbols) ?_ ?_ h hrun
  · intro position s s' t hmem hsame hstep
    obtain ⟨state, state', hstate, hstate', rfl⟩ := seedInitial_cases hstep
    refine ⟨_, ?_, hsame.update position.symbol state'⟩
    unfold seedInitial
    rw [← hsame position.symbol (by simpa using hmem), hstate]
    exact bind_eq_ok.mpr ⟨state', hstate', rfl⟩
  · intro position s s' t hmem hsame hstep
    obtain ⟨state, state', -, -, rfl⟩ := seedInitial_cases hstep
    exact hsame.update_left (by simpa using hmem) state'

/-! ## The curves -/

/-- Two drawings have the same curves of the selected symbols. The curve over all of them is drawn
    of these alone, so it is among them. -/
structure SameCurves (selected : List String) (d d' : Drawing) : Prop where
  states : SameOn selected d.walk.states d'.walk.states
  points : d'.points = d.points
  symbols : ∀ symbol ∈ selected, d'.pointsBySymbol symbol = d.pointsBySymbol symbol

section

variable {selected : List String} {baselines baselines' : String → Metrics}
  (hbase : ∀ symbol ∈ selected, baselines symbol = baselines' symbol)

include hbase

theorem SameOn.aggregatePoint {states states' : States} (h : SameOn selected states states')
    (ts : ℤ) (source : PnlSourceKind) :
    aggregatePoint ts states' baselines' selected source =
      aggregatePoint ts states baselines selected source := by
  unfold Pnl.aggregatePoint
  simp only
  congr 1
  refine List.foldl_ext _ _ _ fun point symbol hsymbol => ?_
  rw [h.metricsOf hsymbol, hbase symbol hsymbol]

theorem SameOn.symbolPoint {states states' : States} (h : SameOn selected states states')
    (ts : ℤ) (source : PnlSourceKind) {symbol : String} (hsymbol : symbol ∈ selected) :
    symbolPoint ts symbol states' baselines' source =
      symbolPoint ts symbol states baselines source := by
  unfold Pnl.symbolPoint
  rw [h.metricsOf hsymbol, hbase symbol hsymbol]

omit hbase in
theorem drawing_apply_of_mem {source : PnlSourceKind} {d : Drawing} {event : PnlEvent}
    {states : States} (hsymbol : event.symbol ∈ selected)
    (hstates : applyEvent d.walk.states event = .ok states) :
    Drawing.apply source selected baselines d event = .ok {
      walk := { d.walk.captureBefore selected event.ts with states }
      points := pushOrReplacePoint d.points
        (aggregatePoint event.ts states baselines selected source)
      pointsBySymbol := Function.update d.pointsBySymbol event.symbol
        (pushOrReplacePoint (d.pointsBySymbol event.symbol)
          (symbolPoint event.ts event.symbol states baselines source)) } :=
  bind_eq_ok.mpr ⟨_, bind_eq_ok.mpr ⟨states, hstates, rfl⟩, if_pos hsymbol⟩

/-- An event of a selected symbol draws the same points. -/
theorem SameCurves.apply {source : PnlSourceKind} {d d' after : Drawing} {event : PnlEvent}
    (h : SameCurves selected d d') (hsymbol : event.symbol ∈ selected)
    (hstep : Drawing.apply source selected baselines d event = .ok after) :
    ∃ after', Drawing.apply source selected baselines' d' event = .ok after' ∧
      SameCurves selected after after' := by
  obtain ⟨walk, hwalk, -⟩ := bind_eq_ok.mp hstep
  obtain ⟨states, hstates, -⟩ := bind_eq_ok.mp hwalk
  change Pnl.applyEvent d.walk.states event = .ok states at hstates
  obtain ⟨states', hstates', hsame⟩ := h.states.applyEvent hsymbol hstates
  rw [drawing_apply_of_mem hsymbol hstates] at hstep
  obtain rfl := Except.ok.inj hstep
  refine ⟨_, drawing_apply_of_mem hsymbol hstates', hsame, ?_, fun symbol hother => ?_⟩
  · simp only [h.points, hsame.aggregatePoint hbase]
  · by_cases he : symbol = event.symbol
    · subst he
      simp only [Function.update_self, h.symbols _ hsymbol, hsame.symbolPoint hbase _ _ hsymbol]
    · simp only [Function.update_of_ne he, h.symbols _ hother]

omit hbase in
/-- An event of another symbol draws nothing. -/
theorem SameCurves.apply_other {source : PnlSourceKind} {d d' after : Drawing} {event : PnlEvent}
    (h : SameCurves selected d d') (hsymbol : event.symbol ∉ selected)
    (hstep : Drawing.apply source selected baselines d event = .ok after) :
    SameCurves selected after d' := by
  obtain ⟨walk, hwalk, hdraw⟩ := bind_eq_ok.mp hstep
  obtain ⟨states, hstates, hw⟩ := bind_eq_ok.mp hwalk
  rw [if_neg hsymbol] at hdraw
  obtain rfl := pure_eq_ok.mp hw
  obtain rfl := pure_eq_ok.mp hdraw
  exact ⟨h.states.applyEvent_other hsymbol hstates, h.points, h.symbols⟩

theorem SameCurves.run {source : PnlSourceKind} {d d' after : Drawing} {events : List PnlEvent}
    (h : SameCurves selected d d')
    (hrun : events.foldlM (Drawing.apply source selected baselines) d = .ok after) :
    ∃ after', (events.filter (·.symbol ∈ selected)).foldlM
        (Drawing.apply source selected baselines') d' = .ok after' ∧
      SameCurves selected after after' := by
  refine run_filter (R := SameCurves selected) ?_ ?_ h hrun
  · intro event s s' t hmem hsame hstep
    exact hsame.apply hbase (by simpa using hmem) hstep
  · intro event s s' t hmem hsame hstep
    exact hsame.apply_other (by simpa using hmem) hstep

theorem SameCurves.finish {d d' : Drawing} (h : SameCurves selected d d')
    (request : PnlCalculation) :
    SameCurves selected (d.finish request selected baselines)
      (d'.finish request selected baselines') := by
  refine ⟨h.states, ?_, fun symbol hsymbol => ?_⟩
  · simp only [Drawing.finish, h.points, h.states.aggregatePoint hbase]
  · simp only [Drawing.finish, if_pos hsymbol, h.symbols symbol hsymbol,
      h.states.symbolPoint hbase _ _ hsymbol]

end

/-! ## The report -/

/-- Two responses say the same of the selected symbols. The rows of the others are left out, of
    which the restricted inputs know nothing. -/
structure SameReport (response response' : PnlResponse) : Prop where
  selected : response'.selectedSymbols = response.selectedSymbols
  summary : response'.summary = response.summary
  points : response'.points = response.points
  symbolPoints : response'.symbolPoints = response.symbolPoints
  performance : response'.performance = response.performance
  symbols : response'.symbols =
    response.symbols.filter (·.symbol ∈ response.selectedSymbols)

theorem symbolRows_restrict (inputs : PnlInputs) {selected : List String} {states states' : States}
    {baselines baselines' : String → Metrics} (h : SameOn selected states states')
    (hbase : ∀ symbol ∈ selected, baselines symbol = baselines' symbol) :
    symbolRows (inputs.restrict selected).availableSymbols states' baselines' =
      (symbolRows inputs.availableSymbols states baselines).filter (·.symbol ∈ selected) := by
  unfold symbolRows
  rw [← sortByKey_filter, restrict_availableSymbols, List.filter_map]
  congr 1
  refine List.map_congr_left fun symbol hsymbol => ?_
  have hmem : symbol ∈ selected := by simpa using (List.mem_filter.mp hsymbol).2
  rw [h.metricsOf hmem, hbase symbol hmem]

theorem aggregateSummary_filter (rows : List SymbolPnlSummary) (selected : List String) :
    aggregateSummary (rows.filter (·.symbol ∈ selected)) selected =
      aggregateSummary rows selected := by
  unfold aggregateSummary
  rw [List.filter_filter]
  simp only [Bool.and_self]

/-- Of the boundaries and the final total only the rolling windows are made. -/
theorem buildPerformance_congr {strategyStartMs endMs : ℤ} {principal : Option ℚ}
    {points : List PnlPoint} {boundaryPnl boundaryPnl' : List (ℤ × ℚ)} {total total' : ℚ}
    (h : ∀ windowMs ∈ rollingWindowsMs,
      rollingWindow strategyStartMs endMs (principal.filter (0 < ·)) boundaryPnl' total' windowMs =
        rollingWindow strategyStartMs endMs (principal.filter (0 < ·)) boundaryPnl total
          windowMs) :
    buildPerformance strategyStartMs endMs principal points boundaryPnl' total' =
      buildPerformance strategyStartMs endMs principal points boundaryPnl total := by
  have h7 := h (7 * dayMs) (by simp [rollingWindowsMs])
  have h30 := h (30 * dayMs) (by simp [rollingWindowsMs])
  unfold buildPerformance
  simp only [h7, h30]

theorem SameCurves.sameReport {inputs : PnlInputs} {request : PnlCalculation} {selected : List String}
    {baselines baselines' : String → Metrics} {d d' : Drawing} (h : SameCurves selected d d')
    (hbase : ∀ symbol ∈ selected, baselines symbol = baselines' symbol)
    (hrolling : rolling
        (report (inputs.restrict selected) request selected selected baselines' d') =
      rolling (report inputs request selected selected baselines d)) :
    SameReport (report inputs request selected selected baselines d)
      (report (inputs.restrict selected) request selected selected baselines' d') := by
  have hfinish := h.finish hbase request
  have hrows := symbolRows_restrict inputs hfinish.states hbase
  refine ⟨rfl, ?_, ?_, ?_, ?_, hrows⟩
  · simp only [report, hrows, aggregateSummary_filter, hfinish.points]
  · simp only [report, hfinish.points]
  · refine List.map_congr_left fun symbol hsymbol => ?_
    simp only [hfinish.symbols symbol hsymbol]
  · simp only [report, hfinish.points]
    refine buildPerformance_congr fun windowMs hwindowMs => ?_
    simp only [rollingWindowsMs, List.mem_cons, List.not_mem_nil, or_false] at hwindowMs
    rcases hwindowMs with rfl | rfl
    · exact congrArg Prod.fst hrolling
    · exact congrArg Prod.snd hrolling

/-! ## `calculate` -/

theorem calculate_eq_ok {inputs : PnlInputs} {request : PnlCalculation} {response : PnlResponse} :
    calculate inputs request = .ok response ↔
      request.strategyStartMs ≤ request.startMs ∧ request.startMs ≤ request.endMs ∧
      ∃ selected seeded w d, selected =
          selectSymbols inputs.availableSymbols request.selectedSymbols ∧
        (selected = [] → inputs.availableSymbols = []) ∧
        inputs.initialPositions.foldlM seedInitial
          (initialStates request.source inputs.availableSymbols) = .ok seeded ∧
        (inputs.sortedEvents.takeWhile (·.ts < request.startMs)).foldlM (Walk.apply selected)
          ⟨seeded, rollingBoundaries request, []⟩ = .ok w ∧
        ((inputs.sortedEvents.dropWhile (·.ts < request.startMs)).takeWhile
          (·.ts ≤ request.endMs)).foldlM
            (Drawing.apply request.source selected (metricsOf w.states))
            (.start request selected (w.captureBefore selected request.startMs)) = .ok d ∧
        report inputs request selected selected (metricsOf w.states) d = response := by
  unfold calculate calculateIn
  constructor
  · intro h
    split at h
    · cases h
    rename_i hstrategy
    split at h
    · cases h
    rename_i hwindow
    simp only at h
    split at h
    · cases h
    rename_i hnone
    obtain ⟨seeded, hseeded, h⟩ := bind_eq_ok.mp h
    obtain ⟨w, hw, h⟩ := bind_eq_ok.mp h
    obtain ⟨d, hd, h⟩ := bind_eq_ok.mp h
    refine ⟨not_lt.mp hstrategy, not_lt.mp hwindow, _, seeded, w, d, rfl, ?_, hseeded, hw, hd,
      pure_eq_ok.mp h⟩
    intro hselected
    by_contra havailable
    exact hnone ⟨hselected, havailable⟩
  · rintro ⟨hstrategy, hwindow, selected, seeded, w, d, rfl, hsome, hseeded, hw, hd, rfl⟩
    rw [if_neg (not_lt.mpr hstrategy), if_neg (not_lt.mpr hwindow)]
    simp only
    rw [if_neg fun hnone => hnone.2 (hsome hnone.1)]
    exact bind_eq_ok.mpr ⟨seeded, hseeded, bind_eq_ok.mpr ⟨w, hw, bind_eq_ok.mpr ⟨d, hd, rfl⟩⟩⟩

theorem SameOn.initialStates (source : PnlSourceKind) (inputs : PnlInputs)
    (selected : List String) : SameOn selected (initialStates source inputs.availableSymbols)
      (initialStates source (inputs.restrict selected).availableSymbols) := by
  intro symbol hsymbol
  unfold Pnl.initialStates
  rw [restrict_availableSymbols]
  simp only [List.mem_filter, decide_eq_true_eq, hsymbol, and_true]

theorem SameOn.selectedTotalPnl {selected : List String} {states states' : States}
    (h : SameOn selected states states') :
    selectedTotalPnl states' selected = selectedTotalPnl states selected := by
  unfold Pnl.selectedTotalPnl
  congr 1
  exact List.map_congr_left fun symbol hsymbol => by rw [h.metricsOf hsymbol]

/-- Both walks have seen the same of the selected symbols up to a time. -/
theorem statesAt_restrict {inputs : PnlInputs} {source : PnlSourceKind} {selected : List String}
    {ts : ℤ} {states : States} (h : statesAt inputs source ts = .ok states) :
    ∃ states', statesAt (inputs.restrict selected) source ts = .ok states' ∧
      SameOn selected states states' := by
  obtain ⟨seeded, hseeded, hrun⟩ := bind_eq_ok.mp h
  obtain ⟨seeded', hseeded', hseeds⟩ := (SameOn.initialStates source inputs selected).seeds hseeded
  obtain ⟨states', hstates', hsame⟩ := hseeds.run hrun
  refine ⟨states', bind_eq_ok.mpr ⟨seeded', hseeded', ?_⟩, hsame⟩
  rw [restrict_sortedEvents, List.filter_filter]
  rw [List.filter_filter] at hstates'
  rw [← hstates']
  congr 1
  exact List.filter_congr fun event _ => Bool.and_comm _ _

theorem windowPnl_restrict {inputs : PnlInputs} {request : PnlCalculation} {closed : States}
    (hclosed : statesAt inputs request.source request.endMs = .ok closed) {windowMs : ℤ}
    (hpositive : 0 ≤ windowMs) :
    windowPnl (inputs.restrict (selectSymbols inputs.availableSymbols request.selectedSymbols))
      request windowMs = windowPnl inputs request windowMs := by
  have htotal : ∀ ts ≤ request.endMs,
      totalAt (inputs.restrict (selectSymbols inputs.availableSymbols request.selectedSymbols))
        request ts = totalAt inputs request ts := by
    intro ts hts
    obtain ⟨states, hstates⟩ := statesAt_of_le hts hclosed
    obtain ⟨states', hstates', hsame⟩ := statesAt_restrict hstates
    unfold totalAt
    rw [hstates, hstates', restrict_availableSymbols, selectSymbols_filter]
    exact hsame.selectedTotalPnl
  unfold windowPnl
  simp only [htotal request.endMs le_rfl, htotal (request.endMs - windowMs) (by omega)]

theorem rolling_of_calculate {inputs : PnlInputs} {request : PnlCalculation}
    {response : PnlResponse} (h : calculate inputs request = .ok response) :
    ∃ closed, statesAt inputs request.source request.endMs = .ok closed ∧
      rolling response =
        (windowPnl inputs request (7 * dayMs), windowPnl inputs request (30 * dayMs)) := by
  obtain ⟨hstrategy, hwindow, -⟩ := calculate_eq_ok.mp h
  have hrolling := calculate_rolling inputs hstrategy hwindow
  rw [h] at hrolling
  split at hrolling
  · cases hrolling
  · obtain ⟨closed, hclosed, hpair⟩ := map_eq_ok.mp hrolling.symm
    exact ⟨closed, hclosed, hpair.symm⟩

/-- **Symbols do not interfere.** The inputs of the selected symbols alone make the same report of
    them: summary, points and performance are equal, and so are the rows of the selected symbols.
    The inputs of the others only have to be such that a report is made at all. -/
theorem calculate_restrict {inputs : PnlInputs} {request : PnlCalculation}
    {response : PnlResponse} (h : calculate inputs request = .ok response) :
    ∃ response', calculate (inputs.restrict response.selectedSymbols) request = .ok response' ∧
      SameReport response response' := by
  have hresponse := h
  obtain ⟨hstrategy, hwindow, selected, seeded, w, d, hselected, hsome, hseeded, hw, hd, rfl⟩ :=
    calculate_eq_ok.mp h
  show ∃ response', calculate (inputs.restrict selected) request = .ok response' ∧ _
  have hselected' : selected = selectSymbols (inputs.restrict selected).availableSymbols
      request.selectedSymbols := by
    rw [restrict_availableSymbols, hselected, selectSymbols_filter]
  -- the seeds and the events before the window
  obtain ⟨seeded', hseeded', hseeds⟩ :=
    (SameOn.initialStates request.source inputs selected).seeds hseeded
  have hsorted : inputs.sortedEvents.Pairwise fun a b =>
      decide (b.ts < request.startMs) = true → decide (a.ts < request.startMs) = true :=
    (sortedEvents_pairwise inputs).imp fun hab hb =>
      decide_eq_true (lt_of_le_of_lt hab (of_decide_eq_true hb))
  obtain ⟨hbefore, hafter⟩ := takeWhile_filter_sorted hsorted (·.symbol ∈ selected)
  have hlate : (inputs.sortedEvents.dropWhile (·.ts < request.startMs)).Pairwise fun a b =>
      decide (b.ts ≤ request.endMs) = true → decide (a.ts ≤ request.endMs) = true :=
    ((sortedEvents_pairwise inputs).sublist (List.dropWhile_sublist _)).imp fun hab hb =>
      decide_eq_true (hab.trans (of_decide_eq_true hb))
  obtain ⟨htake, -⟩ := takeWhile_filter_sorted hlate (·.symbol ∈ selected)
  have hbeforeRun := walk_run selected ⟨seeded, rollingBoundaries request, []⟩
    (inputs.sortedEvents.takeWhile (·.ts < request.startMs))
  rw [hw] at hbeforeRun
  obtain ⟨opened', hopened', hopened⟩ := hseeds.run hbeforeRun
  have hwalk' := walk_run selected ⟨seeded', rollingBoundaries request, []⟩
    ((inputs.sortedEvents.takeWhile (·.ts < request.startMs)).filter (·.symbol ∈ selected))
  change _ = Except.map _ _ at hwalk'
  rw [hopened'] at hwalk'
  obtain ⟨w', hw', rfl⟩ := map_eq_ok.mp hwalk'.symm
  have hbase : ∀ symbol ∈ selected, metricsOf w.states symbol = metricsOf w'.states symbol :=
    fun symbol hsymbol => hopened.metricsOf hsymbol
  -- the window
  have hstart : SameCurves selected
      (.start request selected (w.captureBefore selected request.startMs))
      (.start request selected (w'.captureBefore selected request.startMs)) := by
    refine ⟨hopened, ?_, fun symbol hsymbol => ?_⟩
    · exact congrArg (fun point => [point]) (hopened.aggregatePoint hbase _ _)
    · simp only [Drawing.start, if_pos hsymbol]
      exact congrArg (fun point => [point]) (hopened.symbolPoint hbase _ _ hsymbol)
  obtain ⟨d', hd', hcurves⟩ := hstart.run hbase hd
  -- the whole calculation
  have hrestricted : calculate (inputs.restrict selected) request =
      .ok (report (inputs.restrict selected) request selected selected (metricsOf w'.states)
        d') := by
    refine calculate_eq_ok.mpr ⟨hstrategy, hwindow, selected, seeded', w', d', hselected', ?_,
      hseeded', ?_, ?_, rfl⟩
    · intro hnone
      rw [restrict_availableSymbols, hsome hnone]
      rfl
    · rw [restrict_sortedEvents, hbefore]
      exact hw'
    · rw [restrict_sortedEvents, hafter, htake]
      exact hd'
  refine ⟨_, hrestricted, hcurves.sameReport hbase ?_⟩
  obtain ⟨closed, hclosed, hrolling⟩ := rolling_of_calculate hresponse
  obtain ⟨-, -, hrolling'⟩ := rolling_of_calculate hrestricted
  rw [hrolling, hrolling', hselected, windowPnl_restrict hclosed (by decide),
    windowPnl_restrict hclosed (by decide)]

/-- Two symbols that trade at the same times; one is selected. -/
def pairInputs : PnlInputs where
  trades := [⟨"BTCUSDT", .buy, .spot, 110, 330, 3, some 2, 10⟩,
    ⟨"ETHUSDT", .buy, .spot, 10, 30, 3, some 1, 20⟩,
    ⟨"BTCUSDT", .sell, .spot, 120, 120, 1, some 1, 20⟩,
    ⟨"ETHUSDT", .sell, .spot, 12, 24, 2, some 1, 25⟩]
  funding := [⟨"ETHUSDT", 5, 25⟩]

theorem calculate_restrict_btc :
    Yields (calculate pairInputs { sampleRequest with selectedSymbols := ["btcusdt"] })
      fun response => response.selectedSymbols = ["BTCUSDT"] ∧ ∃ response',
        calculate (pairInputs.restrict response.selectedSymbols)
          { sampleRequest with selectedSymbols := ["btcusdt"] } = .ok response' ∧
        SameReport response response' := by
  obtain ⟨response, hresponse, hselected⟩ :
      Yields (calculate pairInputs { sampleRequest with selectedSymbols := ["btcusdt"] })
        fun response => response.selectedSymbols = ["BTCUSDT"] := by decide +kernel
  exact ⟨response, hresponse, hselected, calculate_restrict hresponse⟩

end CryptoNav.Pnl
