import CryptoNav.Pnl.Isolation
import CryptoNav.Pnl.Sampling

/-!
# Adjacent windows

A window reports the change of every metric between two state maps: the one after the events before
its start and the one after the events up to its end. The end of one window and the start of the
next, a millisecond later, have the same state map, so changes of adjacent windows add up; what is
left between the summaries is the `clean_zero` of each row. The last point of each curve is drawn
from the same two state maps, and resampling and downsampling keep it.

Both windows are computed from the same inputs, as three independent calls; trades that arrive
between two requests are left out. Every metric that is reported as a change is covered, and
positions and marks, which are values at the end, are covered by the points. The tolerance is
that of `clean_zero` alone.
-/

set_option autoImplicit false

namespace CryptoNav.Pnl

open CryptoNav.Lib

/-! ## Counters only grow -/

structure CountsLe (s t : SymbolState) : Prop where
  tradeCount : s.tradeCount ≤ t.tradeCount
  unconvertedFeeCount : s.unconvertedFeeCount ≤ t.unconvertedFeeCount
  unconvertedInterestCount : s.unconvertedInterestCount ≤ t.unconvertedInterestCount

theorem CountsLe.refl (s : SymbolState) : CountsLe s s := ⟨le_rfl, le_rfl, le_rfl⟩

theorem CountsLe.trans {s t u : SymbolState} (h : CountsLe s t) (h' : CountsLe t u) : CountsLe s u :=
  ⟨h.1.trans h'.1, h.2.trans h'.2, h.3.trans h'.3⟩

theorem CountsLe.markAt {s t u : SymbolState} (h : CountsLe s t) {price : ℚ} {c c' : Option String}
    (hmark : t.markAt price c c' = .ok u) : CountsLe s u := by
  obtain ⟨spot, -, hmark⟩ := bind_eq_ok.mp hmark
  obtain ⟨futures, -, hmark⟩ := bind_eq_ok.mp hmark
  rw [← pure_eq_ok.mp hmark]
  exact ⟨h.1, h.2, h.3⟩

theorem CountsLe.setFifo {s t : SymbolState} (h : CountsLe s t) (leg : PositionLeg) (fifo : VenueFifo) :
    CountsLe s (t.setFifo leg fifo) := by
  cases leg <;> exact ⟨h.1, h.2, h.3⟩

theorem CountsLe.addPosition {s t : SymbolState} (h : CountsLe s t) (leg : PositionLeg) (quantity : ℚ) :
    CountsLe s (t.addPosition leg quantity) := by
  cases leg <;> exact ⟨h.1, h.2, h.3⟩

theorem CountsLe.bookInterestCost {s t : SymbolState} (h : CountsLe s t) (interest : InterestEvent) :
    CountsLe s (t.bookInterestCost interest) := by
  unfold SymbolState.bookInterestCost
  split
  · exact ⟨h.1, h.2, h.3⟩
  · exact ⟨h.1, h.2, h.3.trans (Nat.le_succ _)⟩

theorem countsLe_applyTrade {s t : SymbolState} {trade : NormalizedTrade}
    (h : s.applyTrade trade = .ok t) : CountsLe s t := by
  obtain ⟨fifo, -, h⟩ := bind_eq_ok.mp h
  refine CountsLe.markAt ?_ h
  refine CountsLe.addPosition ?_ trade.leg _
  have hfee : CountsLe s { s with unconvertedFeeCount :=
      s.unconvertedFeeCount + if trade.feeUsdt.isNone then 1 else 0 } :=
    ⟨le_rfl, Nat.le_add_right _ _, le_rfl⟩
  have hset := hfee.setFifo trade.leg fifo
  exact ⟨hset.1.trans (Nat.le_succ _), hset.2, hset.3⟩

theorem countsLe_applyInterest {s t : SymbolState} {interest : InterestEvent}
    (h : s.applyInterest interest = .ok t) : CountsLe s t := by
  unfold SymbolState.applyInterest at h
  have hrefl := CountsLe.refl s
  by_cases hc : interest.spotQuantityDelta ≠ 0 ∧ s.spotFifo.usesQuantity
  · simp only [if_pos hc] at h
    split at h
    · rw [← pure_eq_ok.mp h]
      exact hrefl.bookInterestCost interest
    · obtain ⟨fifo, -, h⟩ := bind_eq_ok.mp h
      obtain ⟨marked, hmark, h⟩ := bind_eq_ok.mp h
      rw [← pure_eq_ok.mp h]
      exact (((hrefl.setFifo .spot fifo).markAt hmark).addPosition .spot _).bookInterestCost interest
  · simp only [if_neg hc] at h
    rw [← pure_eq_ok.mp h]
    exact (hrefl.addPosition .spot _).bookInterestCost interest

theorem countsLe_applyEvent {s t : SymbolState} {event : PnlEvent} (h : s.applyEvent event = .ok t) :
    CountsLe s t := by
  cases event with
  | trade trade => exact countsLe_applyTrade h
  | funding funding =>
    obtain rfl := Except.ok.inj h
    exact ⟨le_rfl, le_rfl, le_rfl⟩
  | interest interest => exact countsLe_applyInterest h

/-- Over a run of events no counter of any symbol falls. -/
theorem countsLe_run {states states' : States} {events : List PnlEvent}
    (h : events.foldlM applyEvent states = .ok states') {symbol : String} {s : SymbolState}
    (hs : states symbol = some s) : ∃ t, states' symbol = some t ∧ CountsLe s t := by
  refine run_invariant (P := fun states' : States => ∃ t, states' symbol = some t ∧ CountsLe s t)
    ?_ ⟨s, hs, .refl s⟩ h
  rintro event - before after ⟨t, ht, hle⟩ hstep
  obtain ⟨u, u', hu, happly, rfl⟩ := applyEvent_cases hstep
  by_cases he : symbol = event.symbol
  · subst he
    rw [ht] at hu
    obtain rfl := Option.some.inj hu
    exact ⟨u', Function.update_self .., hle.trans (countsLe_applyEvent happly)⟩
  · exact ⟨t, by rw [Function.update_of_ne he, ht], hle⟩

/-! ## What a point draws -/

/-- A point field that draws the change of one metric, rounded once. -/
structure Draws (field : PnlPoint → ℚ) (metric : Metrics → ℚ) : Prop where
  zero : ∀ ts, field { ts } = 0
  add : ∀ point source current baseline,
    field (point.add source current baseline) = field point + (metric current - metric baseline)
  clean : ∀ point, field point.clean = cleanZero (field point)

theorem Draws.foldl {field : PnlPoint → ℚ} {metric : Metrics → ℚ} (h : Draws field metric)
    (source : PnlSourceKind) (opened closed : States) (symbols : List String) (point : PnlPoint) :
    field (symbols.foldl (fun (point : PnlPoint) symbol =>
        point.add source (metricsOf closed symbol) (metricsOf opened symbol)) point) =
      field point + (symbols.map (change metric opened closed)).sum := by
  induction symbols generalizing point with
  | nil => exact (add_zero _).symm
  | cons symbol rest ih =>
    rw [List.foldl_cons, ih, h.add, List.map_cons, List.sum_cons, add_assoc]
    rfl

theorem Draws.aggregatePoint {field : PnlPoint → ℚ} {metric : Metrics → ℚ} (h : Draws field metric)
    (ts : ℤ) (opened closed : States) (selected : List String) (source : PnlSourceKind) :
    field (aggregatePoint ts closed (metricsOf opened) selected source) =
      cleanZero (selected.map (change metric opened closed)).sum := by
  rw [Pnl.aggregatePoint, h.clean, h.foldl, h.zero, zero_add]

theorem Draws.symbolPoint {field : PnlPoint → ℚ} {metric : Metrics → ℚ} (h : Draws field metric)
    (ts : ℤ) (symbol : String) (opened closed : States) (source : PnlSourceKind) :
    field (symbolPoint ts symbol closed (metricsOf opened) source) =
      cleanZero (change metric opened closed symbol) := by
  rw [Pnl.symbolPoint, h.clean, h.add, h.zero, zero_add]
  rfl

theorem foldl_add_ts (source : PnlSourceKind) (states : States) (baselines : String → Metrics)
    (symbols : List String) (point : PnlPoint) :
    (symbols.foldl (fun (point : PnlPoint) symbol =>
        point.add source (metricsOf states symbol) (baselines symbol)) point).ts = point.ts := by
  induction symbols generalizing point with
  | nil => rfl
  | cons symbol rest ih => rw [List.foldl_cons, ih]; rfl

@[simp] theorem aggregatePoint_ts (ts : ℤ) (states : States) (baselines : String → Metrics)
    (selected : List String) (source : PnlSourceKind) :
    (aggregatePoint ts states baselines selected source).ts = ts :=
  foldl_add_ts source states baselines selected { ts }

/-! ## The curves of a window -/

/-- A curve from `startMs` that has reached `upTo`. -/
structure Reaches (startMs upTo : ℤ) (points : List PnlPoint) : Prop where
  first : points.head?.map PnlPoint.ts = some startMs
  increasing : points.Pairwise fun a b => a.ts < b.ts
  upTo : ∀ point ∈ points, point.ts ≤ upTo

theorem Reaches.mono {startMs upTo upTo' : ℤ} {points : List PnlPoint} (h : Reaches startMs upTo points)
    (hle : upTo ≤ upTo') : Reaches startMs upTo' points :=
  ⟨h.first, h.increasing, fun point hpoint => (h.upTo point hpoint).trans hle⟩

theorem getLast?_pushOrReplacePoint (points : List PnlPoint) (point : PnlPoint) :
    (pushOrReplacePoint points point).getLast? = some point := by
  unfold pushOrReplacePoint
  split <;> exact List.getLast?_concat

/-- A new last point, at the time of the last one or later. -/
theorem Reaches.push {startMs upTo : ℤ} {points : List PnlPoint} (h : Reaches startMs upTo points)
    {point : PnlPoint} {ts : ℤ} (hts : upTo ≤ ts) (hpoint : point.ts = ts) :
    Reaches startMs ts (pushOrReplacePoint points point) := by
  obtain ⟨hfirst, hincreasing, hupTo⟩ := h
  subst hpoint
  cases points using List.reverseRecOn with
  | nil => cases hfirst
  | append_singleton front last =>
    obtain ⟨hfront, -, hbefore⟩ := List.pairwise_append.mp hincreasing
    have hlast : last.ts ≤ point.ts :=
      (hupTo last (List.mem_append_right _ List.mem_cons_self)).trans hts
    have hlt : ∀ a ∈ front, a.ts < point.ts := fun a ha =>
      (hbefore a ha last List.mem_cons_self).trans_le hlast
    unfold pushOrReplacePoint
    rw [List.getLast?_concat, Option.map_some, List.dropLast_concat]
    by_cases heq : last.ts = point.ts
    · rw [if_pos (congrArg some heq)]
      refine ⟨?_, List.pairwise_append.mpr ⟨hfront, List.pairwise_singleton _ _, ?_⟩, ?_⟩
      · cases front with
        | nil =>
          obtain rfl : last.ts = startMs := Option.some.inj hfirst
          exact congrArg some heq.symm
        | cons a front => exact hfirst
      · intro a ha b hb
        rw [List.mem_singleton.mp hb]
        exact hlt a ha
      · intro a ha
        rcases List.mem_append.mp ha with ha | ha
        · exact (hlt a ha).le
        · rw [List.mem_singleton.mp ha]
    · rw [if_neg fun h => heq (Option.some.inj h)]
      refine ⟨?_, List.pairwise_append.mpr ⟨hincreasing, List.pairwise_singleton _ _, ?_⟩, ?_⟩
      · cases front <;> exact hfirst
      · intro a ha b hb
        rw [List.mem_singleton.mp hb]
        rcases List.mem_append.mp ha with ha | ha
        · exact hlt a ha
        · rw [List.mem_singleton.mp ha]
          exact lt_of_le_of_ne hlast heq
      · intro a ha
        rcases List.mem_append.mp ha with ha | ha
        · exact (hupTo a ha).trans hts
        · rw [List.mem_singleton.mp ha]

/-- All curves of a drawing. -/
def Curves (selected : List String) (startMs upTo : ℤ) (d : Drawing) : Prop :=
  Reaches startMs upTo d.points ∧ ∀ symbol ∈ selected, Reaches startMs upTo (d.pointsBySymbol symbol)

theorem curves_start (request : PnlCalculation) (selected : List String) (walk : Walk) :
    Curves selected request.startMs request.startMs (.start request selected walk) := by
  have hsingle : ∀ point : PnlPoint, point.ts = request.startMs →
      Reaches request.startMs request.startMs [point] := by
    intro point hts
    refine ⟨congrArg some hts, List.pairwise_singleton _ _, fun a ha => ?_⟩
    rw [List.mem_singleton.mp ha, hts]
  refine ⟨hsingle _ (aggregatePoint_ts ..), fun symbol hsymbol => ?_⟩
  · simp only [Drawing.start, if_pos hsymbol]
    exact hsingle _ rfl

theorem Curves.apply {source : PnlSourceKind} {selected : List String} {startMs upTo : ℤ}
    {baselines : String → Metrics} {d d' : Drawing} {event : PnlEvent}
    (h : Curves selected startMs upTo d) (hts : upTo ≤ event.ts)
    (hstep : d.apply source selected baselines event = .ok d') : Curves selected startMs event.ts d' := by
  obtain ⟨hpoints, hsymbols⟩ := h
  obtain ⟨walk, -, hstep⟩ := bind_eq_ok.mp hstep
  split at hstep
  · rw [← pure_eq_ok.mp hstep]
    constructor
    · exact hpoints.push hts (aggregatePoint_ts ..)
    · intro symbol hsymbol
      by_cases he : symbol = event.symbol
      · subst he
        simp only [Function.update_self]
        exact (hsymbols event.symbol hsymbol).push hts rfl
      · simp only [Function.update_of_ne he]
        exact (hsymbols symbol hsymbol).mono hts
  · rw [← pure_eq_ok.mp hstep]
    exact ⟨hpoints.mono hts, fun symbol hsymbol => (hsymbols symbol hsymbol).mono hts⟩

theorem Curves.run {source : PnlSourceKind} {selected : List String} {startMs upTo endMs : ℤ}
    {baselines : String → Metrics} {events : List PnlEvent} {d d' : Drawing}
    (hsorted : events.Pairwise fun a b => a.ts ≤ b.ts) (hlow : ∀ event ∈ events, upTo ≤ event.ts)
    (hhigh : ∀ event ∈ events, event.ts ≤ endMs) (hend : upTo ≤ endMs)
    (h : Curves selected startMs upTo d)
    (hrun : events.foldlM (Drawing.apply source selected baselines) d = .ok d') :
    Curves selected startMs endMs d' := by
  induction events generalizing d upTo with
  | nil =>
    obtain rfl := run_nil.mp hrun
    exact ⟨h.1.mono hend, fun symbol hsymbol => (h.2 symbol hsymbol).mono hend⟩
  | cons event rest ih =>
    obtain ⟨hevent, hsorted⟩ := List.pairwise_cons.mp hsorted
    obtain ⟨hupTo, hlow⟩ := List.forall_mem_cons.mp hlow
    obtain ⟨hle, hhigh⟩ := List.forall_mem_cons.mp hhigh
    obtain ⟨after, hstep, hrun⟩ := run_cons.mp hrun
    exact ih hsorted hevent hhigh hle (h.apply hupTo hstep) hrun

/-- The points of the end are the last of the curves. -/
theorem Curves.finish {selected : List String} {d : Drawing} {request : PnlCalculation}
    (h : Curves selected request.startMs request.endMs d) (baselines : String → Metrics) :
    Curves selected request.startMs request.endMs (d.finish request selected baselines) ∧
      (d.finish request selected baselines).points.getLast? = some (aggregatePoint request.endMs
        d.walk.states baselines selected request.source) ∧
      ∀ symbol ∈ selected, ((d.finish request selected baselines).pointsBySymbol symbol).getLast? =
        some (symbolPoint request.endMs symbol d.walk.states baselines request.source) := by
  obtain ⟨hpoints, hsymbols⟩ := h
  refine ⟨⟨hpoints.push le_rfl (aggregatePoint_ts ..), fun symbol hsymbol => ?_⟩,
    getLast?_pushOrReplacePoint _ _, fun symbol hsymbol => ?_⟩
  · simp only [Drawing.finish, if_pos hsymbol]
    exact (hsymbols symbol hsymbol).push le_rfl rfl
  · simp only [Drawing.finish, if_pos hsymbol]
    exact getLast?_pushOrReplacePoint _ _

/-! ## The last point is kept -/

theorem SampledAndHeld.getLast? {points sampled : List PnlPoint} {startMs endMs intervalMs : ℤ}
    (h : SampledAndHeld points startMs endMs intervalMs sampled) (hend : startMs ≤ endMs)
    {last : PnlPoint} (hlast : points.getLast? = some last) (hts : last.ts = endMs) :
    sampled.getLast? = some last := by
  have hle : ∀ other ∈ sampled, other.ts ≤ endMs := by
    intro other hother
    rcases (h.times other.ts).mp (List.mem_map_of_mem hother) with h | h | ⟨-, h, -⟩
    · exact h.le.trans hend
    · exact h.le
    · exact h.le
  obtain ⟨point, hpoint, hpointTs⟩ := List.mem_map.mp ((h.times endMs).mpr (.inr (.inl rfl)))
  -- The sample of the end has no later one after it.
  obtain ⟨front, back, rfl⟩ := List.append_of_mem hpoint
  have hback : back = [] := by
    refine List.eq_nil_iff_forall_not_mem.mpr fun later hlater => ?_
    have hlt := (List.pairwise_cons.mp (List.pairwise_append.mp h.increasing).2.1).1 later hlater
    exact absurd (hle later (by simp [hlater])) (not_le.mpr (hpointTs ▸ hlt))
  obtain ⟨before, held, after, rfl, -, hafter, hvalues⟩ := h.held point hpoint
  -- It holds the last point, which is at the end itself.
  have hnone : after = [] := by
    cases after using List.reverseRecOn with
    | nil => rfl
    | append_singleton after next =>
      rw [← List.cons_append, ← List.append_assoc, List.getLast?_concat] at hlast
      obtain rfl := Option.some.inj hlast
      have hlt := hafter next (List.mem_append_right _ List.mem_cons_self)
      exact absurd hts (hpointTs ▸ hlt).ne'
  subst hnone hback
  rw [List.getLast?_concat] at hlast ⊢
  obtain rfl := Option.some.inj hlast
  rw [hvalues, hpointTs, ← hts]

theorem getLast?_downsampleExtrema (points : List PnlPoint) (maxPoints : ℕ) :
    (downsampleExtrema points maxPoints).getLast? = points.getLast? := by
  unfold downsampleExtrema
  split
  · rfl
  · cases points using List.reverseRecOn with
    | nil => simp [chunks]
    | append_singleton front last =>
      rw [List.getLast?_concat]
      exact List.getLast?_concat

/-! ## The rows of a summary -/

section

variable {N : Type} [AddCommMonoid N] {field : PnlSummary → N} {row : Metrics → Metrics → N}

/-- The selected symbols are those of the available ones that are selected. -/
theorem selected_perm {available selected : List String} (havailable : available.Nodup)
    (hselected : selected.Nodup) (hsub : selected ⊆ available) :
    (available.filter (· ∈ selected)).Perm selected := by
  refine (List.perm_ext_iff_of_nodup (havailable.filter _) hselected).mpr fun symbol => ?_
  rw [List.mem_filter, decide_eq_true_eq]
  exact ⟨fun h => h.2, fun h => ⟨hsub h, h⟩⟩

theorem Sums.report (h : Sums field row) {inputs : PnlInputs} (request : PnlCalculation)
    {selected : List String} (hselected : selected.Nodup) (hsub : selected ⊆ inputs.availableSymbols)
    (baselines : String → Metrics) (d : Drawing) :
    field (report inputs request selected selected baselines d).summary =
      (selected.map fun symbol => row (metricsOf d.walk.states symbol) (baselines symbol)).sum := by
  have hperm : (inputs.availableSymbols.filter (· ∈ selected)).Perm selected :=
    selected_perm (sortedSet_nodup _) hselected hsub
  rw [h.report_selected, (hperm.map _).sum_eq]

end

/-! ## Three runs, two state maps each -/

theorem selectSymbols_nodup {available : List String} (h : available.Nodup) (requested : List String) :
    (selectSymbols available requested).Nodup := by
  unfold selectSymbols
  split
  · exact h
  · have hsorted : (((requested.map (·.map Char.toUpper)).filter (· ∈ available)).insertionSort
        (· ≤ ·)).Pairwise fun a b => id a ≤ id b := sortByKey_pairwise id _
    exact (destutter_strict hsorted).imp ne_of_lt

/-- The events before a start are those up to the millisecond before it. -/
theorem takeWhile_before (inputs : PnlInputs) (startMs : ℤ) :
    inputs.sortedEvents.takeWhile (·.ts < startMs) = inputs.sortedEvents.filter (·.ts ≤ startMs - 1) := by
  rw [filter_le_eq_takeWhile (sortedEvents_pairwise inputs)]
  congr 1
  funext event
  exact decide_eq_decide.mpr Int.le_sub_one_iff.symm

/-- What `calculate` reports, from the state maps before its start and at its end. -/
theorem calculate_reports {inputs : PnlInputs} {request : PnlCalculation} {response : PnlResponse}
    (h : calculate inputs request = .ok response) :
    ∃ opened d, request.startMs ≤ request.endMs ∧
      statesAt inputs request.source (request.startMs - 1) = .ok opened ∧
      statesAt inputs request.source request.endMs = .ok d.walk.states ∧
      Curves (selectSymbols inputs.availableSymbols request.selectedSymbols) request.startMs
        request.endMs d ∧
      response = report inputs request
        (selectSymbols inputs.availableSymbols request.selectedSymbols)
        (selectSymbols inputs.availableSymbols request.selectedSymbols) (metricsOf opened) d := by
  obtain ⟨-, hwindow, selected, seeded, w, d, rfl, -, hseeded, hw, hd, rfl⟩ := calculate_eq_ok.mp h
  generalize hselected : selectSymbols inputs.availableSymbols request.selectedSymbols = selected
    at hw hd ⊢
  have hbefore : (inputs.sortedEvents.takeWhile (·.ts < request.startMs)).foldlM applyEvent seeded
      = .ok w.states := by
    have hrun := walk_run selected ⟨seeded, rollingBoundaries request, []⟩
      (inputs.sortedEvents.takeWhile (·.ts < request.startMs))
    rw [hw] at hrun
    exact hrun
  have hafter : ((inputs.sortedEvents.dropWhile (·.ts < request.startMs)).takeWhile
      (·.ts ≤ request.endMs)).foldlM applyEvent w.states = .ok d.walk.states := by
    have hrun := drawing_run request.source selected (metricsOf w.states)
      (.start request selected (w.captureBefore selected request.startMs))
      ((inputs.sortedEvents.dropWhile (·.ts < request.startMs)).takeWhile (·.ts ≤ request.endMs))
    rw [hd] at hrun
    exact hrun
  refine ⟨w.states, d, hwindow, bind_eq_ok.mpr ⟨seeded, hseeded, ?_⟩,
    bind_eq_ok.mpr ⟨seeded, hseeded, ?_⟩, ?_, rfl⟩
  · rw [← takeWhile_before]
    exact hbefore
  · rw [replayed_events inputs hwindow]
    exact run_append.mpr ⟨w.states, hbefore, hafter⟩
  · have hsorted := (sortedEvents_pairwise inputs).sublist
      ((List.takeWhile_sublist (·.ts ≤ request.endMs)).trans
        (List.dropWhile_sublist (·.ts < request.startMs)))
    refine Curves.run hsorted (fun event hevent => ?_) (fun event hevent => ?_) hwindow
      (curves_start request selected _) hd
    · exact startMs_le_of_mem_window ((List.takeWhile_prefix _).subset hevent)
    · simpa using List.mem_takeWhile_imp hevent

/-- A window ends well if the events up to its end do. -/
theorem exists_calculate {inputs : PnlInputs} {request : PnlCalculation} {closed : States}
    (hstrategy : request.strategyStartMs ≤ request.startMs)
    (hwindow : request.startMs ≤ request.endMs)
    (hsome : selectSymbols inputs.availableSymbols request.selectedSymbols = [] →
      inputs.availableSymbols = [])
    (hclosed : statesAt inputs request.source request.endMs = .ok closed) :
    ∃ response, calculate inputs request = .ok response := by
  obtain ⟨seeded, hseeded, hrun⟩ := bind_eq_ok.mp hclosed
  rw [replayed_events inputs hwindow, run_append] at hrun
  obtain ⟨opened, hbefore, hafter⟩ := hrun
  obtain ⟨d, -, hd⟩ := calculate_eq hstrategy hwindow hsome hseeded hbefore hafter
  exact ⟨_, hd⟩

/-! ## The summaries of adjacent windows -/

def PnlCalculation.over (request : PnlCalculation) (startMs endMs : ℤ) : PnlCalculation :=
  { request with startMs, endMs }

/-- The amounts of a summary that add up. -/
def additiveAmounts : List (PnlSummary → ℚ) :=
  [PnlSummary.volumeUsdt, PnlSummary.feeBeforePnlUsdt, PnlSummary.tradingFeeUsdt,
    PnlSummary.feeAfterPnlUsdt, PnlSummary.fundingPnlUsdt, PnlSummary.interestCostUsdt,
    PnlSummary.floatingPnlUsdt, PnlSummary.totalPnlUsdt]

def additiveCounts : List (PnlSummary → ℕ) :=
  [PnlSummary.tradeCount, PnlSummary.unconvertedFeeCount, PnlSummary.unconvertedInterestCount]

/-- The whole window reports what its two parts report: each count exactly, each amount up to two
    roundings a symbol. -/
structure AddsUp (whole left right : PnlResponse) : Prop where
  selected : left.selectedSymbols = whole.selectedSymbols ∧ right.selectedSymbols = whole.selectedSymbols
  counts : ∀ field ∈ additiveCounts,
    field whole.summary = field left.summary + field right.summary
  amounts : ∀ field ∈ additiveAmounts,
    |field whole.summary - (field left.summary + field right.summary)| ≤
      whole.selectedSymbols.length * (2 / 10 ^ 12)

/-- Rounding a sum instead of its two parts moves it by at most two thresholds. -/
theorem abs_cleanZero_add_le (x y : ℚ) :
    |cleanZero (x + y) - (cleanZero x + cleanZero y)| ≤ 2 / 10 ^ 12 := by
  have hcase : ∀ value, (|value| < 1 / 10 ^ 12 ∧ cleanZero value = 0) ∨ cleanZero value = value := by
    intro value
    unfold cleanZero
    split
    · exact .inl ⟨by assumption, rfl⟩
    · exact .inr rfl
  have hpos : (0 : ℚ) < 1 / 10 ^ 12 := by norm_num
  have htwo : (2 : ℚ) / 10 ^ 12 = 1 / 10 ^ 12 + 1 / 10 ^ 12 := by norm_num
  rw [htwo, abs_le]
  rcases hcase x with ⟨hx, hx0⟩ | hx0 <;> rcases hcase y with ⟨hy, hy0⟩ | hy0 <;>
    rcases hcase (x + y) with ⟨hxy, hxy0⟩ | hxy0 <;> rw [hx0, hy0, hxy0] <;>
    simp only [abs_lt] at * <;> constructor <;> linarith

theorem sum_cleanZero_add_le {whole left right : String → ℚ} (symbols : List String)
    (h : ∀ symbol, whole symbol = left symbol + right symbol) :
    |(symbols.map fun symbol => cleanZero (whole symbol)).sum -
        ((symbols.map fun symbol => cleanZero (left symbol)).sum +
          (symbols.map fun symbol => cleanZero (right symbol)).sum)| ≤
      symbols.length * (2 / 10 ^ 12) := by
  induction symbols with
  | nil => simp
  | cons symbol rest ih =>
    have hone := abs_cleanZero_add_le (left symbol) (right symbol)
    rw [← h symbol] at hone
    simp only [List.map_cons, List.sum_cons, List.length_cons, Nat.cast_add, Nat.cast_one]
    rw [abs_le] at ih hone ⊢
    constructor <;> linarith [ih.1, ih.2, hone.1, hone.2]

theorem exists_reports {field : PnlSummary → ℚ} (h : field ∈ additiveAmounts) :
    ∃ metric, Reports field metric := by
  simp only [additiveAmounts, List.mem_cons, List.not_mem_nil, or_false] at h
  rcases h with rfl | rfl | rfl | rfl | rfl | rfl | rfl | rfl
  · exact ⟨Metrics.volumeUsdt, rfl, fun _ _ => rfl, fun _ _ => rfl, fun _ _ _ => rfl⟩
  · exact ⟨Metrics.feeBeforePnlUsdt, rfl, fun _ _ => rfl, fun _ _ => rfl, fun _ _ _ => rfl⟩
  · exact ⟨Metrics.tradingFeeUsdt, rfl, fun _ _ => rfl, fun _ _ => rfl, fun _ _ _ => rfl⟩
  · exact ⟨_, reports_feeAfter⟩
  · exact ⟨_, reports_funding⟩
  · exact ⟨_, reports_interest⟩
  · exact ⟨Metrics.floatingPnlUsdt, rfl, fun _ _ => rfl, fun _ _ => rfl, fun _ _ _ => rfl⟩
  · exact ⟨_, reports_total⟩

/-- The counter behind a count, which never falls. -/
theorem exists_counts {field : PnlSummary → ℕ} (h : field ∈ additiveCounts) :
    ∃ counter : Metrics → ℕ, Sums field (fun m baseline => counter m - counter baseline) ∧
      ∀ s t : SymbolState, CountsLe s t → counter s.metrics ≤ counter t.metrics := by
  simp only [additiveCounts, List.mem_cons, List.not_mem_nil, or_false] at h
  rcases h with rfl | rfl | rfl
  · exact ⟨Metrics.tradeCount, ⟨rfl, fun _ _ => rfl, fun _ _ => rfl, fun _ _ _ => rfl⟩,
      fun _ _ h => h.tradeCount⟩
  · exact ⟨Metrics.unconvertedFeeCount, ⟨rfl, fun _ _ => rfl, fun _ _ => rfl, fun _ _ _ => rfl⟩,
      fun _ _ h => h.unconvertedFeeCount⟩
  · exact ⟨Metrics.unconvertedInterestCount,
      ⟨rfl, fun _ _ => rfl, fun _ _ => rfl, fun _ _ _ => rfl⟩,
      fun _ _ h => h.unconvertedInterestCount⟩

/-- Between two times no counter falls. -/
theorem statesAt_counts {inputs : PnlInputs} {source : PnlSourceKind} {ts ts' : ℤ} (hle : ts ≤ ts')
    {states states' : States} (h : statesAt inputs source ts = .ok states)
    (h' : statesAt inputs source ts' = .ok states') {symbol : String}
    (hsymbol : symbol ∈ inputs.availableSymbols) :
    ∃ s s', states symbol = some s ∧ states' symbol = some s' ∧ CountsLe s s' := by
  obtain ⟨seeded, hseeded, hrun⟩ := bind_eq_ok.mp h
  obtain ⟨seeded', hseeded', hrun'⟩ := bind_eq_ok.mp h'
  obtain rfl : seeded = seeded' := Except.ok.inj (hseeded.symm.trans hseeded')
  rw [events_upTo_split inputs hle, run_append] at hrun'
  obtain ⟨between, hbetween, hrun'⟩ := hrun'
  obtain rfl : states = between := Except.ok.inj (hrun.symm.trans hbetween)
  have hsome : ∃ s, seeded symbol = some s := by
    refine run_invariant (P := fun seeded : States => ∃ s, seeded symbol = some s) ?_ ?_ hseeded
    · rintro position - before after ⟨s, hs⟩ hstep
      obtain ⟨t, t', -, -, rfl⟩ := seedInitial_cases hstep
      by_cases he : symbol = position.symbol
      · exact ⟨t', he ▸ Function.update_self ..⟩
      · exact ⟨s, by rw [Function.update_of_ne he, hs]⟩
    · exact ⟨_, if_pos hsymbol⟩
  obtain ⟨s₀, hs₀⟩ := hsome
  obtain ⟨s, hs, -⟩ := countsLe_run hrun hs₀
  obtain ⟨s', hs', hle⟩ := countsLe_run hrun' hs
  exact ⟨s, s', hs, hs', hle⟩

/-- The reports of a window and of its two parts, over the three state maps they are made of. -/
theorem addsUp_of_reports {inputs : PnlInputs} {request : PnlCalculation} {s m e : ℤ}
    (hs : s ≤ m - 1) (hm : m ≤ e) {opened middle : States} {d dleft : Drawing} {dright : Drawing}
    (hopened : statesAt inputs request.source (s - 1) = .ok opened)
    (hmiddle : statesAt inputs request.source (m - 1) = .ok middle)
    (hclosed : statesAt inputs request.source e = .ok d.walk.states)
    (hleft : dleft.walk.states = middle) (hright : dright.walk.states = d.walk.states) :
    let selected := selectSymbols inputs.availableSymbols request.selectedSymbols
    AddsUp (report inputs (request.over s e) selected selected (metricsOf opened) d)
      (report inputs (request.over s (m - 1)) selected selected (metricsOf opened) dleft)
      (report inputs (request.over m e) selected selected (metricsOf middle) dright) := by
  intro selected
  have hnodup : selected.Nodup := selectSymbols_nodup (sortedSet_nodup _) _
  have hsub : selected ⊆ inputs.availableSymbols := fun symbol => mem_selectSymbols
  refine ⟨⟨rfl, rfl⟩, fun field hfield => ?_, fun field hfield => ?_⟩
  · obtain ⟨counter, hsums, hmono⟩ := exists_counts hfield
    rw [hsums.report _ hnodup hsub, hsums.report _ hnodup hsub, hsums.report _ hnodup hsub, hleft,
      hright, ← List.sum_map_add]
    refine congrArg List.sum (List.map_congr_left fun symbol hsymbol => ?_)
    obtain ⟨s₀, s₁, h₀, h₁, hle⟩ :=
      statesAt_counts (by omega) hopened hmiddle (hsub hsymbol)
    obtain ⟨s₁', s₂, h₁', h₂, hle'⟩ :=
      statesAt_counts (by omega) hmiddle hclosed (hsub hsymbol)
    obtain rfl : s₁ = s₁' := Option.some.inj (h₁.symm.trans h₁')
    rw [metricsOf_some h₀, metricsOf_some h₁, metricsOf_some h₂]
    have hcount := hmono s₀ s₁ hle
    have hcount' := hmono s₁ s₂ hle'
    omega
  · obtain ⟨metric, hreports⟩ := exists_reports hfield
    have hsums := hreports.sums
    rw [hsums.report _ hnodup hsub, hsums.report _ hnodup hsub, hsums.report _ hnodup hsub, hleft,
      hright]
    exact sum_cleanZero_add_le selected fun symbol => (sub_add_sub_cancel' _ _ _).symm

/-! ## The last points -/

/-- What a point and a summary both have of a metric. -/
def drawnFields : List ((PnlPoint → ℚ) × (PnlSummary → ℚ)) :=
  [(PnlPoint.feeBeforePnlUsdt, PnlSummary.feeBeforePnlUsdt),
    (PnlPoint.feeAfterPnlUsdt, PnlSummary.feeAfterPnlUsdt),
    (PnlPoint.fundingPnlUsdt, PnlSummary.fundingPnlUsdt),
    (PnlPoint.interestCostUsdt, PnlSummary.interestCostUsdt),
    (PnlPoint.floatingPnlUsdt, PnlSummary.floatingPnlUsdt),
    (PnlPoint.totalPnlUsdt, PnlSummary.totalPnlUsdt)]

/-- The curves of a response end at what it reports: the curve of all symbols at the summary, whose
    rows are rounded before they are added and not after, and that of each symbol at its row. -/
structure EndsAtSummary (response : PnlResponse) : Prop where
  last : ∃ point, response.points.getLast? = some point ∧ point.ts = response.endMs ∧
    point.exposureUsdt = response.summary.openAmountUsdt ∧
    ∀ fields ∈ drawnFields, |fields.1 point - fields.2 response.summary| ≤
      (response.selectedSymbols.length + 1) * (1 / 10 ^ 12)
  series : response.symbolPoints.map SymbolPnlSeries.symbol = response.selectedSymbols
  symbolLast : ∀ series ∈ response.symbolPoints, ∃ point row,
    series.points.getLast? = some point ∧ point.ts = response.endMs ∧
    row ∈ response.symbols ∧ row.symbol = series.symbol ∧
    point.exposureUsdt = row.pnl.openAmountUsdt ∧
    ∀ fields ∈ drawnFields, fields.1 point = fields.2 row.pnl

theorem exists_drawn {fields : (PnlPoint → ℚ) × (PnlSummary → ℚ)} (h : fields ∈ drawnFields) :
    ∃ metric, Draws fields.1 metric ∧ Reports fields.2 metric := by
  simp only [drawnFields, List.mem_cons, List.not_mem_nil, or_false] at h
  rcases h with rfl | rfl | rfl | rfl | rfl | rfl
  · exact ⟨Metrics.feeBeforePnlUsdt, ⟨fun _ => rfl, fun _ _ _ _ => rfl, fun _ => rfl⟩,
      rfl, fun _ _ => rfl, fun _ _ => rfl, fun _ _ _ => rfl⟩
  · exact ⟨_, ⟨fun _ => rfl, fun _ _ _ _ => rfl, fun _ => rfl⟩, reports_feeAfter⟩
  · exact ⟨_, ⟨fun _ => rfl, fun _ _ _ _ => rfl, fun _ => rfl⟩, reports_funding⟩
  · exact ⟨_, ⟨fun _ => rfl, fun _ _ _ _ => rfl, fun _ => rfl⟩, reports_interest⟩
  · exact ⟨Metrics.floatingPnlUsdt, ⟨fun _ => rfl, fun _ _ _ _ => rfl, fun _ => rfl⟩,
      rfl, fun _ _ => rfl, fun _ _ => rfl, fun _ _ _ => rfl⟩
  · exact ⟨_, ⟨fun _ => rfl, fun _ _ _ _ => rfl, fun _ => rfl⟩, reports_total⟩

theorem cleanZero_cleanZero (value : ℚ) : cleanZero (cleanZero value) = cleanZero value := by
  by_cases h : |value| < 1 / 10 ^ 12
  · have hzero : cleanZero value = 0 := if_pos h
    rw [hzero, cleanZero]
    simp
  · have hsame : cleanZero value = value := if_neg h
    rw [hsame, hsame]

theorem metricsOf_openAmount (states : States) (symbol : String) :
    (metricsOf states symbol).openAmountUsdt = cleanZero
      ((metricsOf states symbol).spotPositionUsdt + (metricsOf states symbol).futuresPositionUsdt) := by
  unfold metricsOf
  cases states symbol with
  | none => simp [cleanZero]
  | some s => rfl

/-- Rounding once at the end or once a symbol. -/
theorem abs_cleanZero_sum_sub_le {α : Type} (value : α → ℚ) (l : List α) :
    |cleanZero (l.map value).sum - (l.map fun a => cleanZero (value a)).sum| ≤
      (l.length + 1) * (1 / 10 ^ 12) := by
  have hsum := abs_cleanZero_sub_le (l.map value).sum
  have hrows := abs_sum_cleanZero_sub_le value l
  rw [abs_le] at hsum hrows ⊢
  constructor <;> linarith [hsum.1, hsum.2, hrows.1, hrows.2]

theorem endsAtSummary_report {inputs : PnlInputs} {request : PnlCalculation} {selected : List String}
    (hselected : selected.Nodup) (hsub : selected ⊆ inputs.availableSymbols)
    (hwindow : request.startMs ≤ request.endMs) (hmin : i64Min ≤ request.startMs)
    (hmax : request.endMs ≤ i64Max) (opened : States) {d : Drawing}
    (h : Curves selected request.startMs request.endMs d) :
    EndsAtSummary (report inputs request selected selected (metricsOf opened) d) := by
  obtain ⟨⟨hpoints, hsymbols⟩, hlast, hsymbolLast⟩ := h.finish (metricsOf opened)
  -- The last point of a curve of the window is the last point of what is returned of it.
  have hkept : ∀ {points : List PnlPoint} {last : PnlPoint},
      Reaches request.startMs request.endMs points → points.getLast? = some last →
      last.ts = request.endMs → ∀ maxPoints,
      (downsampleExtrema (resampleFixedInterval points request.startMs request.endMs
        pnlTickIntervalMs) maxPoints).getLast? = some last := by
    intro points last hreaches hlast hts maxPoints
    have hsampled := resampleFixedInterval_sampledAndHeld hreaches.increasing hreaches.first hwindow
      (show 0 < pnlTickIntervalMs by decide) hmin hmax
    rw [getLast?_downsampleExtrema]
    exact hsampled.getLast? hwindow hlast hts
  refine ⟨⟨_, hkept hpoints hlast (aggregatePoint_ts ..) _, aggregatePoint_ts .., ?_, ?_⟩, ?_, ?_⟩
  · show _ = (((d.finish request selected (metricsOf opened)).points.getLast?).map
      PnlPoint.exposureUsdt).getD 0
    rw [hlast]
    rfl
  · intro fields hfields
    obtain ⟨metric, hdraws, hreports⟩ := exists_drawn hfields
    rw [hdraws.aggregatePoint, hreports.sums.report request hselected hsub]
    exact abs_cleanZero_sum_sub_le (change metric opened d.walk.states) selected
  · exact (List.map_map ..).trans (List.map_id _)
  · intro series hseries
    obtain ⟨symbol, hsymbol, rfl⟩ := List.mem_map.mp hseries
    refine ⟨_, ⟨symbol, (metricsOf d.walk.states symbol).difference (metricsOf opened symbol)⟩,
      hkept (hsymbols symbol hsymbol) (hsymbolLast symbol hsymbol) rfl _, rfl, ?_, rfl, ?_, ?_⟩
    · exact mem_sortByKey.mpr (List.mem_map_of_mem (hsub hsymbol))
    · show cleanZero (0 + request.source.exposure _ _) = cleanZero (metricsOf d.walk.states symbol).openAmountUsdt
      rw [metricsOf_openAmount, cleanZero_cleanZero, zero_add]
      rfl
    · intro fields hfields
      obtain ⟨metric, hdraws, hreports⟩ := exists_drawn hfields
      rw [hdraws.symbolPoint, hreports.difference]
      rfl

/-! ## Adjacent windows -/

theorem calculate_endsAtSummary {inputs : PnlInputs} {request : PnlCalculation} {response : PnlResponse}
    (h : calculate inputs request = .ok response) (hmin : i64Min ≤ request.startMs)
    (hmax : request.endMs ≤ i64Max) : EndsAtSummary response := by
  obtain ⟨opened, d, hwindow, -, -, hcurves, rfl⟩ := calculate_reports h
  exact endsAtSummary_report (selectSymbols_nodup (sortedSet_nodup _) _)
    (fun symbol => mem_selectSymbols) hwindow hmin hmax opened hcurves

/-- **PnL is additive over adjacent windows.** A window that can be calculated can be calculated in two
    parts, split at any millisecond; they add up to it, and every curve of the three ends at the
    summary of its window. -/
theorem calculate_adjacent {inputs : PnlInputs} {request : PnlCalculation} {s m e : ℤ}
    (hs : s ≤ m - 1) (hm : m ≤ e) (hmin : i64Min ≤ s) (hmax : e ≤ i64Max) {whole : PnlResponse}
    (h : calculate inputs (request.over s e) = .ok whole) :
    ∃ left right, calculate inputs (request.over s (m - 1)) = .ok left ∧
      calculate inputs (request.over m e) = .ok right ∧ AddsUp whole left right ∧
      EndsAtSummary whole ∧ EndsAtSummary left ∧ EndsAtSummary right := by
  obtain ⟨hstrategy, -, selected, seeded, w, d₀, rfl, hsome, -⟩ := calculate_eq_ok.mp h
  obtain ⟨opened, d, -, hopened, hclosed, -, hwhole⟩ := calculate_reports h
  obtain ⟨middle, hmiddle⟩ := statesAt_of_le (show m - 1 ≤ e by omega) hclosed
  have hstrategy' : (request.over m e).strategyStartMs ≤ m := le_trans hstrategy (by
    show s ≤ m
    omega)
  obtain ⟨left, hleft⟩ := @exists_calculate inputs (request.over s (m - 1)) middle hstrategy hs hsome
    hmiddle
  obtain ⟨right, hright⟩ := @exists_calculate inputs (request.over m e) _ hstrategy' hm hsome hclosed
  refine ⟨left, right, hleft, hright, ?_, calculate_endsAtSummary h hmin hmax,
    calculate_endsAtSummary hleft hmin (show m - 1 ≤ i64Max by omega),
    calculate_endsAtSummary hright (show i64Min ≤ m by omega) hmax⟩
  obtain ⟨opened', dleft, -, hopened', hmiddle', -, hleft⟩ := calculate_reports hleft
  obtain ⟨middle', dright, -, hmiddle'', hclosed', -, hright⟩ := calculate_reports hright
  obtain rfl : opened = opened' := Except.ok.inj (hopened.symm.trans hopened')
  obtain rfl : middle = middle' := Except.ok.inj (hmiddle.symm.trans hmiddle'')
  rw [hwhole, hleft, hright]
  exact addsUp_of_reports hs hm hopened hmiddle hclosed
    (Except.ok.inj (hmiddle'.symm.trans hmiddle)) (Except.ok.inj (hclosed'.symm.trans hclosed))

/-- The sample window, split at the funding in its middle. -/
theorem calculate_adjacent_sample :
    Yields (calculate sampleInputs (sampleRequest.over 20 30)) fun whole =>
      ∃ left right, calculate sampleInputs (sampleRequest.over 20 24) = .ok left ∧
        calculate sampleInputs (sampleRequest.over 25 30) = .ok right ∧ AddsUp whole left right ∧
        EndsAtSummary whole ∧ EndsAtSummary left ∧ EndsAtSummary right := by
  obtain ⟨whole, hwhole, -⟩ :
      Yields (calculate sampleInputs (sampleRequest.over 20 30)) fun _ => True := by decide +kernel
  exact ⟨whole, hwhole, @calculate_adjacent sampleInputs sampleRequest 20 25 30 (by decide) (by decide)
    (by decide) (by decide) whole hwhole⟩

/-- Two symbols that are paid, twice, less than a row shows. -/
def dustPayments : PnlInputs where
  funding := [⟨"BTCUSDT", 6 / 10 ^ 13, 21⟩, ⟨"ETHUSDT", 6 / 10 ^ 13, 21⟩,
    ⟨"BTCUSDT", 6 / 10 ^ 13, 26⟩, ⟨"ETHUSDT", 6 / 10 ^ 13, 26⟩]

/-- The parts show nothing of what the whole shows, and the curve of the first part does not end at
    its summary; both differ by more than one rounding. -/
theorem dust_payments_do_not_add_up :
    Yields (calculate dustPayments (sampleRequest.over 20 30)) fun whole =>
      Yields (calculate dustPayments (sampleRequest.over 20 24)) fun left =>
        Yields (calculate dustPayments (sampleRequest.over 25 30)) fun right =>
          1 / 10 ^ 12 < |whole.summary.fundingPnlUsdt -
            (left.summary.fundingPnlUsdt + right.summary.fundingPnlUsdt)| ∧
          left.points.getLast?.map PnlPoint.fundingPnlUsdt = some (12 / 10 ^ 13) ∧
          left.summary.fundingPnlUsdt = 0 := by
  decide +kernel

end CryptoNav.Pnl
