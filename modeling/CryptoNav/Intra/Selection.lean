import CryptoNav.Intra.Views

/-!
# The symbol filter only filters

Two runs on the same inputs whose requests select different symbols. Their loops take every step
alike: lots, statistics and closes never read the selection, although interest on the quote asset
is spread over the lots of all symbols. What is kept for the selected symbols alone is kept per
symbol, so a symbol selected in both runs finds the same of its own in both responses; and what is
added up over the selected symbols adds up over disjoint selections.

The statement needs the two requests to be about the same inputs, which the server does not
promise: between two requests new orders may have come. It is about the calculation. Selections
are lists of names, and names that are not available are refused, so that both runs know every
symbol they are asked for. Totals over overlapping selections would count twice, and nothing is
said of them.
-/

set_option autoImplicit false

namespace CryptoNav.Intra

open CryptoNav.Lib
open CryptoNav.History.Raw (uppercase)

/-! ## The loops do not read the selection -/

theorem allocateInterest_states (available selected selected' : List String)
    (states : String → SymbolState) (event : IntraAnalysisInterestEvent) :
    (allocateInterest available selected states event).map Prod.fst =
      (allocateInterest available selected' states event).map Prod.fst := by
  unfold allocateInterest
  cases event.costUsdt.filter (f64Epsilon < ·) with
  | none => rfl
  | some costUsdt =>
    cases event.symbol with
    | none =>
      simp only
      split <;> rfl
    | some symbol =>
      simp only
      split
      · split <;> rfl
      · rfl

/-- The settings but for the selection. -/
structure Settings.SameLoops (settings settings' : Settings) : Prop where
  available : settings.available = settings'.available
  symbolFees : settings.symbolFees = settings'.symbolFees
  referenceFeeBps : settings.referenceFeeBps = settings'.referenceFeeBps

section

variable {settings settings' : Settings} (h : settings.SameLoops settings') {w w' : Walk}
include h

theorem close_alike (hw : w.states = w'.states) (order : IntraAnalysisOrder) :
    w.close settings order = w'.close settings' order := by
  unfold Walk.close
  rw [hw, h.symbolFees, h.referenceFeeBps]

/-- One step, of either run. -/
theorem take_alike (hw : w.states = w'.states) (a : Taken) :
    (w.take settings a).states = (w'.take settings' a).states := by
  cases a with
  | funding event => rw [Walk.take_funding_states, Walk.take_funding_states, hw, h.available]
  | interest event =>
    rw [Walk.take_interest_states, Walk.take_interest_states, hw, h.available,
      allocateInterest_states _ settings.selected settings'.selected]
  | order order =>
    rw [Walk.take_order_states, Walk.take_order_states, close_alike h hw, hw]

theorem closes_alike (hw : w.states = w'.states) (a : Taken) :
    closes settings (w, a) = closes settings' (w', a) := by
  cases a with
  | funding event => rfl
  | interest event => rfl
  | order order => exact congrArg Closed.closings (close_alike h hw order)

/-- **Two runs** on the same inputs go through the same states. -/
theorem run_alike_states (hw : w.states = w'.states) (l : List Taken) :
    (l.foldl (Walk.take settings) w).states = (l.foldl (Walk.take settings') w').states := by
  induction l generalizing w w' with
  | nil => exact hw
  | cons a l ih => exact ih (take_alike h hw a)

theorem closedMatches_alike (hw : w.states = w'.states) (l : List Taken) :
    closedMatches settings w l = closedMatches settings' w' l := by
  induction l generalizing w w' with
  | nil => rfl
  | cons a l ih =>
    unfold closedMatches at ih ⊢
    rw [steps, steps, List.flatMap_cons, List.flatMap_cons, closes_alike h hw,
      ih (take_alike h hw a)]

end

section

variable (inputs : IntraInputs) (request : IntraAnalysisRequest) (selected selected' : List String)

theorem settings_sameLoops :
    (settings inputs request selected).SameLoops (settings inputs request selected') :=
  ⟨rfl, rfl, rfl⟩

theorem analyze_states : (analyze inputs request selected).states =
    (analyze inputs request selected').states :=
  run_alike_states (settings_sameLoops inputs request selected selected') rfl _

theorem closedMatches_selection :
    inputs.closedMatches request selected = inputs.closedMatches request selected' :=
  closedMatches_alike (settings_sameLoops inputs request selected selected') rfl _

/-- The rows of the symbols are made of the states alone. -/
theorem report_symbols : (report inputs request selected (analyze inputs request selected)).symbols =
    (report inputs request selected' (analyze inputs request selected')).symbols := by
  show symbolRows _ _ = symbolRows _ _
  rw [analyze_states inputs request selected selected']
  rfl

end

/-! ## What is kept per symbol -/

/-- The running total of a symbol and its curve. -/
def Curves.series (curves : Curves) (symbol : String) : IntraAnalysisPoint × List IntraAnalysisPoint :=
  (curves.symbolTotals symbol, curves.symbolPoints symbol)

def addToSeries (series : IntraAnalysisPoint × List IntraAnalysisPoint) (c : Closing) :
    IntraAnalysisPoint × List IntraAnalysisPoint :=
  (series.1.addClose c, pushOrReplacePoint series.2 (series.1.addClose c))

theorem record_series (maxMatches : ℕ) (curves : Curves) (c : Closing) (symbol : String) :
    (curves.record maxMatches c).series symbol =
      if c.order.symbol = symbol then addToSeries (curves.series symbol) c
      else curves.series symbol := by
  unfold Curves.series Curves.record addToSeries
  by_cases hsymbol : c.order.symbol = symbol
  · rw [if_pos hsymbol, ← hsymbol]
    simp only [Function.update_self]
  · rw [if_neg hsymbol]
    simp only [Function.update_of_ne (Ne.symm hsymbol)]

/-- A symbol's curve is drawn by its own closes. -/
theorem foldl_record_series (maxMatches : ℕ) (closings : List Closing) (curves : Curves)
    (symbol : String) :
    (closings.foldl (Curves.record maxMatches) curves).series symbol =
      (closings.filter (·.order.symbol = symbol)).foldl addToSeries (curves.series symbol) := by
  induction closings generalizing curves with
  | nil => rfl
  | cons c closings ih =>
    rw [List.foldl_cons, ih, record_series]
    by_cases hsymbol : c.order.symbol = symbol
    · rw [List.filter_cons_of_pos (by simpa using hsymbol), List.foldl_cons, if_pos hsymbol]
    · rw [List.filter_cons_of_neg (by simpa using hsymbol), if_neg hsymbol]

section

variable (inputs : IntraInputs) (request : IntraAnalysisRequest) {selected : List String}

/-- A selected symbol's part of the selected matches is its part of all matches. -/
theorem selectedMatches_of_symbol {symbol : String} (hsymbol : symbol ∈ selected) :
    (inputs.selectedMatches request selected).filter (·.order.symbol = symbol) =
      (inputs.closedMatches request selected).filter (·.order.symbol = symbol) := by
  unfold IntraInputs.selectedMatches
  rw [List.filter_filter]
  refine List.filter_congr fun c _ => ?_
  by_cases he : c.order.symbol = symbol
  · simp [he, hsymbol]
  · simp [he]

/-- The points a response shows for a symbol. -/
def shownPoints (request : IntraAnalysisRequest) (closings : List Closing) :
    List IntraAnalysisPoint :=
  downsamplePoints (ensureFinalPoint
    (closings.foldl addToSeries ({}, [{ ts := request.startMs }])).2 request.endMs)
    (max 100 (min 800 request.maxPoints))

theorem report_symbolPoints :
    (report inputs request selected (analyze inputs request selected)).symbolPoints =
      selected.map fun symbol => ⟨symbol, shownPoints request
        ((inputs.closedMatches request selected).filter (·.order.symbol = symbol))⟩ := by
  have hseries : ∀ symbol ∈ selected, (analyze inputs request selected).curves.symbolPoints symbol =
      (((inputs.closedMatches request selected).filter (·.order.symbol = symbol)).foldl addToSeries
        ({}, [{ ts := request.startMs }])).2 := by
    intro symbol hsymbol
    rw [← selectedMatches_of_symbol inputs request hsymbol, analyze_curves]
    exact congrArg Prod.snd (foldl_record_series request.maxMatches
      (inputs.selectedMatches request selected) (Walk.start request).curves symbol)
  refine List.map_congr_left fun symbol hsymbol => congrArg (IntraSymbolSeries.mk symbol) ?_
  simp only [hseries symbol hsymbol]
  rfl

/-- The open lots of a symbol, the largest first. -/
def lotsOf (states : String → SymbolState) (symbol : String) : List IntraPendingLot :=
  pendingLots states [symbol]

/-- Of the pending lots of a selection, a selected symbol has those of its own. -/
theorem pendingLots_of_symbol (states : String → SymbolState) (hnodup : selected.Nodup)
    {symbol : String} (hsymbol : symbol ∈ selected) :
    (pendingLots states selected).filter (·.symbol = symbol) = lotsOf states symbol := by
  have hown : (selected.flatMap fun other => ((states other).positive ++ (states other).reverse).map
      (OpenLot.pending other)).filter (·.symbol = symbol) =
        ((states symbol).positive ++ (states symbol).reverse).map (OpenLot.pending symbol) := by
    refine filter_flatMap_fiber (fun other lot hlot => ?_) hnodup hsymbol
    obtain ⟨_, -, rfl⟩ := List.mem_map.mp hlot
    rfl
  unfold lotsOf pendingLots
  rw [← sortByKey_filter, hown, List.flatMap_singleton]

end

/-! ## What adds up -/

namespace DirectionAccumulator

theorem add_swap (a b c : DirectionAccumulator) : (a.add b).add c = (a.add c).add b := by
  simp only [add, add_right_comm]

theorem add_regroup (a b c : DirectionAccumulator) : a.add (b.add c) = (a.add b).add c := by
  simp only [add, add_assoc]

end DirectionAccumulator

namespace SummaryAccumulator

theorem add_swap (a b c : SummaryAccumulator) : (a.add b).add c = (a.add c).add b := by
  simp only [add, add_right_comm, DirectionAccumulator.add_swap _ b.positive,
    DirectionAccumulator.add_swap _ b.reverse]

theorem add_regroup (a b c : SummaryAccumulator) : a.add (b.add c) = (a.add b).add c := by
  simp only [add, add_assoc, DirectionAccumulator.add_regroup]

end SummaryAccumulator

namespace OpenSummary

theorem add_swap (a b c : OpenSummary) : (a.add b).add c = (a.add c).add b := by
  simp only [add, add_right_comm]

theorem add_regroup (a b c : OpenSummary) : a.add (b.add c) = (a.add b).add c := by
  simp only [add, add_assoc]

end OpenSummary

namespace FeeAccumulator

/-- The fees of two accumulators. -/
def add (a other : FeeAccumulator) : FeeAccumulator where
  tradeCount := a.tradeCount + other.tradeCount
  convertedTradeCount := a.convertedTradeCount + other.convertedTradeCount
  tradeNotionalUsdt := a.tradeNotionalUsdt + other.tradeNotionalUsdt
  convertedNotionalUsdt := a.convertedNotionalUsdt + other.convertedNotionalUsdt
  tradingFeeUsdt := a.tradingFeeUsdt + other.tradingFeeUsdt

theorem record_add (a b : FeeAccumulator) (event : IntraAnalysisFeeEvent) :
    (a.record event).add b = (a.add b).record event := by
  unfold record
  cases event.feeUsdt <;> simp only [add, add_right_comm]

theorem add_record (a b : FeeAccumulator) (event : IntraAnalysisFeeEvent) :
    a.add (b.record event) = (a.add b).record event := by
  unfold record
  cases event.feeUsdt <;> simp only [add, add_assoc]

end FeeAccumulator

section

variable {available first second both : List String}
  (hboth : ∀ symbol, symbol ∈ both ↔ symbol ∈ first ∨ symbol ∈ second)
  (hdisjoint : ∀ symbol ∈ first, symbol ∉ second)
include hboth hdisjoint

theorem aggregateStats_union (states : String → SymbolState) :
    aggregateStats available both states =
      (aggregateStats available first states).add (aggregateStats available second states) := by
  have hempty : SummaryAccumulator.add {} {} = {} := by decide +kernel
  unfold aggregateStats
  simp only [List.foldl_map]
  refine foldl_filter_disjoint
    (fun a b symbol => SummaryAccumulator.add_swap a (states symbol).stats b)
    (fun a b symbol => SummaryAccumulator.add_regroup a b (states symbol).stats)
    (fun symbol _ => ?_) (fun symbol _ => ?_) hempty
  · simp [hboth]
  · simpa using hdisjoint symbol

theorem aggregateOpen_union (states : String → SymbolState) :
    aggregateOpen available both states =
      (aggregateOpen available first states).add (aggregateOpen available second states) := by
  have hempty : OpenSummary.add {} {} = {} := by decide +kernel
  unfold aggregateOpen
  simp only [List.foldl_map]
  refine foldl_filter_disjoint
    (fun a b symbol => OpenSummary.add_swap a (states symbol).openSummary b)
    (fun a b symbol => OpenSummary.add_regroup a b (states symbol).openSummary)
    (fun symbol _ => ?_) (fun symbol _ => ?_) hempty
  · simp [hboth]
  · simpa using hdisjoint symbol

theorem aggregateFees_union (events : List IntraAnalysisFeeEvent) :
    aggregateFees events both = (aggregateFees events first).add (aggregateFees events second) := by
  refine foldl_filter_disjoint FeeAccumulator.record_add FeeAccumulator.add_record
    (fun event _ => ?_) (fun event _ => ?_) (by decide +kernel)
  · simp [hboth]
  · simpa using hdisjoint event.symbol

end

/-- `total` is the sum of the parts, before `cleanZero` rounds each of the three. The rounding only
    takes tiny values to zero, so the parts may miss what the total shows. -/
def RoundedSum (part part' total : ℚ) : Prop :=
  ∃ x y, part = cleanZero x ∧ part' = cleanZero y ∧ total = cleanZero (x + y)

theorem RoundedSum.within {part part' total : ℚ} (h : RoundedSum part part' total) :
    |total - (part + part')| ≤ 2 / 10 ^ 9 := by
  obtain ⟨x, y, rfl, rfl, rfl⟩ := h
  unfold cleanZero
  split_ifs <;> grind

def sliceCounts : List (IntraDirectionSlice → ℕ) := [(·.closedMatchCount), (·.winningMatchCount)]

def sliceAmounts : List (IntraDirectionSlice → ℚ) :=
  [(·.matchedNotionalUsdt), (·.grossPnlUsdt), (·.tradingFeeUsdt), (·.feeAfterPnlUsdt),
    (·.referenceTradingFeeUsdt), (·.referenceFeeAfterPnlUsdt), (·.capturedPositiveNotionalUsdt),
    (·.capturedAboveFeeNotionalUsdt), (·.capturedBelowFeeNotionalUsdt), (·.uncapturedNotionalUsdt),
    (·.capturedAboveReferenceFeeNotionalUsdt), (·.capturedBelowReferenceFeeNotionalUsdt)]

/-- The counts of a summary, and its slices'. -/
def summaryCounts : List (IntraAnalysisSummary → ℕ) :=
  [(·.closedMatchCount), (·.winningMatchCount), (·.feeTradeCount), (·.convertedFeeTradeCount),
    (·.decomposedMatchCount), (·.positiveOpenLotCount), (·.reverseOpenLotCount)] ++
    (sliceCounts.map fun count s => count s.positive) ++
    sliceCounts.map fun count s => count s.reverse

/-- The amounts of a summary that are no rate, average or share, and its slices'. -/
def summaryAmounts : List (IntraAnalysisSummary → ℚ) :=
  [(·.matchedQuantity), (·.matchedNotionalUsdt), (·.realizedPnlUsdt), (·.fundingPnlUsdt),
    (·.interestCostUsdt), (·.grossPnlUsdt), (·.tradingFeeUsdt), (·.feeAfterPnlUsdt),
    (·.referenceTradingFeeUsdt), (·.referenceFeeAfterPnlUsdt), (·.feeTradeNotionalUsdt),
    (·.decomposedNotionalUsdt), (·.marketPnlUsdt), (·.executionPnlUsdt), (·.positiveOpenQuantity),
    (·.reverseOpenQuantity), (·.positiveOpenNotionalUsdt), (·.reverseOpenNotionalUsdt)] ++
    (sliceAmounts.map fun amount s => amount s.positive) ++
    sliceAmounts.map fun amount s => amount s.reverse

/-- Every additive field of `total` is the sum of the parts', up to the rounding. Averages and
    extremes do not add up and are left out. -/
structure AddsUp (part part' total : IntraAnalysisSummary) : Prop where
  counts : ∀ count ∈ summaryCounts, count total = count part + count part'
  amounts : ∀ amount ∈ summaryAmounts, RoundedSum (amount part) (amount part') (amount total)
  within : ∀ amount ∈ summaryAmounts, |amount total - (amount part + amount part')| ≤ 2 / 10 ^ 9

theorem finish_addsUp (a b : DirectionAccumulator) : ∀ amount ∈ sliceAmounts,
    RoundedSum (amount a.finish) (amount b.finish) (amount (a.add b).finish) := by
  have hafter : ∀ gross gross' fee fee' : ℚ, RoundedSum (cleanZero (gross - fee))
      (cleanZero (gross' - fee')) (cleanZero (gross + gross' - (fee + fee'))) :=
    fun gross gross' fee fee' =>
      ⟨_, _, rfl, rfl, congrArg cleanZero (add_sub_add_comm gross gross' fee fee')⟩
  intro amount hamount
  simp only [sliceAmounts, List.mem_cons, List.not_mem_nil, or_false] at hamount
  rcases hamount with rfl | rfl | rfl | rfl | rfl | rfl | rfl | rfl | rfl | rfl | rfl | rfl
  case inr.inr.inr.inl => exact hafter ..
  case inr.inr.inr.inr.inr.inl => exact hafter ..
  all_goals exact ⟨_, _, rfl, rfl, rfl⟩

theorem AddsUp.of_rounded {part part' total : IntraAnalysisSummary}
    (hcounts : ∀ count ∈ summaryCounts, count total = count part + count part')
    (hamounts : ∀ amount ∈ summaryAmounts,
      RoundedSum (amount part) (amount part') (amount total)) : AddsUp part part' total :=
  ⟨hcounts, hamounts, fun amount hamount => (hamounts amount hamount).within⟩

theorem summary_addsUp (a b : SummaryAccumulator) (opened opened' : OpenSummary)
    (fees fees' : FeeAccumulator) (referenceFeeBps : ℚ) :
    AddsUp (fees.applyMetadataToSummary (a.finish opened) referenceFeeBps)
      (fees'.applyMetadataToSummary (b.finish opened') referenceFeeBps)
      ((fees.add fees').applyMetadataToSummary ((a.add b).finish (opened.add opened'))
        referenceFeeBps) := by
  refine AddsUp.of_rounded ?_ ?_
  · intro count hcount
    simp only [summaryCounts, sliceCounts, List.map_cons, List.map_nil, List.cons_append,
      List.nil_append, List.mem_cons, List.not_mem_nil, or_false] at hcount
    rcases hcount with rfl | rfl | rfl | rfl | rfl | rfl | rfl | rfl | rfl | rfl | rfl <;> rfl
  · intro amount hamount
    rcases List.mem_append.mp hamount with hamount | hreverse
    · rcases List.mem_append.mp hamount with hown | hpositive
      · have hsum : ∀ {x y z : ℚ}, x + y = z → RoundedSum (cleanZero x) (cleanZero y) (cleanZero z) :=
          fun hz => ⟨_, _, rfl, rfl, congrArg cleanZero hz.symm⟩
        simp only [List.mem_cons, List.not_mem_nil, or_false] at hown
        rcases hown with rfl | rfl | rfl | rfl | rfl | rfl | rfl | rfl | rfl | rfl | rfl | rfl |
          rfl | rfl | rfl | rfl | rfl | rfl <;>
          refine hsum ?_ <;> simp only [SummaryAccumulator.add, OpenSummary.add, FeeAccumulator.add]
        -- Gross, fee-after and reference-fee-after PnL are differences of what is added up.
        all_goals ring
      · obtain ⟨amount, hslice, rfl⟩ := List.mem_map.mp hpositive
        exact finish_addsUp a.positive b.positive amount hslice
    · obtain ⟨amount, hslice, rfl⟩ := List.mem_map.mp hreverse
      exact finish_addsUp a.reverse b.reverse amount hslice

/-! ## The two responses -/

namespace IntraAnalysisResponse

variable (response : IntraAnalysisResponse) (symbol : String)

/-- What a response has of one symbol. -/
def seriesOf : List IntraSymbolSeries := response.symbolPoints.filter (·.symbol = symbol)

def matchesOf : List IntraClosedMatch := response.matched.filter (·.symbol = symbol)

def pendingOf : List IntraPendingLot := response.pendingLots.filter (·.symbol = symbol)

/-- The number of open lots of the selected symbols, returned or not. -/
def openLots : ℕ := response.summary.positiveOpenLotCount + response.summary.reverseOpenLotCount

/-- All open lots are returned. -/
def ReturnsAllLots (maxMatches : ℕ) : Prop := maxMatches = 0 ∨ response.openLots ≤ maxMatches

end IntraAnalysisResponse

section

variable (inputs : IntraInputs) (request : IntraAnalysisRequest) {selected : List String}
  (hselected : selected ⊆ inputs.availableSymbols) (hnodup : selected.Nodup)
include hnodup

theorem report_seriesOf {symbol : String} (hsymbol : symbol ∈ selected) :
    (report inputs request selected (analyze inputs request selected)).seriesOf symbol =
      [⟨symbol, shownPoints request
        ((inputs.closedMatches request selected).filter (·.order.symbol = symbol))⟩] := by
  unfold IntraAnalysisResponse.seriesOf
  rw [report_symbolPoints, List.map_eq_flatMap]
  refine filter_flatMap_fiber (fun other series hseries => ?_) hnodup hsymbol
  rw [List.mem_singleton.mp hseries]

omit hnodup in
theorem report_matchesOf
    (hroom : (inputs.selectedMatches request selected).length ≤ request.maxMatches)
    {symbol : String} (hsymbol : symbol ∈ selected) :
    (report inputs request selected (analyze inputs request selected)).matchesOf symbol =
      (((inputs.closedMatches request selected).filter (·.order.symbol = symbol)).map
        Closing.row).reverse := by
  unfold IntraAnalysisResponse.matchesOf
  rw [matched_eq inputs request selected hroom, List.filter_reverse, List.filter_map,
    ← selectedMatches_of_symbol inputs request hsymbol]
  rfl

/-- The returned lots of a symbol are the first of its open lots, and all of them where all lots
are returned. -/
theorem report_pendingOf_first {symbol : String} (hsymbol : symbol ∈ selected) :
    (report inputs request selected (analyze inputs request selected)).pendingOf symbol <+:
      lotsOf (analyze inputs request selected).states symbol := by
  rw [← pendingLots_of_symbol _ hnodup hsymbol]
  unfold IntraAnalysisResponse.pendingOf report
  simp only
  split
  · exact (List.take_prefix _ _).filter _
  · exact List.prefix_rfl

include hselected

theorem report_openLots :
    (report inputs request selected (analyze inputs request selected)).openLots =
      (pendingLots (analyze inputs request selected).states selected).length := by
  generalize hstates : (analyze inputs request selected).states = states
  have hperm : (inputs.availableSymbols.filter (· ∈ selected)).Perm selected := by
    refine (List.perm_ext_iff_of_nodup ((availableSymbols_nodup inputs).filter _) hnodup).mpr ?_
    intro symbol
    rw [List.mem_filter, decide_eq_true_eq]
    exact ⟨fun h => h.2, fun h => ⟨hselected h, h⟩⟩
  let count (o : OpenSummary) : ℚ := o.positiveLotCount + o.reverseLotCount
  have hadd : ∀ a b : OpenSummary, count (a.add b) = count a + count b := by
    intro a b
    simp only [count, OpenSummary.add, Nat.cast_add]
    ring
  have hcount : count (aggregateOpen inputs.availableSymbols selected states) =
      (selected.map fun symbol => count (states symbol).openSummary).sum := by
    have hempty : count {} = 0 := by simp [count]
    unfold aggregateOpen
    rw [foldl_sum hadd, hempty, zero_add, List.map_map]
    exact (hperm.map _).sum_eq
  have hlots : ((pendingLots states selected).length : ℚ) =
      (selected.map fun symbol => count (states symbol).openSummary).sum := by
    rw [pendingLots, (sortByKey_perm _ _).length_eq, length_flatMap_eq]
    refine congrArg List.sum (List.map_congr_left fun symbol _ => ?_)
    simp [count, SymbolState.openSummary]
  rw [← hcount] at hlots
  refine Nat.cast_injective (R := ℚ) (Eq.trans ?_ hlots.symm)
  simp only [count, ← hstates]
  exact Nat.cast_add _ _

theorem report_pendingOf {symbol : String} (hsymbol : symbol ∈ selected)
    (hroom : (report inputs request selected (analyze inputs request selected)).ReturnsAllLots
      request.maxMatches) :
    (report inputs request selected (analyze inputs request selected)).pendingOf symbol =
      lotsOf (analyze inputs request selected).states symbol := by
  unfold IntraAnalysisResponse.ReturnsAllLots at hroom
  rw [report_openLots inputs request hselected hnodup] at hroom
  rw [← pendingLots_of_symbol _ hnodup hsymbol]
  unfold IntraAnalysisResponse.pendingOf report
  simp only
  rw [if_neg]
  simp only [Bool.and_eq_true, decide_eq_true_eq, not_and, not_lt]
  intro hpositive
  rcases hroom with hzero | hroom
  · exact absurd hzero hpositive.ne'
  · exact hroom

end

/-- The requested text names an available symbol, in any letter case. -/
def IntraInputs.Names (inputs : IntraInputs) (requested : List String) (symbol : String) : Prop :=
  symbol ∈ inputs.availableSymbols ∧ ∃ text ∈ requested, uppercase text = symbol

theorem selectedSymbols_of_names {inputs : IntraInputs} {requested : List String}
    (h : ∃ symbol, inputs.Names requested symbol) :
    ∃ selected, selectedSymbols inputs.availableSymbols requested = .ok selected ∧
      ∀ symbol, symbol ∈ selected ↔ inputs.Names requested symbol := by
  have hmem : ∀ symbol, symbol ∈ sortedSet ((requested.map uppercase).filter
      (· ∈ inputs.availableSymbols)) ↔ inputs.Names requested symbol := by
    intro symbol
    rw [mem_sortedSet, List.mem_filter, List.mem_map, decide_eq_true_eq]
    exact and_comm
  obtain ⟨symbol, hsymbol⟩ := h
  refine ⟨_, ?_, hmem⟩
  unfold selectedSymbols
  have hrequested : requested ≠ [] := by
    rintro rfl
    obtain ⟨_, _, htext, _⟩ := hsymbol
    cases htext
  rw [if_neg hrequested, if_neg]
  rintro ⟨hnone, -⟩
  exact List.not_mem_nil (hnone ▸ (hmem symbol).mpr hsymbol)

/-- A calculation whose inputs and window are valid and whose request names a symbol. -/
theorem calculate_of_names {orders : List IntraAnalysisOrder}
    {feeEvents : List IntraAnalysisFeeEvent} {fundingEvents : List IntraAnalysisFundingEvent}
    {interestEvents : List IntraAnalysisInterestEvent} {inputs : IntraInputs}
    {request : IntraAnalysisRequest}
    (hinputs : IntraInputs.prepare orders feeEvents fundingEvents interestEvents = .ok inputs)
    (hstart : request.strategyStartMs ≤ request.startMs) (hend : request.startMs ≤ request.endMs)
    (hfee : |request.referenceFeeBps| ≤ 100) {requested : List String}
    (hnames : ∃ symbol, inputs.Names requested symbol) :
    ∃ selected, calculateWithFeesFundingAndInterest orders feeEvents fundingEvents interestEvents
        { request with selectedSymbols := requested } =
          .ok (report inputs request selected (analyze inputs request selected)) ∧
      selected.Nodup ∧ ∀ symbol, symbol ∈ selected ↔ inputs.Names requested symbol := by
  obtain ⟨selected, hselected, hmem⟩ := selectedSymbols_of_names hnames
  refine ⟨selected, ?_, selectedSymbols_nodup (availableSymbols_nodup inputs) hselected, hmem⟩
  refine bind_eq_ok.mpr ⟨(), bailIf_eq_ok.mpr (not_lt.mpr hstart), ?_⟩
  refine bind_eq_ok.mpr ⟨(), bailIf_eq_ok.mpr (not_lt.mpr hend), ?_⟩
  refine bind_eq_ok.mpr ⟨(), bailIf_eq_ok.mpr (not_lt.mpr hfee), ?_⟩
  refine bind_eq_ok.mpr ⟨inputs, hinputs, bind_eq_ok.mpr ⟨selected, hselected, ?_⟩⟩
  rfl

/-- Two responses show the same, but for the symbols only one of them selects. What a response says
    of all selected symbols together is left out here. -/
structure OnlyFiltered (maxMatches : ℕ) (r r' : IntraAnalysisResponse) : Prop where
  symbols : r.symbols = r'.symbols
  symbolPoints : ∀ symbol ∈ r.selectedSymbols, symbol ∈ r'.selectedSymbols →
    r.seriesOf symbol = r'.seriesOf symbol
  matched : r.summary.closedMatchCount ≤ maxMatches → r'.summary.closedMatchCount ≤ maxMatches →
    ∀ symbol ∈ r.selectedSymbols, symbol ∈ r'.selectedSymbols →
      r.matchesOf symbol = r'.matchesOf symbol
  pendingLots : r.ReturnsAllLots maxMatches → r'.ReturnsAllLots maxMatches →
    ∀ symbol ∈ r.selectedSymbols, symbol ∈ r'.selectedSymbols →
      r.pendingOf symbol = r'.pendingOf symbol
  /-- Where not all lots are returned, as many of the first as there is room for. -/
  pendingPrefix : ∀ symbol ∈ r.selectedSymbols, symbol ∈ r'.selectedSymbols →
    r.pendingOf symbol <+: r'.pendingOf symbol ∨ r'.pendingOf symbol <+: r.pendingOf symbol

theorem report_onlyFiltered (inputs : IntraInputs) (request : IntraAnalysisRequest)
    {selected selected' : List String} (hselected : selected ⊆ inputs.availableSymbols)
    (hselected' : selected' ⊆ inputs.availableSymbols) (hnodup : selected.Nodup)
    (hnodup' : selected'.Nodup) :
    OnlyFiltered request.maxMatches
      (report inputs request selected (analyze inputs request selected))
      (report inputs request selected' (analyze inputs request selected')) where
  symbols := report_symbols inputs request selected selected'
  symbolPoints := by
    intro symbol hsymbol hsymbol'
    rw [report_seriesOf inputs request hnodup hsymbol,
      report_seriesOf inputs request hnodup' hsymbol',
      closedMatches_selection inputs request selected selected']
  matched := by
    intro hroom hroom' symbol hsymbol hsymbol'
    rw [summary_count hselected] at hroom
    rw [summary_count hselected'] at hroom'
    rw [report_matchesOf inputs request hroom hsymbol,
      report_matchesOf inputs request hroom' hsymbol',
      closedMatches_selection inputs request selected selected']
  pendingLots := by
    intro hroom hroom' symbol hsymbol hsymbol'
    rw [report_pendingOf inputs request hselected hnodup hsymbol hroom,
      report_pendingOf inputs request hselected' hnodup' hsymbol' hroom',
      analyze_states inputs request selected selected']
  pendingPrefix := by
    intro symbol hsymbol hsymbol'
    have hprefix := report_pendingOf_first inputs request hnodup hsymbol
    rw [analyze_states inputs request selected selected'] at hprefix
    exact List.prefix_or_prefix_of_prefix hprefix
      (report_pendingOf_first inputs request hnodup' hsymbol')

theorem report_summary (inputs : IntraInputs) (request : IntraAnalysisRequest)
    (selected : List String) (w : Walk) : (report inputs request selected w).summary =
      (aggregateFees (inputs.windowFeeEvents request) selected).applyMetadataToSummary
        ((aggregateStats inputs.availableSymbols selected w.states).finish
          (aggregateOpen inputs.availableSymbols selected w.states)) request.referenceFeeBps :=
  rfl

theorem report_addsUp (inputs : IntraInputs) (request : IntraAnalysisRequest)
    {first second both : List String}
    (hboth : ∀ symbol, symbol ∈ both ↔ symbol ∈ first ∨ symbol ∈ second)
    (hdisjoint : ∀ symbol ∈ first, symbol ∉ second) :
    AddsUp (report inputs request first (analyze inputs request first)).summary
      (report inputs request second (analyze inputs request second)).summary
      (report inputs request both (analyze inputs request both)).summary := by
  rw [report_summary, report_summary, report_summary, analyze_states inputs request first both,
    analyze_states inputs request second both, aggregateStats_union hboth hdisjoint,
    aggregateOpen_union hboth hdisjoint, aggregateFees_union hboth hdisjoint]
  exact summary_addsUp ..

/-- **The filter only filters.** On valid inputs and a valid window, two requests that name
available symbols are both answered; the answers have the same rows, and a symbol named by both
has the same curve, the same matches where there is room for all of them, and the same pending
lots where all lots are returned. Where no symbol is named by both, the summaries add up to that
of any request that names the symbols of the two. -/
theorem calculate_only_filters {orders : List IntraAnalysisOrder}
    {feeEvents : List IntraAnalysisFeeEvent} {fundingEvents : List IntraAnalysisFundingEvent}
    {interestEvents : List IntraAnalysisInterestEvent} {inputs : IntraInputs}
    {request : IntraAnalysisRequest} {first second : List String}
    (hinputs : IntraInputs.prepare orders feeEvents fundingEvents interestEvents = .ok inputs)
    (hstart : request.strategyStartMs ≤ request.startMs) (hend : request.startMs ≤ request.endMs)
    (hfee : |request.referenceFeeBps| ≤ 100) (hfirst : ∃ symbol, inputs.Names first symbol)
    (hsecond : ∃ symbol, inputs.Names second symbol) :
    let calculate (requested : List String) :=
      calculateWithFeesFundingAndInterest orders feeEvents fundingEvents interestEvents
        { request with selectedSymbols := requested }
    ∃ r r', calculate first = .ok r ∧ calculate second = .ok r' ∧
      (∀ symbol, symbol ∈ r.selectedSymbols ↔ inputs.Names first symbol) ∧
      (∀ symbol, symbol ∈ r'.selectedSymbols ↔ inputs.Names second symbol) ∧
      OnlyFiltered request.maxMatches r r' ∧
      ((∀ symbol ∈ r.selectedSymbols, symbol ∉ r'.selectedSymbols) → ∀ both,
        (∀ symbol, inputs.Names both symbol ↔
          inputs.Names first symbol ∨ inputs.Names second symbol) →
        ∃ total, calculate both = .ok total ∧ AddsUp r.summary r'.summary total.summary) := by
  intro calculate
  obtain ⟨selected, hr, hnodup, hmem⟩ := calculate_of_names hinputs hstart hend hfee hfirst
  obtain ⟨selected', hr', hnodup', hmem'⟩ := calculate_of_names hinputs hstart hend hfee hsecond
  have hselected : selected ⊆ inputs.availableSymbols := fun symbol h => ((hmem symbol).mp h).1
  have hselected' : selected' ⊆ inputs.availableSymbols := fun symbol h => ((hmem' symbol).mp h).1
  refine ⟨_, _, hr, hr', hmem, hmem',
    report_onlyFiltered inputs request hselected hselected' hnodup hnodup', ?_⟩
  intro hdisjoint both hnames
  have hboth : ∃ symbol, inputs.Names both symbol := by
    obtain ⟨symbol, hsymbol⟩ := hfirst
    exact ⟨symbol, (hnames symbol).mpr (.inl hsymbol)⟩
  obtain ⟨union, htotal, -, hunion⟩ := calculate_of_names hinputs hstart hend hfee hboth
  refine ⟨_, htotal, report_addsUp inputs request (fun symbol => ?_) hdisjoint⟩
  rw [hunion, hnames, hmem, hmem']

/-- A close of one symbol and an open lot of another, both with interest. -/
theorem half_closed_only_filters :
    let calculate (requested : List String) :=
      calculateWithFeesFundingAndInterest halfClosed [⟨"ethusdt", 12, 400, some 1⟩]
        [⟨"BTCUSDT", 15, 4⟩] [⟨none, 16, some 3⟩, ⟨some "ethusdt", 18, some 2⟩]
        { dailyRequest with selectedSymbols := requested }
    ∃ r r' total, calculate ["btcUsdt"] = .ok r ∧ calculate ["DOGEUSDT", "ETHusdt"] = .ok r' ∧
      calculate ["ethusdt", "BTCUSDT"] = .ok total ∧ OnlyFiltered 200 r r' ∧
        AddsUp r.summary r'.summary total.summary := by
  obtain ⟨inputs, hinputs, havailable⟩ : Yields (IntraInputs.prepare halfClosed
      [⟨"ethusdt", 12, 400, some 1⟩] [⟨"BTCUSDT", 15, 4⟩]
      [⟨none, 16, some 3⟩, ⟨some "ethusdt", 18, some 2⟩]) fun inputs =>
        inputs.availableSymbols = ["BTCUSDT", "ETHUSDT"] := by decide +kernel
  have hnames : ∀ {requested : List String} {symbol : String}, inputs.Names requested symbol ↔
      symbol ∈ ["BTCUSDT", "ETHUSDT"] ∧ symbol ∈ requested.map uppercase := by
    intro requested symbol
    rw [IntraInputs.Names, havailable, List.mem_map]
  have hbtc : ∀ symbol, inputs.Names ["btcUsdt"] symbol ↔ symbol = "BTCUSDT" := by
    intro symbol
    rw [hnames, show ["btcUsdt"].map uppercase = ["BTCUSDT"] by decide +kernel]
    simp +contextual
  have heth : ∀ symbol, inputs.Names ["DOGEUSDT", "ETHusdt"] symbol ↔ symbol = "ETHUSDT" := by
    intro symbol
    rw [hnames, show ["DOGEUSDT", "ETHusdt"].map uppercase = ["DOGEUSDT", "ETHUSDT"] by
      decide +kernel]
    constructor
    · rintro ⟨havailable, hrequested⟩
      rcases List.mem_pair.mp havailable with rfl | rfl
      · exact absurd hrequested (by decide)
      · rfl
    · rintro rfl
      decide
  obtain ⟨r, r', hr, hr', hfirst, hsecond, hfiltered, hadds⟩ :=
    @calculate_only_filters _ _ _ _ inputs dailyRequest _ _ hinputs (by decide) (by decide)
      (by decide +kernel) ⟨_, (hbtc _).mpr rfl⟩ ⟨_, (heth _).mpr rfl⟩
  obtain ⟨total, htotal, hsum⟩ := hadds (fun symbol h h' => by
      rw [hfirst, hbtc] at h
      rw [hsecond, heth, h] at h'
      exact absurd h' (by decide)) ["ethusdt", "BTCUSDT"] fun symbol => by
    rw [hbtc, heth, hnames, show ["ethusdt", "BTCUSDT"].map uppercase = ["ETHUSDT", "BTCUSDT"] by
      decide +kernel]
    simp [or_comm]
  exact ⟨r, r', total, hr, hr', htotal, hfiltered, hsum⟩

/-- With room for one pending lot and nothing matched, the lot of one symbol hides the lot of the
other. -/
theorem truncated_lots_depend_on_selection :
    let calculate (requested : List String) :=
      calculateWithFeesFundingAndInterest [⟨1, "BTCUSDT", .positive, 10, 100, 101, 2, none⟩,
        ⟨3, "ETHUSDT", .reverse, 12, 10, 11, 5, none⟩] [] [] []
        { dailyRequest with selectedSymbols := requested, maxMatches := 1 }
    ∃ r r', calculate ["BTCUSDT", "ETHUSDT"] = .ok r ∧ calculate ["ETHUSDT"] = .ok r' ∧
      "ETHUSDT" ∈ r.selectedSymbols ∧ "ETHUSDT" ∈ r'.selectedSymbols ∧
      r.summary.closedMatchCount ≤ 1 ∧ r'.summary.closedMatchCount ≤ 1 ∧
      (∀ row ∈ r.symbols, row.summary.closedMatchCount = 0) ∧
      r.pendingOf "ETHUSDT" = [] ∧ (r'.pendingOf "ETHUSDT").length = 1 := by
  intro calculate
  obtain ⟨r, hr, hrest⟩ : Yields (calculate ["BTCUSDT", "ETHUSDT"]) fun r =>
      "ETHUSDT" ∈ r.selectedSymbols ∧ r.summary.closedMatchCount ≤ 1 ∧
      (∀ row ∈ r.symbols, row.summary.closedMatchCount = 0) ∧ r.pendingOf "ETHUSDT" = [] := by
    decide +kernel
  obtain ⟨r', hr', hrest'⟩ : Yields (calculate ["ETHUSDT"]) fun r' =>
      "ETHUSDT" ∈ r'.selectedSymbols ∧ r'.summary.closedMatchCount ≤ 1 ∧
      (r'.pendingOf "ETHUSDT").length = 1 := by decide +kernel
  obtain ⟨hselected, hmatches, hnone, hpending⟩ := hrest
  obtain ⟨hselected', hmatches', hpending'⟩ := hrest'
  exact ⟨r, r', hr, hr', hselected, hselected', hmatches, hmatches', hnone, hpending, hpending'⟩

end CryptoNav.Intra
