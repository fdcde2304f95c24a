import CryptoNav.Intra.Fifo

/-!
# `calculate_with_fees_funding_and_interest`

The loops over the orders, funding events and interest events of the window, and the response
made of what they leave. The source takes the three lists with two cursors; in which order it
takes what depends on times only and is `schedule`, so that the loops are one fold of
`Walk.take` over it.

The database is left out: the lists are those that `get_intra_analysis` reads, with the
selection and the window of the request. Refusals come before the loops and have the source's
texts. The order of the steps is a definition of its own because it is the only thing about time
that the loops know; a fold is then all that the invariants have to follow, whether the step is
an order, a funding event or an interest event.
-/

set_option autoImplicit false

namespace CryptoNav.Intra

open CryptoNav.Lib

/-! ## What the loops take -/

inductive Taken where
  | funding (event : IntraAnalysisFundingEvent)
  | interest (event : IntraAnalysisInterestEvent)
  | order (order : IntraAnalysisOrder)
  deriving DecidableEq, Repr

/-- Before each order the funding events up to it, then the interest events up to it; after the
last order whatever is left of both. -/
def schedule : List IntraAnalysisOrder → List IntraAnalysisFundingEvent →
    List IntraAnalysisInterestEvent → List Taken
  | [], funding, interest => funding.map .funding ++ interest.map .interest
  | order :: orders, funding, interest =>
    (funding.takeWhile (·.ts ≤ order.completedAtMs)).map .funding ++
      ((interest.takeWhile (·.ts ≤ order.completedAtMs)).map .interest ++
        .order order :: schedule orders (funding.dropWhile (·.ts ≤ order.completedAtMs))
          (interest.dropWhile (·.ts ≤ order.completedAtMs)))

def IntraInputs.schedule (inputs : IntraInputs) (request : IntraAnalysisRequest) : List Taken :=
  let inWindow (ts : ℤ) := decide (request.startMs ≤ ts) && decide (ts ≤ request.endMs)
  Intra.schedule (inputs.orders.filter (inWindow ·.completedAtMs))
    (inputs.fundingEvents.filter (inWindow ·.ts)) (inputs.interestEvents.filter (inWindow ·.ts))

/-! ## The curves -/

/-- The `point_*` variables. -/
structure PointTotals where
  pnl : ℚ := 0
  fundingPnl : ℚ := 0
  interestCost : ℚ := 0
  tradingFee : ℚ := 0
  referenceTradingFee : ℚ := 0
  marketPnl : ℚ := 0
  executionPnl : ℚ := 0
  positiveGross : ℚ := 0
  reverseGross : ℚ := 0
  positiveTradingFee : ℚ := 0
  reverseTradingFee : ℚ := 0
  positiveReferenceTradingFee : ℚ := 0
  reverseReferenceTradingFee : ℚ := 0
  notional : ℚ := 0
  matchCount : ℕ := 0
  decomposedMatches : ℕ := 0
  deriving DecidableEq, Repr

namespace PointTotals

def add (t : PointTotals) (c : Closing) : PointTotals :=
  let t := { t with
    pnl := t.pnl + c.pnlUsdt
    fundingPnl := t.fundingPnl + c.fundingPnlUsdt
    interestCost := t.interestCost + c.interestCostUsdt
    tradingFee := t.tradingFee + c.tradingFeeUsdt
    referenceTradingFee := t.referenceTradingFee + c.referenceTradingFeeUsdt }
  let t := match c.marketPnlUsdt, c.executionPnlUsdt with
    | some marketPnl, some executionPnl => { t with
        marketPnl := t.marketPnl + marketPnl
        executionPnl := t.executionPnl + executionPnl
        decomposedMatches := t.decomposedMatches + 1 }
    | _, _ => t
  let t := match c.lot.direction with
    | .positive => { t with
        positiveGross := t.positiveGross + c.grossPnlUsdt
        positiveTradingFee := t.positiveTradingFee + c.tradingFeeUsdt
        positiveReferenceTradingFee := t.positiveReferenceTradingFee + c.referenceTradingFeeUsdt }
    | .reverse => { t with
        reverseGross := t.reverseGross + c.grossPnlUsdt
        reverseTradingFee := t.reverseTradingFee + c.tradingFeeUsdt
        reverseReferenceTradingFee := t.reverseReferenceTradingFee + c.referenceTradingFeeUsdt }
  { t with
    notional := t.notional + c.matchedNotional
    matchCount := t.matchCount + 1 }

def point (t : PointTotals) (ts : ℤ) : IntraAnalysisPoint where
  ts := ts
  realizedPnlUsdt := cleanZero t.pnl
  fundingPnlUsdt := cleanZero t.fundingPnl
  interestCostUsdt := cleanZero t.interestCost
  grossPnlUsdt := cleanZero (t.pnl + t.fundingPnl - t.interestCost)
  tradingFeeUsdt := cleanZero t.tradingFee
  feeAfterPnlUsdt := cleanZero (t.pnl + t.fundingPnl - t.interestCost - t.tradingFee)
  referenceTradingFeeUsdt := cleanZero t.referenceTradingFee
  referenceFeeAfterPnlUsdt :=
    cleanZero (t.pnl + t.fundingPnl - t.interestCost - t.referenceTradingFee)
  marketPnlUsdt := cleanZero t.marketPnl
  executionPnlUsdt := cleanZero t.executionPnl
  positiveGrossPnlUsdt := cleanZero t.positiveGross
  reverseGrossPnlUsdt := cleanZero t.reverseGross
  positiveFeeAfterPnlUsdt := cleanZero (t.positiveGross - t.positiveTradingFee)
  reverseFeeAfterPnlUsdt := cleanZero (t.reverseGross - t.reverseTradingFee)
  positiveReferenceFeeAfterPnlUsdt := cleanZero (t.positiveGross - t.positiveReferenceTradingFee)
  reverseReferenceFeeAfterPnlUsdt := cleanZero (t.reverseGross - t.reverseReferenceTradingFee)
  matchedNotionalUsdt := cleanZero t.notional
  closedMatchCount := t.matchCount
  decomposedMatchCount := t.decomposedMatches

end PointTotals

/-- What a close adds to the `symbol_total` of its symbol. -/
def IntraAnalysisPoint.addClose (p : IntraAnalysisPoint) (c : Closing) : IntraAnalysisPoint :=
  let p := { p with
    ts := c.order.completedAtMs
    realizedPnlUsdt := p.realizedPnlUsdt + c.pnlUsdt
    fundingPnlUsdt := p.fundingPnlUsdt + c.fundingPnlUsdt
    interestCostUsdt := p.interestCostUsdt + c.interestCostUsdt }
  let p := { p with
    grossPnlUsdt := p.realizedPnlUsdt + p.fundingPnlUsdt - p.interestCostUsdt }
  let p := { p with tradingFeeUsdt := p.tradingFeeUsdt + c.tradingFeeUsdt }
  let p := { p with feeAfterPnlUsdt := p.grossPnlUsdt - p.tradingFeeUsdt }
  let p := { p with
    referenceTradingFeeUsdt := p.referenceTradingFeeUsdt + c.referenceTradingFeeUsdt }
  let p := { p with referenceFeeAfterPnlUsdt := p.grossPnlUsdt - p.referenceTradingFeeUsdt }
  let p := match c.marketPnlUsdt, c.executionPnlUsdt with
    | some marketPnl, some executionPnl => { p with
        marketPnlUsdt := p.marketPnlUsdt + marketPnl
        executionPnlUsdt := p.executionPnlUsdt + executionPnl
        decomposedMatchCount := p.decomposedMatchCount + 1 }
    | _, _ => p
  let p := p.addDirectionClose c.lot.direction c.grossPnlUsdt c.tradingFeeUsdt
    c.referenceTradingFeeUsdt
  { p with
    matchedNotionalUsdt := p.matchedNotionalUsdt + c.matchedNotional
    closedMatchCount := p.closedMatchCount + 1 }

/-- What the loops read. -/
structure Settings where
  available : List String
  selected : List String
  symbolFees : String → FeeAccumulator
  referenceFeeBps : ℚ
  maxMatches : ℕ

structure Curves where
  totals : PointTotals := {}
  points : List IntraAnalysisPoint
  symbolTotals : String → IntraAnalysisPoint := fun _ => {}
  symbolPoints : String → List IntraAnalysisPoint
  recentMatches : List IntraClosedMatch := []

/-- What the matching loop does for a close of a selected symbol. -/
def Curves.record (maxMatches : ℕ) (curves : Curves) (c : Closing) : Curves :=
  let symbol := c.order.symbol
  let totals := curves.totals.add c
  let symbolTotal := (curves.symbolTotals symbol).addClose c
  { totals
    points := pushOrReplacePoint curves.points (totals.point c.order.completedAtMs)
    symbolTotals := Function.update curves.symbolTotals symbol symbolTotal
    symbolPoints := Function.update curves.symbolPoints symbol
      (pushOrReplacePoint (curves.symbolPoints symbol) symbolTotal)
    recentMatches :=
      if 0 < maxMatches then
        let recent := curves.recentMatches ++ [c.row]
        recent.drop (recent.length - maxMatches)
      else curves.recentMatches }

/-! ## The loops -/

structure Walk where
  states : String → SymbolState := fun _ => {}
  curves : Curves
  allocatedFundingRows : ℕ := 0
  allocatedInterestRows : ℕ := 0

namespace Walk

def start (request : IntraAnalysisRequest) : Walk where
  curves :=
    { points := [{ ts := request.startMs }]
      symbolPoints := fun _ => [{ ts := request.startMs }] }

def record (settings : Settings) (w : Walk) (c : Closing) : Walk :=
  let symbol := c.order.symbol
  let state := w.states symbol
  { w with
    states := Function.update w.states symbol
      { state with stats := state.stats.recordMatch c.row c.matchedNotional }
    curves :=
      if symbol ∈ settings.selected then w.curves.record settings.maxMatches c else w.curves }

/-- The closes an order makes. They are recorded one by one in the matching loop of the source,
which reads nothing that recording changes. -/
def close (settings : Settings) (w : Walk) (order : IntraAnalysisOrder) : Closed :=
  closeLots (settings.symbolFees order.symbol) settings.referenceFeeBps order order.quantity
    ((w.states order.symbol).lots order.direction.opposite)

def take (settings : Settings) (w : Walk) : Taken → Walk
  | .funding event =>
    if event.symbol ∈ settings.available then
      match allocateFunding (w.states event.symbol) event.amountUsdt with
      | some state => { w with
          states := Function.update w.states event.symbol state
          allocatedFundingRows :=
            if event.symbol ∈ settings.selected then w.allocatedFundingRows + 1
            else w.allocatedFundingRows }
      | none => w
    else w
  | .interest event =>
    match allocateInterest settings.available settings.selected w.states event with
    | some (states, received) => { w with
        states
        allocatedInterestRows :=
          if received then w.allocatedInterestRows + 1 else w.allocatedInterestRows }
    | none => w
  | .order order =>
    let closed := w.close settings order
    let w := closed.closings.foldl (record settings) w
    { w with
      states := Function.update w.states order.symbol
        ((w.states order.symbol).settle order closed) }

end Walk

/-! ## The response -/

structure IntraPendingLot where
  symbol : String
  direction : ArbDirection
  fkey : ℤ
  openedAtMs : ℤ
  quantity : ℚ
  spotPrice : ℚ
  futuresPrice : ℚ
  basisBps : ℚ
  notionalUsdt : ℚ
  deriving DecidableEq, Repr

structure IntraSymbolAnalysis where
  symbol : String
  summary : IntraAnalysisSummary
  deriving DecidableEq, Repr

structure IntraSymbolSeries where
  symbol : String
  points : List IntraAnalysisPoint
  deriving DecidableEq, Repr

structure IntraAnalysisSource where
  adapter : String := "intra_order_combo_fifo"
  hedgePriceAdapter : String := "intra_hedges_main_fkey"
  premiumAdapter : String
  premiumRateField : String := "close"
  loadedMtRows : ℕ
  loadedFeeTradeRows : ℕ
  windowFeeTradeRows : ℕ
  convertedFeeTradeRows : ℕ
  feeAllocation : String := "symbol_window_effective_rate_on_closed_four_legs"
  loadedFundingRows : ℕ
  windowFundingRows : ℕ
  allocatedFundingRows : ℕ
  fundingAllocation : String := "event_time_open_futures_notional_then_fifo_closed_quantity"
  loadedInterestRows : ℕ
  windowInterestRows : ℕ
  convertedInterestRows : ℕ
  allocatedInterestRows : ℕ
  interestAllocation : String := "quote_to_positive_and_base_to_reverse_open_spot_notional_" ++
    "then_fifo_closed_quantity"
  returnedPoints : ℕ
  returnedSymbolPoints : ℕ
  returnedMatches : ℕ
  returnedPendingLots : ℕ
  pairingRule : String := "open_and_close_inside_selected_window"
  sampled : Bool
  feesIncluded : Bool := true
  fundingIncluded : Bool := true
  interestIncluded : Bool := true
  deriving DecidableEq, Repr

structure IntraAnalysisResponse where
  strategySlug : String
  displayName : String
  strategyStartMs : ℤ
  startMs : ℤ
  endMs : ℤ
  selectedSymbols : List String
  availableSymbols : List String
  summary : IntraAnalysisSummary
  symbols : List IntraSymbolAnalysis
  points : List IntraAnalysisPoint
  symbolPoints : List IntraSymbolSeries
  matched : List IntraClosedMatch
  pendingLots : List IntraPendingLot
  source : IntraAnalysisSource
  deriving DecidableEq, Repr

def OpenLot.pending (symbol : String) (lot : OpenLot) : IntraPendingLot where
  symbol := symbol
  direction := lot.direction
  fkey := lot.fkey
  openedAtMs := lot.completedAtMs
  quantity := cleanZero lot.remainingQuantity
  spotPrice := lot.spotPrice
  futuresPrice := lot.futuresPrice
  basisBps := lot.basisBps
  notionalUsdt := cleanZero (lot.remainingQuantity * lot.spotPrice)

/-- Largest notional first, then the latest, then by symbol. -/
def pendingLots (states : String → SymbolState) (selected : List String) : List IntraPendingLot :=
  sortByKey (fun lot => toLex (OrderDual.toDual lot.notionalUsdt,
      toLex (OrderDual.toDual lot.openedAtMs, lot.symbol)))
    (selected.flatMap fun symbol =>
      ((states symbol).positive ++ (states symbol).reverse).map (OpenLot.pending symbol))

def interestEventInSelectedScope (selected : List String) (event : IntraAnalysisInterestEvent) :
    Bool :=
  match event.symbol with
  | some symbol => decide (symbol ∈ selected)
  | none => decide (selected ≠ [])

/-- The fee loop, for each symbol. -/
def symbolFees (events : List IntraAnalysisFeeEvent) (symbol : String) : FeeAccumulator :=
  (events.filter (·.symbol = symbol)).foldl FeeAccumulator.record {}

def aggregateFees (events : List IntraAnalysisFeeEvent) (selected : List String) :
    FeeAccumulator :=
  (events.filter (·.symbol ∈ selected)).foldl FeeAccumulator.record {}

def IntraInputs.windowFeeEvents (inputs : IntraInputs) (request : IntraAnalysisRequest) :
    List IntraAnalysisFeeEvent :=
  inputs.feeEvents.filter fun event =>
    decide (request.startMs ≤ event.ts) && decide (event.ts ≤ request.endMs)

def settings (inputs : IntraInputs) (request : IntraAnalysisRequest) (selected : List String) :
    Settings where
  available := inputs.availableSymbols
  selected := selected
  symbolFees := symbolFees (inputs.windowFeeEvents request)
  referenceFeeBps := request.referenceFeeBps
  maxMatches := request.maxMatches

/-- What the loops leave. -/
def analyze (inputs : IntraInputs) (request : IntraAnalysisRequest) (selected : List String) :
    Walk :=
  (inputs.schedule request).foldl (Walk.take (settings inputs request selected))
    (Walk.start request)

/-- The rows of the symbols, largest gross PnL first. -/
def symbolRows (settings : Settings) (states : String → SymbolState) : List IntraSymbolAnalysis :=
  sortByKey (fun row => toLex (OrderDual.toDual row.summary.grossPnlUsdt, row.symbol))
    (settings.available.map fun symbol =>
      ⟨symbol, (settings.symbolFees symbol).applyMetadataToSummary
        ((states symbol).stats.finish (states symbol).openSummary) settings.referenceFeeBps⟩)

def aggregateStats (available selected : List String) (states : String → SymbolState) :
    SummaryAccumulator :=
  ((available.filter (· ∈ selected)).map fun symbol => (states symbol).stats).foldl
    SummaryAccumulator.add {}

def aggregateOpen (available selected : List String) (states : String → SymbolState) :
    OpenSummary :=
  ((available.filter (· ∈ selected)).map fun symbol => (states symbol).openSummary).foldl
    OpenSummary.add {}

/-- `calculate_with_fees_funding_and_interest` from the end of its loops on. -/
def report (inputs : IntraInputs) (request : IntraAnalysisRequest) (selected : List String)
    (w : Walk) : IntraAnalysisResponse :=
  let settings := settings inputs request selected
  let feeEvents := inputs.windowFeeEvents request
  let inWindow (ts : ℤ) := decide (request.startMs ≤ ts) && decide (ts ≤ request.endMs)
  let windowFundingEvents := inputs.fundingEvents.filter (inWindow ·.ts)
  let windowInterestEvents := inputs.interestEvents.filter (inWindow ·.ts)
  let fees := aggregateFees feeEvents selected
  let allPending := pendingLots w.states selected
  let sampledPendingLots :=
    decide (0 < request.maxMatches) && decide (request.maxMatches < allPending.length)
  let pending := if sampledPendingLots then allPending.take request.maxMatches else allPending
  let originalPoints := ensureFinalPoint w.curves.points request.endMs
  let points := downsamplePoints originalPoints (max request.maxPoints 2)
  let symbolMaxPoints := max 100 (min 800 request.maxPoints)
  let originalSymbolPoints (symbol : String) :=
    ensureFinalPoint (w.curves.symbolPoints symbol) request.endMs
  let symbolPoints := selected.map fun symbol =>
    (⟨symbol, downsamplePoints (originalSymbolPoints symbol) symbolMaxPoints⟩ : IntraSymbolSeries)
  let sampledSymbolPoints := symbolPoints.any fun series =>
    decide (series.points.length < (originalSymbolPoints series.symbol).length)
  let matched := w.curves.recentMatches.reverse
  let summary := (aggregateStats settings.available selected w.states).finish
    (aggregateOpen settings.available selected w.states)
  { strategySlug := request.strategySlug
    displayName := request.displayName
    strategyStartMs := request.strategyStartMs
    startMs := request.startMs
    endMs := request.endMs
    selectedSymbols := selected
    availableSymbols := settings.available
    summary := fees.applyMetadataToSummary summary request.referenceFeeBps
    symbols := symbolRows settings w.states
    points, symbolPoints, matched
    pendingLots := pending
    source :=
      { premiumAdapter := request.premiumAdapter
        loadedMtRows := inputs.orders.length
        loadedFeeTradeRows := inputs.feeEvents.length
        windowFeeTradeRows := (feeEvents.filter (·.symbol ∈ selected)).length
        convertedFeeTradeRows :=
          ((feeEvents.filter (·.symbol ∈ selected)).filter (·.feeUsdt.isSome)).length
        loadedFundingRows := inputs.fundingEvents.length
        windowFundingRows := (windowFundingEvents.filter (·.symbol ∈ selected)).length
        allocatedFundingRows := w.allocatedFundingRows
        loadedInterestRows := inputs.interestEvents.length
        windowInterestRows :=
          (windowInterestEvents.filter (interestEventInSelectedScope selected)).length
        convertedInterestRows := ((windowInterestEvents.filter
          (interestEventInSelectedScope selected)).filter (·.costUsdt.isSome)).length
        allocatedInterestRows := w.allocatedInterestRows
        returnedPoints := points.length
        returnedSymbolPoints := (symbolPoints.map (·.points.length)).sum
        returnedMatches := matched.length
        returnedPendingLots := pending.length
        sampled := decide (points.length < originalPoints.length) || sampledSymbolPoints ||
          sampledPendingLots } }

def calculateWithFeesFundingAndInterest (orders : List IntraAnalysisOrder)
    (feeEvents : List IntraAnalysisFeeEvent) (fundingEvents : List IntraAnalysisFundingEvent)
    (interestEvents : List IntraAnalysisInterestEvent) (request : IntraAnalysisRequest) :
    Except IntraError IntraAnalysisResponse := do
  bailIf (request.startMs < request.strategyStartMs)
    "start_ms must not be earlier than strategy_start_ms"
  bailIf (request.endMs < request.startMs) "end_ms must be greater than or equal to start_ms"
  bailIf (100 < |request.referenceFeeBps|)
    "reference_fee_bps must be finite and between -100 and 100"
  let inputs ← IntraInputs.prepare orders feeEvents fundingEvents interestEvents
  let selected ← selectedSymbols inputs.availableSymbols request.selectedSymbols
  return report inputs request selected (analyze inputs request selected)

end CryptoNav.Intra
