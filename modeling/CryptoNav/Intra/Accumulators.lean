import CryptoNav.Intra.Orders

/-!
# What the intra analysis accumulates

The rows of closed matches, the fee rate of a symbol, the accumulators of a summary and of its two
directions, what stays open, and the points of the curves: the data of `intra_analysis.rs` with
the functions that add to it and finish it.

Everything that is shown goes through `cleanZero`, which takes tiny values to zero and leaves
all others alone; this is what is called rounding in this directory. What is added up later is
added up from what went through it or from what did not: the functions here say which, and that
is what the statements about views and totals turn on. Sums are exact rationals. A value that a
row may lack is an `Option`, as in the source, and stays absent when it is added to nothing.
-/

set_option autoImplicit false

namespace CryptoNav.Intra

def quantityEpsilon : ℚ := 1 / 10 ^ 10

/-- `f64::EPSILON`. -/
def f64Epsilon : ℚ := 1 / 2 ^ 52

def ratio (numerator denominator : ℚ) : ℚ :=
  if f64Epsilon < |denominator| then numerator / denominator else 0

def cleanQuantity (value : ℚ) : ℚ := if |value| ≤ quantityEpsilon then 0 else value

def cleanZero (value : ℚ) : ℚ := if |value| ≤ 1 / 10 ^ 9 then 0 else value

/-- `i64::saturating_sub`. -/
def saturatingSub (a b : ℤ) : ℤ := max (-2 ^ 63) (min (2 ^ 63 - 1) (a - b))

/-! ## Closed matches -/

structure IntraClosedMatch where
  symbol : String
  openDirection : ArbDirection
  openFkey : ℤ
  closeFkey : ℤ
  openedAtMs : ℤ
  closedAtMs : ℤ
  holdingMs : ℤ
  quantity : ℚ
  openSpotPrice : ℚ
  openFuturesPrice : ℚ
  closeSpotPrice : ℚ
  closeFuturesPrice : ℚ
  entryBasisBps : ℚ
  exitBasisBps : ℚ
  entryPremiumBps : Option ℚ
  exitPremiumBps : Option ℚ
  entryExecutionEdgeBps : Option ℚ
  exitExecutionEdgeBps : Option ℚ
  marketPnlUsdt : Option ℚ
  entryExecutionPnlUsdt : Option ℚ
  exitExecutionPnlUsdt : Option ℚ
  executionPnlUsdt : Option ℚ
  fundingPnlUsdt : ℚ
  interestCostUsdt : ℚ
  grossPnlUsdt : ℚ
  feeNotionalUsdt : ℚ
  tradingFeeUsdt : ℚ
  referenceTradingFeeUsdt : ℚ
  feeAfterPnlUsdt : ℚ
  referenceFeeAfterPnlUsdt : ℚ
  pnlUsdt : ℚ
  returnBps : ℚ
  deriving DecidableEq, Repr

/-! ## Summaries -/

structure IntraDirectionSlice where
  closedMatchCount : ℕ := 0
  winningMatchCount : ℕ := 0
  winRate : ℚ := 0
  matchedNotionalUsdt : ℚ := 0
  grossPnlUsdt : ℚ := 0
  grossReturnBps : ℚ := 0
  tradingFeeUsdt : ℚ := 0
  feeAfterPnlUsdt : ℚ := 0
  feeAfterReturnBps : ℚ := 0
  referenceTradingFeeUsdt : ℚ := 0
  referenceFeeAfterPnlUsdt : ℚ := 0
  referenceFeeAfterReturnBps : ℚ := 0
  averageHoldingMs : ℚ := 0
  averageEntryBasisBps : ℚ := 0
  averageExitBasisBps : ℚ := 0
  capturedPositiveNotionalUsdt : ℚ := 0
  capturedAboveFeeNotionalUsdt : ℚ := 0
  capturedBelowFeeNotionalUsdt : ℚ := 0
  uncapturedNotionalUsdt : ℚ := 0
  capturedAboveReferenceFeeNotionalUsdt : ℚ := 0
  capturedBelowReferenceFeeNotionalUsdt : ℚ := 0
  capturedPositiveShare : ℚ := 0
  capturedAboveFeeShare : ℚ := 0
  capturedBelowFeeShare : ℚ := 0
  uncapturedShare : ℚ := 0
  capturedAboveReferenceFeeShare : ℚ := 0
  capturedBelowReferenceFeeShare : ℚ := 0
  deriving DecidableEq, Repr

structure IntraAnalysisSummary where
  closedMatchCount : ℕ := 0
  winningMatchCount : ℕ := 0
  winRate : ℚ := 0
  matchedQuantity : ℚ := 0
  matchedNotionalUsdt : ℚ := 0
  realizedPnlUsdt : ℚ := 0
  returnBps : ℚ := 0
  fundingPnlUsdt : ℚ := 0
  fundingReturnBps : ℚ := 0
  interestCostUsdt : ℚ := 0
  interestCostReturnBps : ℚ := 0
  grossPnlUsdt : ℚ := 0
  grossReturnBps : ℚ := 0
  tradingFeeUsdt : ℚ := 0
  feeAfterPnlUsdt : ℚ := 0
  feeAfterReturnBps : ℚ := 0
  referenceFeeBps : ℚ := 0
  referenceTradingFeeUsdt : ℚ := 0
  referenceFeeAfterPnlUsdt : ℚ := 0
  referenceFeeAfterReturnBps : ℚ := 0
  feeTradeCount : ℕ := 0
  feeTradeNotionalUsdt : ℚ := 0
  convertedFeeTradeCount : ℕ := 0
  actualFeeCoverage : ℚ := 0
  decomposedMatchCount : ℕ := 0
  premiumCoverage : ℚ := 0
  decomposedNotionalUsdt : ℚ := 0
  marketPnlUsdt : ℚ := 0
  executionPnlUsdt : ℚ := 0
  marketReturnBps : ℚ := 0
  executionReturnBps : ℚ := 0
  averageHoldingMs : ℚ := 0
  positiveOpenLotCount : ℕ := 0
  reverseOpenLotCount : ℕ := 0
  positiveOpenQuantity : ℚ := 0
  reverseOpenQuantity : ℚ := 0
  positiveOpenNotionalUsdt : ℚ := 0
  reverseOpenNotionalUsdt : ℚ := 0
  positiveAverageBasisBps : ℚ := 0
  reverseAverageBasisBps : ℚ := 0
  positive : IntraDirectionSlice := {}
  reverse : IntraDirectionSlice := {}
  deriving DecidableEq, Repr

structure FeeAccumulator where
  tradeCount : ℕ := 0
  convertedTradeCount : ℕ := 0
  tradeNotionalUsdt : ℚ := 0
  convertedNotionalUsdt : ℚ := 0
  tradingFeeUsdt : ℚ := 0
  deriving DecidableEq, Repr

namespace FeeAccumulator

def record (fees : FeeAccumulator) (event : IntraAnalysisFeeEvent) : FeeAccumulator :=
  let fees := { fees with
    tradeCount := fees.tradeCount + 1
    tradeNotionalUsdt := fees.tradeNotionalUsdt + event.notionalUsdt }
  match event.feeUsdt with
  | some feeUsdt => { fees with
      convertedTradeCount := fees.convertedTradeCount + 1
      convertedNotionalUsdt := fees.convertedNotionalUsdt + event.notionalUsdt
      tradingFeeUsdt := fees.tradingFeeUsdt + feeUsdt }
  | none => fees

def allocatedActualFee (fees : FeeAccumulator) (feeNotionalUsdt : ℚ) : ℚ :=
  feeNotionalUsdt * ratio fees.tradingFeeUsdt fees.tradeNotionalUsdt

def applyMetadataToSummary (fees : FeeAccumulator) (summary : IntraAnalysisSummary)
    (referenceFeeBps : ℚ) : IntraAnalysisSummary :=
  { summary with
    referenceFeeBps
    feeTradeCount := fees.tradeCount
    feeTradeNotionalUsdt := cleanZero fees.tradeNotionalUsdt
    convertedFeeTradeCount := fees.convertedTradeCount
    actualFeeCoverage := ratio fees.convertedNotionalUsdt fees.tradeNotionalUsdt }

end FeeAccumulator

structure DirectionAccumulator where
  closedMatchCount : ℕ := 0
  winningMatchCount : ℕ := 0
  matchedNotionalUsdt : ℚ := 0
  grossPnlUsdt : ℚ := 0
  tradingFeeUsdt : ℚ := 0
  referenceTradingFeeUsdt : ℚ := 0
  holdingNotionalMs : ℚ := 0
  entryBasisNotionalBps : ℚ := 0
  exitBasisNotionalBps : ℚ := 0
  capturedPositiveNotionalUsdt : ℚ := 0
  capturedAboveFeeNotionalUsdt : ℚ := 0
  capturedBelowFeeNotionalUsdt : ℚ := 0
  uncapturedNotionalUsdt : ℚ := 0
  capturedAboveReferenceFeeNotionalUsdt : ℚ := 0
  capturedBelowReferenceFeeNotionalUsdt : ℚ := 0
  deriving DecidableEq, Repr

namespace DirectionAccumulator

def record (a : DirectionAccumulator) (row : IntraClosedMatch) (matchedNotional : ℚ) :
    DirectionAccumulator :=
  let a := { a with
    closedMatchCount := a.closedMatchCount + 1
    winningMatchCount := if 0 < row.pnlUsdt then a.winningMatchCount + 1 else a.winningMatchCount
    matchedNotionalUsdt := a.matchedNotionalUsdt + matchedNotional
    grossPnlUsdt := a.grossPnlUsdt + row.grossPnlUsdt
    tradingFeeUsdt := a.tradingFeeUsdt + row.tradingFeeUsdt
    referenceTradingFeeUsdt := a.referenceTradingFeeUsdt + row.referenceTradingFeeUsdt
    holdingNotionalMs := a.holdingNotionalMs + row.holdingMs * matchedNotional
    entryBasisNotionalBps := a.entryBasisNotionalBps + row.entryBasisBps * matchedNotional
    exitBasisNotionalBps := a.exitBasisNotionalBps + row.exitBasisBps * matchedNotional
    capturedPositiveNotionalUsdt :=
      if 0 < row.grossPnlUsdt then a.capturedPositiveNotionalUsdt + matchedNotional
      else a.capturedPositiveNotionalUsdt }
  let a :=
    if 0 < row.feeAfterPnlUsdt then { a with
      capturedAboveFeeNotionalUsdt := a.capturedAboveFeeNotionalUsdt + matchedNotional }
    else if 0 < row.grossPnlUsdt then { a with
      capturedBelowFeeNotionalUsdt := a.capturedBelowFeeNotionalUsdt + matchedNotional }
    else { a with uncapturedNotionalUsdt := a.uncapturedNotionalUsdt + matchedNotional }
  if 0 < row.referenceFeeAfterPnlUsdt then { a with
    capturedAboveReferenceFeeNotionalUsdt :=
      a.capturedAboveReferenceFeeNotionalUsdt + matchedNotional }
  else if 0 < row.grossPnlUsdt then { a with
    capturedBelowReferenceFeeNotionalUsdt :=
      a.capturedBelowReferenceFeeNotionalUsdt + matchedNotional }
  else a

def add (a other : DirectionAccumulator) : DirectionAccumulator where
  closedMatchCount := a.closedMatchCount + other.closedMatchCount
  winningMatchCount := a.winningMatchCount + other.winningMatchCount
  matchedNotionalUsdt := a.matchedNotionalUsdt + other.matchedNotionalUsdt
  grossPnlUsdt := a.grossPnlUsdt + other.grossPnlUsdt
  tradingFeeUsdt := a.tradingFeeUsdt + other.tradingFeeUsdt
  referenceTradingFeeUsdt := a.referenceTradingFeeUsdt + other.referenceTradingFeeUsdt
  holdingNotionalMs := a.holdingNotionalMs + other.holdingNotionalMs
  entryBasisNotionalBps := a.entryBasisNotionalBps + other.entryBasisNotionalBps
  exitBasisNotionalBps := a.exitBasisNotionalBps + other.exitBasisNotionalBps
  capturedPositiveNotionalUsdt :=
    a.capturedPositiveNotionalUsdt + other.capturedPositiveNotionalUsdt
  capturedAboveFeeNotionalUsdt :=
    a.capturedAboveFeeNotionalUsdt + other.capturedAboveFeeNotionalUsdt
  capturedBelowFeeNotionalUsdt :=
    a.capturedBelowFeeNotionalUsdt + other.capturedBelowFeeNotionalUsdt
  uncapturedNotionalUsdt := a.uncapturedNotionalUsdt + other.uncapturedNotionalUsdt
  capturedAboveReferenceFeeNotionalUsdt :=
    a.capturedAboveReferenceFeeNotionalUsdt + other.capturedAboveReferenceFeeNotionalUsdt
  capturedBelowReferenceFeeNotionalUsdt :=
    a.capturedBelowReferenceFeeNotionalUsdt + other.capturedBelowReferenceFeeNotionalUsdt

def finish (a : DirectionAccumulator) : IntraDirectionSlice :=
  let notional := a.matchedNotionalUsdt
  let feeAfter := a.grossPnlUsdt - a.tradingFeeUsdt
  let referenceFeeAfter := a.grossPnlUsdt - a.referenceTradingFeeUsdt
  { closedMatchCount := a.closedMatchCount
    winningMatchCount := a.winningMatchCount
    winRate := ratio a.winningMatchCount a.closedMatchCount
    matchedNotionalUsdt := cleanZero notional
    grossPnlUsdt := cleanZero a.grossPnlUsdt
    grossReturnBps := ratio a.grossPnlUsdt notional * 10000
    tradingFeeUsdt := cleanZero a.tradingFeeUsdt
    feeAfterPnlUsdt := cleanZero feeAfter
    feeAfterReturnBps := ratio feeAfter notional * 10000
    referenceTradingFeeUsdt := cleanZero a.referenceTradingFeeUsdt
    referenceFeeAfterPnlUsdt := cleanZero referenceFeeAfter
    referenceFeeAfterReturnBps := ratio referenceFeeAfter notional * 10000
    averageHoldingMs := ratio a.holdingNotionalMs notional
    averageEntryBasisBps := ratio a.entryBasisNotionalBps notional
    averageExitBasisBps := ratio a.exitBasisNotionalBps notional
    capturedPositiveNotionalUsdt := cleanZero a.capturedPositiveNotionalUsdt
    capturedAboveFeeNotionalUsdt := cleanZero a.capturedAboveFeeNotionalUsdt
    capturedBelowFeeNotionalUsdt := cleanZero a.capturedBelowFeeNotionalUsdt
    uncapturedNotionalUsdt := cleanZero a.uncapturedNotionalUsdt
    capturedAboveReferenceFeeNotionalUsdt := cleanZero a.capturedAboveReferenceFeeNotionalUsdt
    capturedBelowReferenceFeeNotionalUsdt := cleanZero a.capturedBelowReferenceFeeNotionalUsdt
    capturedPositiveShare := ratio a.capturedPositiveNotionalUsdt notional
    capturedAboveFeeShare := ratio a.capturedAboveFeeNotionalUsdt notional
    capturedBelowFeeShare := ratio a.capturedBelowFeeNotionalUsdt notional
    uncapturedShare := ratio a.uncapturedNotionalUsdt notional
    capturedAboveReferenceFeeShare := ratio a.capturedAboveReferenceFeeNotionalUsdt notional
    capturedBelowReferenceFeeShare := ratio a.capturedBelowReferenceFeeNotionalUsdt notional }

end DirectionAccumulator

structure OpenSummary where
  positiveLotCount : ℕ := 0
  reverseLotCount : ℕ := 0
  positiveQuantity : ℚ := 0
  reverseQuantity : ℚ := 0
  positiveNotionalUsdt : ℚ := 0
  reverseNotionalUsdt : ℚ := 0
  positiveBasisNotionalBps : ℚ := 0
  reverseBasisNotionalBps : ℚ := 0
  deriving DecidableEq, Repr

def OpenSummary.add (a other : OpenSummary) : OpenSummary where
  positiveLotCount := a.positiveLotCount + other.positiveLotCount
  reverseLotCount := a.reverseLotCount + other.reverseLotCount
  positiveQuantity := a.positiveQuantity + other.positiveQuantity
  reverseQuantity := a.reverseQuantity + other.reverseQuantity
  positiveNotionalUsdt := a.positiveNotionalUsdt + other.positiveNotionalUsdt
  reverseNotionalUsdt := a.reverseNotionalUsdt + other.reverseNotionalUsdt
  positiveBasisNotionalBps := a.positiveBasisNotionalBps + other.positiveBasisNotionalBps
  reverseBasisNotionalBps := a.reverseBasisNotionalBps + other.reverseBasisNotionalBps

structure SummaryAccumulator where
  closedMatchCount : ℕ := 0
  winningMatchCount : ℕ := 0
  matchedQuantity : ℚ := 0
  matchedNotionalUsdt : ℚ := 0
  realizedPnlUsdt : ℚ := 0
  fundingPnlUsdt : ℚ := 0
  interestCostUsdt : ℚ := 0
  tradingFeeUsdt : ℚ := 0
  referenceTradingFeeUsdt : ℚ := 0
  decomposedMatchCount : ℕ := 0
  decomposedNotionalUsdt : ℚ := 0
  marketPnlUsdt : ℚ := 0
  executionPnlUsdt : ℚ := 0
  holdingNotionalMs : ℚ := 0
  positive : DirectionAccumulator := {}
  reverse : DirectionAccumulator := {}
  deriving DecidableEq, Repr

namespace SummaryAccumulator

def recordMatch (a : SummaryAccumulator) (row : IntraClosedMatch) (matchedNotional : ℚ) :
    SummaryAccumulator :=
  let a := { a with
    closedMatchCount := a.closedMatchCount + 1
    winningMatchCount := if 0 < row.pnlUsdt then a.winningMatchCount + 1 else a.winningMatchCount
    matchedQuantity := a.matchedQuantity + row.quantity
    matchedNotionalUsdt := a.matchedNotionalUsdt + matchedNotional
    realizedPnlUsdt := a.realizedPnlUsdt + row.pnlUsdt
    fundingPnlUsdt := a.fundingPnlUsdt + row.fundingPnlUsdt
    interestCostUsdt := a.interestCostUsdt + row.interestCostUsdt
    tradingFeeUsdt := a.tradingFeeUsdt + row.tradingFeeUsdt
    referenceTradingFeeUsdt := a.referenceTradingFeeUsdt + row.referenceTradingFeeUsdt }
  let a := match row.marketPnlUsdt, row.executionPnlUsdt with
    | some marketPnl, some executionPnl => { a with
        decomposedMatchCount := a.decomposedMatchCount + 1
        decomposedNotionalUsdt := a.decomposedNotionalUsdt + matchedNotional
        marketPnlUsdt := a.marketPnlUsdt + marketPnl
        executionPnlUsdt := a.executionPnlUsdt + executionPnl }
    | _, _ => a
  let a := { a with holdingNotionalMs := a.holdingNotionalMs + row.holdingMs * matchedNotional }
  match row.openDirection with
  | .positive => { a with positive := a.positive.record row matchedNotional }
  | .reverse => { a with reverse := a.reverse.record row matchedNotional }

def add (a other : SummaryAccumulator) : SummaryAccumulator where
  closedMatchCount := a.closedMatchCount + other.closedMatchCount
  winningMatchCount := a.winningMatchCount + other.winningMatchCount
  matchedQuantity := a.matchedQuantity + other.matchedQuantity
  matchedNotionalUsdt := a.matchedNotionalUsdt + other.matchedNotionalUsdt
  realizedPnlUsdt := a.realizedPnlUsdt + other.realizedPnlUsdt
  fundingPnlUsdt := a.fundingPnlUsdt + other.fundingPnlUsdt
  interestCostUsdt := a.interestCostUsdt + other.interestCostUsdt
  tradingFeeUsdt := a.tradingFeeUsdt + other.tradingFeeUsdt
  referenceTradingFeeUsdt := a.referenceTradingFeeUsdt + other.referenceTradingFeeUsdt
  decomposedMatchCount := a.decomposedMatchCount + other.decomposedMatchCount
  decomposedNotionalUsdt := a.decomposedNotionalUsdt + other.decomposedNotionalUsdt
  marketPnlUsdt := a.marketPnlUsdt + other.marketPnlUsdt
  executionPnlUsdt := a.executionPnlUsdt + other.executionPnlUsdt
  holdingNotionalMs := a.holdingNotionalMs + other.holdingNotionalMs
  positive := a.positive.add other.positive
  reverse := a.reverse.add other.reverse

def finish (a : SummaryAccumulator) (opened : OpenSummary) : IntraAnalysisSummary :=
  let grossPnlUsdt := a.realizedPnlUsdt + a.fundingPnlUsdt - a.interestCostUsdt
  { closedMatchCount := a.closedMatchCount
    winningMatchCount := a.winningMatchCount
    winRate := ratio a.winningMatchCount a.closedMatchCount
    matchedQuantity := cleanZero a.matchedQuantity
    matchedNotionalUsdt := cleanZero a.matchedNotionalUsdt
    realizedPnlUsdt := cleanZero a.realizedPnlUsdt
    returnBps := ratio a.realizedPnlUsdt a.matchedNotionalUsdt * 10000
    fundingPnlUsdt := cleanZero a.fundingPnlUsdt
    fundingReturnBps := ratio a.fundingPnlUsdt a.matchedNotionalUsdt * 10000
    interestCostUsdt := cleanZero a.interestCostUsdt
    interestCostReturnBps := ratio a.interestCostUsdt a.matchedNotionalUsdt * 10000
    grossPnlUsdt := cleanZero grossPnlUsdt
    grossReturnBps := ratio grossPnlUsdt a.matchedNotionalUsdt * 10000
    tradingFeeUsdt := cleanZero a.tradingFeeUsdt
    feeAfterPnlUsdt := cleanZero (grossPnlUsdt - a.tradingFeeUsdt)
    feeAfterReturnBps := ratio (grossPnlUsdt - a.tradingFeeUsdt) a.matchedNotionalUsdt * 10000
    referenceTradingFeeUsdt := cleanZero a.referenceTradingFeeUsdt
    referenceFeeAfterPnlUsdt := cleanZero (grossPnlUsdt - a.referenceTradingFeeUsdt)
    referenceFeeAfterReturnBps :=
      ratio (grossPnlUsdt - a.referenceTradingFeeUsdt) a.matchedNotionalUsdt * 10000
    decomposedMatchCount := a.decomposedMatchCount
    premiumCoverage := ratio a.decomposedMatchCount a.closedMatchCount
    decomposedNotionalUsdt := cleanZero a.decomposedNotionalUsdt
    marketPnlUsdt := cleanZero a.marketPnlUsdt
    executionPnlUsdt := cleanZero a.executionPnlUsdt
    marketReturnBps := ratio a.marketPnlUsdt a.decomposedNotionalUsdt * 10000
    executionReturnBps := ratio a.executionPnlUsdt a.decomposedNotionalUsdt * 10000
    averageHoldingMs := ratio a.holdingNotionalMs a.matchedNotionalUsdt
    positiveOpenLotCount := opened.positiveLotCount
    reverseOpenLotCount := opened.reverseLotCount
    positiveOpenQuantity := cleanZero opened.positiveQuantity
    reverseOpenQuantity := cleanZero opened.reverseQuantity
    positiveOpenNotionalUsdt := cleanZero opened.positiveNotionalUsdt
    reverseOpenNotionalUsdt := cleanZero opened.reverseNotionalUsdt
    positiveAverageBasisBps := ratio opened.positiveBasisNotionalBps opened.positiveNotionalUsdt
    reverseAverageBasisBps := ratio opened.reverseBasisNotionalBps opened.reverseNotionalUsdt
    positive := a.positive.finish
    reverse := a.reverse.finish }

end SummaryAccumulator

/-! ## Points -/

structure IntraAnalysisPoint where
  ts : ℤ := 0
  realizedPnlUsdt : ℚ := 0
  fundingPnlUsdt : ℚ := 0
  interestCostUsdt : ℚ := 0
  grossPnlUsdt : ℚ := 0
  tradingFeeUsdt : ℚ := 0
  feeAfterPnlUsdt : ℚ := 0
  referenceTradingFeeUsdt : ℚ := 0
  referenceFeeAfterPnlUsdt : ℚ := 0
  marketPnlUsdt : ℚ := 0
  executionPnlUsdt : ℚ := 0
  positiveGrossPnlUsdt : ℚ := 0
  reverseGrossPnlUsdt : ℚ := 0
  positiveFeeAfterPnlUsdt : ℚ := 0
  reverseFeeAfterPnlUsdt : ℚ := 0
  positiveReferenceFeeAfterPnlUsdt : ℚ := 0
  reverseReferenceFeeAfterPnlUsdt : ℚ := 0
  matchedNotionalUsdt : ℚ := 0
  closedMatchCount : ℕ := 0
  decomposedMatchCount : ℕ := 0
  deriving DecidableEq, Repr

def IntraAnalysisPoint.addDirectionClose (point : IntraAnalysisPoint) (direction : ArbDirection)
    (grossPnlUsdt tradingFeeUsdt referenceTradingFeeUsdt : ℚ) : IntraAnalysisPoint :=
  match direction with
  | .positive => { point with
      positiveGrossPnlUsdt := point.positiveGrossPnlUsdt + grossPnlUsdt
      positiveFeeAfterPnlUsdt := point.positiveFeeAfterPnlUsdt + (grossPnlUsdt - tradingFeeUsdt)
      positiveReferenceFeeAfterPnlUsdt :=
        point.positiveReferenceFeeAfterPnlUsdt + (grossPnlUsdt - referenceTradingFeeUsdt) }
  | .reverse => { point with
      reverseGrossPnlUsdt := point.reverseGrossPnlUsdt + grossPnlUsdt
      reverseFeeAfterPnlUsdt := point.reverseFeeAfterPnlUsdt + (grossPnlUsdt - tradingFeeUsdt)
      reverseReferenceFeeAfterPnlUsdt :=
        point.reverseReferenceFeeAfterPnlUsdt + (grossPnlUsdt - referenceTradingFeeUsdt) }

def pushOrReplacePoint (points : List IntraAnalysisPoint) (point : IntraAnalysisPoint) :
    List IntraAnalysisPoint :=
  if points.getLast?.map IntraAnalysisPoint.ts = some point.ts then points.dropLast ++ [point]
  else points ++ [point]

def ensureFinalPoint (points : List IntraAnalysisPoint) (endMs : ℤ) : List IntraAnalysisPoint :=
  if points.getLast?.map IntraAnalysisPoint.ts = some endMs then points
  else pushOrReplacePoint points { points.getLast?.getD {} with ts := endMs }

/-- Slot by slot; the last slot takes the last point. -/
def downsamplePoints (points : List IntraAnalysisPoint) (maxPoints : ℕ) :
    List IntraAnalysisPoint :=
  if points.length ≤ maxPoints then points
  else
    let last := points.length - 1
    let slots := maxPoints - 1
    (List.range maxPoints).map fun slot =>
      points.getD (if slot = slots then last else slot * last / slots) {}

end CryptoNav.Intra
