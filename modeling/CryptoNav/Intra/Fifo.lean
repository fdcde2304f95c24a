import CryptoNav.Intra.Accumulators
import CryptoNav.Lib.Clearing
import Mathlib.Data.List.Nodup

/-!
# The combination FIFO

The open lots of a symbol and the operations of `intra_analysis.rs` on them: an order closes lots
of the other direction from the front and opens a lot of what is left, funding is spread over the
open futures notional, and interest over the open spot notional of one side. A `Closing` holds
what the body of the matching loop works on; its local variables are the functions below.

Both sides of a symbol have a queue, and that one of them is always empty is no part of the data
but proved in `Intra.Lots`. A match that leaves at most one dust of a lot takes along all that
the lot carried of funding and interest; otherwise it takes a share in proportion. Fees are not
carried by lots: the fees of a symbol are spread over its matches by their notional.
-/

set_option autoImplicit false

namespace CryptoNav.Intra

open CryptoNav.Lib

structure OpenLot where
  fkey : ℤ
  direction : ArbDirection
  completedAtMs : ℤ
  spotPrice : ℚ
  futuresPrice : ℚ
  remainingQuantity : ℚ
  fundingPnlUsdt : ℚ := 0
  interestCostUsdt : ℚ := 0
  premium : Option PremiumIndexCandle
  deriving DecidableEq, Repr

namespace OpenLot

def basis (lot : OpenLot) : ℚ := lot.futuresPrice - lot.spotPrice

def basisBps (lot : OpenLot) : ℚ := lot.basis / lot.spotPrice * 10000

def marketBasis (lot : OpenLot) : Option ℚ := lot.premium.map (lot.spotPrice * ·.closeRate)

def executionEdgeBps (lot : OpenLot) : Option ℚ :=
  lot.premium.map (lot.basisBps - ·.closeRate * 10000)

def executionCaptureUsdt (lot : OpenLot) (quantity : ℚ) : Option ℚ :=
  lot.marketBasis.map fun marketBasis => quantity * lot.direction.sign * (lot.basis - marketBasis)

def futuresNotional (lot : OpenLot) : ℚ := lot.remainingQuantity * lot.futuresPrice

def spotNotional (lot : OpenLot) : ℚ := lot.remainingQuantity * lot.spotPrice

end OpenLot

/-! ## Closing lots -/

structure Closing where
  lot : OpenLot
  order : IntraAnalysisOrder
  matchedQuantity : ℚ
  /-- The fees of the symbol. -/
  fees : FeeAccumulator
  referenceFeeBps : ℚ
  deriving DecidableEq, Repr

namespace Closing

variable (c : Closing)

def matchedNotional : ℚ := c.matchedQuantity * (c.lot.spotPrice + c.order.spotPrice) / 2

def pnlUsdt : ℚ := c.matchedQuantity * c.lot.direction.sign * (c.lot.basis - c.order.basis)

/-- The part of what a lot carries that goes with this close. -/
def share (carried : ℚ) : ℚ :=
  if c.lot.remainingQuantity ≤ c.matchedQuantity + quantityEpsilon then carried
  else carried * c.matchedQuantity / c.lot.remainingQuantity

def fundingPnlUsdt : ℚ := c.share c.lot.fundingPnlUsdt

def interestCostUsdt : ℚ := c.share c.lot.interestCostUsdt

def grossPnlUsdt : ℚ := c.pnlUsdt + c.fundingPnlUsdt - c.interestCostUsdt

def marketPnlUsdt : Option ℚ :=
  match c.lot.marketBasis, c.order.marketBasis with
  | some openMarketBasis, some closeMarketBasis =>
    some (c.matchedQuantity * c.lot.direction.sign * (openMarketBasis - closeMarketBasis))
  | _, _ => none

def entryExecutionPnlUsdt : Option ℚ := c.lot.executionCaptureUsdt c.matchedQuantity

def exitExecutionPnlUsdt : Option ℚ :=
  c.order.marketBasis.map fun marketBasis =>
    c.matchedQuantity * c.order.direction.sign * (c.order.basis - marketBasis)

def executionPnlUsdt : Option ℚ :=
  match c.entryExecutionPnlUsdt, c.exitExecutionPnlUsdt with
  | some entry, some exit => some (entry + exit)
  | _, _ => none

def feeNotionalUsdt : ℚ :=
  c.matchedQuantity *
    (c.lot.spotPrice + c.lot.futuresPrice + c.order.spotPrice + c.order.futuresPrice)

def tradingFeeUsdt : ℚ := c.fees.allocatedActualFee c.feeNotionalUsdt

def referenceTradingFeeUsdt : ℚ := c.feeNotionalUsdt * c.referenceFeeBps / 10000

/-- `closed`. -/
def row : IntraClosedMatch where
  symbol := c.order.symbol
  openDirection := c.lot.direction
  openFkey := c.lot.fkey
  closeFkey := c.order.fkey
  openedAtMs := c.lot.completedAtMs
  closedAtMs := c.order.completedAtMs
  holdingMs := saturatingSub c.order.completedAtMs c.lot.completedAtMs
  quantity := c.matchedQuantity
  openSpotPrice := c.lot.spotPrice
  openFuturesPrice := c.lot.futuresPrice
  closeSpotPrice := c.order.spotPrice
  closeFuturesPrice := c.order.futuresPrice
  entryBasisBps := c.lot.basisBps
  exitBasisBps := c.order.basisBps
  entryPremiumBps := c.lot.premium.map (·.closeRate * 10000)
  exitPremiumBps := c.order.premium.map (·.closeRate * 10000)
  entryExecutionEdgeBps := c.lot.executionEdgeBps
  exitExecutionEdgeBps := c.order.executionEdgeBps
  marketPnlUsdt := c.marketPnlUsdt
  entryExecutionPnlUsdt := c.entryExecutionPnlUsdt
  exitExecutionPnlUsdt := c.exitExecutionPnlUsdt
  executionPnlUsdt := c.executionPnlUsdt
  fundingPnlUsdt := cleanZero c.fundingPnlUsdt
  interestCostUsdt := cleanZero c.interestCostUsdt
  grossPnlUsdt := cleanZero c.grossPnlUsdt
  feeNotionalUsdt := cleanZero c.feeNotionalUsdt
  tradingFeeUsdt := cleanZero c.tradingFeeUsdt
  referenceTradingFeeUsdt := cleanZero c.referenceTradingFeeUsdt
  feeAfterPnlUsdt := cleanZero (c.grossPnlUsdt - c.tradingFeeUsdt)
  referenceFeeAfterPnlUsdt := cleanZero (c.grossPnlUsdt - c.referenceTradingFeeUsdt)
  pnlUsdt := c.pnlUsdt
  returnBps := ratio c.pnlUsdt c.matchedNotional * 10000

/-- The lot after the close. -/
def lotAfter : OpenLot :=
  { c.lot with
    fundingPnlUsdt := cleanZero (c.lot.fundingPnlUsdt - c.fundingPnlUsdt)
    interestCostUsdt := cleanZero (c.lot.interestCostUsdt - c.interestCostUsdt)
    remainingQuantity := cleanQuantity (c.lot.remainingQuantity - c.matchedQuantity) }

end Closing

/-- What the matching loop leaves: its closes, what is left of the order, and the lots. -/
structure Closed where
  closings : List Closing
  remaining : ℚ
  lots : List OpenLot
  deriving DecidableEq, Repr

/-- The `while` loop over the lots of the other direction. A lot that survives its close has used
up the order, so the loop ends there: the next turn would find nothing left to close. -/
def closeLots (fees : FeeAccumulator) (referenceFeeBps : ℚ) (order : IntraAnalysisOrder) :
    ℚ → List OpenLot → Closed
  | remaining, [] => ⟨[], remaining, []⟩
  | remaining, lot :: lots =>
    if remaining ≤ quantityEpsilon then ⟨[], remaining, lot :: lots⟩
    else
      let c : Closing :=
        ⟨lot, order, min remaining lot.remainingQuantity, fees, referenceFeeBps⟩
      let remaining := cleanQuantity (remaining - c.matchedQuantity)
      if c.lotAfter.remainingQuantity ≤ quantityEpsilon then
        let r := closeLots fees referenceFeeBps order remaining lots
        ⟨c :: r.closings, r.remaining, r.lots⟩
      else ⟨[c], remaining, c.lotAfter :: lots⟩

/-! ## The state of a symbol -/

structure SymbolState where
  positive : List OpenLot := []
  reverse : List OpenLot := []
  stats : SummaryAccumulator := {}
  deriving DecidableEq, Repr

namespace SymbolState

def lots (state : SymbolState) : ArbDirection → List OpenLot
  | .positive => state.positive
  | .reverse => state.reverse

def setLots (state : SymbolState) (direction : ArbDirection) (lots : List OpenLot) : SymbolState :=
  match direction with
  | .positive => { state with positive := lots }
  | .reverse => { state with reverse := lots }

def openSummary (state : SymbolState) : OpenSummary :=
  let sumOver (value : OpenLot → ℚ) (lots : List OpenLot) := (lots.map value).sum
  { positiveLotCount := state.positive.length
    reverseLotCount := state.reverse.length
    positiveQuantity := sumOver OpenLot.remainingQuantity state.positive
    reverseQuantity := sumOver OpenLot.remainingQuantity state.reverse
    positiveNotionalUsdt := sumOver OpenLot.spotNotional state.positive
    reverseNotionalUsdt := sumOver OpenLot.spotNotional state.reverse
    positiveBasisNotionalBps :=
      sumOver (fun lot => lot.basisBps * lot.spotNotional) state.positive
    reverseBasisNotionalBps :=
      sumOver (fun lot => lot.basisBps * lot.spotNotional) state.reverse }

end SymbolState

/-- `OpenLot` of what is left of an order. -/
def IntraAnalysisOrder.lot (order : IntraAnalysisOrder) (remaining : ℚ) : OpenLot where
  fkey := order.fkey
  direction := order.direction
  completedAtMs := order.completedAtMs
  spotPrice := order.spotPrice
  futuresPrice := order.futuresPrice
  remainingQuantity := remaining
  premium := order.premium

/-- The lots after an order: those of the other direction that stay, and a lot of what is left. -/
def SymbolState.settle (state : SymbolState) (order : IntraAnalysisOrder) (closed : Closed) :
    SymbolState :=
  let state := state.setLots order.direction.opposite closed.lots
  if quantityEpsilon < closed.remaining then
    state.setLots order.direction (state.lots order.direction ++ [order.lot closed.remaining])
  else state

/-! ## Funding and interest -/

/-- `None` where the source returns `false`: no open futures notional. -/
def allocateFunding (state : SymbolState) (amountUsdt : ℚ) : Option SymbolState :=
  let totalFuturesNotional := ((state.positive ++ state.reverse).map OpenLot.futuresNotional).sum
  if totalFuturesNotional ≤ f64Epsilon then none
  else
    let allocate (lot : OpenLot) := { lot with
      fundingPnlUsdt :=
        lot.fundingPnlUsdt + amountUsdt * lot.futuresNotional / totalFuturesNotional }
    some { state with
      positive := state.positive.map allocate
      reverse := state.reverse.map allocate }

def spreadInterest (costUsdt totalSpotNotional : ℚ) (lots : List OpenLot) : List OpenLot :=
  lots.map fun lot => { lot with
    interestCostUsdt := lot.interestCostUsdt + costUsdt * lot.spotNotional / totalSpotNotional }

/-- `None` where nothing is allocated; else the states, and whether a selected symbol received
something. -/
def allocateInterest (available selected : List String) (states : String → SymbolState)
    (event : IntraAnalysisInterestEvent) : Option ((String → SymbolState) × Bool) :=
  match event.costUsdt.filter (f64Epsilon < ·) with
  | none => none
  | some costUsdt =>
    match event.symbol with
    | some symbol =>
      if symbol ∈ available then
        let state := states symbol
        let total := (state.reverse.map OpenLot.spotNotional).sum
        if total ≤ f64Epsilon then none
        else some (Function.update states symbol
          { state with reverse := spreadInterest costUsdt total state.reverse },
          decide (symbol ∈ selected))
      else none
    | none =>
      let total := ((available.flatMap fun symbol => (states symbol).positive).map
        OpenLot.spotNotional).sum
      if total ≤ f64Epsilon then none
      else some (fun symbol =>
        if symbol ∈ available then
          { states symbol with
            positive := spreadInterest costUsdt total (states symbol).positive }
        else states symbol,
        available.any fun symbol =>
          decide ((states symbol).positive ≠ []) && decide (symbol ∈ selected))

end CryptoNav.Intra
