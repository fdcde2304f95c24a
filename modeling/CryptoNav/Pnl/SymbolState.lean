import CryptoNav.Pnl.Fifo

/-!
# One symbol of the PnL engine

`SymbolState` of `pnl.rs`: a spot FIFO and a futures FIFO, two position counters, the last mark
and two cached snapshots, updated by four operations — seed, trade, funding, interest. The
operations are translated branch by branch, early returns and fallbacks included; a step that
fails leaves no state behind, because its caller gives up with `?`.

A `HashMap` keyed by symbol is a function to `Option` here: the engine only gets, inserts and
looks up by key, and never depends on the map's iteration order.

Texts of errors are the source's, since callers show them. Prices and quantities are exact
rationals, so what the source asks of `is_finite` is true here, and the checks that remain are
those of signs.
-/

set_option autoImplicit false

namespace CryptoNav.Pnl

inductive PnlSourceKind where
  | intra
  | fundingRate
  | marketMaking
  | futuresMarketMaking
  | cta
  deriving DecidableEq, Repr

inductive PositionLeg where
  | spot
  | futures
  deriving DecidableEq, Repr

structure NormalizedTrade where
  symbol : String
  side : Side
  leg : PositionLeg
  price : ℚ
  amountU : ℚ
  quantity : ℚ
  feeUsdt : Option ℚ
  ts : ℤ
  deriving DecidableEq, Repr

structure FundingEvent where
  symbol : String
  amountUsdt : ℚ
  ts : ℤ
  deriving DecidableEq, Repr

structure InterestEvent where
  symbol : String
  costUsdt : Option ℚ
  conversionPrice : Option ℚ
  spotQuantityDelta : ℚ
  ts : ℤ
  deriving DecidableEq, Repr

structure InitialPosition where
  symbol : String
  spotQuantity : ℚ
  futuresQuantity : ℚ
  markPrice : ℚ
  deriving DecidableEq, Repr

inductive PnlError where
  | fifo (error : FifoPnlError) (context : Option String)
  | message (text : String)
  deriving DecidableEq, Repr

/-- `?` on a FIFO result, with the `.context(..)` the call site adds. -/
def inContext {α : Type} (context : Option String) : Except FifoPnlError α → Except PnlError α
  | .ok a => .ok a
  | .error e => .error (.fifo e context)

/-- `f64::EPSILON`. -/
def f64Epsilon : ℚ := 1 / 2 ^ 52

def cleanZero (value : ℚ) : ℚ := if |value| < 1 / 10 ^ 12 then 0 else value

/-! ## The venue FIFO -/

structure VenuePnlSnapshot where
  grossRealizedPnl : ℚ := 0
  cumulativeFees : ℚ := 0
  realizedPnl : ℚ := 0
  floatingPnl : ℚ := 0
  totalPnl : ℚ := 0
  deriving DecidableEq, Repr

def PnlSnapshot.toVenue (s : PnlSnapshot) : VenuePnlSnapshot :=
  ⟨s.grossRealizedPnl, s.cumulativeFees, s.realizedPnl, s.floatingPnl, s.totalPnl⟩

def QuantityPnlSnapshot.toVenue (s : QuantityPnlSnapshot) : VenuePnlSnapshot :=
  ⟨s.grossRealizedPnl, s.cumulativeFees, s.realizedPnl, s.floatingPnl, s.totalPnl⟩

inductive VenueFifo where
  | amountU (fifo : FifoPnl)
  | quantity (fifo : QuantityFifoPnl)
  deriving DecidableEq, Repr

namespace VenueFifo

def forSource : PnlSourceKind → VenueFifo
  | .intra | .fundingRate | .cta | .futuresMarketMaking => .quantity {}
  | .marketMaking => .amountU {}

def applyFill (v : VenueFifo) (side : Side) (price amountU quantity fee : ℚ) :
    Except FifoPnlError VenueFifo :=
  match v with
  | .amountU fifo => (fifo.applyFill side price amountU fee).map fun r => .amountU r.2
  | .quantity fifo => (fifo.applyFill side price quantity fee).map .quantity

def snapshot (v : VenueFifo) (bid ask : ℚ) : Except FifoPnlError VenuePnlSnapshot :=
  match v with
  | .amountU fifo => (fifo.snapshot bid ask).map PnlSnapshot.toVenue
  | .quantity fifo => (fifo.snapshot bid ask).map QuantityPnlSnapshot.toVenue

def usesQuantity : VenueFifo → Bool
  | .amountU _ => false
  | .quantity _ => true

end VenueFifo

/-! ## The symbol state and its operations -/

structure SymbolState where
  spotFifo : VenueFifo := .amountU {}
  futuresFifo : VenueFifo := .amountU {}
  fundingPnlUsdt : ℚ := 0
  interestCostUsdt : ℚ := 0
  tradeCount : ℕ := 0
  volumeUsdt : ℚ := 0
  spotPositionQty : ℚ := 0
  futuresPositionQty : ℚ := 0
  markPrice : Option ℚ := none
  unconvertedFeeCount : ℕ := 0
  unconvertedInterestCount : ℕ := 0
  spotSnapshot : Option VenuePnlSnapshot := none
  futuresSnapshot : Option VenuePnlSnapshot := none
  deriving DecidableEq, Repr

/-- The side `seed_fifo` and `apply_interest` give a nonzero signed quantity. -/
def sideOf (quantity : ℚ) : Side := if 0 < quantity then .buy else .sell

def seedFifo (fifo : VenueFifo) (quantity markPrice : ℚ) : Except PnlError VenueFifo :=
  -- A quantity of at most one epsilon is dust: the FIFO is left alone.
  if |quantity| ≤ f64Epsilon then .ok fifo
  else inContext (some "seed venue FIFO from initial snapshot")
    (fifo.applyFill (sideOf quantity) markPrice (|quantity| * markPrice) |quantity| 0)

namespace SymbolState

def forSource (source : PnlSourceKind) : SymbolState :=
  { spotFifo := .forSource source, futuresFifo := .forSource source }

/-! The `match trade.leg` of `apply_trade` picks a FIFO, and later a position counter. -/

def fifo (s : SymbolState) : PositionLeg → VenueFifo
  | .spot => s.spotFifo
  | .futures => s.futuresFifo

def setFifo (s : SymbolState) (leg : PositionLeg) (fifo : VenueFifo) : SymbolState :=
  match leg with
  | .spot => { s with spotFifo := fifo }
  | .futures => { s with futuresFifo := fifo }

def positionQty (s : SymbolState) : PositionLeg → ℚ
  | .spot => s.spotPositionQty
  | .futures => s.futuresPositionQty

def addPosition (s : SymbolState) (leg : PositionLeg) (quantity : ℚ) : SymbolState :=
  match leg with
  | .spot => { s with spotPositionQty := s.spotPositionQty + quantity }
  | .futures => { s with futuresPositionQty := s.futuresPositionQty + quantity }

def snapshotOf (s : SymbolState) : PositionLeg → Option VenuePnlSnapshot
  | .spot => s.spotSnapshot
  | .futures => s.futuresSnapshot

/-- `self.mark_price = Some(price)` and both snapshots taken again at that price: the tail that
    every operation which prices the symbol shares. -/
def markAt (s : SymbolState) (price : ℚ) (spotContext futuresContext : Option String) :
    Except PnlError SymbolState := do
  let spot ← inContext spotContext (s.spotFifo.snapshot price price)
  let futures ← inContext futuresContext (s.futuresFifo.snapshot price price)
  return { s with markPrice := some price, spotSnapshot := some spot,
                  futuresSnapshot := some futures }

def seedPosition (s : SymbolState) (position : InitialPosition) : Except PnlError SymbolState := do
  if position.markPrice ≤ 0 then
    .error (.message s!"invalid initial mark price for {position.symbol}")
  else
    let spot ← seedFifo s.spotFifo position.spotQuantity position.markPrice
    let futures ← seedFifo s.futuresFifo position.futuresQuantity position.markPrice
    markAt { s with spotFifo := spot, futuresFifo := futures,
                    spotPositionQty := position.spotQuantity,
                    futuresPositionQty := position.futuresQuantity }
      position.markPrice none none

def applyTrade (s : SymbolState) (trade : NormalizedTrade) : Except PnlError SymbolState := do
  let fee := trade.feeUsdt.getD 0
  let s := { s with unconvertedFeeCount :=
    s.unconvertedFeeCount + if trade.feeUsdt.isNone then 1 else 0 }
  let fifo ← inContext (some "apply normalized trade to venue FIFO")
    ((s.fifo trade.leg).applyFill trade.side trade.price trade.amountU trade.quantity fee)
  let s := s.setFifo trade.leg fifo
  let s := { s with tradeCount := s.tradeCount + 1, volumeUsdt := s.volumeUsdt + trade.amountU }
  let s := s.addPosition trade.leg (trade.side.sign * trade.quantity)
  s.markAt trade.price (some "mark spot FIFO at the latest symbol trade price")
    (some "mark futures FIFO at the latest symbol trade price")

/-- The price an interest quantity is booked at: its own conversion price, else the price
    implied by a positive cost, else the last mark. -/
def interestPrice (s : SymbolState) (interest : InterestEvent) : Option ℚ :=
  (interest.conversionPrice.or
    ((interest.costUsdt.filter (0 < ·)).map (· / |interest.spotQuantityDelta|))).or s.markPrice

/-- The cost side of an interest event: booked when known, counted when not. -/
def bookInterestCost (s : SymbolState) (interest : InterestEvent) : SymbolState :=
  match interest.costUsdt with
  | some cost => { s with interestCostUsdt := s.interestCostUsdt + cost }
  | none => { s with unconvertedInterestCount := s.unconvertedInterestCount + 1 }

def applyInterest (s : SymbolState) (interest : InterestEvent) : Except PnlError SymbolState := do
  let delta := interest.spotQuantityDelta
  if delta ≠ 0 ∧ s.spotFifo.usesQuantity then
    match s.interestPrice interest with
    | none =>
      -- No price at all: neither the FIFO nor the quantity moves, only the cost is booked.
      return s.bookInterestCost interest
    | some price =>
      let fifo ← inContext (some "apply spot quantity adjustment to venue FIFO")
        (s.spotFifo.applyFill (sideOf delta) price (|delta| * price) |delta| 0)
      let s ← (s.setFifo .spot fifo).markAt price
        (some "mark spot FIFO at the interest conversion price")
        (some "mark futures FIFO at the interest conversion price")
      return (s.addPosition .spot delta).bookInterestCost interest
  else
    return (s.addPosition .spot delta).bookInterestCost interest

end SymbolState

/-! ## Metrics -/

structure Metrics where
  tradeCount : ℕ := 0
  volumeUsdt : ℚ := 0
  feeBeforePnlUsdt : ℚ := 0
  tradingFeeUsdt : ℚ := 0
  feeAfterPnlUsdt : ℚ := 0
  fundingPnlUsdt : ℚ := 0
  interestCostUsdt : ℚ := 0
  floatingPnlUsdt : ℚ := 0
  totalPnlUsdt : ℚ := 0
  openAmountUsdt : ℚ := 0
  spotPositionUsdt : ℚ := 0
  futuresPositionUsdt : ℚ := 0
  spotPositionQty : ℚ := 0
  futuresPositionQty : ℚ := 0
  unconvertedFeeCount : ℕ := 0
  unconvertedInterestCount : ℕ := 0
  deriving DecidableEq, Repr

def SymbolState.metrics (s : SymbolState) : Metrics :=
  let spot := s.spotSnapshot.getD {}
  let futures := s.futuresSnapshot.getD {}
  let markPrice := s.markPrice.getD 0
  let spotPositionUsdt := s.spotPositionQty * markPrice
  let futuresPositionUsdt := s.futuresPositionQty * markPrice
  { tradeCount := s.tradeCount
    volumeUsdt := s.volumeUsdt
    feeBeforePnlUsdt := spot.grossRealizedPnl + futures.grossRealizedPnl
    tradingFeeUsdt := spot.cumulativeFees + futures.cumulativeFees
    feeAfterPnlUsdt := spot.realizedPnl + futures.realizedPnl
    fundingPnlUsdt := s.fundingPnlUsdt
    interestCostUsdt := s.interestCostUsdt
    floatingPnlUsdt := spot.floatingPnl + futures.floatingPnl
    totalPnlUsdt := spot.totalPnl + futures.totalPnl + s.fundingPnlUsdt - s.interestCostUsdt
    openAmountUsdt := cleanZero (spotPositionUsdt + futuresPositionUsdt)
    spotPositionUsdt := spotPositionUsdt
    futuresPositionUsdt := futuresPositionUsdt
    spotPositionQty := s.spotPositionQty
    futuresPositionQty := s.futuresPositionQty
    unconvertedFeeCount := s.unconvertedFeeCount
    unconvertedInterestCount := s.unconvertedInterestCount }

/-! ## Events over the state map -/

inductive PnlEvent where
  | trade (trade : NormalizedTrade)
  | funding (funding : FundingEvent)
  | interest (interest : InterestEvent)
  deriving DecidableEq, Repr

def PnlEvent.ts : PnlEvent → ℤ
  | .trade value => value.ts
  | .funding value => value.ts
  | .interest value => value.ts

def PnlEvent.symbol : PnlEvent → String
  | .trade value => value.symbol
  | .funding value => value.symbol
  | .interest value => value.symbol

def PnlEvent.rank : PnlEvent → ℕ
  | .trade _ => 0
  | .funding _ => 1
  | .interest _ => 2

abbrev States := String → Option SymbolState

/-- The arm of `apply_event` that runs on the symbol's own state. -/
def SymbolState.applyEvent (s : SymbolState) : PnlEvent → Except PnlError SymbolState
  | .trade trade => s.applyTrade trade
  | .funding funding => .ok { s with fundingPnlUsdt := s.fundingPnlUsdt + funding.amountUsdt }
  | .interest interest => s.applyInterest interest

def applyEvent (states : States) (event : PnlEvent) : Except PnlError States := do
  match states event.symbol with
  | none => .error (.message "PnL event symbol is missing from state map")
  | some state =>
    let state ← state.applyEvent event
    return Function.update states event.symbol (some state)

/-- The state map before any event: one fresh state for each available symbol. -/
def initialStates (source : PnlSourceKind) (available : List String) : States :=
  fun symbol => if symbol ∈ available then some (.forSource source) else none

def seedInitial (states : States) (position : InitialPosition) : Except PnlError States := do
  match states position.symbol with
  | none => .error (.message "initial position symbol is missing from state map")
  | some state =>
    let state ← state.seedPosition position
    return Function.update states position.symbol (some state)

end CryptoNav.Pnl
