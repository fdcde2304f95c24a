import CryptoNav.Lib.Clearing
import CryptoNav.Lib.RunningSum
import CryptoNav.Lib.Sorting
import CryptoNav.Lib.Table

/-!
# The matching engine

`MatchEngine` of `intra_order_match.rs`: Margin orders net against resting Margin orders of the
opposite side, Futures orders hedge them, both from the front of a FIFO queue for each symbol
and side. `orders` is iterated at the end of a run and is a table; the queues and the four
hedge maps are only read and written by key and are functions. Errors are the source's texts.

Quantities are finite numbers of type `f64`, and every sum, difference and product of them is
rounded (`Rounding.fl`); comparisons, minima and absolute values are exact. A theorem that names no
rounding is about exact arithmetic.

Rows that have been settled before a run are not loaded and are known to the engine by nothing
at all. Prices, limits and times are carried along and are read where the source reads them:
times order the queues, and prices make the notional of a hedge.
-/

set_option autoImplicit false

namespace CryptoNav.Matching

open CryptoNav.Lib

inductive Side where
  | buy
  | sell
  deriving DecidableEq, Repr

namespace Side

def parse (value : String) : Except String Side :=
  if value.map Char.toLower = "buy" then .ok .buy
  else if value.map Char.toLower = "sell" then .ok .sell
  else .error s!"unsupported order side {repr value}"

def opposite : Side → Side
  | .buy => .sell
  | .sell => .buy

end Side

inductive MatchingState where
  | pending
  | completed
  | netted
  | mixed
  deriving DecidableEq, Repr

structure MarginOrder where
  fkey : ℤ
  symbol : String
  side : Side
  cts : ℤ
  openUts : ℤ
  openMktTsUs : Option ℤ := none
  openNewTsUs : Option ℤ := none
  openTerminalTsUs : Option ℤ := none
  openTerminalTsLocalUs : Option ℤ := none
  hts : Option ℤ := none
  hedgeNewTsUs : Option ℤ := none
  hedgeTerminalTsUs : Option ℤ := none
  fts : Option ℤ := none
  closeCount : ℤ := 0
  price : ℚ
  amount : ℚ
  range : ℚ
  tlen : Option ℚ := none
  openFillAmount : ℚ
  remainingAmount : ℚ
  camount : ℚ := 0
  nettedAmount : ℚ := 0
  closeNotional : ℚ := 0
  matchingState : MatchingState := .pending
  openSourceTsUs : ℤ
  deriving DecidableEq, Repr

structure FuturesOrder where
  clientOrderId : ℤ
  mainFkey : Option ℤ
  symbol : String
  side : Side
  createTsUs : ℤ
  updateTsUs : ℤ
  newTsUs : Option ℤ
  terminalTsUs : Option ℤ
  fillTsUs : Option ℤ
  sourceTsUs : ℤ
  amount : ℚ
  cprice : Option ℚ
  eventCount : ℤ
  deriving DecidableEq, Repr

structure HedgeTiming where
  clientOrderId : ℤ
  createTsUs : ℤ
  newTsUs : Option ℤ
  terminalTsUs : Option ℤ
  sourceTsUs : ℤ
  deriving DecidableEq, Repr

def HedgeTiming.sortKey (t : HedgeTiming) : ℤ ×ₗ ℤ ×ₗ ℤ :=
  toLex (t.createTsUs, toLex (t.sourceTsUs, t.clientOrderId))

def FuturesOrder.timing (order : FuturesOrder) : HedgeTiming :=
  ⟨order.clientOrderId, order.createTsUs, order.newTsUs, order.terminalTsUs, order.sourceTsUs⟩

structure HedgeHistory where
  mainFkey : ℤ
  firstOrder : HedgeTiming
  lastFillTsUs : Option ℤ
  orderCount : ℤ
  deriving DecidableEq, Repr

inductive MatchEvent where
  | margin (order : MarginOrder)
  | futures (order : FuturesOrder)
  deriving DecidableEq, Repr

/-- The order in which pending Margin orders are queued. -/
def MarginOrder.queueKey (o : MarginOrder) : ℤ ×ₗ ℤ ×ₗ ℤ :=
  toLex (o.openUts, toLex (o.openSourceTsUs, o.fkey))

def MatchEvent.sortKey : MatchEvent → ℤ ×ₗ ℤ ×ₗ ℕ ×ₗ ℤ
  | .margin order => toLex (order.openUts, toLex (order.openSourceTsUs, toLex (0, order.fkey)))
  | .futures order =>
    toLex (order.createTsUs, toLex (order.sourceTsUs, toLex (1, order.clientOrderId)))

structure HedgeResult where
  order : FuturesOrder
  allocatedAmount : ℚ
  unallocatedAmount : ℚ
  anchorMatched : Bool
  deriving DecidableEq, Repr

/-! ## One order -/

namespace MarginOrder

def refreshState (o : MarginOrder) (ε : ℚ) : MarginOrder :=
  { o with matchingState :=
      if ε < o.remainingAmount then .pending
      else if ε < o.camount ∧ ε < o.nettedAmount then .mixed
      else if ε < o.camount then .completed
      else .netted }

/-- A Margin order as `apply_margin` inserts it: all of its fill is still to be matched. -/
def arrive (o : MarginOrder) : MarginOrder :=
  { o with remainingAmount := o.openFillAmount, matchingState := .pending }

def withTiming (o : MarginOrder) (timing : HedgeTiming) : MarginOrder :=
  { o with hts := some timing.createTsUs, hedgeNewTsUs := timing.newTsUs
           hedgeTerminalTsUs := timing.terminalTsUs }

def withFills (o : MarginOrder) (fts : Option ℤ) (closeCount : ℤ) : MarginOrder :=
  { o with fts, closeCount }

/-- What the netting loop does to each of its two orders. -/
def net [Rounding] (o : MarginOrder) (quantity ε : ℚ) : MarginOrder :=
  refreshState { o with
    remainingAmount := clampZero (Rounding.fl (o.remainingAmount - quantity)) ε
    nettedAmount := Rounding.fl (o.nettedAmount + quantity) } ε

/-- What the hedging loop does to the order at the front. -/
def close [Rounding] (o : MarginOrder) (quantity : ℚ) (cprice : Option ℚ) (ε : ℚ) : MarginOrder :=
  refreshState { o with
    remainingAmount := clampZero (Rounding.fl (o.remainingAmount - quantity)) ε
    camount := Rounding.fl (o.camount + quantity)
    closeNotional := match cprice with
      | none => o.closeNotional
      | some price => Rounding.fl (o.closeNotional + Rounding.fl (quantity * price)) } ε

end MarginOrder

/-! ## The engine -/

abbrev Orders := Table MarginOrder.fkey

structure MatchEngine where
  epsilon : ℚ
  orders : Orders := .empty
  queues : String × Side → List ℤ := fun _ => []
  firstHedgeTiming : ℤ → Option HedgeTiming := fun _ => none
  lastHedgeFillTsUs : ℤ → Option ℤ := fun _ => none
  hedgeOrderCounts : ℤ → Option ℤ := fun _ => none
  seenHedgeOrders : List (ℤ × ℤ) := []

/-- `self.orders[&fkey].remaining_amount`; the keys looked up are always present. -/
def remainingAt (orders : Orders) (fkey : ℤ) : ℚ :=
  (orders.get fkey).elim 0 MarginOrder.remainingAmount

/-- The `loop` of `apply_margin`, on the queue of the opposite side. -/
def netLoop [Rounding] (ε : ℚ) (fkey : ℤ) : Orders → List ℤ → Orders × List ℤ
  | orders, [] => (orders, [])
  | orders, other :: rest =>
    let newRemaining := remainingAt orders fkey
    if newRemaining ≤ ε then (orders, other :: rest)
    else
      let quantity := min newRemaining (remainingAt orders other)
      let orders := (orders.modify other (·.net quantity ε)).modify fkey (·.net quantity ε)
      if remainingAt orders other ≤ ε then netLoop ε fkey orders rest
      -- A front that stays queued has used up the new order: the next turn breaks.
      else (orders, other :: rest)

structure Allocation where
  remaining : ℚ
  anchorMatched : Bool
  orders : Orders
  queue : List ℤ

/-- The `while` loop of `apply_futures`. -/
def hedgeLoop [Rounding] (ε : ℚ) (order : FuturesOrder) : ℚ → Bool → Orders → List ℤ → Allocation
  | remaining, anchorMatched, orders, [] => ⟨remaining, anchorMatched, orders, []⟩
  | remaining, anchorMatched, orders, fkey :: rest =>
    if remaining ≤ ε then ⟨remaining, anchorMatched, orders, fkey :: rest⟩
    else
      let quantity := min remaining (remainingAt orders fkey)
      let orders := orders.modify fkey (·.close quantity order.cprice ε)
      let anchorMatched := anchorMatched || order.mainFkey = some fkey
      let remaining := clampZero (Rounding.fl (remaining - quantity)) ε
      if remainingAt orders fkey ≤ ε then
        hedgeLoop ε order remaining anchorMatched orders rest
      -- As above: the order is used up and the `while` ends.
      else ⟨remaining, anchorMatched, orders, fkey :: rest⟩

/-- Why both loops may end at a front that stays queued: it has used up what was left. -/
theorem used_up_of_stays [Rounding] {left size ε : ℚ} (hε : 0 ≤ ε)
    (hstays : ε < clampZero (Rounding.fl (size - min left size)) ε) :
    clampZero (Rounding.fl (left - min left size)) ε = 0 := by
  have hzero : clampZero 0 ε = 0 := by
    simpa using clampZero_self_sub 0 ε hε
  rcases min_choice left size with hm | hm
  · rw [hm, fl_sub_self, hzero]
  · rw [hm, fl_sub_self, hzero] at hstays
    exact absurd hstays (not_lt.mpr hε)

namespace MatchEngine

/-! ### Hedge metadata -/

def recordFirstHedgeTiming (e : MatchEngine) (mainFkey : ℤ) (incoming : HedgeTiming) :
    MatchEngine :=
  let timing := match e.firstHedgeTiming mainFkey with
    | none => incoming
    | some current => if incoming.sortKey < current.sortKey then incoming else current
  { e with
    firstHedgeTiming := Function.update e.firstHedgeTiming mainFkey (some timing)
    orders := e.orders.modify mainFkey (·.withTiming timing) }

/-- The maximum of the stored fill time and an incoming one. -/
def recordFill (fills : ℤ → Option ℤ) (mainFkey : ℤ) (fill : Option ℤ) : ℤ → Option ℤ :=
  match fill with
  | none => fills
  | some ts => Function.update fills mainFkey (some ((fills mainFkey).elim ts (max · ts)))

/-- `seen_hedge_orders.insert(..)` and the count it guards. -/
def countHedgeOrder (e : MatchEngine) (mainFkey clientOrderId : ℤ) : MatchEngine :=
  if (mainFkey, clientOrderId) ∈ e.seenHedgeOrders then e
  else { e with
    seenHedgeOrders := (mainFkey, clientOrderId) :: e.seenHedgeOrders
    hedgeOrderCounts := Function.update e.hedgeOrderCounts mainFkey
      (some ((e.hedgeOrderCounts mainFkey).getD 0 + 1)) }

def recordHedgeOrder (e : MatchEngine) (mainFkey : ℤ) (order : FuturesOrder) : MatchEngine :=
  let e := (e.recordFirstHedgeTiming mainFkey order.timing).countHedgeOrder mainFkey
    order.clientOrderId
  let e := { e with
    lastHedgeFillTsUs := recordFill e.lastHedgeFillTsUs mainFkey order.fillTsUs }
  { e with
    orders := e.orders.modify mainFkey
      (·.withFills (e.lastHedgeFillTsUs mainFkey) ((e.hedgeOrderCounts mainFkey).getD 0)) }

/-- The body of `seed_hedge_history`. -/
def seedOne (e : MatchEngine) (history : HedgeHistory) : MatchEngine :=
  let e := e.recordFirstHedgeTiming history.mainFkey history.firstOrder
  let count := max ((e.hedgeOrderCounts history.mainFkey).getD 0) history.orderCount
  let e := { e with
    hedgeOrderCounts := Function.update e.hedgeOrderCounts history.mainFkey (some count)
    lastHedgeFillTsUs := recordFill e.lastHedgeFillTsUs history.mainFkey history.lastFillTsUs }
  { e with
    orders := e.orders.modify history.mainFkey fun margin =>
      margin.withFills (e.lastHedgeFillTsUs history.mainFkey) (max margin.closeCount count) }

def seedHedgeHistory (e : MatchEngine) (history : List HedgeHistory) : MatchEngine :=
  history.foldl seedOne e

/-- The metadata a newly inserted Margin order takes over from the hedge maps. -/
def withHedgeMaps (e : MatchEngine) (order : MarginOrder) : MarginOrder :=
  let timed := (e.firstHedgeTiming order.fkey).elim order order.withTiming
  let fts := match e.lastHedgeFillTsUs order.fkey with
    | none => order.fts
    | some fts => some (order.fts.elim fts (max · fts))
  let closeCount := match e.hedgeOrderCounts order.fkey with
    | none => order.closeCount
    | some count => max order.closeCount count
  timed.withFills fts closeCount

/-! ### Building, applying -/

/-- The body of the loading loop of `new`. -/
def loadPending (e : MatchEngine) (order : MarginOrder) : Except String MatchEngine :=
  if order.remainingAmount ≤ e.epsilon then
    .error s!"non-pending order {order.fkey} loaded into pending snapshot"
  else if (e.orders.get order.fkey).isSome then
    .error s!"duplicate pending Margin fkey {order.fkey}"
  else
    let order := { order with matchingState := .pending }
    let key := (order.symbol, order.side)
    .ok { e with
      orders := e.orders.put order
      queues := Function.update e.queues key (e.queues key ++ [order.fkey])
      firstHedgeTiming := match order.hts with
        | none => e.firstHedgeTiming
        | some hts => Function.update e.firstHedgeTiming order.fkey
            (some ⟨0, hts, order.hedgeNewTsUs, order.hedgeTerminalTsUs, i64Min⟩)
      lastHedgeFillTsUs := match order.fts with
        | none => e.lastHedgeFillTsUs
        | some fts => Function.update e.lastHedgeFillTsUs order.fkey (some fts)
      hedgeOrderCounts := Function.update e.hedgeOrderCounts order.fkey (some order.closeCount) }
where
  /-- `i64::MIN`, the source time of a restored first hedge. -/
  i64Min : ℤ := -2 ^ 63

def new (pending : List MarginOrder) (epsilon : ℚ) : Except String MatchEngine :=
  if epsilon < 0 then .error "matching epsilon must be finite and non-negative"
  else (sortByKey MarginOrder.queueKey pending).foldlM loadPending { epsilon }

def applyMargin [Rounding] (e : MatchEngine) (order : MarginOrder) :
    Except String MatchEngine :=
  if order.openFillAmount ≤ e.epsilon then
    .error s!"Margin order {order.fkey} has no real fill"
  else if (e.orders.get order.fkey).isSome then
    .error s!"duplicate Margin fkey {order.fkey}"
  else
    let order := e.withHedgeMaps order.arrive
    let opposite := (order.symbol, order.side.opposite)
    let netted := netLoop e.epsilon order.fkey (e.orders.put order) (e.queues opposite)
    let queues := Function.update e.queues opposite netted.2
    let key := (order.symbol, order.side)
    .ok { e with
      orders := netted.1
      queues := if e.epsilon < remainingAt netted.1 order.fkey then
          Function.update queues key (queues key ++ [order.fkey])
        else queues }

def applyFutures [Rounding] (e : MatchEngine) (order : FuturesOrder) :
    Except String (MatchEngine × HedgeResult) :=
  if order.amount < -e.epsilon then
    .error s!"Futures order {order.clientOrderId} has invalid fill amount"
  else if e.epsilon < order.amount ∧ order.fillTsUs = none then
    .error s!"filled Futures order {order.clientOrderId} has no actual fill timestamp"
  else
    let e := order.mainFkey.elim e fun mainFkey => e.recordHedgeOrder mainFkey order
    let key := (order.symbol, order.side.opposite)
    let a := hedgeLoop e.epsilon order (max order.amount 0) (decide (order.amount ≤ e.epsilon))
      e.orders (e.queues key)
    .ok ({ e with orders := a.orders, queues := Function.update e.queues key a.queue },
      ⟨order, Rounding.fl (order.amount - a.remaining), a.remaining, a.anchorMatched⟩)

/-- One turn of the loop of `apply`, with the hedges pushed so far. -/
def applyEvent [Rounding] (s : MatchEngine × List HedgeResult) :
    MatchEvent → Except String (MatchEngine × List HedgeResult)
  | .margin order => (s.1.applyMargin order).map (·, s.2)
  | .futures order => (s.1.applyFutures order).map fun r => (r.1, s.2 ++ [r.2])

def apply [Rounding] (e : MatchEngine) (events : List MatchEvent) :
    Except String (MatchEngine × List HedgeResult) :=
  (sortByKey MatchEvent.sortKey events).foldlM applyEvent (e, [])

def intoOrders (e : MatchEngine) : List MarginOrder := e.orders.rows

end MatchEngine
end CryptoNav.Matching
