import Mathlib.Algebra.Order.Ring.Rat
import Mathlib.Data.Prod.Lex
import Mathlib.Data.String.Basic
import CryptoNav.Lib.RunningSum
import CryptoNav.Lib.Runs
import CryptoNav.Lib.Table

/-!
# Order lifecycles

`fold_frame` of `sync_intra_orders.rs`: the rows of an order are folded into one `Lifecycle`.
First events go by source time, the describing columns by `(update_ts, source)`, quantities add
up. Columns can be null; most nulls stop the fold at once, but the describing columns are only
read where they are taken over, so `OrderRow` keeps the outcome of reading them.

Quantities are `f64`. Their sums, and the products that are summed, are rounded: the fold is
written over a `Rounding`, and what a theorem says of a fold without naming one it says of exact
sums.
-/

set_option autoImplicit false

namespace CryptoNav.Sync

open CryptoNav.Lib

/-! ## Timestamps and statuses -/

def positiveTimestamp (value : ℤ) : Option ℤ := if 0 < value then some value else none

def firstPositiveTimestamp (current incoming : ℤ) : ℤ :=
  if 0 < current ∧ 0 < incoming then min current incoming
  else if 0 < incoming then incoming
  else current

def earliestOptionalTimestamp : Option ℤ → Option ℤ → Option ℤ
  | some current, some incoming => some (min current incoming)
  | current, incoming => current.or incoming

/-- The same with the maximum: how `last_fill_update_ts_us` grows. -/
def latestOptionalTimestamp : Option ℤ → Option ℤ → Option ℤ
  | some current, some incoming => some (max current incoming)
  | current, incoming => current.or incoming

def shouldReplaceFirstEvent (currentSource : Option ℤ) (incomingSource : ℤ) : Bool :=
  currentSource.elim true (incomingSource < ·)

def isTerminal (status : String) : Bool :=
  status.map Char.toUpper ∈
    ["FILLED", "CANCELED", "CANCELLED", "EXPIRED", "EXPIRED_IN_MATCH", "REJECTED"]

def fillUpdateTs (status : String) (amountUpdate : ℚ) (updateTs : ℤ) : Option ℤ :=
  if 0 < amountUpdate ∨ status.map Char.toUpper = "FILLED" then some updateTs else none

/-! ## Rows -/

/-- A row of a `uniform_orders` frame. -/
structure FrameRow where
  tsUs : Option ℤ
  clientOrderId : Option ℤ
  tradingVenue : Option String
  mktTs : Option ℤ
  createTs : Option ℤ
  updateTs : Option ℤ
  localTs : Option ℤ
  symbol : Option String
  side : Option String
  price : Option ℚ
  priceOffset : Option ℚ
  amountInit : Option ℚ
  amountUpdate : Option ℚ
  status : Option String
  fromKey : Option String
  deriving DecidableEq

/-- The columns that a lifecycle takes over from its latest row, all or none. -/
structure Descriptor where
  symbol : String
  side : String
  price : ℚ
  priceOffset : ℚ
  amountInit : ℚ
  status : String
  fromKey : String
  deriving DecidableEq, Inhabited

/-- The key of a lifecycle: venue and client order id. -/
abbrev OrderKey := String ×ₗ ℤ

/-- A row of one of the four venues, with the columns that are read of every row, and the
    outcome of reading the others. -/
structure OrderRow where
  venue : String
  clientOrderId : ℤ
  source : ℤ
  market : Option ℤ
  create : ℤ
  update : ℤ
  localTs : ℤ
  status : String
  fill : ℚ
  price : ℚ
  descriptor : Except String Descriptor

def required {α : Type} (column : String) : Option α → Except String α
  | some value => .ok value
  | none => .error s!"null {column}"

def FrameRow.readDescriptor (row : FrameRow) (price : ℚ) (status : String) :
    Except String Descriptor := do
  let symbol ← required "symbol" row.symbol
  let side ← required "side" row.side
  let priceOffset ← required "price_offset" row.priceOffset
  let amountInit ← required "amount_init" row.amountInit
  pure { symbol, side := side.map Char.toLower, price, priceOffset, amountInit, status
         fromKey := row.fromKey.getD "" }

def venues : List String := ["BinanceMargin", "BinanceFutures", "BybitMargin", "BybitFutures"]

/-- What `fold_frame` reads of a row before it looks for the lifecycle; rows of other venues are
    skipped. -/
def FrameRow.read (row : FrameRow) : Except String (Option OrderRow) := do
  let venue ← required "trading_venue" row.tradingVenue
  if venue ∉ venues then pure none
  else
    let clientOrderId ← required "client_order_id" row.clientOrderId
    let source ← required "ts_us" row.tsUs
    let market ← required "mkt_ts" row.mktTs
    let create ← required "create_ts" row.createTs
    let update ← required "update_ts" row.updateTs
    let localTs ← required "local_ts" row.localTs
    let status ← required "status" row.status
    let fill ← required "amount_update" row.amountUpdate
    if fill < 0 then .error s!"invalid amount_update {fill} for {venue}/{clientOrderId}"
    else
      let price ← required "price" row.price
      pure (some {
        venue, clientOrderId, source, create, update, localTs, status, fill, price
        market := positiveTimestamp market
        descriptor := row.readDescriptor price status })

namespace OrderRow

def key (r : OrderRow) : OrderKey := toLex (r.venue, r.clientOrderId)

def terminal (r : OrderRow) : Bool := isTerminal r.status

def newEvent (r : OrderRow) : Option ℤ :=
  if r.status.map Char.toUpper = "NEW" then positiveTimestamp r.update else none

def terminalEvent (r : OrderRow) : Option ℤ :=
  if r.terminal then positiveTimestamp r.update else none

def terminalLocal (r : OrderRow) : Option ℤ :=
  r.terminalEvent.bind fun _ => positiveTimestamp r.localTs

def fillUpdate (r : OrderRow) : Option ℤ := fillUpdateTs r.status r.fill r.update

/-- `amount_update * price` -/
def notional [Rounding] (r : OrderRow) : ℚ := Rounding.fl (r.fill * r.price)

end OrderRow

/-! ## Lifecycles -/

structure Lifecycle extends Descriptor where
  venue : String
  clientOrderId : ℤ
  firstSourceTsUs : ℤ
  lastSourceTsUs : ℤ
  mktTsUs : Option ℤ
  mktSourceTsUs : Option ℤ
  createTsUs : ℤ
  newTsUs : Option ℤ
  newSourceTsUs : Option ℤ
  updateTsUs : ℤ
  terminalTsUs : Option ℤ
  terminalTsLocalUs : Option ℤ
  terminalSourceTsUs : Option ℤ
  lastFillUpdateTsUs : Option ℤ
  filledAmount : ℚ
  fillNotional : ℚ
  eventCount : ℤ
  terminal : Bool
  deriving DecidableEq

namespace Lifecycle

def key (l : Lifecycle) : OrderKey := toLex (l.venue, l.clientOrderId)

/-- The lifecycle of a single row: the `Vacant` branch. -/
def first [Rounding] (r : OrderRow) (d : Descriptor) : Lifecycle where
  toDescriptor := d
  venue := r.venue
  clientOrderId := r.clientOrderId
  firstSourceTsUs := r.source
  lastSourceTsUs := r.source
  mktTsUs := r.market
  mktSourceTsUs := r.market.map fun _ => r.source
  createTsUs := r.create
  newTsUs := r.newEvent
  newSourceTsUs := r.newEvent.map fun _ => r.source
  updateTsUs := r.update
  terminalTsUs := r.terminalEvent
  terminalTsLocalUs := r.terminalLocal
  terminalSourceTsUs := r.terminalEvent.map fun _ => r.source
  lastFillUpdateTsUs := r.fillUpdate
  filledAmount := r.fill
  fillNotional := r.notional
  eventCount := 1
  terminal := r.terminal

/-- `previous_latest` is not later than the row. -/
def isLatest (l : Lifecycle) (r : OrderRow) : Bool :=
  toLex (l.updateTsUs, l.lastSourceTsUs) ≤ toLex (r.update, r.source)

/-- The terminal local time after a row. -/
def addTerminalLocal (l : Lifecycle) (r : OrderRow) : Option ℤ :=
  match r.terminalEvent with
  | none => l.terminalTsLocalUs
  | some incoming =>
    if shouldReplaceFirstEvent l.terminalSourceTsUs r.source then r.terminalLocal
    else if l.terminalTsUs = some incoming then
      earliestOptionalTimestamp l.terminalTsLocalUs r.terminalLocal
    else l.terminalTsLocalUs

/-- The `Occupied` branch up to its last `if`. -/
def absorb [Rounding] (l : Lifecycle) (r : OrderRow) : Lifecycle :=
  let market := r.market.isSome && shouldReplaceFirstEvent l.mktSourceTsUs r.source
  let new := r.newEvent.isSome && shouldReplaceFirstEvent l.newSourceTsUs r.source
  let terminal := r.terminalEvent.isSome && shouldReplaceFirstEvent l.terminalSourceTsUs r.source
  { l with
    firstSourceTsUs := min l.firstSourceTsUs r.source
    lastSourceTsUs := max l.lastSourceTsUs r.source
    createTsUs := firstPositiveTimestamp l.createTsUs r.create
    mktTsUs := if market then r.market else l.mktTsUs
    mktSourceTsUs := if market then some r.source else l.mktSourceTsUs
    newTsUs := if new then r.newEvent else l.newTsUs
    newSourceTsUs := if new then some r.source else l.newSourceTsUs
    terminalTsUs := if terminal then r.terminalEvent else l.terminalTsUs
    terminalTsLocalUs := l.addTerminalLocal r
    terminalSourceTsUs := if terminal then some r.source else l.terminalSourceTsUs
    filledAmount := Rounding.fl (l.filledAmount + r.fill)
    fillNotional := Rounding.fl (l.fillNotional + r.notional)
    eventCount := l.eventCount + 1
    terminal := l.terminal || r.terminal
    lastFillUpdateTsUs := latestOptionalTimestamp l.lastFillUpdateTsUs r.fillUpdate }

/-- A row that is the latest so far also describes the order. -/
def describe (l : Lifecycle) (r : OrderRow) (d : Descriptor) : Lifecycle :=
  { l with toDescriptor := d, updateTsUs := r.update }

/-- The `Occupied` branch. -/
def add [Rounding] (l : Lifecycle) (r : OrderRow) : Except String Lifecycle :=
  if l.isLatest r then r.descriptor.map ((l.absorb r).describe r)
  else .ok (l.absorb r)

end Lifecycle

/-! ## Folding -/

abbrev Lifecycles := Table Lifecycle.key

section

variable [Rounding]

/-- One row of an order. -/
def foldRow (stored : Option Lifecycle) (r : OrderRow) : Except String Lifecycle :=
  match stored with
  | none => r.descriptor.map (Lifecycle.first r)
  | some l => l.add r

/-- The rows of an order. -/
def foldRows (rows : List OrderRow) : Except String (Option Lifecycle) :=
  rows.foldlM (fun stored r => (foldRow stored r).map some) none

/-- `lifecycle.entry(key)` and its two branches. -/
def foldInto (lifecycle : Lifecycles) (r : OrderRow) : Except String Lifecycles :=
  (foldRow (lifecycle.get r.key) r).map lifecycle.put

def foldFrame (frame : List FrameRow) (lifecycle : Lifecycles) : Except String Lifecycles :=
  frame.foldlM (fun lifecycle row => do
    match ← row.read with
    | none => pure lifecycle
    | some r => foldInto lifecycle r) lifecycle

end

end CryptoNav.Sync
