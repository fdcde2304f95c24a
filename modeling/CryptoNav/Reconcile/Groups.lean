import CryptoNav.History.Fields
import CryptoNav.Lib.Runs
import CryptoNav.Lib.Table

/-!
# Grouping fills

`reconcile_rocksdb` sums the fills of a window by market, symbol and side: those of PostgreSQL, those
of the orders that RocksDB keeps, and those of updates that belong to no order. The groups are equal
where the sums are, up to an absolute or a relative error.

The rows are those of the exports, already read: of the CSV files in the order they are read in, and
of the two Parquet files.

Sums are those of the program, `f64`s that are added in the order in which the rows are read,
and the tolerances of the comparison leave room for their rounding. Sides and markets that are
not known refuse the whole comparison. Which of the fills belong to the window is decided by
their times before they get here.
-/

set_option autoImplicit false

namespace CryptoNav.Reconcile

open CryptoNav.Lib
open CryptoNav.History.Raw (trim uppercase lowercase)

inductive Market where
  | spot
  | swap
  deriving DecidableEq, Repr

namespace Market

def fromSid (value : String) : Except String Market :=
  match value with
  | "1" => .ok .spot
  | "0" => .ok .swap
  | _ => .error s!"unsupported PostgreSQL sid {value.quote}"

def fromVenue (value : String) : Except String Market :=
  match value with
  | "BinanceMargin" | "BybitMargin" => .ok .spot
  | "BinanceFutures" | "BybitFutures" => .ok .swap
  | _ => .error s!"unsupported RocksDB trading_venue {value.quote}"

def fromAlignmentName (value : String) : Except String Market :=
  match value with
  | "spot" => .ok .spot
  | "swap" => .ok .swap
  | _ => .error s!"unsupported alignment exclusion market {value.quote}"

def asStr : Market → String
  | spot => "spot"
  | swap => "swap"

/-- The name of the variant. -/
def debug : Market → String
  | spot => "Spot"
  | swap => "Swap"

end Market

structure GroupKey where
  market : Market
  symbol : String
  side : String
  deriving DecidableEq

def GroupKey.rank (key : GroupKey) : ℕ ×ₗ String ×ₗ String :=
  toLex (key.market.ctorIdx, toLex (key.symbol, key.side))

theorem GroupKey.rank_injective : Function.Injective GroupKey.rank := by
  rintro ⟨market, symbol, side⟩ ⟨market', symbol', side'⟩ h
  have hpair := Prod.mk.inj (congrArg ofLex h)
  have hrest := Prod.mk.inj (congrArg ofLex hpair.2)
  have hmarket : market = market' := by
    cases market with
    | spot =>
      cases market' with
      | spot => rfl
      | swap => cases hpair.1
    | swap =>
      cases market' with
      | spot => cases hpair.1
      | swap => rfl
  cases hmarket
  cases hrest.1
  cases hrest.2
  rfl

instance : LinearOrder GroupKey := LinearOrder.lift' GroupKey.rank GroupKey.rank_injective

/-- The sum of a group. -/
structure Stat where
  group : GroupKey
  qty : Float := 0
  events : ℕ := 0
  orders : List String := []

abbrev Groups := Table Stat.group

def Groups.stat (groups : Groups) (key : GroupKey) : Stat := (groups.get key).getD { group := key }

def selectedSymbols (strategy : String) : Option (List String) :=
  if strategy = "binance_mm_alpha" then
    some ["BNBUSDT", "BTCUSDT", "DOGEUSDT", "ETHUSDT", "SOLUSDT", "XRPUSDT"]
  else none

def isSelected (symbols : Option (List String)) (symbol : String) : Bool :=
  symbols.all fun selected => selected.contains symbol

def normalizeSymbol (value : String) : Except String String :=
  let symbol := String.ofList ((uppercase (trim value)).toList.filter (· ≠ '-'))
  if symbol = "" then .error "empty symbol" else .ok symbol

def normalizeSide (value : String) : Except String String :=
  match lowercase (trim value) with
  | "buy" => .ok "buy"
  | "sell" => .ok "sell"
  | _ => .error s!"unsupported side {value.quote}"

def groupKey (market : Market) (symbol side : String) : Except String GroupKey := do
  let symbol ← normalizeSymbol symbol
  let side ← normalizeSide side
  return { market, symbol, side }

/-- An empty group where there was none. -/
def addStat (groups : Groups) (key : GroupKey) (qty : Float) (orderId : String) : Groups :=
  let stat := groups.stat key
  groups.put { group := stat.group, qty := stat.qty + qty, events := stat.events + 1
               orders := stat.orders.insert orderId }

/-! ## PostgreSQL -/

structure PgTradeRow where
  sid : String
  symbol : String
  id : String
  orderId : String
  side : String
  qty : Float
  ts : ℤ

/-- What is known of a trade that has been counted. -/
structure SeenTrade where
  market : Market
  symbol : String
  id : String
  key : GroupKey
  orderId : String
  qty : Float
  deriving DecidableEq

def pgRow (startMs endMs : ℤ) (symbols : Option (List String))
    (exclusions : List (Market × String)) (acc : Groups × List SeenTrade) (row : PgTradeRow) :
    Except String (Groups × List SeenTrade) :=
  let (groups, seen) := acc
  if row.ts < startMs ∨ row.ts > endMs then .ok acc
  else if !row.qty.isFinite then .error "non-finite PostgreSQL quantity"
  else if row.qty ≤ 0 then .ok acc
  else do
    let market ← Market.fromSid (trim row.sid)
    if exclusions.contains (market, row.orderId) then .ok acc
    else
      let key ← groupKey market row.symbol row.side
      if !isSelected symbols key.symbol then .ok acc
      else
        let trade : SeenTrade :=
          { market, symbol := key.symbol, id := row.id, key, orderId := row.orderId, qty := row.qty }
        match seen.find? fun other =>
            other.market = market && other.symbol = key.symbol && other.id = row.id with
        | some previous =>
          if previous = trade then .ok acc
          else .error (s!"conflicting PostgreSQL duplicate: ({market.debug}, " ++
            s!"{key.symbol.quote}, {row.id.quote})")
        | none => .ok (addStat groups key row.qty row.orderId, trade :: seen)

def pgGroups (rows : List PgTradeRow) (startMs endMs : ℤ) (symbols : Option (List String))
    (exclusions : List (Market × String)) : Except String Groups :=
  (rows.foldlM (pgRow startMs endMs symbols exclusions) (.empty, [])).map Prod.fst

/-! ## RocksDB -/

/-- The columns of `uniform_orders.parquet` that are read. -/
structure UniformRow where
  updateTs : ℤ
  symbol : String
  tradingVenue : String
  side : String
  amountUpdate : Float
  clientOrderId : ℤ

def uniformRow (startUs endUs : ℤ) (epsilon : Float) (symbols : Option (List String))
    (acc : Groups × List (GroupKey × ℤ)) (row : UniformRow) :
    Except String (Groups × List (GroupKey × ℤ)) :=
  let (groups, clientIds) := acc
  if row.updateTs < startUs ∨ row.updateTs > endUs then .ok acc
  else if !row.amountUpdate.isFinite then
    .error s!"non-finite uniform amount_update: {row.amountUpdate}"
  else if row.amountUpdate < -epsilon then
    .error s!"negative uniform amount_update: {row.amountUpdate}"
  else if row.amountUpdate ≤ epsilon then .ok acc
  else do
    let market ← Market.fromVenue row.tradingVenue
    let key ← groupKey market row.symbol row.side
    if !isSelected symbols key.symbol then .ok acc
    else .ok (addStat groups key row.amountUpdate (toString row.clientOrderId),
      (key, row.clientOrderId) :: clientIds)

/-- The groups, and the client ids of each. -/
def uniformGroups (rows : List UniformRow) (startUs endUs : ℤ) (epsilon : Float)
    (symbols : Option (List String)) : Except String (Groups × List (GroupKey × ℤ)) :=
  rows.foldlM (uniformRow startUs endUs epsilon symbols) (.empty, [])

/-- The columns of `trade_updates_unmatched.parquet`. -/
structure UnmatchedRow where
  eventTime : ℤ
  tradeTime : ℤ
  symbol : String
  orderId : ℤ
  clientOrderId : ℤ
  side : String
  tradingVenue : String
  cumulativeFilledQuantity : Float

/-- `K` is the type of quantities. -/
structure Observation (K : Type) where
  timestampUs : ℤ
  cumulativeQty : K

section Quantities

variable {K : Type} [OfNat K 0] [Max K] [Sub K] [LT K] [DecidableLT K]

/-- What an order has filled in a window, and in how many updates. -/
def summarizeUnmatched (observations : List (Observation K)) (startUs endUs : ℤ) (epsilon : K) :
    Option (K × ℕ) :=
  let observations := sortByKey Observation.timestampUs observations
  let baseline := ((observations.filter fun value => value.timestampUs < startUs).map
    Observation.cumulativeQty).foldl max 0
  let current := observations.filter fun value =>
    startUs ≤ value.timestampUs && value.timestampUs ≤ endUs
  if current = [] then none
  else
    let qty := (current.map Observation.cumulativeQty).foldl max baseline - baseline
    if qty > epsilon then some (qty, current.length) else none

end Quantities

structure UnmatchedSeries where
  market : Market
  symbol : String
  exchangeOrderId : ℤ
  group : GroupKey
  clientIds : List ℤ := []
  observations : List (Observation Float) := []

def UnmatchedSeries.key (series : UnmatchedSeries) : ℕ ×ₗ String ×ₗ ℤ :=
  toLex (series.market.ctorIdx, toLex (series.symbol, series.exchangeOrderId))

def unmatchedRow (endUs : ℤ) (epsilon : Float) (symbols : Option (List String))
    (series : Table UnmatchedSeries.key) (row : UnmatchedRow) :
    Except String (Table UnmatchedSeries.key) :=
  let timestampUs := if row.tradeTime > 0 then row.tradeTime else row.eventTime
  if timestampUs > endUs then .ok series
  else do
    let market ← Market.fromVenue row.tradingVenue
    let key ← groupKey market row.symbol row.side
    if !isSelected symbols key.symbol then .ok series
    else
      let qty := row.cumulativeFilledQuantity
      if !qty.isFinite then .error s!"non-finite unmatched cumulative quantity: {qty}"
      else if qty < -epsilon then .error s!"negative unmatched cumulative quantity: {qty}"
      else
        let fresh : UnmatchedSeries :=
          { market, symbol := key.symbol, exchangeOrderId := row.orderId, group := key }
        let value := (series.get fresh.key).getD fresh
        if value.group ≠ key then .error "unmatched order has inconsistent side"
        else .ok (series.put { value with
          clientIds := value.clientIds.insert row.clientOrderId
          observations := value.observations ++ [{ timestampUs, cumulativeQty := qty }] })

/-- An order that has a client id of the order's group is one of the orders. -/
def unmatchedOrder (startUs endUs : ℤ) (epsilon : Float) (uniformIds : List (GroupKey × ℤ))
    (acc : Groups × ℕ × ℕ) (values : UnmatchedSeries) : Groups × ℕ × ℕ :=
  let (groups, represented, unmatchedOnly) := acc
  match summarizeUnmatched values.observations startUs endUs epsilon with
  | none => acc
  | some (qty, events) =>
    if values.clientIds.any fun id => uniformIds.contains (values.group, id) then
      (groups, represented + 1, unmatchedOnly)
    else
      let stat := groups.stat values.group
      (groups.put { group := stat.group, qty := stat.qty + qty, events := stat.events + events
                    orders := stat.orders.insert (toString values.exchangeOrderId) },
        represented, unmatchedOnly + 1)

def unmatchedGroups (rows : List UnmatchedRow) (startUs endUs : ℤ) (epsilon : Float)
    (uniformIds : List (GroupKey × ℤ)) (symbols : Option (List String)) :
    Except String (Groups × ℕ × ℕ) :=
  (rows.foldlM (unmatchedRow endUs epsilon symbols) .empty).map fun series =>
    series.rows.foldl (unmatchedOrder startUs endUs epsilon uniformIds) (.empty, 0, 0)

/-! ## Comparison -/

inductive Status where
  | aligned
  | mismatch
  deriving DecidableEq

def Status.text : Status → String
  | aligned => "MATCH"
  | mismatch => "MISMATCH"

structure GroupReport where
  key : GroupKey
  pg : Stat
  uniform : Stat
  unmatched : Stat
  localQty : Float
  qtyDiff : Float
  status : Status

def quantitiesEqual (a b absEpsilon relEpsilon : Float) : Bool :=
  if !a.isFinite || !b.isFinite then false
  else
    let diff := (a - b).abs
    diff ≤ absEpsilon || diff ≤ relEpsilon * max a.abs b.abs

def compareGroup (pg uniform unmatched : Groups) (absEpsilon relEpsilon : Float) (key : GroupKey) :
    GroupReport :=
  let localQty := (uniform.stat key).qty + (unmatched.stat key).qty
  { key
    pg := pg.stat key
    uniform := uniform.stat key
    unmatched := unmatched.stat key
    localQty
    qtyDiff := localQty - (pg.stat key).qty
    status :=
      if quantitiesEqual localQty (pg.stat key).qty absEpsilon relEpsilon then .aligned
      else .mismatch }

def compareGroups (pg uniform unmatched : Groups) (absEpsilon relEpsilon : Float) :
    List GroupReport :=
  (sortedSet (pg.rows.map Stat.group ++ uniform.rows.map Stat.group ++
    unmatched.rows.map Stat.group)).map (compareGroup pg uniform unmatched absEpsilon relEpsilon)

/-- Every group is compared, none twice. -/
theorem compareGroups_keys (pg uniform unmatched : Groups) (absEpsilon relEpsilon : Float) :
    ((compareGroups pg uniform unmatched absEpsilon relEpsilon).map GroupReport.key).Nodup ∧
      ∀ key, key ∈ (compareGroups pg uniform unmatched absEpsilon relEpsilon).map GroupReport.key ↔
        (pg.get key).isSome ∨ (uniform.get key).isSome ∨ (unmatched.get key).isSome := by
  have hkeys : (compareGroups pg uniform unmatched absEpsilon relEpsilon).map GroupReport.key =
      sortedSet (pg.rows.map Stat.group ++ uniform.rows.map Stat.group ++
        unmatched.rows.map Stat.group) := by
    rw [compareGroups, List.map_map]
    exact List.map_id _
  have hmem : ∀ (groups : Groups) key, key ∈ groups.rows.map Stat.group ↔
      (groups.get key).isSome := by
    intro groups key
    rw [List.mem_map, Option.isSome_iff_exists]
    exact exists_congr fun stat => Table.get_eq_some.symm
  rw [hkeys]
  refine ⟨sortedSet_nodup _, fun key => ?_⟩
  rw [mem_sortedSet, List.mem_append, List.mem_append, hmem, hmem, hmem, or_assoc]

end CryptoNav.Reconcile
