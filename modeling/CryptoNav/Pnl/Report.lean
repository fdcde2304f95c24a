import CryptoNav.Lib.Sorting
import CryptoNav.Pnl.SymbolState

/-!
# What `calculate` reports

The rows and points of a `PnlResponse` and the pure functions that make them: the difference of
two metrics, the curve points, the fixed-interval resampling and the downsampling of a curve,
and the performance block with its rolling windows and drawdowns. `f64` values are exact
rationals; the two `f64::NEG_INFINITY` and `NaN` cases the code can meet are an `Option`.

Everything here is a function of numbers that were computed elsewhere, and no theorem says what
the numbers mean. The names of the fields are those of the JSON the page gets. `clean_zero`,
which turns tiny values into zero, is applied where the source applies it, row by row: that is
where sums of rows and totals come apart.
-/

set_option autoImplicit false

namespace CryptoNav.Pnl

open CryptoNav.Lib

def pnlTickIntervalMs : ℤ := 15 * 60 * 1000

def dayMs : ℤ := 24 * 60 * 60 * 1000

def yearMs : ℚ := 365 * dayMs

def rollingWindowsMs : List ℤ := [7 * dayMs, 30 * dayMs]

namespace PnlSourceKind

def adapterName : PnlSourceKind → String
  | .intra | .fundingRate => "spot_swap_history_v1"
  | .marketMaking => "market_making_futures_v1"
  | .futuresMarketMaking => "market_making_futures_qty"
  | .cta => "cta_futures_v1"

def interestIncluded (source : PnlSourceKind) (exchange : String) : Bool :=
  match source with
  | .fundingRate => exchange ∈ ["binance", "bybit", "gate", "bitget"]
  | .intra => exchange ∈ ["bybit", "gate"]
  | _ => false

def exposure (_ : PnlSourceKind) (spot futures : ℚ) : ℚ := spot + futures

end PnlSourceKind

/-! ## Summaries -/

structure PnlSummary where
  tradeCount : ℕ := 0
  volumeUsdt : ℚ := 0
  feeBeforePnlUsdt : ℚ := 0
  tradingFeeUsdt : ℚ := 0
  feeAfterPnlUsdt : ℚ := 0
  fundingPnlUsdt : ℚ := 0
  interestCostUsdt : ℚ := 0
  floatingPnlUsdt : ℚ := 0
  totalPnlUsdt : ℚ := 0
  returnBpsOnVolume : ℚ := 0
  openAmountUsdt : ℚ := 0
  unconvertedFeeCount : ℕ := 0
  unconvertedInterestCount : ℕ := 0
  deriving DecidableEq, Repr

structure SymbolPnlSummary where
  symbol : String
  pnl : PnlSummary
  deriving DecidableEq, Repr

def Metrics.difference (m baseline : Metrics) : PnlSummary :=
  let volume := m.volumeUsdt - baseline.volumeUsdt
  let total := m.totalPnlUsdt - baseline.totalPnlUsdt
  { tradeCount := m.tradeCount - baseline.tradeCount
    volumeUsdt := cleanZero volume
    feeBeforePnlUsdt := cleanZero (m.feeBeforePnlUsdt - baseline.feeBeforePnlUsdt)
    tradingFeeUsdt := cleanZero (m.tradingFeeUsdt - baseline.tradingFeeUsdt)
    feeAfterPnlUsdt := cleanZero (m.feeAfterPnlUsdt - baseline.feeAfterPnlUsdt)
    fundingPnlUsdt := cleanZero (m.fundingPnlUsdt - baseline.fundingPnlUsdt)
    interestCostUsdt := cleanZero (m.interestCostUsdt - baseline.interestCostUsdt)
    floatingPnlUsdt := cleanZero (m.floatingPnlUsdt - baseline.floatingPnlUsdt)
    totalPnlUsdt := cleanZero total
    returnBpsOnVolume := if f64Epsilon < |volume| then total / volume * 10000 else 0
    openAmountUsdt := cleanZero m.openAmountUsdt
    unconvertedFeeCount := m.unconvertedFeeCount - baseline.unconvertedFeeCount
    unconvertedInterestCount := m.unconvertedInterestCount - baseline.unconvertedInterestCount }

/-- The loop body of `aggregate_summary`. -/
def PnlSummary.add (total row : PnlSummary) : PnlSummary :=
  { total with
    tradeCount := total.tradeCount + row.tradeCount
    volumeUsdt := total.volumeUsdt + row.volumeUsdt
    feeBeforePnlUsdt := total.feeBeforePnlUsdt + row.feeBeforePnlUsdt
    tradingFeeUsdt := total.tradingFeeUsdt + row.tradingFeeUsdt
    feeAfterPnlUsdt := total.feeAfterPnlUsdt + row.feeAfterPnlUsdt
    fundingPnlUsdt := total.fundingPnlUsdt + row.fundingPnlUsdt
    interestCostUsdt := total.interestCostUsdt + row.interestCostUsdt
    floatingPnlUsdt := total.floatingPnlUsdt + row.floatingPnlUsdt
    totalPnlUsdt := total.totalPnlUsdt + row.totalPnlUsdt
    openAmountUsdt := total.openAmountUsdt + row.openAmountUsdt
    unconvertedFeeCount := total.unconvertedFeeCount + row.unconvertedFeeCount
    unconvertedInterestCount := total.unconvertedInterestCount + row.unconvertedInterestCount }

def aggregateSummary (symbols : List SymbolPnlSummary) (selected : List String) : PnlSummary :=
  let total := ((symbols.filter (·.symbol ∈ selected)).map SymbolPnlSummary.pnl).foldl
    PnlSummary.add {}
  { total with
    returnBpsOnVolume :=
      if f64Epsilon < |total.volumeUsdt| then total.totalPnlUsdt / total.volumeUsdt * 10000 else 0 }

/-! ## Points -/

structure PnlPoint where
  ts : ℤ
  feeBeforePnlUsdt : ℚ := 0
  feeAfterPnlUsdt : ℚ := 0
  fundingPnlUsdt : ℚ := 0
  interestCostUsdt : ℚ := 0
  floatingPnlUsdt : ℚ := 0
  totalPnlUsdt : ℚ := 0
  spotPositionUsdt : ℚ := 0
  futuresPositionUsdt : ℚ := 0
  exposureUsdt : ℚ := 0
  spotPositionQty : ℚ := 0
  futuresPositionQty : ℚ := 0
  exposureQty : ℚ := 0
  deriving DecidableEq, Repr

/-- `states.get(symbol).map(SymbolState::metrics).unwrap_or_default()`. -/
def metricsOf (states : States) (symbol : String) : Metrics :=
  ((states symbol).map SymbolState.metrics).getD {}

/-- The loop body of `aggregate_point`, and with `ts` and zeros the point of one symbol. -/
def PnlPoint.add (point : PnlPoint) (source : PnlSourceKind) (current baseline : Metrics) :
    PnlPoint :=
  { point with
    feeBeforePnlUsdt := point.feeBeforePnlUsdt
      + (current.feeBeforePnlUsdt - baseline.feeBeforePnlUsdt)
    feeAfterPnlUsdt := point.feeAfterPnlUsdt + (current.feeAfterPnlUsdt - baseline.feeAfterPnlUsdt)
    fundingPnlUsdt := point.fundingPnlUsdt + (current.fundingPnlUsdt - baseline.fundingPnlUsdt)
    interestCostUsdt := point.interestCostUsdt
      + (current.interestCostUsdt - baseline.interestCostUsdt)
    floatingPnlUsdt := point.floatingPnlUsdt + (current.floatingPnlUsdt - baseline.floatingPnlUsdt)
    totalPnlUsdt := point.totalPnlUsdt + (current.totalPnlUsdt - baseline.totalPnlUsdt)
    spotPositionUsdt := point.spotPositionUsdt + current.spotPositionUsdt
    futuresPositionUsdt := point.futuresPositionUsdt + current.futuresPositionUsdt
    exposureUsdt := point.exposureUsdt
      + source.exposure current.spotPositionUsdt current.futuresPositionUsdt
    spotPositionQty := point.spotPositionQty + current.spotPositionQty
    futuresPositionQty := point.futuresPositionQty + current.futuresPositionQty
    exposureQty := point.exposureQty
      + source.exposure current.spotPositionQty current.futuresPositionQty }

def PnlPoint.clean (point : PnlPoint) : PnlPoint :=
  { ts := point.ts
    feeBeforePnlUsdt := cleanZero point.feeBeforePnlUsdt
    feeAfterPnlUsdt := cleanZero point.feeAfterPnlUsdt
    fundingPnlUsdt := cleanZero point.fundingPnlUsdt
    interestCostUsdt := cleanZero point.interestCostUsdt
    floatingPnlUsdt := cleanZero point.floatingPnlUsdt
    totalPnlUsdt := cleanZero point.totalPnlUsdt
    spotPositionUsdt := cleanZero point.spotPositionUsdt
    futuresPositionUsdt := cleanZero point.futuresPositionUsdt
    exposureUsdt := cleanZero point.exposureUsdt
    spotPositionQty := cleanZero point.spotPositionQty
    futuresPositionQty := cleanZero point.futuresPositionQty
    exposureQty := cleanZero point.exposureQty }

def aggregatePoint (ts : ℤ) (states : States) (baselines : String → Metrics)
    (selected : List String) (source : PnlSourceKind) : PnlPoint :=
  let point := selected.foldl
    (fun (point : PnlPoint) symbol => point.add source (metricsOf states symbol) (baselines symbol))
    { ts }
  point.clean

def symbolPoint (ts : ℤ) (symbol : String) (states : States) (baselines : String → Metrics)
    (source : PnlSourceKind) : PnlPoint :=
  (({ ts } : PnlPoint).add source (metricsOf states symbol) (baselines symbol)).clean

def selectedTotalPnl (states : States) (selected : List String) : ℚ :=
  (selected.map fun symbol => (metricsOf states symbol).totalPnlUsdt).sum

def pushOrReplacePoint (points : List PnlPoint) (point : PnlPoint) : List PnlPoint :=
  if (points.getLast?.map PnlPoint.ts) = some point.ts then points.dropLast ++ [point]
  else points ++ [point]

/-! ## Resampling and downsampling -/

def i64Max : ℤ := 2 ^ 63 - 1

def i64Min : ℤ := -2 ^ 63

/-- The clamp of `saturating_add` and `saturating_mul` on `i64`. -/
def saturate (value : ℤ) : ℤ := max i64Min (min i64Max value)

/-- The inner `while` of `push_at`: walk to the last source point at or before `ts`. -/
def advanceTo (ts : ℤ) (current : PnlPoint) : List PnlPoint → PnlPoint × List PnlPoint
  | [] => (current, [])
  | next :: rest => if next.ts ≤ ts then advanceTo ts next rest else (current, next :: rest)

/-- The `while tick_ms < end_ms` loop, one `push_at` a tick. A tick moves by the interval until
    `i64` saturates, so the capacity the source reserves bounds the number of ticks. -/
def resampleTicks (endMs intervalMs : ℤ) : ℕ → ℤ → PnlPoint → List PnlPoint →
    List PnlPoint × PnlPoint × List PnlPoint
  | 0, _, current, rest => ([], current, rest)
  | fuel + 1, tickMs, current, rest =>
    if tickMs < endMs then
      let (current, rest) := advanceTo tickMs current rest
      let current := { current with ts := tickMs }
      let nextTickMs := saturate (tickMs + intervalMs)
      if nextTickMs = tickMs then ([current], current, rest)
      else
        let (sampled, last) := resampleTicks endMs intervalMs fuel nextTickMs current rest
        (current :: sampled, last)
    else ([], current, rest)

def resampleFixedInterval (points : List PnlPoint) (startMs endMs intervalMs : ℤ) :
    List PnlPoint :=
  match points with
  | [] => []
  | first :: rest =>
    if intervalMs ≤ 0 ∨ endMs < startMs then points
    else
      let capacity := ((endMs - startMs) / intervalMs + 2).toNat
      let (current, rest) := advanceTo startMs first rest
      let start := { current with ts := startMs }
      let tickMs := saturate (saturate (startMs / intervalMs + 1) * intervalMs)
      let (ticks, current, rest) := resampleTicks endMs intervalMs capacity tickMs start rest
      if startMs < endMs then
        let (current, _) := advanceTo endMs current rest
        start :: ticks ++ [{ current with ts := endMs }]
      else start :: ticks

/-- `slice.chunks(size)`: consecutive chunks of `size` elements, the last one shorter. -/
def chunks {α : Type} (size : ℕ) : ℕ → List α → List (List α)
  | 0, _ => []
  | _ + 1, [] => []
  | fuel + 1, a :: l => (a :: l).take size :: chunks size fuel ((a :: l).drop size)

/-- `iter().min_by(..)`: the first of the least elements. -/
def minBy {α : Type} (value : α → ℚ) : List α → Option α
  | [] => none
  | a :: l => some (l.foldl (fun least b => if value b < value least then b else least) a)

/-- `iter().max_by(..)`: the last of the greatest elements. -/
def maxBy {α : Type} (value : α → ℚ) : List α → Option α
  | [] => none
  | a :: l => some (l.foldl (fun greatest b => if value greatest ≤ value b then b else greatest) a)

def valueSelectors : List (PnlPoint → ℚ) :=
  [PnlPoint.totalPnlUsdt, PnlPoint.spotPositionUsdt, PnlPoint.futuresPositionUsdt,
    PnlPoint.exposureUsdt]

/-- One bucket of `downsample_extrema`: the extrema of each plotted value, in time order, one
    point for each timestamp. -/
def bucketExtrema (bucket : List PnlPoint) : List PnlPoint :=
  (sortByKey PnlPoint.ts (valueSelectors.flatMap fun value =>
    (minBy value bucket).toList ++ (maxBy value bucket).toList)).destutter fun a b => a.ts ≠ b.ts

def downsampleExtrema (points : List PnlPoint) (maxPoints : ℕ) : List PnlPoint :=
  if points.length ≤ maxPoints ∨ maxPoints < 10 then points
  else
    let interior := (points.drop 1).dropLast
    let bucketCount := max ((maxPoints - 2) / (valueSelectors.length * 2)) 1
    let bucketSize := (interior.length + bucketCount - 1) / bucketCount
    points.head?.toList ++ (chunks bucketSize interior.length interior).flatMap bucketExtrema
      ++ points.getLast?.toList

/-! ## Performance -/

structure RollingWindowPnl where
  windowMs : ℤ
  coveredMs : ℤ
  pnlUsdt : ℚ
  annualizedReturn : Option ℚ
  deriving DecidableEq, Repr

structure PnlPerformance where
  principalUsdt : Option ℚ
  rolling7d : Option RollingWindowPnl
  rolling30d : Option RollingWindowPnl
  maxDrawdownUsdt : ℚ
  maxDrawdownRatio : Option ℚ
  currentDrawdownUsdt : ℚ
  currentDrawdownRatio : Option ℚ
  deriving DecidableEq, Repr

/-- The accumulators of the drawdown loop; `none` is the initial `f64::NEG_INFINITY` peak. -/
structure Drawdown where
  peakRelative : Option ℚ := none
  maxUsdt : ℚ := 0
  maxRatio : ℚ := 0
  deriving DecidableEq, Repr

def Drawdown.step (principal : Option ℚ) (endRelative : ℚ) (d : Drawdown) (point : PnlPoint) :
    Drawdown :=
  let peak := (d.peakRelative.map (max · point.totalPnlUsdt)).getD point.totalPnlUsdt
  let drawdown := peak - point.totalPnlUsdt
  let ratio := match principal with
    | some principal =>
      let peakNav := principal + peak - endRelative
      if 0 < peakNav then max d.maxRatio (drawdown / peakNav) else d.maxRatio
    | none => d.maxRatio
  { peakRelative := some peak, maxUsdt := max d.maxUsdt drawdown, maxRatio := ratio }

/-- The `rolling` closure of `build_performance`. -/
def rollingWindow (strategyStartMs endMs : ℤ) (principal : Option ℚ)
    (boundaryPnl : List (ℤ × ℚ)) (endTotalPnl : ℚ) (windowMs : ℤ) : Option RollingWindowPnl := do
  let boundary := endMs - windowMs
  let coveredMs := endMs - max boundary strategyStartMs
  if coveredMs ≤ 0 then none
  else
    let basePnl ←
      if strategyStartMs ≤ boundary then (boundaryPnl.find? (·.1 = boundary)).map (·.2)
      else some 0
    let pnlUsdt := cleanZero (endTotalPnl - basePnl)
    return { windowMs, coveredMs, pnlUsdt
             annualizedReturn := principal.map fun principal =>
               pnlUsdt / principal * (yearMs / coveredMs) }

def buildPerformance (strategyStartMs endMs : ℤ) (principalUsdt : Option ℚ)
    (points : List PnlPoint) (boundaryPnl : List (ℤ × ℚ)) (endTotalPnl : ℚ) : PnlPerformance :=
  let principal := principalUsdt.filter (0 < ·)
  let endRelative := (points.getLast?.map PnlPoint.totalPnlUsdt).getD 0
  let d := points.foldl (Drawdown.step principal endRelative) {}
  let currentDrawdownUsdt := max ((d.peakRelative.map (· - endRelative)).getD 0) 0
  let currentDrawdownRatio := do
    let principal ← principal
    let peakRelative ← d.peakRelative
    let peakNav := principal + peakRelative - endRelative
    if 0 < peakNav then some (currentDrawdownUsdt / peakNav) else none
  let rolling := rollingWindow strategyStartMs endMs principal boundaryPnl endTotalPnl
  { principalUsdt := principal
    rolling7d := rolling (7 * dayMs)
    rolling30d := rolling (30 * dayMs)
    maxDrawdownUsdt := cleanZero d.maxUsdt
    maxDrawdownRatio := principal.map fun _ => cleanZero d.maxRatio
    currentDrawdownUsdt := cleanZero currentDrawdownUsdt
    currentDrawdownRatio := currentDrawdownRatio.map cleanZero }

end CryptoNav.Pnl
