import CryptoNav.Pnl.Report
import Mathlib.Algebra.BigOperators.Group.List.Basic
import Mathlib.Data.List.Perm.Basic
import Mathlib.Data.Prod.Lex
import Mathlib.Data.String.Basic

/-!
# `calculate`

The windowed PnL of `pnl.rs`: seed, apply every event before the window, take the baselines,
apply the events of the window while drawing the curves, and report the differences. The two
event loops share one state map and one queue of rolling boundaries; `Walk` is what they carry.

## The order of a set

The selected symbols are a `HashSet`, whose order is another one in each call. `calculateIn` is
told that order. The sums over the set are sums of exact rationals here, so that it does not matter
(`calculateIn_eq`), and `calculate` is the run in which the set is walked as the symbols are listed.
The code adds `f64`s: there the order shows in the last places of a sum.

The inputs are those that the server loads; the SQL is left out, and with it the question
whether two requests load the same.
-/

set_option autoImplicit false

namespace CryptoNav.Pnl

open CryptoNav.Lib

structure PnlInputs where
  trades : List NormalizedTrade := []
  funding : List FundingEvent := []
  interest : List InterestEvent := []
  initialPositions : List InitialPosition := []
  deriving DecidableEq, Repr

structure PnlCalculation where
  source : PnlSourceKind
  exchange : String
  strategyStartMs : ℤ
  startMs : ℤ
  endMs : ℤ
  selectedSymbols : List String := []
  maxPoints : ℕ
  initialSnapshotTsMs : Option ℤ := none
  skippedInitialPositionCount : ℕ := 0
  principalUsdt : Option ℚ := none
  deriving DecidableEq, Repr

structure SymbolPnlSeries where
  symbol : String
  points : List PnlPoint
  deriving DecidableEq, Repr

structure PnlSourceInfo where
  adapter : String
  loadedTradeRows : ℕ
  loadedFundingRows : ℕ
  loadedInterestRows : ℕ
  returnedPoints : ℕ
  returnedSymbolPoints : ℕ
  sampled : Bool
  interestIncluded : Bool
  initialSnapshotTsMs : Option ℤ
  initialPositionCount : ℕ
  skippedInitialPositionCount : ℕ
  deriving DecidableEq, Repr

structure PnlResponse where
  strategyStartMs : ℤ
  startMs : ℤ
  endMs : ℤ
  selectedSymbols : List String
  availableSymbols : List String
  summary : PnlSummary
  symbols : List SymbolPnlSummary
  points : List PnlPoint
  symbolPoints : List SymbolPnlSeries
  source : PnlSourceInfo
  performance : PnlPerformance
  deriving DecidableEq, Repr

/-! ## The inputs, ordered -/

namespace PnlInputs

def events (inputs : PnlInputs) : List PnlEvent :=
  inputs.trades.map .trade ++ inputs.funding.map .funding ++ inputs.interest.map .interest

/-- The events in the order both loops apply them: by time, then rank, then symbol, and inputs
    that tie on all three in the order they came. -/
def sortedEvents (inputs : PnlInputs) : List PnlEvent :=
  sortByKey (fun event => toLex (event.ts, toLex (event.rank, event.symbol))) inputs.events

def availableSymbols (inputs : PnlInputs) : List String :=
  sortedSet (inputs.initialPositions.map InitialPosition.symbol ++
    inputs.trades.map NormalizedTrade.symbol ++ inputs.funding.map FundingEvent.symbol ++
    inputs.interest.map InterestEvent.symbol)

end PnlInputs

def selectSymbols (available requested : List String) : List String :=
  if requested = [] then available
  else
    (((requested.map (·.map Char.toUpper)).filter (· ∈ available)).insertionSort
      (· ≤ ·)).destutter (· ≠ ·)

/-! ## The walk over the events -/

structure Walk where
  states : States
  /-- `rolling_boundaries[next_boundary..]`. -/
  boundaries : List ℤ
  boundaryPnl : List (ℤ × ℚ) := []

namespace Walk

/-- The `while` loops that push every pending boundary before `ts` at the current total. -/
def captureBefore (w : Walk) (selected : List String) (ts : ℤ) : Walk :=
  { w with
    boundaries := w.boundaries.dropWhile (· < ts)
    boundaryPnl := w.boundaryPnl ++
      (w.boundaries.takeWhile (· < ts)).map (·, selectedTotalPnl w.states selected) }

/-- The last `while`: whatever boundaries are left take the final total. -/
def captureRest (w : Walk) (selected : List String) : List (ℤ × ℚ) :=
  w.boundaryPnl ++ w.boundaries.map (·, selectedTotalPnl w.states selected)

def apply (selected : List String) (w : Walk) (event : PnlEvent) : Except PnlError Walk := do
  let w := w.captureBefore selected event.ts
  let states ← applyEvent w.states event
  return { w with states }

end Walk

/-- The second loop also draws: one aggregate curve, and one curve for each selected symbol. -/
structure Drawing where
  walk : Walk
  points : List PnlPoint
  pointsBySymbol : String → List PnlPoint

namespace Drawing

def start (request : PnlCalculation) (selected : List String) (walk : Walk) : Drawing :=
  let baselines := metricsOf walk.states
  { walk
    points := [aggregatePoint request.startMs walk.states baselines selected request.source]
    pointsBySymbol := fun symbol =>
      if symbol ∈ selected then
        [symbolPoint request.startMs symbol walk.states baselines request.source]
      else [] }

def apply (source : PnlSourceKind) (selected : List String) (baselines : String → Metrics)
    (d : Drawing) (event : PnlEvent) : Except PnlError Drawing := do
  let walk ← d.walk.apply selected event
  if event.symbol ∈ selected then
    return {
      walk
      points := pushOrReplacePoint d.points
        (aggregatePoint event.ts walk.states baselines selected source)
      pointsBySymbol := Function.update d.pointsBySymbol event.symbol
        (pushOrReplacePoint (d.pointsBySymbol event.symbol)
          (symbolPoint event.ts event.symbol walk.states baselines source)) }
  else return { d with walk }

/-- The points of `end_ms`, pushed after the loop. -/
def finish (d : Drawing) (request : PnlCalculation) (selected : List String)
    (baselines : String → Metrics) : Drawing :=
  { d with
    points := pushOrReplacePoint d.points
      (aggregatePoint request.endMs d.walk.states baselines selected request.source)
    pointsBySymbol := fun symbol =>
      if symbol ∈ selected then
        pushOrReplacePoint (d.pointsBySymbol symbol)
          (symbolPoint request.endMs symbol d.walk.states baselines request.source)
      else d.pointsBySymbol symbol }

end Drawing

/-! ## The report -/

/-- The per-symbol rows, largest total first. -/
def symbolRows (available : List String) (states : States) (baselines : String → Metrics) :
    List SymbolPnlSummary :=
  sortByKey (fun row => toLex (OrderDual.toDual row.pnl.totalPnlUsdt, row.symbol))
    (available.map fun symbol =>
      ⟨symbol, (metricsOf states symbol).difference (baselines symbol)⟩)

/-- `calculate` from the end of its second loop on. -/
def report (inputs : PnlInputs) (request : PnlCalculation) (selected selectedSet : List String)
    (baselines : String → Metrics) (d : Drawing) : PnlResponse :=
  let d := d.finish request selectedSet baselines
  let symbols := symbolRows inputs.availableSymbols d.walk.states baselines
  let summary := { aggregateSummary symbols selectedSet with
    openAmountUsdt := (d.points.getLast?.map PnlPoint.exposureUsdt).getD 0 }
  let boundaryPnl := d.walk.captureRest selectedSet
  let endTotalPnl := selectedTotalPnl d.walk.states selectedSet
  let original := resampleFixedInterval d.points request.startMs request.endMs pnlTickIntervalMs
  let performance := buildPerformance request.strategyStartMs request.endMs request.principalUsdt
    original boundaryPnl endTotalPnl
  let points := downsampleExtrema original (max request.maxPoints 2)
  let symbolMaxPoints := max 100 (min 800 request.maxPoints)
  let resampled (symbol : String) := resampleFixedInterval (d.pointsBySymbol symbol)
    request.startMs request.endMs pnlTickIntervalMs
  let symbolPoints := selected.map fun symbol =>
    (⟨symbol, downsampleExtrema (resampled symbol) symbolMaxPoints⟩ : SymbolPnlSeries)
  { strategyStartMs := request.strategyStartMs
    startMs := request.startMs
    endMs := request.endMs
    selectedSymbols := selected
    availableSymbols := inputs.availableSymbols
    summary, symbols, points, symbolPoints, performance
    source :=
      { adapter := request.source.adapterName
        loadedTradeRows := inputs.trades.length
        loadedFundingRows := inputs.funding.length
        loadedInterestRows := inputs.interest.length
        returnedPoints := points.length
        returnedSymbolPoints := (symbolPoints.map (·.points.length)).sum
        sampled := points.length < original.length ||
          symbolPoints.any fun series => series.points.length < (resampled series.symbol).length
        interestIncluded := request.source.interestIncluded request.exchange
        initialSnapshotTsMs := request.initialSnapshotTsMs
        initialPositionCount := inputs.initialPositions.length
        skippedInitialPositionCount := request.skippedInitialPositionCount } }

def rollingBoundaries (request : PnlCalculation) : List ℤ :=
  ((((rollingWindowsMs.map (request.endMs - ·)).filter (request.strategyStartMs ≤ ·)).insertionSort
    (· ≤ ·)).destutter (· ≠ ·))

/-- `calculate` when the set of the selected symbols is walked in the order `selectedSet`. -/
def calculateIn (selectedSet : List String) (inputs : PnlInputs) (request : PnlCalculation) :
    Except PnlError PnlResponse := do
  if request.startMs < request.strategyStartMs then
    .error (.message "start_ms must be greater than or equal to strategy st_ms")
  else if request.endMs < request.startMs then
    .error (.message "end_ms must be greater than or equal to start_ms")
  else
    let available := inputs.availableSymbols
    let selected := selectSymbols available request.selectedSymbols
    if selected = [] ∧ available ≠ [] then
      .error (.message "none of the requested symbols exist in the selected time range")
    else
      let states ← inputs.initialPositions.foldlM seedInitial
        (initialStates request.source available)
      -- `partition_point` splits the sorted events at the first one of the window.
      let before := inputs.sortedEvents.takeWhile (·.ts < request.startMs)
      let window := inputs.sortedEvents.dropWhile (·.ts < request.startMs)
      let walk ← before.foldlM (Walk.apply selectedSet) ⟨states, rollingBoundaries request, []⟩
      let walk := walk.captureBefore selectedSet request.startMs
      let baselines := metricsOf walk.states
      let d ← (window.takeWhile (·.ts ≤ request.endMs)).foldlM
        (Drawing.apply request.source selectedSet baselines) (.start request selectedSet walk)
      return report inputs request selected selectedSet baselines d

def calculate (inputs : PnlInputs) (request : PnlCalculation) : Except PnlError PnlResponse :=
  calculateIn (selectSymbols inputs.availableSymbols request.selectedSymbols) inputs request

/-! ## The order in which the set is walked -/

section

variable {order order' : List String}

theorem selectedTotalPnl_perm (h : order.Perm order') (states : States) :
    selectedTotalPnl states order = selectedTotalPnl states order' :=
  (h.map _).sum_eq

/-- What `aggregate_point` adds of two symbols can be added in either order. -/
theorem PnlPoint.add_right_comm (source : PnlSourceKind) (point : PnlPoint)
    (current current' baseline baseline' : Metrics) :
    (point.add source current baseline).add source current' baseline' =
      (point.add source current' baseline').add source current baseline := by
  simp only [PnlPoint.add, PnlPoint.mk.injEq, true_and]
  refine ⟨?_, ?_, ?_, ?_, ?_, ?_, ?_, ?_, ?_, ?_, ?_, ?_⟩ <;> ring

theorem aggregatePoint_perm (h : order.Perm order') (ts : ℤ) (states : States)
    (baselines : String → Metrics) (source : PnlSourceKind) :
    aggregatePoint ts states baselines order source =
      aggregatePoint ts states baselines order' source := by
  have hadd : RightCommutative fun (point : PnlPoint) symbol =>
      point.add source (metricsOf states symbol) (baselines symbol) :=
    ⟨fun point symbol symbol' => point.add_right_comm source _ _ _ _⟩
  simp only [aggregatePoint]
  rw [h.foldl_eq]

theorem Walk.apply_perm (h : order.Perm order') : Walk.apply order = Walk.apply order' := by
  funext w event
  simp only [Walk.apply, Walk.captureBefore, selectedTotalPnl_perm h]

theorem Drawing.apply_perm (h : order.Perm order') (source : PnlSourceKind)
    (baselines : String → Metrics) :
    Drawing.apply source order baselines = Drawing.apply source order' baselines := by
  funext d event
  simp only [Drawing.apply, Walk.apply_perm h, aggregatePoint_perm h, h.mem_iff]

theorem Drawing.finish_perm (h : order.Perm order') (d : Drawing) (request : PnlCalculation)
    (baselines : String → Metrics) :
    d.finish request order baselines = d.finish request order' baselines := by
  simp only [Drawing.finish, aggregatePoint_perm h, h.mem_iff]

theorem aggregateSummary_perm (h : order.Perm order') (symbols : List SymbolPnlSummary) :
    aggregateSummary symbols order = aggregateSummary symbols order' := by
  simp only [aggregateSummary, h.mem_iff]

theorem report_perm (h : order.Perm order') (inputs : PnlInputs) (request : PnlCalculation)
    (selected : List String) (baselines : String → Metrics) (d : Drawing) :
    report inputs request selected order baselines d =
      report inputs request selected order' baselines d := by
  simp only [report, Drawing.finish_perm h, aggregateSummary_perm h, Walk.captureRest,
    selectedTotalPnl_perm h]

/-- In exact arithmetic the order in which the set is walked does not matter. -/
theorem calculateIn_eq {inputs : PnlInputs} {request : PnlCalculation}
    (h : order.Perm (selectSymbols inputs.availableSymbols request.selectedSymbols)) :
    calculateIn order inputs request = calculate inputs request := by
  simp only [calculate, calculateIn, Walk.apply_perm h, Drawing.apply_perm h, Drawing.start,
    Walk.captureBefore, selectedTotalPnl_perm h, aggregatePoint_perm h, report_perm h, h.mem_iff]

end

end CryptoNav.Pnl
