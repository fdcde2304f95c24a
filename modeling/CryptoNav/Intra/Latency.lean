import Mathlib.Data.Prod.Lex
import Mathlib.Data.Rat.Floor
import Mathlib.Data.List.Sort
import CryptoNav.Exchange.Client
import CryptoNav.Intra.Orders
import CryptoNav.Lib.Paging
import CryptoNav.Lib.Table

/-!
# Hourly latency

Every hour a program downloads the orders of the hour past from the persist service, chunk by chunk,
and stores how long the exchange and the trigger took. A run may also cover a range of hours, and it
stops at the first thing that fails: its arguments, the database, a download or an upsert. What it has
stored by then stays. Whatever the chunks, a served point is made of exactly the orders of its hour,
and by the last run that stored the hour (`stored_point`).

The answers of the persist service and of the database are inputs of a run. What the service holds is
the same during a run and may be another for the next. As in the rest of the analysis, `f64` values
are exact. The summary that a run prints is left out.
-/

set_option autoImplicit false

namespace CryptoNav.Intra

open CryptoNav.Lib
open CryptoNav.Exchange (saturate)
open CryptoNav.History (i64Max)

def hourMs : ℤ := 3600000

def normalMaxMs : ℚ := 100

def supportedStrategySlugs : List String := ["binance-intra-arb01", "bybit-intra-arb01"]

def supportsHourlyLatency (slug : String) : Bool := supportedStrategySlugs.contains slug

structure LatencyOrderRow where
  tsUs : ℤ
  tradingVenue : String
  status : String
  createTs : ℤ
  updateTs : ℤ
  signalTs : ℤ
  signalOpenTs : ℤ
  signalHedgeTs : ℤ

structure LatencyQuantiles where
  sampleCount : ℕ
  normalCount : ℕ
  p50Ms : Option ℚ
  p90Ms : Option ℚ
  deriving DecidableEq

structure HourlyLatencyPoint where
  strategySlug : String
  windowStartMs : ℤ
  windowEndMs : ℤ
  computedAtMs : ℤ
  marginNewCreate : LatencyQuantiles
  futuresNewCreate : LatencyQuantiles
  spotTrigger : LatencyQuantiles
  futuresTrigger : LatencyQuantiles
  deriving DecidableEq

/-! ## Hours -/

def floorHourMs (tsMs : ℤ) : Except IntraError ℤ := do
  bailIf (tsMs < 0) ("timestamp must be non-negative: " ++ toString tsMs)
  pure (tsMs - tsMs % hourMs)

structure HourWindow where
  startMs : ℤ
  aligned : startMs % hourMs = 0

def HourWindow.endMs (window : HourWindow) : ℤ := window.startMs + hourMs

def HourWindow.new (startMs : ℤ) : Except IntraError HourWindow :=
  if h : startMs % hourMs = 0 then
    if i64Max < startMs + hourMs then .error ⟨"hour window overflow", none⟩ else .ok ⟨startMs, h⟩
  else .error ⟨"latency window must start on an hour boundary", none⟩

/-- The loop of `planned_hour_windows`. -/
def hourWindows (endMs cursor : ℤ) : Except IntraError (List HourWindow) :=
  if cursor < endMs then do
    let window ← HourWindow.new cursor
    bailIf (i64Max < cursor + hourMs) "hour window overflow"
    let windows ← hourWindows endMs (cursor + hourMs)
    pure (window :: windows)
  else pure []
termination_by (endMs - cursor).toNat
decreasing_by
  unfold hourMs
  omega

def plannedHourWindows (nowMs : ℤ) (rangeStartMs rangeEndMs : Option ℤ) :
    Except IntraError (List HourWindow) := do
  let lastCompleteEndMs ← floorHourMs nowMs
  bailIf (lastCompleteEndMs = 0) "no complete hour is available yet"
  let startMs := rangeStartMs.getD (saturate (lastCompleteEndMs - hourMs))
  let requestedEndMs := rangeEndMs.getD (saturate (startMs + hourMs))
  bailIf (startMs % hourMs ≠ 0) "--window-start-ms must be aligned to an hour"
  bailIf (requestedEndMs % hourMs ≠ 0) "--window-end-ms must be aligned to an hour"
  bailIf (requestedEndMs ≤ startMs) "recompute range end must be after start"
  let endMs := min requestedEndMs lastCompleteEndMs
  bailIf (endMs ≤ startMs) "no complete hour is available in the requested range"
  let windows ← hourWindows endMs startMs
  bailIf (windows.isEmpty) "no complete hour is available in the requested range"
  pure windows

/-! ## The point of an hour -/

inductive TriggerLeg where
  | spot
  | futures

def classifyTriggerLeg (openTs hedgeTs : ℤ) : Option TriggerLeg :=
  if openTs ≤ 0 ∨ hedgeTs ≤ 0 then none
  else if hedgeTs < openTs then some .spot
  else if openTs < hedgeTs then some .futures
  else none

def eqIgnoreAsciiCase (s t : String) : Bool :=
  s.toList.map Char.toLower = t.toList.map Char.toLower

def isNewStatus (status : String) : Bool := eqIgnoreAsciiCase status "NEW"

def isMarginVenue (venue : String) : Bool :=
  eqIgnoreAsciiCase venue "BinanceMargin" || eqIgnoreAsciiCase venue "BybitMargin"

def isFuturesVenue (venue : String) : Bool :=
  eqIgnoreAsciiCase venue "BinanceFutures" || eqIgnoreAsciiCase venue "BybitFutures"

def latencyMs (lhs rhs : ℤ) : Option ℚ :=
  if lhs ≤ 0 ∨ rhs ≤ 0 then none else some ((lhs - rhs : ℤ) / 1000)

def percentile (sorted : List ℚ) (q : ℚ) : Option ℚ :=
  if sorted.isEmpty then none
  else
    let rank := q * (sorted.length - 1 : ℕ)
    let lower := ⌊rank⌋₊
    let upper := ⌈rank⌉₊
    if lower = upper then sorted[lower]?
    else
      let weight := rank - lower
      sorted[lower]?.bind fun below => sorted[upper]?.map fun above =>
        below * (1 - weight) + above * weight

def quantiles (samples : List ℚ) (maxMs : ℚ) : LatencyQuantiles :=
  let normal := (samples.filter fun value => 0 ≤ value && value ≤ maxMs).mergeSort
  { sampleCount := samples.length
    normalCount := normal.length
    p50Ms := percentile normal (1 / 2)
    p90Ms := percentile normal (9 / 10) }

/-- What a row adds to each of the four samples. -/
structure RowSamples where
  marginNewCreate : Option ℚ := none
  futuresNewCreate : Option ℚ := none
  spotTrigger : Option ℚ := none
  futuresTrigger : Option ℚ := none

def LatencyOrderRow.samples (row : LatencyOrderRow) : RowSamples :=
  if !isNewStatus row.status then {}
  else if isMarginVenue row.tradingVenue then
    let newCreate := latencyMs row.updateTs row.createTs
    if 0 < row.signalTs then
      match classifyTriggerLeg row.signalOpenTs row.signalHedgeTs with
      | some .spot =>
        { marginNewCreate := newCreate, spotTrigger := latencyMs row.signalTs row.signalOpenTs }
      | some .futures =>
        { marginNewCreate := newCreate
          futuresTrigger := latencyMs row.signalTs row.signalHedgeTs }
      | none => { marginNewCreate := newCreate }
    else { marginNewCreate := newCreate }
  else if isFuturesVenue row.tradingVenue then
    { futuresNewCreate := latencyMs row.updateTs row.createTs }
  else {}

def LatencyOrderRow.inWindow (startMs endMs : ℤ) (row : LatencyOrderRow) : Bool :=
  saturate (startMs * 1000) ≤ row.tsUs && row.tsUs < saturate (endMs * 1000)

def computeHourlyLatency (slug : String) (startMs endMs computedAtMs : ℤ)
    (rows : List LatencyOrderRow) : Except IntraError HourlyLatencyPoint := do
  bailIf (!supportsHourlyLatency slug) ("hourly latency is not configured for " ++ slug)
  bailIf (endMs ≤ startMs) "latency window end must be after start"
  bailIf (endMs - startMs ≠ hourMs) "latency window must be exactly one hour"
  bailIf (startMs % hourMs ≠ 0) "latency window must start on an hour boundary"
  let samples := (rows.filter (·.inWindow startMs endMs)).map (·.samples)
  pure
    { strategySlug := slug
      windowStartMs := startMs
      windowEndMs := endMs
      computedAtMs
      marginNewCreate := quantiles (samples.filterMap (·.marginNewCreate)) normalMaxMs
      futuresNewCreate := quantiles (samples.filterMap (·.futuresNewCreate)) normalMaxMs
      spotTrigger := quantiles (samples.filterMap (·.spotTrigger)) normalMaxMs
      futuresTrigger := quantiles (samples.filterMap (·.futuresTrigger)) normalMaxMs }

/-! ## The download -/

/-- A row of a downloaded frame; `none` is a null or a missing column. -/
structure FrameRow where
  tsUs : Option ℤ
  tradingVenue : Option String
  status : Option String
  createTs : Option ℤ
  updateTs : Option ℤ
  signalTs : Option ℤ
  signalOpenTs : Option ℤ
  signalHedgeTs : Option ℤ

def FrameRow.toOrder (row : FrameRow) : LatencyOrderRow where
  tsUs := row.tsUs.getD 0
  tradingVenue := row.tradingVenue.getD ""
  status := row.status.getD ""
  createTs := row.createTs.getD 0
  updateTs := row.updateTs.getD 0
  signalTs := row.signalTs.getD 0
  signalOpenTs := row.signalOpenTs.getD 0
  signalHedgeTs := row.signalHedgeTs.getD 0

def appendLatencyRows (frame : List FrameRow) (rows : List LatencyOrderRow) :
    Except IntraError (List LatencyOrderRow) :=
  if frame.all (·.tsUs.isSome) then .ok (rows ++ frame.map (·.toOrder))
  else .error ⟨"null ts_us", none⟩

/-- An answer of the persist service for the times from `startUs` on and before `endUs`. -/
abbrev Read : Type := ℤ → ℤ → Except IntraError (List FrameRow)

/-- The loop of `fetch_latency_rows`. The end is an `i64`, so `saturating_add` does not show. -/
def fetchChunks (read : Read) (chunkUs : ℕ+) (endUs cursor : ℤ) (rows : List LatencyOrderRow) :
    Except IntraError (List LatencyOrderRow) :=
  if cursor < endUs then do
    let windowEnd := min (cursor + chunkUs) endUs
    let frame ← read cursor windowEnd
    let rows ← appendLatencyRows frame rows
    fetchChunks read chunkUs endUs windowEnd rows
  else pure rows
termination_by (endUs - cursor).toNat
decreasing_by
  have hchunk := chunkUs.pos
  omega

def checkedMul (context : String) (a b : ℤ) : Except IntraError ℤ :=
  if saturate (a * b) = a * b then .ok (a * b) else .error ⟨context, none⟩

def fetchLatencyRows (read : Read) (chunkMinutes : ℕ+) (window : HourWindow) :
    Except IntraError (List LatencyOrderRow) := do
  let startUs ← checkedMul "window start overflows microseconds" window.startMs 1000
  let endUs ← checkedMul "window end overflows microseconds" window.endMs 1000
  let _ ← checkedMul "source chunk overflow" chunkMinutes 60000000
  fetchChunks read (chunkMinutes * 60000000) endUs startUs []

/-! ## Runs -/

def HourlyLatencyPoint.key (point : HourlyLatencyPoint) : String ×ₗ ℤ :=
  toLex (point.strategySlug, point.windowStartMs)

/-- The rows of `intra_hourly_latency`. -/
abbrev Points : Type := Table HourlyLatencyPoint.key

/-- One run of the program: its arguments, where the strategies named are `none` without any; its
clock; what the database answers when it is connected to and migrated, when it is asked for the
enabled strategies and, with so many hours left to come, at each upsert; and what the persist service
answers and holds. -/
structure LatencyRun where
  strategy : Option (List String)
  windowStartMs : Option ℤ
  windowEndMs : Option ℤ
  sourceChunkMinutes : ℤ
  nowMs : ℤ
  connect : Except IntraError Unit
  enabled : Except IntraError (List String)
  upsert : ℕ → Except IntraError Unit
  read : String → Read
  persisted : String → List FrameRow

namespace LatencyRun

def requested (run : LatencyRun) : List String := run.strategy.getD supportedStrategySlugs

def strategies (run : LatencyRun) : Except IntraError (List String) :=
  match run.strategy with
  | some named => .ok named
  | none => run.enabled.map fun enabled => run.requested.filter (enabled.contains ·)

/-- One turn of the two loops of `main`, with so many left. -/
def turn (run : LatencyRun) (chunkMinutes : ℕ+) (slug : String) (window : HourWindow)
    (left : ℕ) : Except IntraError HourlyLatencyPoint := do
  let rows ← fetchLatencyRows (run.read slug) chunkMinutes window
  let point ← computeHourlyLatency slug window.startMs window.endMs run.nowMs rows
  let _ ← run.upsert left
  pure point

/-- The turns up to the first that fails; what the others stored stays. -/
def turns (run : LatencyRun) (chunkMinutes : ℕ+) :
    List (String × HourWindow) → Points → Points × Except IntraError Unit
  | [], points => (points, .ok ())
  | (slug, window) :: rest, points =>
    match run.turn chunkMinutes slug window rest.length with
    | .error e => (points, .error e)
    | .ok point => run.turns chunkMinutes rest (points.put point)

/-- What the run checks before it connects to the database: the length of a chunk and the hours. -/
def plan (run : LatencyRun) : Except IntraError (ℕ+ × List HourWindow) :=
  if h : 0 < run.sourceChunkMinutes then
    match run.requested.find? (!supportsHourlyLatency ·) with
    | some slug => .error ⟨"unsupported hourly latency strategy " ++ slug, none⟩
    | none => do
      let windows ← plannedHourWindows run.nowMs run.windowStartMs run.windowEndMs
      pure (⟨run.sourceChunkMinutes.toNat, Int.pos_iff_toNat_pos.mp h⟩, windows)
  else .error ⟨"--source-chunk-minutes must be positive", none⟩

/-- The length of a chunk and the turns to come. -/
def work (run : LatencyRun) : Except IntraError (ℕ+ × List (String × HourWindow)) := do
  let (chunkMinutes, windows) ← run.plan
  let _ ← run.connect
  let strategies ← run.strategies
  pure (chunkMinutes, strategies.flatMap fun slug => windows.map (slug, ·))

def main (run : LatencyRun) (points : Points) : Points × Except IntraError Unit :=
  match run.work with
  | .error e => (points, .error e)
  | .ok (chunkMinutes, work) => run.turns chunkMinutes work points

end LatencyRun

def afterRuns (runs : List LatencyRun) : Points :=
  runs.foldl (fun points run => (run.main points).1) .empty

/-- The query of `get_intra_hourly_latency`. -/
def hourlyLatency (points : Points) (slug : String) (startMs endMs : ℤ) :
    List HourlyLatencyPoint :=
  points.rows.filter fun point => point.strategySlug = slug && startMs ≤ point.windowStartMs &&
    point.windowStartMs < endMs

/-! ## The hours of a range -/

theorem HourWindow.ext_startMs {window window' : HourWindow}
    (h : window.startMs = window'.startMs) : window = window' := by
  cases window
  cases window'
  cases h
  rfl

theorem HourWindow.new_eq_ok {startMs : ℤ} {window : HourWindow}
    (h : HourWindow.new startMs = .ok window) : window.startMs = startMs := by
  simp only [HourWindow.new] at h
  split at h
  · split at h
    · cases h
    · cases h
      rfl
  · cases h

theorem mem_hourWindows {endMs cursor : ℤ} {windows : List HourWindow}
    (h : hourWindows endMs cursor = .ok windows) (window : HourWindow) :
    window ∈ windows ↔ cursor ≤ window.startMs ∧ window.startMs < endMs := by
  induction cursor using hourWindows.induct endMs generalizing windows with
  | case1 cursor hlt ih =>
    rw [hourWindows, if_pos hlt] at h
    obtain ⟨first, hfirst, h⟩ := bind_eq_ok.mp h
    obtain ⟨-, -, h⟩ := bind_eq_ok.mp h
    obtain ⟨rest, hrest, h⟩ := bind_eq_ok.mp h
    cases pure_eq_ok.mp h
    have hstart := HourWindow.new_eq_ok hfirst
    rw [List.mem_cons, ih hrest]
    constructor
    · rintro (rfl | ⟨hle, hend⟩)
      · exact ⟨hstart.ge, hstart ▸ hlt⟩
      · exact ⟨by unfold hourMs at hle; omega, hend⟩
    · rintro ⟨hle, hend⟩
      -- two starts of an hour are an hour apart
      have haligned := window.aligned
      have hfirstAligned := first.aligned
      by_cases heq : window.startMs = first.startMs
      · exact .inl (HourWindow.ext_startMs heq)
      · refine .inr ⟨?_, hend⟩
        unfold hourMs at *
        omega
  | case2 cursor hge =>
    rw [hourWindows, if_neg hge] at h
    cases pure_eq_ok.mp h
    simp only [List.not_mem_nil, false_iff]
    omega

/-- The ends of `i64` are no full hours. -/
theorem saturate_of_aligned {n : ℤ} (h : saturate n % hourMs = 0) : saturate n = n := by
  unfold saturate hourMs CryptoNav.History.i64Min i64Max at *
  omega

theorem floorHourMs_eq_ok {tsMs floor : ℤ} (h : floorHourMs tsMs = .ok floor) :
    floor = tsMs - tsMs % hourMs := by
  obtain ⟨-, -, h⟩ := bind_eq_ok.mp h
  exact (pure_eq_ok.mp h).symm

theorem mem_plannedHourWindows {nowMs : ℤ} {rangeStartMs rangeEndMs : Option ℤ}
    {windows : List HourWindow}
    (h : plannedHourWindows nowMs rangeStartMs rangeEndMs = .ok windows) (window : HourWindow) :
    let startMs := rangeStartMs.getD (nowMs - nowMs % hourMs - hourMs)
    window ∈ windows ↔ startMs ≤ window.startMs ∧
      window.endMs ≤ rangeEndMs.getD (startMs + hourMs) ∧ window.endMs ≤ nowMs := by
  obtain ⟨lastCompleteEndMs, hfloor, h⟩ := bind_eq_ok.mp h
  obtain ⟨-, -, h⟩ := bind_eq_ok.mp h
  obtain ⟨_, hstart, h⟩ := bind_eq_ok.mp h
  obtain ⟨_, hend, h⟩ := bind_eq_ok.mp h
  obtain ⟨-, -, h⟩ := bind_eq_ok.mp h
  obtain ⟨-, -, h⟩ := bind_eq_ok.mp h
  obtain ⟨windows, hwindows, h⟩ := bind_eq_ok.mp h
  obtain ⟨-, -, h⟩ := bind_eq_ok.mp h
  cases pure_eq_ok.mp h
  have hfloor := floorHourMs_eq_ok hfloor
  have hstart := not_not.mp (bailIf_eq_ok.mp hstart)
  have hend := not_not.mp (bailIf_eq_ok.mp hend)
  subst hfloor
  have hstartEq : rangeStartMs.getD (saturate (nowMs - nowMs % hourMs - hourMs)) =
      rangeStartMs.getD (nowMs - nowMs % hourMs - hourMs) := by
    cases rangeStartMs with
    | none => exact saturate_of_aligned hstart
    | some startMs => rfl
  rw [hstartEq] at hend hwindows
  generalize rangeStartMs.getD (nowMs - nowMs % hourMs - hourMs) = startMs at *
  have hendEq : rangeEndMs.getD (saturate (startMs + hourMs)) =
      rangeEndMs.getD (startMs + hourMs) := by
    cases rangeEndMs with
    | none => exact saturate_of_aligned hend
    | some endMs => rfl
  rw [hendEq] at hend hwindows
  rw [mem_hourWindows hwindows]
  have haligned := window.aligned
  -- a full hour is over as soon as it is before the last full hour
  unfold HourWindow.endMs hourMs at *
  omega

namespace LatencyRun

def startMs (run : LatencyRun) : ℤ :=
  run.windowStartMs.getD (run.nowMs - run.nowMs % hourMs - hourMs)

def endMs (run : LatencyRun) : ℤ := run.windowEndMs.getD (run.startMs + hourMs)

/-- The run is about the hour, and the hour is over by its clock. Hours are whole ones in UTC, and
    those of the range that the arguments name. -/
structure Covers (run : LatencyRun) (slug : String) (hour : ℤ) : Prop where
  named : ∃ strategies, run.strategies = .ok strategies ∧ slug ∈ strategies
  aligned : hour % hourMs = 0
  starts : run.startMs ≤ hour
  ends : hour + hourMs ≤ run.endMs
  passed : hour + hourMs ≤ run.nowMs

theorem mem_work {run : LatencyRun} {chunkMinutes : ℕ+} {work : List (String × HourWindow)}
    (h : run.work = .ok (chunkMinutes, work)) (slug : String) (window : HourWindow) :
    (slug, window) ∈ work ↔ run.Covers slug window.startMs := by
  obtain ⟨⟨_, windows⟩, hplan, h⟩ := bind_eq_ok.mp h
  obtain ⟨-, -, h⟩ := bind_eq_ok.mp h
  obtain ⟨strategies, hstrategies, h⟩ := bind_eq_ok.mp h
  cases pure_eq_ok.mp h
  have hwindows : plannedHourWindows run.nowMs run.windowStartMs run.windowEndMs = .ok windows := by
    simp only [plan] at hplan
    split at hplan
    · split at hplan
      · cases hplan
      · obtain ⟨windows', hwindows, hplan⟩ := bind_eq_ok.mp hplan
        cases pure_eq_ok.mp hplan
        exact hwindows
    · cases hplan
  have hmem := mem_plannedHourWindows hwindows window
  simp only [List.mem_flatMap, List.mem_map, Prod.mk.injEq]
  constructor
  · intro ⟨slug', hslug, window', hwindow, hslugEq, hwindowEq⟩
    subst hslugEq hwindowEq
    obtain ⟨hstarts, hends, hover⟩ := hmem.mp hwindow
    exact ⟨⟨strategies, hstrategies, hslug⟩, window'.aligned, hstarts, hends, hover⟩
  · intro hcovers
    obtain ⟨strategies', hstrategies', hslug⟩ := hcovers.named
    cases hstrategies.symm.trans hstrategies'
    exact ⟨slug, hslug, window,
      hmem.mpr ⟨hcovers.starts, hcovers.ends, hcovers.passed⟩, rfl, rfl⟩

end LatencyRun

/-! ## The orders of an hour -/

theorem quantiles_perm {samples samples' : List ℚ} (h : samples.Perm samples') (maxMs : ℚ) :
    quantiles samples maxMs = quantiles samples' maxMs := by
  have hsorted : (samples.filter fun value => 0 ≤ value && value ≤ maxMs).mergeSort =
      (samples'.filter fun value => 0 ≤ value && value ≤ maxMs).mergeSort := by
    have hperm := ((List.mergeSort_perm _ (fun a b : ℚ => decide (a ≤ b))).trans
      (h.filter fun value => 0 ≤ value && value ≤ maxMs)).trans
      (List.mergeSort_perm _ (fun a b : ℚ => decide (a ≤ b))).symm
    exact hperm.eq_of_pairwise' (List.pairwise_mergeSort' (· ≤ ·) _)
      (List.pairwise_mergeSort' (· ≤ ·) _)
  simp only [quantiles, hsorted, h.length_eq]

theorem computeHourlyLatency_perm {rows rows' : List LatencyOrderRow} (h : rows.Perm rows')
    (slug : String) (startMs endMs computedAtMs : ℤ) :
    computeHourlyLatency slug startMs endMs computedAtMs rows =
      computeHourlyLatency slug startMs endMs computedAtMs rows' := by
  have hsamples := (h.filter (·.inWindow startMs endMs)).map (·.samples)
  simp only [computeHourlyLatency,
    quantiles_perm (hsamples.filterMap (·.marginNewCreate)),
    quantiles_perm (hsamples.filterMap (·.futuresNewCreate)),
    quantiles_perm (hsamples.filterMap (·.spotTrigger)),
    quantiles_perm (hsamples.filterMap (·.futuresTrigger))]

/-- Only the rows of the hour count. -/
theorem computeHourlyLatency_filter {slug : String} {startMs endMs computedAtMs : ℤ}
    {rows rows' : List LatencyOrderRow}
    (h : rows.Perm (rows'.filter (·.inWindow startMs endMs))) :
    computeHourlyLatency slug startMs endMs computedAtMs rows =
      computeHourlyLatency slug startMs endMs computedAtMs rows' := by
  rw [computeHourlyLatency_perm h]
  simp only [computeHourlyLatency, List.filter_filter, Bool.and_self]

namespace LatencyRun

/-- What the documentation of the persist service says of its answers: the rows it holds of these
times, in some order. -/
def Serves (run : LatencyRun) : Prop :=
  ∀ slug startUs endUs frame, run.read slug startUs endUs = .ok frame →
    frame.Perm ((run.persisted slug).filter fun row =>
      row.tsUs.any fun ts => startUs ≤ ts && ts < endUs)

/-- The orders of a strategy that the persist service holds. -/
def orders (run : LatencyRun) (slug : String) : List LatencyOrderRow :=
  ((run.persisted slug).filter (·.tsUs.isSome)).map (·.toOrder)

end LatencyRun

theorem appendLatencyRows_eq_ok {frame : List FrameRow} {rows rows' : List LatencyOrderRow}
    (h : appendLatencyRows frame rows = .ok rows') : rows' = rows ++ frame.map (·.toOrder) := by
  rw [appendLatencyRows] at h
  split at h
  · exact (Except.ok.inj h).symm
  · cases h

theorem fetchChunks_perm {run : LatencyRun} (hserves : run.Serves) {slug : String} {chunkUs : ℕ+}
    {endUs cursor : ℤ} {rows rows' : List LatencyOrderRow}
    (h : fetchChunks (run.read slug) chunkUs endUs cursor rows = .ok rows') :
    rows'.Perm (rows ++ ((run.persisted slug).filter fun row =>
      row.tsUs.any fun ts => cursor ≤ ts && ts < endUs).map (·.toOrder)) := by
  induction cursor, rows using fetchChunks.induct chunkUs endUs with
  | case1 cursor rows hlt windowEnd ih =>
    rw [fetchChunks, if_pos hlt] at h
    obtain ⟨frame, hframe, h⟩ := bind_eq_ok.mp h
    obtain ⟨more, hmore, h⟩ := bind_eq_ok.mp h
    cases appendLatencyRows_eq_ok hmore
    refine (ih _ h).trans ?_
    have hchunk := chunkUs.pos
    have hmiddle : cursor ≤ windowEnd := by omega
    rw [List.append_assoc, ← List.map_append]
    exact (((hserves _ _ _ _ hframe).append_right _).trans
      (filter_between_append _ hmiddle (min_le_right _ _))).map _ |>.append_left rows
  | case2 cursor rows hge =>
    rw [fetchChunks, if_neg hge] at h
    cases pure_eq_ok.mp h
    rw [List.filter_eq_nil_iff.mpr, List.map_nil, List.append_nil]
    intro row _
    cases row.tsUs with
    | none => simp
    | some ts =>
      simp only [Option.any_some, Bool.and_eq_true, decide_eq_true_eq]
      omega

theorem checkedMul_eq_ok {context : String} {a b product : ℤ}
    (h : checkedMul context a b = .ok product) : product = a * b ∧ saturate (a * b) = a * b := by
  simp only [checkedMul] at h
  split at h
  · next hexact => exact ⟨(Except.ok.inj h).symm, hexact⟩
  · cases h

/-- The chunks bring the orders of the hour, none twice and none left out. -/
theorem fetchLatencyRows_perm {run : LatencyRun} (hserves : run.Serves) {slug : String}
    {chunkMinutes : ℕ+} {window : HourWindow} {rows : List LatencyOrderRow}
    (h : fetchLatencyRows (run.read slug) chunkMinutes window = .ok rows) :
    rows.Perm ((run.orders slug).filter (·.inWindow window.startMs window.endMs)) := by
  obtain ⟨startUs, hstart, h⟩ := bind_eq_ok.mp h
  obtain ⟨endUs, hend, h⟩ := bind_eq_ok.mp h
  obtain ⟨-, -, h⟩ := bind_eq_ok.mp h
  obtain ⟨rfl, hstartUs⟩ := checkedMul_eq_ok hstart
  obtain ⟨rfl, hendUs⟩ := checkedMul_eq_ok hend
  refine (fetchChunks_perm hserves h).trans (.of_eq ?_)
  rw [List.nil_append, LatencyRun.orders, List.filter_map, List.filter_filter]
  refine congrArg _ (List.filter_congr fun row _ => ?_)
  cases hts : row.tsUs with
  | none => simp
  | some ts => simp [LatencyOrderRow.inWindow, FrameRow.toOrder, hts, hstartUs, hendUs]

namespace LatencyRun

theorem turn_eq_ok {run : LatencyRun} (hserves : run.Serves) {chunkMinutes : ℕ+} {slug : String}
    {window : HourWindow} {left : ℕ} {point : HourlyLatencyPoint}
    (h : run.turn chunkMinutes slug window left = .ok point) :
    computeHourlyLatency slug window.startMs window.endMs run.nowMs (run.orders slug) =
      .ok point := by
  obtain ⟨rows, hrows, h⟩ := bind_eq_ok.mp h
  obtain ⟨_, hcompute, h⟩ := bind_eq_ok.mp h
  obtain ⟨-, -, h⟩ := bind_eq_ok.mp h
  cases pure_eq_ok.mp h
  rwa [← computeHourlyLatency_filter (fetchLatencyRows_perm hserves hrows)]

end LatencyRun

theorem key_of_compute {slug : String} {startMs endMs computedAtMs : ℤ}
    {rows : List LatencyOrderRow} {point : HourlyLatencyPoint}
    (h : computeHourlyLatency slug startMs endMs computedAtMs rows = .ok point) :
    point.key = toLex (slug, startMs) := by
  obtain ⟨-, -, h⟩ := bind_eq_ok.mp h
  obtain ⟨-, -, h⟩ := bind_eq_ok.mp h
  obtain ⟨-, -, h⟩ := bind_eq_ok.mp h
  obtain ⟨-, -, h⟩ := bind_eq_ok.mp h
  cases pure_eq_ok.mp h
  rfl

/-! ## What a run stores -/

namespace LatencyRun

/-- The points of the turns before the first that fails. -/
def storedBy (run : LatencyRun) (chunkMinutes : ℕ+) :
    List (String × HourWindow) → List HourlyLatencyPoint
  | [] => []
  | (slug, window) :: rest =>
    match run.turn chunkMinutes slug window rest.length with
    | .error _ => []
    | .ok point => point :: run.storedBy chunkMinutes rest

def stored (run : LatencyRun) : List HourlyLatencyPoint :=
  match run.work with
  | .error _ => []
  | .ok (chunkMinutes, work) => run.storedBy chunkMinutes work

/-- The run got to the hour and stored its point. It may fail at a later hour all the same. -/
def Stores (run : LatencyRun) (slug : String) (hour : ℤ) : Prop :=
  ∃ point ∈ run.stored, point.strategySlug = slug ∧ point.windowStartMs = hour

/-- The run comes to its end; what the table holds does not matter for that. -/
def Succeeds (run : LatencyRun) : Prop := (run.main .empty).2 = .ok ()

/-- The point of the hour as the run computes it from all orders of the strategy. The order in which
    the service delivers them makes no difference to it. -/
def Gives (run : LatencyRun) (slug : String) (hour : ℤ) (point : HourlyLatencyPoint) : Prop :=
  run.Covers slug hour ∧
    computeHourlyLatency slug hour (hour + hourMs) run.nowMs (run.orders slug) = .ok point

theorem key_eq {point : HourlyLatencyPoint} {slug : String} {hour : ℤ} :
    point.key = toLex (slug, hour) ↔ point.strategySlug = slug ∧ point.windowStartMs = hour := by
  simp [HourlyLatencyPoint.key]

/-- A run puts the points that it stores and leaves every other row as it was. -/
theorem main_fst (run : LatencyRun) (points : Points) :
    (run.main points).1 = points.putAll run.stored := by
  rw [main, stored]
  cases run.work with
  | error e => rfl
  | ok work =>
    obtain ⟨chunkMinutes, work⟩ := work
    simp only
    induction work generalizing points with
    | nil => rfl
    | cons item rest ih =>
      obtain ⟨slug, window⟩ := item
      rw [turns, storedBy]
      cases run.turn chunkMinutes slug window rest.length with
      | error e => rfl
      | ok point => exact ih (points.put point)

theorem mem_storedBy {run : LatencyRun} {chunkMinutes : ℕ+} {work : List (String × HourWindow)}
    {point : HourlyLatencyPoint} (h : point ∈ run.storedBy chunkMinutes work) :
    ∃ slug window left, (slug, window) ∈ work ∧
      run.turn chunkMinutes slug window left = .ok point := by
  induction work with
  | nil => cases h
  | cons item rest ih =>
    obtain ⟨slug, window⟩ := item
    rw [storedBy] at h
    split at h
    · cases h
    · next turned hturn =>
      rcases List.mem_cons.mp h with rfl | h
      · exact ⟨slug, window, _, List.mem_cons_self, hturn⟩
      · obtain ⟨slug', window', left, hmem, hturn'⟩ := ih h
        exact ⟨slug', window', left, List.mem_cons_of_mem _ hmem, hturn'⟩

/-- A point that a run stores is that of the orders of its hour. -/
theorem gives_of_stored {run : LatencyRun} (hserves : run.Serves) {point : HourlyLatencyPoint}
    (h : point ∈ run.stored) : run.Gives point.strategySlug point.windowStartMs point := by
  unfold stored at h
  split at h
  · cases h
  · next chunkMinutes work hwork =>
    obtain ⟨slug, window, left, hmem, hturn⟩ := mem_storedBy h
    have hcompute := turn_eq_ok hserves hturn
    obtain ⟨rfl, hstart⟩ := key_eq.mp (key_of_compute hcompute)
    rw [hstart]
    exact ⟨(mem_work hwork _ window).mp hmem, hcompute⟩

theorem Stores.covers {run : LatencyRun} (hserves : run.Serves) {slug : String} {hour : ℤ}
    (h : run.Stores slug hour) : run.Covers slug hour := by
  obtain ⟨point, hpoint, rfl, rfl⟩ := h
  exact (gives_of_stored hserves hpoint).1

/-- Turns that all go through store all of their hours. -/
theorem storedBy_of_ok {run : LatencyRun} {chunkMinutes : ℕ+} {work : List (String × HourWindow)}
    {points : Points} (h : (run.turns chunkMinutes work points).2 = .ok ()) {slug : String}
    {window : HourWindow} (hmem : (slug, window) ∈ work) :
    ∃ point ∈ run.storedBy chunkMinutes work, ∃ left,
      run.turn chunkMinutes slug window left = .ok point := by
  induction work generalizing points with
  | nil => cases hmem
  | cons item rest ih =>
    obtain ⟨slug', window'⟩ := item
    rw [turns] at h
    rw [storedBy]
    cases hturn : run.turn chunkMinutes slug' window' rest.length with
    | error e =>
      rw [hturn] at h
      cases h
    | ok point =>
      rw [hturn] at h
      rcases List.mem_cons.mp hmem with heq | hmem
      · cases heq
        exact ⟨point, List.mem_cons_self, _, hturn⟩
      · obtain ⟨point', hpoint', hturn'⟩ := ih h hmem
        exact ⟨point', List.mem_cons_of_mem _ hpoint', hturn'⟩

theorem Covers.stores {run : LatencyRun} (hserves : run.Serves) {slug : String} {hour : ℤ}
    (hcovers : run.Covers slug hour) (hsucceeds : run.Succeeds) : run.Stores slug hour := by
  rw [Succeeds, main] at hsucceeds
  rw [Stores, stored]
  cases hwork : run.work with
  | error e =>
    rw [hwork] at hsucceeds
    cases hsucceeds
  | ok work =>
    rw [hwork] at hsucceeds
    obtain ⟨chunkMinutes, work⟩ := work
    have hmem := (mem_work hwork slug ⟨hour, hcovers.aligned⟩).mpr hcovers
    obtain ⟨point, hpoint, left, hturn⟩ := storedBy_of_ok hsucceeds hmem
    exact ⟨point, hpoint, key_eq.mp (key_of_compute (turn_eq_ok hserves hturn))⟩

end LatencyRun

/-! ## Runs -/

theorem afterRuns_append (runs : List LatencyRun) (run : LatencyRun) :
    afterRuns (runs ++ [run]) = (run.main (afterRuns runs)).1 := by
  simp [afterRuns, List.foldl_append]

/-- Of the runs that stored the hour, the last gave the point. -/
def LastStored (runs : List LatencyRun) (slug : String) (hour : ℤ) (point : HourlyLatencyPoint) :
    Prop :=
  ∃ before run after, runs = before ++ run :: after ∧ run.Stores slug hour ∧
    run.Gives slug hour point ∧ ∀ later ∈ after, ¬later.Stores slug hour

theorem LastStored.append {runs : List LatencyRun} {slug : String} {hour : ℤ}
    {point : HourlyLatencyPoint} (h : LastStored runs slug hour point) {run : LatencyRun}
    (hrun : ¬run.Stores slug hour) : LastStored (runs ++ [run]) slug hour point := by
  obtain ⟨before, giver, after, rfl, hstores, hgives, hafter⟩ := h
  refine ⟨before, giver, after ++ [run], by simp, hstores, hgives, fun later hlater => ?_⟩
  rcases List.mem_append.mp hlater with hlater | hlater
  · exact hafter later hlater
  · exact List.mem_singleton.mp hlater ▸ hrun

/-- What a run leaves of an hour: the point that it stored, or what was there. -/
theorem get_main (run : LatencyRun) (points : Points) (slug : String) (hour : ℤ) :
    (¬run.Stores slug hour ∧
        (run.main points).1.get (toLex (slug, hour)) = points.get (toLex (slug, hour))) ∨
      ∃ point ∈ run.stored, (point.strategySlug = slug ∧ point.windowStartMs = hour) ∧
        (run.main points).1.get (toLex (slug, hour)) = some point := by
  rw [LatencyRun.main_fst]
  by_cases hstores : run.Stores slug hour
  · obtain ⟨stored, hstored, hkey⟩ := hstores
    have hmem : toLex (slug, hour) ∈ run.stored.map HourlyLatencyPoint.key :=
      List.mem_map.mpr ⟨stored, hstored, LatencyRun.key_eq.mpr hkey⟩
    obtain ⟨point, hpoint, hget⟩ := Table.exists_get_putAll points hmem
    exact .inr ⟨point, hpoint, LatencyRun.key_eq.mp (Table.key_of_get hget), hget⟩
  · have hmem : toLex (slug, hour) ∉ run.stored.map HourlyLatencyPoint.key := by
      intro hmem
      obtain ⟨point, hpoint, hkey⟩ := List.mem_map.mp hmem
      exact hstores ⟨point, hpoint, LatencyRun.key_eq.mp hkey⟩
    refine .inl ⟨hstores, ?_⟩
    rw [Table.get_putAll_or, Option.or_of_isNone]
    rw [← Option.not_isSome, Bool.not_eq_true', Bool.eq_false_iff, ne_eq,
      Table.isSome_get_putAll, not_or]
    exact ⟨hmem, by simp⟩

theorem lastStored_of_get (runs : List LatencyRun) (hserves : ∀ run ∈ runs, run.Serves)
    {slug : String} {hour : ℤ} {point : HourlyLatencyPoint}
    (h : (afterRuns runs).get (toLex (slug, hour)) = some point) :
    LastStored runs slug hour point := by
  induction runs using List.reverseRecOn with
  | nil => cases h
  | append_singleton runs run ih =>
    obtain ⟨hserves, hlast⟩ := List.forall_mem_append.mp hserves
    rw [afterRuns_append] at h
    rcases get_main run (afterRuns runs) slug hour with
      ⟨hnot, hsame⟩ | ⟨point', hpoint', hkey, hget⟩
    · exact (ih hserves (hsame ▸ h)).append hnot
    · cases h.symm.trans hget
      have hgives := LatencyRun.gives_of_stored (hlast run (List.mem_singleton_self _)) hpoint'
      rw [hkey.1, hkey.2] at hgives
      exact ⟨runs, run, [], rfl, ⟨point, hpoint', hkey⟩, hgives, List.forall_mem_nil _⟩

theorem isSome_get_of_stores (runs : List LatencyRun) {slug : String} {hour : ℤ}
    {run : LatencyRun} (hrun : run ∈ runs) (hstores : run.Stores slug hour) :
    ((afterRuns runs).get (toLex (slug, hour))).isSome := by
  induction runs using List.reverseRecOn with
  | nil => cases hrun
  | append_singleton runs last ih =>
    rw [afterRuns_append]
    rcases get_main last (afterRuns runs) slug hour with
      ⟨hnot, hsame⟩ | ⟨point', -, -, hget⟩
    · rw [hsame]
      rcases List.mem_append.mp hrun with hrun | hrun
      · exact ih hrun
      · exact absurd (List.mem_singleton.mp hrun ▸ hstores) hnot
    · rw [hget]
      rfl

theorem mem_hourlyLatency {points : Points} {slug : String} {startMs endMs : ℤ}
    {point : HourlyLatencyPoint} :
    point ∈ hourlyLatency points slug startMs endMs ↔
      points.get (toLex (slug, point.windowStartMs)) = some point ∧ startMs ≤ point.windowStartMs ∧
        point.windowStartMs < endMs := by
  rw [hourlyLatency, List.mem_filter, Table.mem_rows]
  simp only [Bool.and_eq_true, decide_eq_true_eq]
  constructor
  · rintro ⟨hget, ⟨rfl, hstart⟩, hend⟩
    exact ⟨hget, hstart, hend⟩
  · rintro ⟨hget, hstart, hend⟩
    have hkey : point.strategySlug = slug := congrArg (fun k => (ofLex k).1) (Table.key_of_get hget)
    subst hkey
    exact ⟨hget, ⟨rfl, hstart⟩, hend⟩

/-- **What is served for an hour** was computed from exactly the orders that the persist service
held of it at the last run that got to it and stored it. Whatever a run has stored is served from
then on, and a run that comes to its end has stored every hour of its range. -/
theorem stored_point (runs : List LatencyRun) (hserves : ∀ run ∈ runs, run.Serves) (slug : String)
    (startMs endMs : ℤ) :
    (∀ point ∈ hourlyLatency (afterRuns runs) slug startMs endMs,
      LastStored runs slug point.windowStartMs point) ∧
    (∀ run ∈ runs, ∀ hour, run.Stores slug hour → startMs ≤ hour → hour < endMs →
      ∃ point ∈ hourlyLatency (afterRuns runs) slug startMs endMs, point.windowStartMs = hour) ∧
    ∀ run ∈ runs, ∀ hour, (run.Stores slug hour → run.Covers slug hour) ∧
      (run.Covers slug hour → run.Succeeds → run.Stores slug hour) := by
  refine ⟨fun point hpoint => ?_, fun run hrun hour hstores hstart hend => ?_,
    fun run hrun hour => ?_⟩
  · exact lastStored_of_get runs hserves (mem_hourlyLatency.mp hpoint).1
  · obtain ⟨point, hget⟩ := Option.isSome_iff_exists.mp (isSome_get_of_stores runs hrun hstores)
    have hhour : point.windowStartMs = hour :=
      congrArg (fun k => (ofLex k).2) (Table.key_of_get hget)
    subst hhour
    exact ⟨point, mem_hourlyLatency.mpr ⟨hget, hstart, hend⟩, rfl⟩
  · exact ⟨fun hstores => hstores.covers (hserves run hrun),
      fun hcovers => hcovers.stores (hserves run hrun)⟩

/-- A run a minute after the first hour of all, with one order of that hour to find. -/
def LatencyRun.sample : LatencyRun :=
  let persisted : String → List FrameRow := fun _ =>
    [{ tsUs := some 1000, tradingVenue := some "BinanceMargin", status := some "NEW",
       createTs := some 500, updateTs := some 1700, signalTs := some 900, signalOpenTs := some 600,
       signalHedgeTs := some 550 }]
  { strategy := none
    windowStartMs := none
    windowEndMs := none
    sourceChunkMinutes := 25
    nowMs := 3660000
    connect := .ok ()
    enabled := .ok ["binance-intra-arb01"]
    upsert := fun _ => .ok ()
    read := fun slug startUs endUs => .ok ((persisted slug).filter fun row =>
      row.tsUs.any fun ts => startUs ≤ ts && ts < endUs)
    persisted }

theorem stored_point_of_sample :
    (∀ point ∈ hourlyLatency (afterRuns [.sample]) "binance-intra-arb01" 0 3600000,
      LastStored [.sample] "binance-intra-arb01" point.windowStartMs point) ∧
    (∀ run ∈ [LatencyRun.sample], ∀ hour, run.Stores "binance-intra-arb01" hour → 0 ≤ hour →
      hour < 3600000 →
        ∃ point ∈ hourlyLatency (afterRuns [.sample]) "binance-intra-arb01" 0 3600000,
          point.windowStartMs = hour) ∧
    ∀ run ∈ [LatencyRun.sample], ∀ hour,
      (run.Stores "binance-intra-arb01" hour → run.Covers "binance-intra-arb01" hour) ∧
      (run.Covers "binance-intra-arb01" hour → run.Succeeds →
        run.Stores "binance-intra-arb01" hour) := by
  refine stored_point [.sample] ?_ "binance-intra-arb01" 0 3600000
  rintro run hrun slug startUs endUs frame hframe
  cases List.mem_singleton.mp hrun
  cases hframe
  exact .refl _

end CryptoNav.Intra
