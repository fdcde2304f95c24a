import CryptoNav.History.Watermark
import CryptoNav.Lib.Sorting

/-!
# What a cycle runs

The live history loop runs `sync_history` once in every cycle of a strategy. Which symbols it asks for
differs by strategy; how a run is started, what it stores and when the first one becomes a bootstrap
does not, and is here.

The exchange has a list of fills, and a run stores those of the symbols it asks for that lie in its
range. The clock does not go back. The program does not keep `runs`; it is here so that a statement
about cycles can say for which symbols and which range `sync_history` was started.

Only the trades are followed: funding, interest and the other datasets of a cycle are asked for by
time alone, whatever the symbols. When the cycles of a strategy start is in `Schedule`.
-/

set_option autoImplicit false

namespace CryptoNav.Live

open CryptoNav.Lib CryptoNav.History

/-- `symbol` is the exchange's own name, in which there are no blanks. -/
structure Fill where
  symbol : String
  leg : Leg
  timeMs : ℤ
  unspaced : ∀ c ∈ symbol.toList, c.isWhitespace = false

/-- The name in the table of trades. -/
def Fill.stored (fill : Fill) : String := normalizeSymbol fill.symbol

/-- A successful run on the trades: its range and its list of `--symbol`. -/
structure TradesRun where
  startMs : ℤ
  endMs : ℤ
  symbols : List String

/-- Nothing is known of the future. -/
structure State where
  clock : ℤ
  progress : Progress := {}
  runs : List TradesRun := []
  /-- The rows of the trades. -/
  trades : List Fill := []
  watermark_le : ∀ E ∈ progress.watermark, E ≤ clock
  trades_le : ∀ fill ∈ trades, fill.timeMs ≤ clock

namespace State

def wait (s : State) (ms : ℕ) : State where
  clock := s.clock + ms
  progress := s.progress
  runs := s.runs
  trades := s.trades
  watermark_le := fun E hE => (s.watermark_le E hE).trans (by omega)
  trades_le := fun fill hfill => (s.trades_le fill hfill).trans (by omega)

@[simp] theorem wait_clock (s : State) (ms : ℕ) : (s.wait ms).clock = s.clock + ms := rfl
/-- `latest_dataset_time` -/
def latest (s : State) : Option ℤ := (s.trades.map Fill.timeMs).max?

/-- The symbols of the rows. -/
def storedSymbols (s : State) : List String := s.trades.map Fill.stored

/-- Where an incremental run would start from. -/
def cursor (s : State) : Option ℤ := s.progress.watermark.or s.latest

theorem cursor_le (s : State) : ∀ E ∈ s.cursor, E ≤ s.clock := by
  intro E hE
  unfold cursor at hE
  cases hW : s.progress.watermark with
  | some W =>
    rw [hW] at hE
    exact s.watermark_le E (hW ▸ hE)
  | none =>
    rw [hW] at hE
    have hmem := List.max?_mem hE
    obtain ⟨fill, hfill, rfl⟩ := List.mem_map.mp hmem
    exact s.trades_le fill hfill

end State

/-- The arguments of a run on the trades. -/
structure Request where
  symbol : List String
  full : Bool := false
  startMs : Option ℤ := none
  noAdvanceWatermark : Bool := false

/-- How a run goes: whether it exits with a failure, and how long it takes. -/
structure Attempt where
  failed : Bool := false
  elapsed : ℕ := 0

/-- What a run is asked for is what is written down, whether or not the exchange knows the symbol. -/
def invocation (s : State) (request : Request) (attempt : Attempt) : Invocation where
  args := {
    full := request.full
    startMs := request.startMs
    symbol := request.symbol
    noAdvanceWatermark := request.noAdvanceWatermark }
  nowMs := s.clock
  elapsed := attempt.elapsed
  latest := s.latest
  storedSymbols := s.storedSymbols

section

variable (strategy : Strategy) (fills : List Fill)

/-- The fills that a scan brings back. -/
def fetched (scan : Scan) : List Fill :=
  fills.filter fun fill =>
    decide (scan.startMs ≤ fill.timeMs) && decide (fill.timeMs ≤ scan.endMs) &&
      scan.covers (fill.symbol, fill.leg)

theorem fetched_le {scan : Scan} : ∀ fill ∈ fetched fills scan, fill.timeMs ≤ scan.endMs := by
  intro fill hfill
  have hpred := (List.mem_filter.mp hfill).2
  simp only [Bool.and_eq_true, decide_eq_true_eq] at hpred
  exact hpred.1.2

theorem syncDataset_live {s : State} {request : Request} {attempt : Attempt} {progress : Progress}
    (h : syncDataset strategy .trades s.progress (invocation s request attempt) = .ok progress) :
    progress = s.progress ∨ ∃ scan : Scan, progress.scans = s.progress.scans ++ [scan] ∧
      scan.endMs = s.clock ∧ progress.watermark =
        if request.noAdvanceWatermark then s.progress.watermark else some s.clock := by
  rcases syncDataset_cases h with hsame | ⟨scan, _, _, hend, _, _, _, hadvanced, _, _, hscans,
    hwatermark⟩
  · exact .inl hsame
  · refine .inr ⟨scan, hscans, hend, ?_⟩
    have hclock : advanceWatermark s.progress.watermark scan.endMs = s.clock := by
      have hend' : scan.endMs = s.clock := hend
      rw [hend']
      cases hW : s.progress.watermark with
      | none => rfl
      | some W => exact max_eq_right (s.watermark_le W hW)
    rw [hwatermark, hclock, hadvanced]
    change (if (!request.noAdvanceWatermark) = true then _ else _) = _
    cases request.noAdvanceWatermark <;> rfl

/-- The state once the run has committed. -/
def State.commit (s : State) (request : Request) (attempt : Attempt) (progress : Progress)
    (h : syncDataset strategy .trades s.progress (invocation s request attempt) = .ok progress) :
    State where
  clock := s.clock
  progress := progress
  runs := s.runs ++ (progress.scans.drop s.progress.scans.length).map fun scan =>
    { startMs := scan.startMs, endMs := scan.endMs, symbols := request.symbol }
  trades := s.trades ++ (progress.scans.drop s.progress.scans.length).flatMap (fetched fills)
  watermark_le := by
    intro E hE
    rcases syncDataset_live strategy h with rfl | ⟨scan, _, _, hwatermark⟩
    · exact s.watermark_le E hE
    · rw [hwatermark] at hE
      split at hE
      · exact s.watermark_le E hE
      · cases hE
        exact le_rfl
  trades_le := by
    intro fill hfill
    rcases List.mem_append.mp hfill with hold | hnew
    · exact s.trades_le fill hold
    · rcases syncDataset_live strategy h with rfl | ⟨scan, hscans, hend, _⟩
      · rw [List.drop_length] at hnew
        cases hnew
      · rw [hscans, List.drop_left, List.flatMap_singleton] at hnew
        exact hend ▸ fetched_le fills fill hnew

def runSyncHistory (s : State) (request : Request) (attempt : Attempt) : Except String State :=
  if attempt.failed then .error "sync_history exited with a failure"
  else match h : syncDataset strategy .trades s.progress (invocation s request attempt) with
    | .error error => .error error
    | .ok progress => .ok (s.commit strategy fills request attempt progress h)

/-- The cause that `sync_dataset` wraps into "is not initialized". -/
def notInitialized : String :=
  "no successful scan watermark or stored rows; run once with --full"

def runIncrementalOrBootstrap (s : State) (symbols : List String) (sync bootstrap : Attempt) :
    State :=
  match runSyncHistory strategy fills s { symbol := symbols } sync with
  | .ok t => t.wait sync.elapsed
  | .error error =>
    let s := s.wait sync.elapsed
    if error = notInitialized then
      match runSyncHistory strategy fills s { symbol := symbols, full := true } bootstrap with
      | .ok t => t.wait bootstrap.elapsed
      | .error _ => s.wait bootstrap.elapsed
    else s

end

section

variable (strategy : Strategy) (fills : List Fill) (s : State) (request : Request)
  (attempt : Attempt) (progress : Progress)
  (h : syncDataset strategy .trades s.progress (invocation s request attempt) = .ok progress)

@[simp] theorem commit_runs : (s.commit strategy fills request attempt progress h).runs =
    s.runs ++ (progress.scans.drop s.progress.scans.length).map fun scan =>
      { startMs := scan.startMs, endMs := scan.endMs, symbols := request.symbol } := rfl
@[simp] theorem commit_trades : (s.commit strategy fills request attempt progress h).trades =
    s.trades ++ (progress.scans.drop s.progress.scans.length).flatMap (fetched fills) := rfl

end

/-! ## What a run does -/

/-- A strategy of Binance whose symbols are looked up. `st_ms` is positive in the table. -/
structure UsesOnlineSymbols (strategy : Strategy) : Prop where
  binance : strategy.exchange = "binance"
  notRapidx : strategy.isRapidx = false
  started : 0 < strategy.stMs

/-- The symbols for which the exchange is asked. -/
def askedSymbols (s : State) (request : Request) : List String :=
  if (requestedSymbols request.symbol).isEmpty then s.storedSymbols.map normalizeSymbol
  else requestedSymbols request.symbol

section

variable {strategy : Strategy} {fills : List Fill} {s t : State} {request : Request}
  {attempt : Attempt}

theorem tradeSymbols_live (h : UsesOnlineSymbols strategy) :
    tradeSymbols strategy (invocation s request attempt) =
      if (askedSymbols s request).isEmpty then
        .error "no stored Binance symbols; pass one or more --symbol values"
      else .ok (some (askedSymbols s request)) := by
  have hknown : ∀ symbols : List String, (symbols.filter fun symbol =>
      !(invocation s request attempt).invalidSymbols.contains symbol) = symbols := fun symbols =>
    List.filter_eq_self.mpr fun _ _ => rfl
  unfold tradeSymbols askedSymbols
  rw [if_neg (not_not.mpr h.binance), h.notRapidx, if_neg Bool.false_ne_true]
  simp only [hknown]
  rfl

theorem supports_trades (strategy : Strategy) : strategy.supports .trades = true := by
  unfold Strategy.supports
  split <;> rfl

theorem checkArgs_live (s : State) (request : Request) (attempt : Attempt) :
    checkArgs strategy .trades (invocation s request attempt) = .ok () ↔
      strategy.stMs ≤ s.clock ∧ ∀ v ∈ request.startMs, strategy.stMs ≤ v ∧ v ≤ s.clock := by
  have hoverlap : ¬i64Max < ((30 : ℕ) : ℤ) * 60000 := by decide
  unfold checkArgs
  rw [supports_trades]
  change (if i64Max < ((30 : ℕ) : ℤ) * 60000 then _ else if s.clock < strategy.stMs then _ else
    if request.startMs.any (· < strategy.stMs) then _ else if request.startMs.any (s.clock < ·) then _
    else _) = _ ↔ _
  rw [if_neg hoverlap]
  by_cases hst : s.clock < strategy.stMs
  · simp [hst]
  · rw [if_neg hst]
    cases request.startMs with
    | none => simpa using not_lt.mp hst
    | some v =>
      by_cases hlo : v < strategy.stMs
      · simp [hlo]
      · by_cases hhi : s.clock < v
        · simp [hlo, hhi]
        · simp [hlo, hhi, not_lt.mp hst, not_lt.mp hlo, not_lt.mp hhi]

/-- Where the scan of a request starts. -/
def requestStart (strategy : Strategy) (s : State) (request : Request) : Except String ℤ :=
  scanStart strategy.stMs s.progress.watermark s.latest request.full request.startMs (30 * 60000)

/-- What must hold for a run to go through: there is a symbol to ask for, and neither what is asked
    for nor the beginning of the strategy lies in the future. -/
structure Passes (strategy : Strategy) (s : State) (request : Request) (startMs : ℤ) : Prop where
  started : strategy.stMs ≤ s.clock
  requested : ∀ v ∈ request.startMs, strategy.stMs ≤ v ∧ v ≤ s.clock
  start : requestStart strategy s request = .ok startMs
  nonneg : 0 ≤ startMs
  le : startMs ≤ s.clock
  asked : askedSymbols s request ≠ []

/-- The scan of a run that goes through. -/
def liveScan (strategy : Strategy) (s : State) (request : Request) (attempt : Attempt)
    (startMs : ℤ) : Scan where
  startMs := startMs
  endMs := s.clock
  executedAt := s.clock + attempt.elapsed
  symbols := some (askedSymbols s request)
  includeSpot := strategy.includeSpotTrades false
  full := request.full && request.startMs.isNone
  advanced := !request.noAdvanceWatermark
  run := invocation s request attempt

theorem syncDataset_passes (h : UsesOnlineSymbols strategy) (attempt : Attempt) {startMs : ℤ}
    (hpasses : Passes strategy s request startMs) :
    ∃ progress, syncDataset strategy .trades s.progress (invocation s request attempt) =
      .ok progress ∧
        progress.scans = s.progress.scans ++ [liveScan strategy s request attempt startMs] := by
  have hcheck := (checkArgs_live s request attempt).mpr ⟨hpasses.started, hpasses.requested⟩
  have hasked : (askedSymbols s request).isEmpty = false := by
    rw [List.isEmpty_eq_false_iff]
    exact hpasses.asked
  have hsymbols : scannedSymbols strategy .trades (invocation s request attempt) =
      .ok (some (askedSymbols s request)) := by
    rw [scannedSymbols, if_pos rfl, tradeSymbols_live h, hasked]
    rfl
  have hlast : ¬(invocation s request attempt).endMs < startMs := not_lt.mpr hpasses.le
  refine ⟨{
    watermark := if !request.noAdvanceWatermark then
        some (advanceWatermark s.progress.watermark s.clock) else s.progress.watermark
    scans := s.progress.scans ++ [liveScan strategy s request attempt startMs] }, ?_, rfl⟩
  unfold syncDataset
  rw [hcheck]
  refine bind_eq_ok.mpr ⟨(), rfl, bind_eq_ok.mpr ⟨startMs, hpasses.start, ?_⟩⟩
  rw [if_neg hlast, if_neg (not_lt.mpr hpasses.nonneg), hsymbols]
  rfl

theorem syncDataset_live_ok (h : UsesOnlineSymbols strategy) {progress : Progress}
    (hok : syncDataset strategy .trades s.progress (invocation s request attempt) = .ok progress) :
    ∃ startMs, requestStart strategy s request = .ok startMs ∧ (s.clock < startMs ∧
      progress = s.progress ∨ Passes strategy s request startMs) := by
  unfold syncDataset at hok
  obtain ⟨_, hcheck, hok⟩ := bind_eq_ok.mp hok
  obtain ⟨startMs, hstart, hok⟩ := bind_eq_ok.mp hok
  obtain ⟨hst, hrequested⟩ := (checkArgs_live s request attempt).mp hcheck
  refine ⟨startMs, hstart, ?_⟩
  split at hok
  · rename_i hlate
    cases hok
    exact .inl ⟨hlate, rfl⟩
  · rename_i hle
    split at hok
    · cases hok
    · rename_i hneg
      obtain ⟨symbols, hsymbols, -⟩ := bind_eq_ok.mp hok
      refine .inr ⟨hst, hrequested, hstart, not_lt.mp hneg, not_lt.mp hle, fun hempty => ?_⟩
      rw [scannedSymbols, if_pos rfl, tradeSymbols_live h, hempty] at hsymbols
      cases hsymbols

/-- `t` is `s` with one run more. The rows that the run stores are those of the exchange at its own
    time. -/
structure Ran (strategy : Strategy) (fills : List Fill) (s : State) (request : Request)
    (startMs : ℤ) (t : State) : Prop where
  clock : t.clock = s.clock
  runs : t.runs = s.runs ++ [{ startMs, endMs := s.clock, symbols := request.symbol }]
  watermark : t.progress.watermark =
    if request.noAdvanceWatermark then s.progress.watermark else some s.clock
  trades : ∃ attempt, t.trades =
    s.trades ++ fetched fills (liveScan strategy s request attempt startMs)

theorem commit_ran (h : UsesOnlineSymbols strategy) {startMs : ℤ}
    (hpasses : Passes strategy s request startMs) {progress : Progress}
    (hok : syncDataset strategy .trades s.progress (invocation s request attempt) = .ok progress) :
    Ran strategy fills s request startMs (s.commit strategy fills request attempt progress hok) := by
  obtain ⟨progress', hok', hscans⟩ := syncDataset_passes h attempt hpasses
  obtain rfl := Except.ok.inj (hok'.symm.trans hok)
  have hdrop : progress'.scans.drop s.progress.scans.length =
      [liveScan strategy s request attempt startMs] := by
    rw [hscans, List.drop_left]
  refine ⟨rfl, ?_, ?_, attempt, ?_⟩
  · rw [commit_runs, hdrop]
    rfl
  · rcases syncDataset_live strategy hok with hsame | ⟨scan, _, _, hwatermark⟩
    · rw [hsame] at hscans
      simp at hscans
    · exact hwatermark
  · rw [commit_trades, hdrop, List.flatMap_singleton]

theorem runSyncHistory_passes (h : UsesOnlineSymbols strategy) (fills : List Fill)
    (hfailed : attempt.failed = false) {startMs : ℤ} (hpasses : Passes strategy s request startMs) :
    ∃ t, runSyncHistory strategy fills s request attempt = .ok t ∧
      Ran strategy fills s request startMs t := by
  obtain ⟨progress, hok, -⟩ := syncDataset_passes h attempt hpasses
  refine ⟨s.commit strategy fills request attempt progress hok, ?_, commit_ran h hpasses hok⟩
  unfold runSyncHistory
  rw [hfailed, if_neg Bool.false_ne_true]
  split
  · rename_i hok'
    cases hok.symm.trans hok'
  · rename_i hok'
    cases hok.symm.trans hok'
    rfl

/-- A run that exits successfully has scanned, unless it has started past its end. -/
theorem runSyncHistory_ok (h : UsesOnlineSymbols strategy)
    (hok : runSyncHistory strategy fills s request attempt = .ok t) :
    attempt.failed = false ∧ ∃ startMs, requestStart strategy s request = .ok startMs ∧
      (s.clock < startMs ∧ t = s ∨
        Passes strategy s request startMs ∧ Ran strategy fills s request startMs t) := by
  unfold runSyncHistory at hok
  split at hok
  · cases hok
  · rename_i hfailed
    refine ⟨Bool.eq_false_iff.mpr hfailed, ?_⟩
    split at hok
    · cases hok
    · rename_i progress hprogress
      cases hok
      obtain ⟨startMs, hstart, ⟨hlate, hsame⟩ | hpasses⟩ := syncDataset_live_ok h hprogress
      · refine ⟨startMs, hstart, .inl ⟨hlate, ?_⟩⟩
        subst hsame
        simp [State.commit]
      · exact ⟨startMs, hstart, .inr ⟨hpasses, commit_ran h hpasses hprogress⟩⟩

/-! ## What the trades sync of a cycle does -/

/-- Where the trades sync starts. -/
def syncStart (strategy : Strategy) (s : State) : ℤ :=
  s.cursor.elim strategy.stMs fun cursor =>
    max (saturatingSub cursor (30 * 60000)) strategy.stMs

/-- When it looks at the clock; a bootstrap only after the incremental run has given up. -/
def syncTime (s : State) (sync : Attempt) : ℤ :=
  if s.cursor.isSome then s.clock else s.clock + sync.elapsed

def syncFails (s : State) (sync bootstrap : Attempt) : Bool :=
  sync.failed || (s.cursor.isNone && bootstrap.failed)

/-- `t` is `s` after a trades sync that has gone through. -/
structure Synced (strategy : Strategy) (fills : List Fill) (s : State) (symbols : List String)
    (sync : Attempt) (t : State) : Prop where
  started : strategy.stMs ≤ syncTime s sync
  start_le : syncStart strategy s ≤ syncTime s sync
  runs : t.runs = s.runs ++
    [{ startMs := syncStart strategy s, endMs := syncTime s sync, symbols }]
  watermark : t.progress.watermark = some (syncTime s sync)
  trades : ∃ scan : Scan, t.trades = s.trades ++ fetched fills scan ∧
    scan.startMs = syncStart strategy s ∧ scan.endMs = syncTime s sync ∧
    scan.symbols = some (requestedSymbols symbols) ∧
    scan.includeSpot = strategy.includeSpotTrades false

/-- `t` is `s`, later. Only the clock has gone on. -/
structure Idle (s t : State) : Prop where
  clock : s.clock ≤ t.clock
  runs : t.runs = s.runs
  watermark : t.progress.watermark = s.progress.watermark
  trades : t.trades = s.trades

theorem askedSymbols_of_requested {symbols : List String} {full : Bool}
    (hsymbols : requestedSymbols symbols ≠ []) :
    askedSymbols s { symbol := symbols, full } = requestedSymbols symbols :=
  if_neg (mt List.isEmpty_iff.mp hsymbols)

theorem fetched_asked {scan : Scan} {asked : List String} (hsymbols : scan.symbols = some asked) :
    ∀ fill ∈ fetched fills scan, fill ∈ fills ∧ scan.startMs ≤ fill.timeMs ∧
      fill.timeMs ≤ scan.endMs ∧ fill.symbol ∈ asked ∧
      (fill.leg = .derivative ∨ scan.includeSpot = true) := by
  intro fill hfill
  obtain ⟨hmem, hpred⟩ := List.mem_filter.mp hfill
  unfold Scan.covers at hpred
  rw [hsymbols] at hpred
  simp only [Bool.and_eq_true, decide_eq_true_eq, Option.all_some, List.contains_eq_mem,
    Bool.or_eq_true] at hpred
  exact ⟨hmem, hpred.1.1, hpred.1.2, hpred.2.1, hpred.2.2⟩

theorem saturatingSub_le {cursor stMs overlap : ℤ} (hpos : 0 < stMs) (hoverlap : 0 ≤ overlap) :
    max (saturatingSub cursor overlap) stMs ≤ max cursor stMs := by
  unfold saturatingSub i64Min
  omega

theorem runSyncHistory_error (hfailed : attempt.failed = false) {error : String}
    (herror : syncDataset strategy .trades s.progress (invocation s request attempt) =
      .error error) : runSyncHistory strategy fills s request attempt = .error error := by
  unfold runSyncHistory
  rw [hfailed, if_neg Bool.false_ne_true]
  split
  · rename_i herror'
    exact congrArg _ (Except.error.inj (herror'.symm.trans herror))
  · rename_i hok
    cases herror.symm.trans hok

/-- Before `st_ms` there is nothing to ask for. -/
theorem runSyncHistory_early (hfailed : attempt.failed = false) (hearly : s.clock < strategy.stMs) :
    runSyncHistory strategy fills s request attempt = .error "end_ms is earlier than st_ms" := by
  refine runSyncHistory_error hfailed ?_
  have hoverlap : ¬i64Max < ((30 : ℕ) : ℤ) * 60000 := by decide
  have hend : (invocation s request attempt).endMs < strategy.stMs := hearly
  have hcheck : checkArgs strategy .trades (invocation s request attempt) =
      .error "end_ms is earlier than st_ms" := by
    unfold checkArgs
    change (if i64Max < ((30 : ℕ) : ℤ) * 60000 then _ else _) = _
    rw [if_neg hoverlap, if_pos hend]
  unfold syncDataset
  rw [hcheck]
  rfl

theorem runSyncHistory_uninitialized (hfailed : attempt.failed = false)
    (hst : strategy.stMs ≤ s.clock) (hcursor : s.cursor = none) {symbols : List String} :
    runSyncHistory strategy fills s { symbol := symbols } attempt = .error notInitialized := by
  refine runSyncHistory_error hfailed ?_
  have hcheck := (checkArgs_live s { symbol := symbols } attempt).mpr
    ⟨hst, fun v hv => by cases hv⟩
  have hstart : requestStart strategy s { symbol := symbols } = .error notInitialized := by
    have hnone : s.progress.watermark.or s.latest = none := hcursor
    unfold requestStart scanStart
    rw [hnone]
    rfl
  unfold requestStart at hstart
  unfold syncDataset
  rw [hcheck]
  change (scanStart strategy.stMs s.progress.watermark s.latest false none (30 * 60000) >>= _) = _
  rw [hstart]
  rfl

theorem incremental_passes (h : UsesOnlineSymbols strategy) {symbols : List String}
    (hsymbols : requestedSymbols symbols ≠ []) (hst : strategy.stMs ≤ s.clock) {cursor : ℤ}
    (hc : s.cursor = some cursor) :
    Passes strategy s { symbol := symbols } (syncStart strategy s) := by
  have hsome : s.progress.watermark.or s.latest = some cursor := hc
  have hstart : syncStart strategy s =
      max (saturatingSub cursor (30 * 60000)) strategy.stMs := by
    unfold syncStart
    rw [hc]
    rfl
  have hlow : strategy.stMs ≤ syncStart strategy s := hstart ▸ le_max_right _ _
  have hhigh : syncStart strategy s ≤ s.clock := by
    rw [hstart]
    exact (saturatingSub_le h.started (by decide)).trans (max_le (s.cursor_le cursor hc) hst)
  refine ⟨hst, fun v hv => (by cases hv), ?_, h.started.le.trans hlow, hhigh, ?_⟩
  · unfold requestStart scanStart
    rw [hsome, hstart]
    rfl
  · rw [askedSymbols_of_requested hsymbols]
    exact hsymbols

theorem bootstrap_passes (h : UsesOnlineSymbols strategy) {symbols : List String}
    (hsymbols : requestedSymbols symbols ≠ []) (hst : strategy.stMs ≤ s.clock) :
    Passes strategy s { symbol := symbols, full := true } strategy.stMs := by
  refine ⟨hst, fun v hv => (by cases hv), rfl, h.started.le, hst, ?_⟩
  rw [askedSymbols_of_requested hsymbols]
  exact hsymbols

theorem Ran.synced {symbols : List String} {full : Bool} {sync : Attempt} {s' : State}
    (hran : Ran strategy fills s' { symbol := symbols, full } (syncStart strategy s) t)
    (hsymbols : requestedSymbols symbols ≠ []) (hclock : s'.clock = syncTime s sync)
    (hruns : s'.runs = s.runs) (htrades : s'.trades = s.trades)
    (hst : strategy.stMs ≤ syncTime s sync) (hle : syncStart strategy s ≤ syncTime s sync)
    (ms : ℕ) : Synced strategy fills s symbols sync (t.wait ms) := by
  obtain ⟨attempt, hfetched⟩ := hran.trades
  have hasked : askedSymbols s' { symbol := symbols, full } = requestedSymbols symbols :=
    askedSymbols_of_requested hsymbols
  refine ⟨hst, hle, ?_, ?_, liveScan strategy s' { symbol := symbols, full } attempt _, ?_, rfl,
    hclock, congrArg some hasked, rfl⟩
  · rw [← hclock, ← hruns]
    exact hran.runs
  · rw [← hclock]
    exact hran.watermark
  · rw [← htrades]
    exact hfetched

/-- What the trades sync does: nothing, or a scan. -/
theorem runIncrementalOrBootstrap_cases (h : UsesOnlineSymbols strategy) {symbols : List String}
    (hsymbols : requestedSymbols symbols ≠ []) (s : State) (sync bootstrap : Attempt) :
    ((syncFails s sync bootstrap ∨ s.clock < strategy.stMs) ∧
      Idle s (runIncrementalOrBootstrap strategy fills s symbols sync bootstrap)) ∨
    (syncFails s sync bootstrap = false ∧ strategy.stMs ≤ s.clock ∧
      Synced strategy fills s symbols sync
        (runIncrementalOrBootstrap strategy fills s symbols sync bootstrap)) := by
  have hidle : ∀ ms, Idle s (s.wait ms) := fun ms =>
    ⟨le_add_of_nonneg_right (Int.natCast_nonneg ms), rfl, rfl, rfl⟩
  have hexit : ∀ (s : State) request (attempt : Attempt), attempt.failed = true →
      runSyncHistory strategy fills s request attempt =
        .error "sync_history exited with a failure" := fun _ _ _ hfailed => if_pos hfailed
  unfold runIncrementalOrBootstrap
  cases hfailed : sync.failed with
  | true =>
    rw [hexit _ _ _ hfailed]
    dsimp only
    rw [if_neg (by decide)]
    exact .inl ⟨.inl (by rw [syncFails, hfailed]; rfl), hidle _⟩
  | false =>
    by_cases hearly : s.clock < strategy.stMs
    · rw [runSyncHistory_early hfailed hearly]
      dsimp only
      rw [if_neg (by decide)]
      exact .inl ⟨.inr hearly, hidle _⟩
    · have hst := not_lt.mp hearly
      cases hc : s.cursor with
      | some cursor =>
        have htime : s.clock = syncTime s sync := (if_pos (by rw [hc]; rfl)).symm
        have hpasses := incremental_passes h hsymbols hst hc
        obtain ⟨t, hok, hran⟩ := runSyncHistory_passes h fills hfailed hpasses
        rw [hok]
        exact .inr ⟨by rw [syncFails, hfailed, hc]; rfl, hst,
          hran.synced hsymbols htime rfl rfl (htime ▸ hst) (htime ▸ hpasses.le) _⟩
      | none =>
        rw [runSyncHistory_uninitialized hfailed hst hc]
        dsimp only
        rw [if_pos rfl]
        cases hboot : bootstrap.failed with
        | true =>
          rw [hexit _ _ _ hboot]
          refine .inl ⟨.inl (by rw [syncFails, hboot, hc]; simp), ?_, rfl, rfl, rfl⟩
          exact (hidle sync.elapsed).clock.trans
            (le_add_of_nonneg_right (Int.natCast_nonneg bootstrap.elapsed))
        | false =>
          have htime : (s.wait sync.elapsed).clock = syncTime s sync :=
            (if_neg (by rw [hc]; decide)).symm
          have hstart : strategy.stMs = syncStart strategy s := by
            unfold syncStart
            rw [hc]
            rfl
          have hpasses := bootstrap_passes (s := s.wait sync.elapsed) h hsymbols
            (hst.trans (hidle sync.elapsed).clock)
          obtain ⟨t, hok, hran⟩ := runSyncHistory_passes h fills hboot hpasses
          rw [hok]
          refine .inr ⟨by rw [syncFails, hfailed, hboot]; simp, hst, ?_⟩
          rw [hstart] at hran
          exact hran.synced hsymbols htime rfl rfl (htime ▸ hpasses.started)
            (htime ▸ hstart ▸ hpasses.le) _

end

end CryptoNav.Live
