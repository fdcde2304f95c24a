import Mathlib.Data.Int.Order.Lemmas
import CryptoNav.Lib.Runs

/-!
# The history watermark

A successful run of `sync_history` on one dataset of one strategy scans a range and, unless it is
told not to, raises the watermark to the end of the range; the next incremental run starts from
there. What has been scanned so far and when is not stored by the program: `scans` is kept beside
the watermark so that a statement about runs can say what was asked for.

Which rows come back is left out, only which symbols and legs are asked for; so are the requests
into which the exchange's client cuts a range, and a run that fails, which leaves the watermark
alone. The watermark itself says less than it seems to: `watermark_leaves_gaps` has four kinds of
runs after which some time below it was never asked for. From where on, and of which symbols and
legs, nothing is missing is `watermark_contiguous`.
-/

set_option autoImplicit false

namespace CryptoNav.History

open CryptoNav.Lib

inductive Dataset where
  | trades
  | funding
  | interest
  | rebates
  | liquidations
  deriving DecidableEq

inductive StrategyClass where
  | fr
  | intra
  | mm
  deriving DecidableEq

inductive Leg where
  | spot
  | derivative
  deriving DecidableEq

structure Strategy where
  exchange : String
  accountMode : String
  strategyKind : String
  class' : StrategyClass
  stMs : ℤ

namespace Strategy

def isRapidx (strategy : Strategy) : Bool := strategy.accountMode = "rapidx"

def includeSpotTrades (strategy : Strategy) (derivativesOnly : Bool) : Bool :=
  !derivativesOnly &&
    (strategy.class' ≠ .mm || (strategy.isRapidx && decide (strategy.strategyKind = "cta")))

def supports (strategy : Strategy) (dataset : Dataset) : Bool :=
  if strategy.isRapidx then [.trades, .funding, .interest].contains dataset
  else match dataset with
    | .trades | .funding => true
    | .interest => strategy.class' ≠ .mm
    | .rebates => strategy.exchange = "binance" && decide (strategy.class' = .intra)
    | .liquidations =>
      ["binance", "gate"].contains strategy.exchange && decide (strategy.class' = .fr)

end Strategy

/-- The arguments that concern one dataset of one strategy. The parser takes `full` and `startMs`
    for conflicting. -/
structure Args where
  full : Bool := false
  startMs : Option ℤ := none
  overlapMinutes : ℕ := 30
  endMs : Option ℤ := none
  symbol : List String := []
  noAdvanceWatermark : Bool := false
  derivativesOnly : Bool := false

/-- A run: its arguments, and what it finds. -/
structure Invocation where
  args : Args
  /-- The clock at the start, and how much later the exchange is asked. -/
  nowMs : ℤ
  elapsed : ℕ := 0
  /-- `latest_dataset_time` -/
  latest : Option ℤ := none
  storedSymbols : List String := []
  /-- Symbols that the exchange calls invalid. -/
  invalidSymbols : List String := []

def Invocation.endMs (run : Invocation) : ℤ := run.args.endMs.getD run.nowMs

def Invocation.executedAt (run : Invocation) : ℤ := run.nowMs + run.elapsed

/-! ## What is scanned -/

structure Scan where
  startMs : ℤ
  endMs : ℤ
  executedAt : ℤ
  /-- Of which symbols; all of them if there is no list. -/
  symbols : Option (List String)
  includeSpot : Bool
  full : Bool
  advanced : Bool
  /-- The run that scanned. -/
  run : Invocation

def Scan.covers (scan : Scan) (part : String × Leg) : Bool :=
  scan.symbols.all (·.contains part.1) && (decide (part.2 = .derivative) || scan.includeSpot)

def trim (s : List Char) : List Char :=
  ((s.dropWhile Char.isWhitespace).reverse.dropWhile Char.isWhitespace).reverse

/-- The source asks Unicode for blanks and capitals. Here only the letters of ASCII have capitals, and
blanks, tabs and line ends are what is trimmed; every other character is kept. -/
def normalizeSymbol (value : String) : String :=
  .ofList (((trim value.toList).filter fun c => c ≠ '-' && c ≠ '_').map Char.toUpper)

def requestedSymbols (requested : List String) : List String :=
  (requested.map normalizeSymbol).filter (·≠ "")

/-- `load_trade_symbols` and the loop of `fetch_trades`: the symbols for which trades are asked. -/
def tradeSymbols (strategy : Strategy) (run : Invocation) : Except String (Option (List String)) :=
  let requested := requestedSymbols run.args.symbol
  if strategy.exchange ≠ "binance" then .ok none
  else if strategy.isRapidx then .ok (if requested.isEmpty then none else some requested)
  else
    let symbols := if requested.isEmpty then run.storedSymbols.map normalizeSymbol else requested
    if symbols.isEmpty then .error "no stored Binance symbols; pass one or more --symbol values"
    else .ok (some (symbols.filter fun symbol => !run.invalidSymbols.contains symbol))

def scannedSymbols (strategy : Strategy) (dataset : Dataset) (run : Invocation) :
    Except String (Option (List String)) :=
  if dataset = .trades then tradeSymbols strategy run else .ok none

/-! ## One run -/

def i64Min : ℤ := -2 ^ 63

def i64Max : ℤ := 2 ^ 63 - 1

def saturatingSub (a b : ℤ) : ℤ := max (a - b) i64Min

def scanStart (stMs : ℤ) (watermark latest : Option ℤ) (full : Bool)
    (requestedStartMs : Option ℤ) (overlapMs : ℤ) : Except String ℤ :=
  match requestedStartMs with
  | some startMs => .ok startMs
  | none =>
    if full then .ok stMs
    else match watermark.or latest with
      | some cursor => .ok (max (saturatingSub cursor overlapMs) stMs)
      | none => .error "no successful scan watermark or stored rows; run once with --full"

structure Progress where
  watermark : Option ℤ := none
  scans : List Scan := []

/-- `GREATEST(history_sync_watermarks.success_end_ms, EXCLUDED.success_end_ms)` -/
def advanceWatermark (watermark : Option ℤ) (endMs : ℤ) : ℤ := watermark.elim endMs (max · endMs)

/-- The checks of `main`. -/
def checkArgs (strategy : Strategy) (dataset : Dataset) (run : Invocation) : Except String Unit :=
  if i64Max < (run.args.overlapMinutes : ℤ) * 60000 then .error "overlap minutes overflow"
  else if run.endMs < strategy.stMs then .error "end_ms is earlier than st_ms"
  else if run.args.startMs.any (· < strategy.stMs) then .error "start_ms is earlier than st_ms"
  else if run.args.startMs.any (run.endMs < ·) then .error "start_ms is later than end_ms"
  else if !strategy.supports dataset then .error "does not support the dataset"
  else .ok ()

/-- `sync_dataset` -/
def syncDataset (strategy : Strategy) (dataset : Dataset) (s : Progress) (run : Invocation) :
    Except String Progress := do
  checkArgs strategy dataset run
  let startMs ← scanStart strategy.stMs s.watermark run.latest run.args.full run.args.startMs
    (run.args.overlapMinutes * 60000)
  if run.endMs < startMs then .ok s
  else if startMs < 0 then .error "start_ms must not be negative"
  else
    let symbols ← scannedSymbols strategy dataset run
    let advanced := !run.args.noAdvanceWatermark
    let scan : Scan :=
      { startMs, endMs := run.endMs, executedAt := run.executedAt, symbols
        includeSpot := decide (dataset ≠ .trades) ||
          strategy.includeSpotTrades run.args.derivativesOnly
        full := run.args.full && run.args.startMs.isNone, advanced, run }
    .ok { watermark :=
            if advanced then some (advanceWatermark s.watermark run.endMs) else s.watermark
          scans := s.scans ++ [scan] }

/-- What a run does. -/
theorem syncDataset_cases {strategy : Strategy} {dataset : Dataset} {s s' : Progress}
    {run : Invocation} (h : syncDataset strategy dataset s run = .ok s') : s' = s ∨
    ∃ scan : Scan, 0 ≤ scan.startMs ∧ scan.startMs ≤ scan.endMs ∧ scan.endMs = run.endMs ∧
      scan.executedAt = run.executedAt ∧ strategy.stMs ≤ run.endMs ∧
      scanStart strategy.stMs s.watermark run.latest run.args.full run.args.startMs
        (run.args.overlapMinutes * 60000) = .ok scan.startMs ∧
      scan.advanced = !run.args.noAdvanceWatermark ∧
      scan.full = (run.args.full && run.args.startMs.isNone) ∧ scan.run = run ∧
      s'.scans = s.scans ++ [scan] ∧
      s'.watermark = if scan.advanced then some (advanceWatermark s.watermark scan.endMs)
        else s.watermark := by
  unfold syncDataset at h
  obtain ⟨_, hcheck, h⟩ := bind_eq_ok.mp h
  obtain ⟨startMs, hstart, h⟩ := bind_eq_ok.mp h
  have hend : strategy.stMs ≤ run.endMs := by
    unfold checkArgs at hcheck
    split at hcheck
    · cases hcheck
    · split at hcheck
      · cases hcheck
      · exact not_lt.mp ‹_›
  split at h
  · cases h
    exact .inl rfl
  · split at h
    · cases h
    · rename_i hle hpos
      obtain ⟨symbols, -, h⟩ := bind_eq_ok.mp h
      cases h
      exact .inr ⟨_, not_lt.mp hpos, not_lt.mp hle, rfl, rfl, hend, hstart, rfl, rfl, rfl, rfl,
        rfl⟩

/-! ## What the watermark says -/

/-- Somewhere among the scans `m` was asked for, on every one of the parts, when it had come. A scan
    of the future has not asked for what had not happened yet. -/
def Scanned (parts : List (String × Leg)) (s : Progress) (m : ℤ) : Prop :=
  ∃ scan ∈ s.scans, scan.startMs ≤ m ∧ m ≤ scan.endMs ∧ (∀ part ∈ parts, scan.covers part) ∧
    m ≤ scan.executedAt

/-- Everything from `st_ms` to the watermark is scanned. -/
def Contiguous (strategy : Strategy) (parts : List (String × Leg)) (s : Progress) : Prop :=
  ∀ E ∈ s.watermark, ∀ m, strategy.stMs ≤ m → m ≤ E → Scanned parts s m

/-- Where the progress starts: the first scan that raised the watermark. -/
def Progress.first (s : Progress) : Option Scan := s.scans.find? (·.advanced)

/-- Where a run starts that finds no watermark: at `st_ms` if it is a full one, at the start that is
asked for, or at the newest stored row less the overlap. -/
structure Scan.Begins (strategy : Strategy) (first : Scan) : Prop where
  full : first.full → first.startMs = strategy.stMs
  requested : ∀ startMs ∈ first.run.args.startMs, first.startMs = startMs
  seeded : first.run.args.full = false → first.run.args.startMs = none →
    ∃ latest ∈ first.run.latest, first.startMs =
      max (latest - first.run.args.overlapMinutes * 60000) strategy.stMs

/-- A run that raises the watermark joins up with it, and does not scan the future. Without an
    explicit start a run begins where the watermark is, or earlier. -/
def Joins (s : Progress) (run : Invocation) : Prop :=
  run.args.noAdvanceWatermark = false →
    (∀ startMs ∈ run.args.startMs, ∀ W ∈ s.watermark, startMs ≤ W + 1) ∧
      run.endMs ≤ run.executedAt

/-- The scans that raised the watermark leave no gap up to it. Where the first of them started is
    kept, as nothing before it was ever asked for. -/
def Gapless (strategy : Strategy) (s : Progress) : Prop :=
  match s.watermark with
  | none => s.first = none
  | some E => strategy.stMs ≤ E ∧ ∃ first, s.first = some first ∧
      first.Begins strategy ∧ ∀ m, first.startMs ≤ m → m ≤ E →
        ∃ scan ∈ s.scans, scan.advanced ∧ scan.startMs ≤ m ∧ m ≤ scan.endMs ∧ m ≤ scan.executedAt

/-- A run that does not start past the watermark scans from there on at the latest. -/
theorem scanStart_le {stMs W startMs overlapMs : ℤ} {latest requested : Option ℤ} {full : Bool}
    (h : scanStart stMs (some W) latest full requested overlapMs = .ok startMs)
    (hoverlap : 0 ≤ overlapMs) (hst : stMs ≤ W) (hpos : 0 ≤ startMs)
    (hrequested : ∀ startMs ∈ requested, startMs ≤ W + 1) : startMs ≤ W + 1 := by
  unfold scanStart at h
  split at h
  · cases h
    exact hrequested startMs rfl
  · split at h
    · cases h
      omega
    · -- A negative `i64::MIN` is not what the range starts with.
      have hcursor : max (saturatingSub W overlapMs) stMs = startMs := Except.ok.inj h
      unfold saturatingSub i64Min at hcursor
      omega

theorem scanStart_full {stMs startMs overlapMs : ℤ} {watermark latest requested : Option ℤ}
    {full : Bool} (h : scanStart stMs watermark latest full requested overlapMs = .ok startMs)
    (hfull : (full && requested.isNone) = true) : startMs = stMs := by
  rw [Bool.and_eq_true_iff, Option.isNone_iff_eq_none] at hfull
  obtain ⟨rfl, rfl⟩ := hfull
  exact (Except.ok.inj h).symm

/-- Without a watermark and without being told, a run goes back from the newest stored row. -/
theorem scanStart_seeded {stMs startMs overlapMs : ℤ} {latest : Option ℤ}
    (h : scanStart stMs none latest false none overlapMs = .ok startMs) (hpos : 0 ≤ startMs) :
    ∃ cursor ∈ latest, startMs = max (cursor - overlapMs) stMs := by
  unfold scanStart at h
  cases latest with
  | none => cases h
  | some cursor =>
    have hcursor : max (saturatingSub cursor overlapMs) stMs = startMs := Except.ok.inj h
    -- Where the difference saturates, `st_ms` is what counts.
    unfold saturatingSub i64Min at hcursor
    exact ⟨cursor, rfl, by omega⟩

/-- A scan that does not raise the watermark changes nothing about the ones that did. -/
theorem Gapless.append {strategy : Strategy} {s s' : Progress} (h : Gapless strategy s) {scan : Scan}
    (hscan : scan.advanced = false) (hscans : s'.scans = s.scans ++ [scan])
    (hwatermark : s'.watermark = s.watermark) : Gapless strategy s' := by
  have hfirst : s'.first = s.first := by
    unfold Progress.first
    rw [hscans, List.find?_append, List.find?_singleton, hscan]
    exact Option.or_none
  unfold Gapless at h ⊢
  rw [hwatermark, hfirst, hscans]
  cases hW : s.watermark with
  | none =>
    rw [hW] at h
    exact h
  | some W =>
    rw [hW] at h
    obtain ⟨hst, first, hf, hfull, hgap⟩ := h
    refine ⟨hst, first, hf, hfull, fun m hlo hhi => ?_⟩
    obtain ⟨scan', hmem, hrest⟩ := hgap m hlo hhi
    exact ⟨scan', List.mem_append_left _ hmem, hrest⟩

/-- **The step lemma.** -/
theorem Gapless.step {strategy : Strategy} {dataset : Dataset} {s s' : Progress} {run : Invocation}
    (h : Gapless strategy s) (hjoins : Joins s run)
    (hstep : syncDataset strategy dataset s run = .ok s') : Gapless strategy s' := by
  rcases syncDataset_cases hstep with rfl | ⟨scan, hpos, hle, hend, hexec, hst, hstart, hadvanced,
    hfull, hown, hscans, hwatermark⟩
  · exact h
  cases hno : run.args.noAdvanceWatermark with
  | true =>
    rw [hno] at hadvanced
    rw [hadvanced] at hwatermark
    exact h.append hadvanced hscans hwatermark
  | false =>
    obtain ⟨hrequested, hpast⟩ := hjoins hno
    rw [hno] at hadvanced
    rw [hadvanced] at hwatermark
    replace hwatermark : s'.watermark = some (advanceWatermark s.watermark scan.endMs) := hwatermark
    have hself : ∀ m, scan.startMs ≤ m → m ≤ scan.endMs → ∃ scan ∈ s'.scans, scan.advanced ∧
        scan.startMs ≤ m ∧ m ≤ scan.endMs ∧ m ≤ scan.executedAt := fun m hlo hhi =>
      ⟨scan, by rw [hscans]; exact List.mem_append_right _ (List.mem_singleton.mpr rfl), hadvanced,
        hlo, hhi, by omega⟩
    unfold Gapless at h ⊢
    rw [hwatermark]
    cases hW : s.watermark with
    | none =>
      rw [hW] at h hstart
      have hbegins : scan.Begins strategy := by
        subst hown
        refine ⟨fun hf => scanStart_full hstart (hfull ▸ hf), fun startMs hrequest => ?_,
          fun hfull hrequest => ?_⟩
        · rw [Option.mem_def.mp hrequest] at hstart
          exact (Except.ok.inj hstart).symm
        · rw [hfull, hrequest] at hstart
          exact scanStart_seeded hstart hpos
      refine ⟨by change strategy.stMs ≤ scan.endMs; omega, scan, ?_, hbegins, hself⟩
      unfold Progress.first at h ⊢
      rw [hscans, List.find?_append, h, List.find?_singleton, hadvanced]
      rfl
    | some W =>
      rw [hW] at h hstart hrequested
      obtain ⟨hWst, first, hf, hff, hgap⟩ := h
      have hjoin : scan.startMs ≤ W + 1 := scanStart_le hstart (by omega) hWst hpos
        fun startMs hs => hrequested startMs hs W rfl
      refine ⟨hWst.trans (le_max_left W scan.endMs), first, ?_, hff, fun m hlo hhi => ?_⟩
      · unfold Progress.first at hf ⊢
        rw [hscans, List.find?_append, hf]
        rfl
      · replace hhi : m ≤ max W scan.endMs := hhi
        by_cases hm : m ≤ W
        · obtain ⟨scan', hmem, hrest⟩ := hgap m hlo hm
          exact ⟨scan', by rw [hscans]; exact List.mem_append_left _ hmem, hrest⟩
        · exact hself m (by omega) (by omega)

/-- **The watermark is contiguous** from where the first run that raised it started, on the symbols
    and legs that every run which raised it asked for. Where that is depends on how the run was
    started (`Scan.Begins`). -/
theorem watermark_contiguous {strategy : Strategy} {dataset : Dataset} {runs : List Invocation}
    {s : Progress} (hjoins : Throughout (syncDataset strategy dataset) Joins {} runs)
    (hrun : runs.foldlM (syncDataset strategy dataset) {} = .ok s) {parts : List (String × Leg)}
    (hparts : ∀ scan ∈ s.scans, scan.advanced → ∀ part ∈ parts, scan.covers part) :
    ∀ E ∈ s.watermark, ∃ first, s.first = some first ∧ first.Begins strategy ∧
      ∀ m, first.startMs ≤ m → m ≤ E → Scanned parts s m := by
  have hgapless : Gapless strategy s := run_throughout (Q := Gapless strategy)
    (fun _ _ _ h hP hstep => h.step hP hstep) (show Gapless strategy {} from rfl) hjoins hrun
  intro E hE
  unfold Gapless at hgapless
  rw [Option.mem_def.mp hE] at hgapless
  obtain ⟨-, first, hfirst, hbegins, hgap⟩ := hgapless
  refine ⟨first, hfirst, hbegins, fun m hlo hhi => ?_⟩
  obtain ⟨scan, hmem, hadvanced, hstart, hend, hexec⟩ := hgap m hlo hhi
  exact ⟨scan, hmem, hstart, hend, hparts scan hmem hadvanced, hexec⟩

/-! ## Four ways to leave a gap -/

/-- Some time up to the watermark is not scanned. No scan at all has it, whether it raised the
    watermark or not. -/
def Gap (strategy : Strategy) (parts : List (String × Leg)) (m : ℤ) (s : Progress) : Prop :=
  ∃ E ∈ s.watermark, strategy.stMs ≤ m ∧ m ≤ E ∧ ∀ scan ∈ s.scans,
    ¬(scan.startMs ≤ m ∧ m ≤ scan.endMs ∧ (∀ part ∈ parts, scan.covers part) ∧ m ≤ scan.executedAt)

theorem Gap.not_contiguous {strategy : Strategy} {parts : List (String × Leg)} {m : ℤ} {s : Progress}
    (h : Gap strategy parts m s) : ¬Contiguous strategy parts s := by
  obtain ⟨E, hE, hlo, hhi, hnone⟩ := h
  intro hcontiguous
  obtain ⟨scan, hmem, hscanned⟩ := hcontiguous E hE m hlo hhi
  exact hnone scan hmem hscanned

instance {strategy : Strategy} {parts : List (String × Leg)} {m : ℤ} :
    DecidablePred (Gap strategy parts m) := fun s =>
  inferInstanceAs (Decidable (∃ E ∈ s.watermark, _))

/-- An FR strategy since the millisecond 1000000. -/
def frStrategy (exchange : String) : Strategy :=
  { exchange, accountMode := "portfolio_margin", strategyKind := "funding_rate", class' := .fr,
    stMs := 1000000 }

/-- Runs after which a time up to the watermark is not scanned. -/
def LeavesGap (strategy : Strategy) (parts : List (String × Leg)) (runs : List Invocation) : Prop :=
  Yields (runs.foldlM (syncDataset strategy .trades) {}) fun s => ¬Contiguous strategy parts s

theorem leavesGap {strategy : Strategy} {parts : List (String × Leg)} {runs : List Invocation}
    (m : ℤ) (h : Yields (runs.foldlM (syncDataset strategy .trades) {}) (Gap strategy parts m)) :
    LeavesGap strategy parts runs := by
  obtain ⟨s, hrun, hgap⟩ := h
  exact ⟨s, hrun, hgap.not_contiguous⟩

/-- A first incremental run starts at the newest stored row, a run for one symbol raises the
    watermark of all, a repair starts past the watermark, and an end may lie in the future. -/
theorem watermark_leaves_gaps :
    LeavesGap (frStrategy "gate") [("BTCUSDT", .derivative)]
      [{ args := {}, nowMs := 9000000, latest := some 5000000 }] ∧
    LeavesGap (frStrategy "binance") [("BTCUSDT", .derivative), ("ETHUSDT", .derivative)]
      [{ args := { full := true, symbol := ["BTCUSDT"] }, nowMs := 9000000 }] ∧
    LeavesGap (frStrategy "gate") [("BTCUSDT", .derivative)]
      [{ args := { full := true }, nowMs := 2000000 },
        { args := { startMs := some 5000000 }, nowMs := 9000000 }] ∧
    LeavesGap (frStrategy "gate") [("BTCUSDT", .derivative)]
      [{ args := { full := true, endMs := some 9000000 }, nowMs := 2000000 }] :=
  ⟨leavesGap 1000000 (by decide +kernel), leavesGap 1000000 (by decide +kernel),
    leavesGap 3000000 (by decide +kernel), leavesGap 3000000 (by decide +kernel)⟩

/-! ## A full run and what follows it -/

instance (s : Progress) (run : Invocation) : Decidable (Joins s run) :=
  inferInstanceAs (Decidable (run.args.noAdvanceWatermark = false → _))

/-- A full run, an incremental one, and a repair of one symbol that does not raise the watermark. -/
def regularRuns : List Invocation :=
  [{ args := { full := true, symbol := ["BTCUSDT", "ETHUSDT"] }, nowMs := 2000000 },
    { args := {}, nowMs := 4000000, elapsed := 100, storedSymbols := ["BTCUSDT", "ETHUSDT"] },
    { args := { startMs := some 5000000, symbol := ["ETHUSDT"], noAdvanceWatermark := true },
      nowMs := 9000000 }]

theorem watermark_contiguous_regular : ∃ s,
    regularRuns.foldlM (syncDataset (frStrategy "binance") .trades) {} = .ok s ∧
      s.watermark = some 4000000 ∧ ∃ first, s.first = some first ∧
        first.Begins (frStrategy "binance") ∧ ∀ m, first.startMs ≤ m → m ≤ 4000000 →
          Scanned [("BTCUSDT", .spot), ("ETHUSDT", .derivative)] s m := by
  have hjoins : Throughout (syncDataset (frStrategy "binance") .trades) Joins {} regularRuns := by
    decide +kernel
  have hruns : Yields (regularRuns.foldlM (syncDataset (frStrategy "binance") .trades) {}) fun s =>
      s.watermark = some 4000000 ∧ ∀ scan ∈ s.scans, scan.advanced →
        ∀ part ∈ [("BTCUSDT", Leg.spot), ("ETHUSDT", .derivative)], scan.covers part := by
    decide +kernel
  obtain ⟨s, hrun, hwatermark, hparts⟩ := hruns
  exact ⟨s, hrun, hwatermark, watermark_contiguous hjoins hrun hparts 4000000 hwatermark⟩

end CryptoNav.History
