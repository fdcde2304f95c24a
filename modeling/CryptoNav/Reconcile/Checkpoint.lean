import CryptoNav.History.Watermark
import CryptoNav.Lib.Balance
import CryptoNav.Reconcile.Groups

/-!
# The alignment checkpoint

A run of `reconcile_rocksdb` compares the fills of a window and moves the checkpoint of its strategy to
the end of the window if all groups match. The next window starts a little before the checkpoint, never
after it, so the windows of the runs that moved it leave no hole (`checkpoint_contiguous`).

The reports are written after the checkpoint has been moved. A run that cannot write them fails, and
the checkpoint stays where it has been moved to (`failed_run_advances`).

Locks, arguments and what is printed are left out. Two runs at a time for one strategy are kept
apart by a lock of the source, so runs follow each other. What a comparison compares is in
`Groups`; that the sync of the trades before it returned is an input of the run.
-/

set_option autoImplicit false

namespace CryptoNav.Reconcile

open CryptoNav.Lib
open CryptoNav.History (i64Min i64Max saturatingSub)

/-- A row of `rocksdb_alignment_checkpoints`, with the checks of the table. -/
structure Checkpoint where
  alignedFromMs : ℤ
  verifiedThroughMs : ℤ
  aligned_pos : 0 < alignedFromMs
  aligned_le : alignedFromMs ≤ verifiedThroughMs

/-- `verified_through_ms=GREATEST(verified_through_ms,$2)` -/
def Checkpoint.advance (checkpoint : Checkpoint) (endMs : ℤ) : Checkpoint :=
  { checkpoint with
    verifiedThroughMs := max checkpoint.verifiedThroughMs endMs
    aligned_le := checkpoint.aligned_le.trans (le_max_left _ _) }

structure Args where
  settlementGapMinutes : ℤ := 10
  overlapMinutes : ℤ := 5
  baselineMinutes : ℤ := 60
  endMs : Option ℤ := none
  qtyEpsilon : Float := 1e-8
  relEpsilon : Float := 1e-9
  skipSync : Bool := false

def nonNegative (name : String) (value : ℤ) : Except String Unit :=
  if value < 0 then .error s!"--{name} must be non-negative" else .ok ()

def finiteNonNegative (name : String) (value : Float) : Except String Unit :=
  if !value.isFinite || value < 0 then .error s!"--{name} must be finite and non-negative"
  else .ok ()

def validateArgs (args : Args) : Except String Unit := do
  nonNegative "settlement-gap-minutes" args.settlementGapMinutes
  nonNegative "overlap-minutes" args.overlapMinutes
  nonNegative "baseline-minutes" args.baselineMinutes
  finiteNonNegative "qty-epsilon" args.qtyEpsilon
  finiteNonNegative "rel-epsilon" args.relEpsilon

/-- An `i64` if it is in range. -/
def checked (value : ℤ) (context : String) : Except String ℤ :=
  if i64Min ≤ value ∧ value ≤ i64Max then .ok value else .error context

inductive Phase where
  | loadingWatermark
  | syncingTrades
  | exportingPg
  | exportingOrders
  | comparing
  deriving DecidableEq

/-- What became of the statement that moves the checkpoint. Where the answer is lost, it has been
    moved. -/
inductive Update where
  | applied
  | refused (error : String)
  | lost (error : String)

/-- What a run meets outside: the database, the tools it calls and the file system. -/
structure World where
  startStatus : Except String Unit := .ok ()
  /-- The PostgreSQL trades watermark, before and after the sync. -/
  watermark : Except String (Option ℤ)
  refreshed : Except String (Option ℤ)
  setPhase : Phase → Except String Unit := fun _ => .ok ()
  syncTrades : ℤ → ℤ → Except String Unit := fun _ _ => .ok ()
  createDir : Except String Unit := .ok ()
  exportPg : ℤ → ℤ → Except String (List PgTradeRow)
  exportOrders : ℤ → ℤ → Except String (List UniformRow × List UnmatchedRow)
  tradeExclusions : Except String (List (String × String)) := .ok []
  update : Update := .applied
  writeGroups : Except String Unit := .ok ()
  completeStatus : Except String Unit := .ok ()
  writeSummary : Except String Unit := .ok ()

structure Run where
  args : Args
  nowMs : ℤ
  world : World

/-- `load_checkpoint` of a strategy that has a checkpoint: its watermark. -/
def loadWatermark (strategy : String) (answer : Except String (Option ℤ)) : Except String ℤ := do
  match ← answer with
  | some successEndMs => .ok successEndMs
  | none => .error s!"missing checkpoint or PostgreSQL trades watermark: {strategy}"

def candidateEnd (run : Run) : Except String ℤ := do
  let gapMs ← checked (run.args.settlementGapMinutes * 60000) "settlement gap overflow"
  let latestEndMs := run.nowMs - gapMs
  return min (run.args.endMs.getD latestEndMs) latestEndMs

def scanStart (checkpoint : Checkpoint) (overlapMs : ℤ) : ℤ :=
  max checkpoint.alignedFromMs ((checkpoint.verifiedThroughMs - overlapMs).tdiv 60000 * 60000)

/-- The window of a run: it is not empty, and PostgreSQL covers it. -/
structure Window where
  candidateEndMs : ℤ
  scanStartMs : ℤ
  actualEndMs : ℤ
  pgSuccessEndMs : ℤ
  syncError : Option String
  start_le : scanStartMs ≤ actualEndMs
  end_le : actualEndMs ≤ pgSuccessEndMs

/-- A sync that fails does not end the run. -/
def syncTrades (run : Run) (scanStartMs candidateEndMs : ℤ) : Except String (Option String) :=
  if run.args.skipSync then .ok none
  else do
    run.world.setPhase .syncingTrades
    match run.world.syncTrades scanStartMs candidateEndMs with
    | .ok _ => return none
    | .error error => return some error

def actualWindow (candidateEndMs scanStartMs pgSuccessEndMs : ℤ) (syncError : Option String) :
    Except String Window :=
  if h : min candidateEndMs pgSuccessEndMs < scanStartMs then
    .error s!"PostgreSQL watermark {pgSuccessEndMs} is before scan start {scanStartMs}"
  else .ok {
    candidateEndMs, scanStartMs, pgSuccessEndMs, syncError
    actualEndMs := min candidateEndMs pgSuccessEndMs
    start_le := not_lt.mp h
    end_le := min_le_right _ _ }

/-- `reconcile` as far as the window. -/
def window (strategy : String) (checkpoint : Checkpoint) (run : Run) : Except String Window := do
  validateArgs run.args
  let candidateEndMs ← candidateEnd run
  run.world.startStatus
  let _ ← loadWatermark strategy run.world.watermark
  let overlapMs ← checked (run.args.overlapMinutes * 60000) "overlap overflow"
  run.world.setPhase .loadingWatermark
  let scanStartMs := scanStart checkpoint overlapMs
  let syncError ← syncTrades run scanStartMs candidateEndMs
  let pgSuccessEndMs ← loadWatermark strategy run.world.refreshed
  actualWindow candidateEndMs scanStartMs pgSuccessEndMs syncError

/-- What a run has compared, and of which window. -/
structure Comparison where
  window : Window
  pg : Groups
  uniform : Groups
  unmatched : Groups
  unmatchedRepresented : ℕ
  unmatchedOnly : ℕ
  groups : List GroupReport

def Comparison.mismatchCount (comparison : Comparison) : ℕ :=
  (comparison.groups.filter fun row => row.status = .mismatch).length

def compareWindow (strategy : String) (checkpoint : Checkpoint) (run : Run) (window : Window) :
    Except String Comparison := do
  let args := run.args
  let world := run.world
  world.createDir
  world.setPhase .exportingPg
  let pgRows ← world.exportPg window.scanStartMs window.actualEndMs
  let baselineMs ← checked (args.baselineMinutes * 60000) "baseline overflow"
  let exportStartMs := max checkpoint.alignedFromMs (saturatingSub window.scanStartMs baselineMs)
  world.setPhase .exportingOrders
  let (uniformRows, unmatchedRows) ← world.exportOrders exportStartMs window.actualEndMs
  world.setPhase .comparing
  let symbols := selectedSymbols strategy
  let exclusions ← (← world.tradeExclusions).mapM fun (market, orderId) =>
    return (← Market.fromAlignmentName market, orderId)
  let pg ← pgGroups pgRows window.scanStartMs window.actualEndMs symbols exclusions
  let startUs ← checked (window.scanStartMs * 1000) "start microseconds overflow"
  let endUs ← checked (window.actualEndMs * 1000) "end microseconds overflow"
  let endUs ← checked (endUs + 999) "end microseconds overflow"
  let (uniform, clientIds) ← uniformGroups uniformRows startUs endUs args.qtyEpsilon symbols
  let (unmatched, unmatchedRepresented, unmatchedOnly) ←
    unmatchedGroups unmatchedRows startUs endUs args.qtyEpsilon clientIds symbols
  let groups := compareGroups pg uniform unmatched args.qtyEpsilon args.relEpsilon
  return { window, pg, uniform, unmatched, unmatchedRepresented, unmatchedOnly, groups }

/-- The part of `reconcile` that moves nothing. -/
def compare (strategy : String) (checkpoint : Checkpoint) (run : Run) :
    Except String Comparison := do
  let window ← window strategy checkpoint run
  compareWindow strategy checkpoint run window

structure Summary where
  strategy : String
  aligned : Bool
  checkpointAdvanced : Bool
  syncError : Option String
  alignedFromMs : ℤ
  previousVerifiedThroughMs : ℤ
  scanStartMs : ℤ
  candidateEndMs : ℤ
  pgSuccessEndMs : ℤ
  actualEndMs : ℤ
  settlementGapMinutes : ℤ
  overlapMinutes : ℤ
  baselineMinutes : ℤ
  groupCount : ℕ
  mismatchedGroupCount : ℕ
  pgEventCount : ℕ
  uniformEventCount : ℕ
  unmatchedRepresentedOrderCount : ℕ
  unmatchedOnlyOrderCount : ℕ
  pgQty : Float
  localQty : Float

def Groups.eventCount (groups : Groups) : ℕ := (groups.rows.map Stat.events).sum

def Groups.qty (groups : Groups) : Float := (groups.rows.map Stat.qty).foldl (· + ·) 0

def summarize (strategy : String) (checkpoint : Checkpoint) (args : Args) (comparison : Comparison)
    (advanced : Bool) : Summary where
  strategy := strategy
  aligned := comparison.mismatchCount = 0
  checkpointAdvanced := advanced
  syncError := comparison.window.syncError
  alignedFromMs := checkpoint.alignedFromMs
  previousVerifiedThroughMs := checkpoint.verifiedThroughMs
  scanStartMs := comparison.window.scanStartMs
  candidateEndMs := comparison.window.candidateEndMs
  pgSuccessEndMs := comparison.window.pgSuccessEndMs
  actualEndMs := comparison.window.actualEndMs
  settlementGapMinutes := args.settlementGapMinutes
  overlapMinutes := args.overlapMinutes
  baselineMinutes := args.baselineMinutes
  groupCount := comparison.groups.length
  mismatchedGroupCount := comparison.mismatchCount
  pgEventCount := comparison.pg.eventCount
  uniformEventCount := comparison.uniform.eventCount
  unmatchedRepresentedOrderCount := comparison.unmatchedRepresented
  unmatchedOnlyOrderCount := comparison.unmatchedOnly
  pgQty := comparison.pg.qty
  localQty := comparison.uniform.qty + comparison.unmatched.qty

/-- The counts must fit their columns. -/
def completeStatus (world : World) (summary : Summary) : Except String Unit := do
  if (2 : ℤ) ^ 31 - 1 < summary.groupCount then .error "group count exceeds i32"
  if (2 : ℤ) ^ 31 - 1 < summary.mismatchedGroupCount then .error "mismatch count exceeds i32"
  if i64Max < summary.pgEventCount then .error "PG event count exceeds i64"
  if i64Max < summary.uniformEventCount then .error "local event count exceeds i64"
  world.completeStatus

/-- The rest of `reconcile`, once the checkpoint is where it is to stay. -/
def report (world : World) (summary : Summary) : Except String Summary := do
  world.writeGroups
  completeStatus world summary
  world.writeSummary
  return summary

/-- A run: where the checkpoint is then, and what is returned. -/
def reconcile (strategy : String) (checkpoint : Checkpoint) (run : Run) :
    Checkpoint × Except String Summary :=
  match compare strategy checkpoint run with
  | .error error => (checkpoint, .error error)
  | .ok comparison =>
    let advanced := decide (comparison.mismatchCount = 0) &&
      decide (comparison.window.actualEndMs > checkpoint.verifiedThroughMs)
    let summary := summarize strategy checkpoint run.args comparison advanced
    if advanced then
      match run.world.update with
      | .refused error => (checkpoint, .error error)
      | .lost error => (checkpoint.advance comparison.window.actualEndMs, .error error)
      | .applied => (checkpoint.advance comparison.window.actualEndMs, report run.world summary)
    else (checkpoint, report run.world summary)

/-! ## The windows leave no hole -/

theorem validateArgs_overlap {args : Args} {u : Unit} (h : validateArgs args = .ok u) :
    0 ≤ args.overlapMinutes := by
  unfold validateArgs at h
  obtain ⟨_, _, h⟩ := bind_eq_ok.mp h
  obtain ⟨_, hoverlap, _⟩ := bind_eq_ok.mp h
  unfold nonNegative at hoverlap
  split at hoverlap
  · cases hoverlap
  · exact not_lt.mp ‹_›

theorem checked_eq {value result : ℤ} {context : String} (h : checked value context = .ok result) :
    result = value := by
  unfold checked at h
  split at h
  · exact (Except.ok.inj h).symm
  · cases h

/-- Rounding down to a minute and going back keeps the start at or before the checkpoint. -/
theorem scanStart_le (checkpoint : Checkpoint) {overlapMs : ℤ} (h : 0 ≤ overlapMs) :
    scanStart checkpoint overlapMs ≤ checkpoint.verifiedThroughMs := by
  have hpos := checkpoint.aligned_pos
  refine max_le checkpoint.aligned_le ?_
  have hle := checkpoint.aligned_le
  by_cases hneg : 0 ≤ checkpoint.verifiedThroughMs - overlapMs
  · rw [Int.tdiv_eq_ediv_of_nonneg hneg]
    omega
  · have hdiv : (checkpoint.verifiedThroughMs - overlapMs).tdiv 60000 ≤ 0 :=
      by
      rw [← neg_neg (checkpoint.verifiedThroughMs - overlapMs), Int.neg_tdiv]
      exact neg_nonpos.mpr (Int.tdiv_nonneg (by omega) (by omega))
    omega

theorem loadWatermark_eq {strategy : String} {answer : Except String (Option ℤ)} {successEndMs : ℤ}
    (h : loadWatermark strategy answer = .ok successEndMs) : answer = .ok (some successEndMs) := by
  unfold loadWatermark at h
  obtain ⟨watermark, hanswer, h⟩ := bind_eq_ok.mp h
  cases watermark with
  | none => cases h
  | some value =>
    cases h
    exact hanswer

/-- The window of a run starts at or before the checkpoint, and its end is covered by the watermark
    that has been read after the sync. -/
theorem window_spec {strategy : String} {checkpoint : Checkpoint} {run : Run} {w : Window}
    (h : window strategy checkpoint run = .ok w) :
    w.scanStartMs ≤ checkpoint.verifiedThroughMs ∧
      run.world.refreshed = .ok (some w.pgSuccessEndMs) := by
  unfold window at h
  obtain ⟨_, hvalid, h⟩ := bind_eq_ok.mp h
  obtain ⟨candidateEndMs, _, h⟩ := bind_eq_ok.mp h
  obtain ⟨_, _, h⟩ := bind_eq_ok.mp h
  obtain ⟨_, _, h⟩ := bind_eq_ok.mp h
  obtain ⟨overlapMs, hoverlap, h⟩ := bind_eq_ok.mp h
  obtain ⟨_, _, h⟩ := bind_eq_ok.mp h
  obtain ⟨syncError, _, h⟩ := bind_eq_ok.mp h
  obtain ⟨pgSuccessEndMs, hrefreshed, h⟩ := bind_eq_ok.mp h
  have hnonneg : 0 ≤ overlapMs := by
    rw [checked_eq hoverlap]
    exact mul_nonneg (validateArgs_overlap hvalid) (by omega)
  unfold actualWindow at h
  split at h
  · cases h
  · cases h
    exact ⟨scanStart_le checkpoint hnonneg, loadWatermark_eq hrefreshed⟩

theorem compareWindow_window {strategy : String} {checkpoint : Checkpoint} {run : Run} {w : Window}
    {comparison : Comparison} (h : compareWindow strategy checkpoint run w = .ok comparison) :
    comparison.window = w := by
  unfold compareWindow at h
  obtain ⟨_, _, h⟩ := bind_eq_ok.mp h
  obtain ⟨_, _, h⟩ := bind_eq_ok.mp h
  obtain ⟨pgRows, _, h⟩ := bind_eq_ok.mp h
  obtain ⟨baselineMs, _, h⟩ := bind_eq_ok.mp h
  obtain ⟨_, _, h⟩ := bind_eq_ok.mp h
  obtain ⟨⟨uniformRows, unmatchedRows⟩, _, h⟩ := bind_eq_ok.mp h
  obtain ⟨_, _, h⟩ := bind_eq_ok.mp h
  obtain ⟨tradeExclusions, _, h⟩ := bind_eq_ok.mp h
  obtain ⟨exclusions, _, h⟩ := bind_eq_ok.mp h
  obtain ⟨pg, _, h⟩ := bind_eq_ok.mp h
  obtain ⟨startUs, _, h⟩ := bind_eq_ok.mp h
  obtain ⟨endUs, _, h⟩ := bind_eq_ok.mp h
  obtain ⟨lastUs, _, h⟩ := bind_eq_ok.mp h
  obtain ⟨⟨uniform, clientIds⟩, _, h⟩ := bind_eq_ok.mp h
  obtain ⟨⟨unmatched, represented, only⟩, _, h⟩ := bind_eq_ok.mp h
  cases h
  rfl

theorem compare_spec {strategy : String} {checkpoint : Checkpoint} {run : Run}
    {comparison : Comparison} (h : compare strategy checkpoint run = .ok comparison) :
    comparison.window.scanStartMs ≤ checkpoint.verifiedThroughMs ∧
      run.world.refreshed = .ok (some comparison.window.pgSuccessEndMs) := by
  obtain ⟨w, hw, hcompared⟩ := bind_eq_ok.mp h
  rw [compareWindow_window hcompared]
  exact window_spec hw

/-- `t` lies in the window of a run all groups of which match, and the window ends at or before the
    watermark. -/
def Verifies (strategy : String) (checkpoint : Checkpoint) (run : Run) (t : ℤ) : Prop :=
  ∃ comparison successEndMs, compare strategy checkpoint run = .ok comparison ∧
    (∀ row ∈ comparison.groups, row.status ≠ .mismatch) ∧
    comparison.window.scanStartMs ≤ t ∧ t ≤ comparison.window.actualEndMs ∧
    run.world.refreshed = .ok (some successEndMs) ∧
    comparison.window.actualEndMs ≤ successEndMs

theorem mismatchCount_eq_zero {comparison : Comparison} :
    comparison.mismatchCount = 0 ↔ ∀ row ∈ comparison.groups, row.status ≠ .mismatch := by
  simp [Comparison.mismatchCount, List.filter_eq_nil_iff]

/-- What a run does to the checkpoint. -/
theorem reconcile_cases (strategy : String) (checkpoint : Checkpoint) (run : Run) :
    (reconcile strategy checkpoint run).1 = checkpoint ∨
      ∃ comparison, compare strategy checkpoint run = .ok comparison ∧
        comparison.mismatchCount = 0 ∧
        checkpoint.verifiedThroughMs < comparison.window.actualEndMs ∧
        (∀ error, run.world.update ≠ .refused error) ∧
        (reconcile strategy checkpoint run).1 = checkpoint.advance comparison.window.actualEndMs := by
  unfold reconcile
  cases hcompare : compare strategy checkpoint run with
  | error error => exact .inl rfl
  | ok comparison =>
    dsimp only
    split
    · rename_i hadvanced
      rw [Bool.and_eq_true, decide_eq_true_eq, decide_eq_true_eq] at hadvanced
      obtain ⟨hmatch, hlater⟩ := hadvanced
      cases hupdate : run.world.update with
      | refused error => exact .inl rfl
      | applied => exact .inr ⟨comparison, rfl, hmatch, hlater, by simp, rfl⟩
      | lost error => exact .inr ⟨comparison, rfl, hmatch, hlater, by simp, rfl⟩
    · exact .inl rfl

theorem reconcile_le (strategy : String) (checkpoint : Checkpoint) (run : Run) :
    checkpoint.verifiedThroughMs ≤ (reconcile strategy checkpoint run).1.verifiedThroughMs := by
  rcases reconcile_cases strategy checkpoint run with h | ⟨comparison, _, _, _, _, h⟩
  · rw [h]
  · rw [h]
    exact le_max_left _ _

/-- What a run moves the checkpoint over, it has verified, from the checkpoint on. -/
theorem reconcile_verifies {strategy : String} {checkpoint : Checkpoint} {run : Run} {t : ℤ}
    (hfrom : checkpoint.verifiedThroughMs ≤ t)
    (hmoved : checkpoint.verifiedThroughMs < (reconcile strategy checkpoint run).1.verifiedThroughMs)
    (hto : t ≤ (reconcile strategy checkpoint run).1.verifiedThroughMs) :
    Verifies strategy checkpoint run t := by
  rcases reconcile_cases strategy checkpoint run with h | ⟨comparison, hcompare, hmatch, hlater, _, h⟩
  · rw [h] at hmoved
    exact absurd hmoved (lt_irrefl _)
  · have hend : (reconcile strategy checkpoint run).1.verifiedThroughMs =
        comparison.window.actualEndMs := by
      rw [h]
      exact max_eq_right hlater.le
    obtain ⟨hstart, hrefreshed⟩ := compare_spec hcompare
    exact ⟨comparison, _, hcompare, mismatchCount_eq_zero.mp hmatch, hstart.trans hfrom,
      hend ▸ hto, hrefreshed, comparison.window.end_le⟩

section Runs

variable (strategy : String)

/-- The checkpoint after a run. -/
def checkpointAfter (checkpoint : Checkpoint) (run : Run) : Checkpoint :=
  (reconcile strategy checkpoint run).1

/-- Where the checkpoint has moved, all it has moved over is verified by some run. -/
theorem runs_verify (checkpoint : Checkpoint) (runs : List Run)
    (hmoved : checkpoint.verifiedThroughMs <
      (runs.foldl (checkpointAfter strategy) checkpoint).verifiedThroughMs) {t : ℤ}
    (hfrom : checkpoint.verifiedThroughMs ≤ t)
    (hto : t ≤ (runs.foldl (checkpointAfter strategy) checkpoint).verifiedThroughMs) :
    ∃ entry ∈ steps (checkpointAfter strategy) checkpoint runs,
      Verifies strategy entry.1 entry.2 t := by
  induction runs generalizing checkpoint with
  | nil => exact absurd hmoved (lt_irrefl _)
  | cons run runs ih =>
    rw [List.foldl_cons] at hmoved hto
    -- `t` is in the part the first run has moved over, or in the part the others have.
    by_cases hfirst : t ≤ (checkpointAfter strategy checkpoint run).verifiedThroughMs ∧
        checkpoint.verifiedThroughMs < (checkpointAfter strategy checkpoint run).verifiedThroughMs
    · exact ⟨(checkpoint, run), List.mem_cons_self,
        reconcile_verifies hfrom hfirst.2 hfirst.1⟩
    · have hle := reconcile_le strategy checkpoint run
      rw [← checkpointAfter] at hle
      obtain ⟨entry, hentry, hverifies⟩ := ih (checkpointAfter strategy checkpoint run)
        (by omega) (by omega) hto
      exact ⟨entry, List.mem_cons_of_mem _ hentry, hverifies⟩

/-- **The checkpoint is contiguous.** It never goes back, and every time it has come past lies in
    the window of a run that compared it, had no mismatch, and had its trades synchronised to beyond
    it. A run with a mismatch leaves it where it is, and so does one whose update the database
    refuses. -/
theorem checkpoint_contiguous (checkpoint : Checkpoint) (runs : List Run) :
    (∀ entry ∈ steps (checkpointAfter strategy) checkpoint runs,
      entry.1.verifiedThroughMs ≤ (checkpointAfter strategy entry.1 entry.2).verifiedThroughMs) ∧
    (∀ t, checkpoint.verifiedThroughMs ≤ t →
      t ≤ (runs.foldl (checkpointAfter strategy) checkpoint).verifiedThroughMs →
      checkpoint.verifiedThroughMs <
        (runs.foldl (checkpointAfter strategy) checkpoint).verifiedThroughMs →
      ∃ entry ∈ steps (checkpointAfter strategy) checkpoint runs,
        Verifies strategy entry.1 entry.2 t) ∧
    ∀ entry ∈ steps (checkpointAfter strategy) checkpoint runs,
      (∀ comparison, compare strategy entry.1 entry.2 = .ok comparison →
        (∃ row ∈ comparison.groups, row.status = .mismatch) ∨
          ∃ error, entry.2.world.update = .refused error) →
      checkpointAfter strategy entry.1 entry.2 = entry.1 := by
  refine ⟨fun entry _ => reconcile_le strategy entry.1 entry.2,
    fun t hfrom hto hmoved => runs_verify strategy checkpoint runs hmoved hfrom hto,
    fun entry _ hfails => ?_⟩
  rcases reconcile_cases strategy entry.1 entry.2 with h | ⟨comparison, hcompare, hmatch, _, hupdate, _⟩
  · exact h
  · rcases hfails comparison hcompare with ⟨row, hrow, hmismatch⟩ | ⟨error, hrefused⟩
    · exact absurd hmismatch (mismatchCount_eq_zero.mp hmatch row hrow)
    · exact absurd hrefused (hupdate error)

end Runs

/-- Nothing has been traded, and the file of the groups cannot be written. -/
def unwritableRun : Run where
  args := {}
  nowMs := 1000000
  world := {
    watermark := .ok (some 400000)
    refreshed := .ok (some 400000)
    exportPg := fun _ _ => .ok []
    exportOrders := fun _ _ => .ok ([], [])
    writeGroups := .error "No space left on device" }

def startingCheckpoint : Checkpoint where
  alignedFromMs := 200000
  verifiedThroughMs := 300000
  aligned_pos := by decide
  aligned_le := by decide

/-- A run that fails moves the checkpoint. -/
theorem failed_run_advances :
    (reconcile "binance-intra-arb01" startingCheckpoint unwritableRun).2.isOk = false ∧
      (reconcile "binance-intra-arb01" startingCheckpoint unwritableRun).1.verifiedThroughMs =
        400000 ∧
      startingCheckpoint.verifiedThroughMs = 300000 := by
  decide +kernel

end CryptoNav.Reconcile
