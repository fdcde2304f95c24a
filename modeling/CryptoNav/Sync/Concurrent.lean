import CryptoNav.Lib.Mutex
import CryptoNav.Sync.Run

/-!
# Concurrent runs

Any number of `sync_intra_orders` runs for one strategy. A run reads the cursor outside of any
transaction, downloads, and only then takes the row lock of the watermark; `--rebuild` resets the
tables in a transaction of its own, under a table lock that conflicts with the row lock. Both are
the one lock of the strategy. Between any two statements the other runs may step, and every
statement reads what is committed by then, or was written by its own transaction.

`commits` is not part of the program: it records which windows have been folded into which tables,
so that a statement about a run can count how often a row of the log was taken. A run may stop
between any two of its steps, as one that is killed does; what it has not committed is then gone.
The fold of one window is that of `Run`; what a run writes to its output is left out.
-/

set_option autoImplicit false

namespace CryptoNav.Sync

open CryptoNav.Lib CryptoNav.Matching

/-! ## The log -/

/-- What the center reads: half-open windows of source time. -/
def sourceWindow (log : List FrameRow) (startUs endUs : ℤ) : List FrameRow :=
  log.filter fun row => row.tsUs.any fun t => startUs ≤ t ∧ t < endUs

theorem sourceWindow_self (log : List FrameRow) (startUs : ℤ) :
    sourceWindow log startUs startUs = [] := by
  unfold sourceWindow
  rw [List.filter_eq_nil_iff]
  intro row _ hrow
  cases hts : row.tsUs with
  | none => simp [hts] at hrow
  | some t =>
    simp only [hts, Option.any_some, decide_eq_true_eq] at hrow
    omega

/-- Windows that meet make up one. -/
theorem sourceWindow_append {log : List FrameRow} {startUs middleUs endUs : ℤ}
    (hstart : startUs ≤ middleUs) (hend : middleUs ≤ endUs) :
    (sourceWindow log startUs middleUs ++ sourceWindow log middleUs endUs).Perm
      (sourceWindow log startUs endUs) := by
  have hsplit := List.filter_append_perm (fun row : FrameRow => row.tsUs.any (· < middleUs))
    (sourceWindow log startUs endUs)
  unfold sourceWindow at hsplit ⊢
  rw [List.filter_filter, List.filter_filter] at hsplit
  refine List.Perm.trans (List.Perm.of_eq ?_) hsplit
  congr 1
  · refine List.filter_congr fun row _ => ?_
    cases row.tsUs with
    | none => rfl
    | some t =>
      simp only [Option.any_some, Bool.decide_and]
      rw [Bool.eq_iff_iff]
      simp only [Bool.and_eq_true, decide_eq_true_eq]
      omega
  · refine List.filter_congr fun row _ => ?_
    cases row.tsUs with
    | none => rfl
    | some t =>
      rw [Bool.eq_iff_iff]
      simp only [Option.any_some, Bool.and_eq_true, decide_eq_true_eq, Bool.not_eq_true',
        decide_eq_false_iff_not]
      omega

/-! ## A commit -/

/-- The rows that one transaction folds, and what else it was computed with. -/
structure Commit where
  frame : List FrameRow
  qtyEpsilon : ℚ
  sourceEndUs : ℤ
  releasedThroughUs : ℤ

/-- From `load_ready_lifecycles` to `update_watermark`: what follows the upsert of the
    lifecycles. -/
def Commit.release [Rounding] (b : Commit) (lifecycles : Lifecycles) (tables : Orders × Hedges) :
    Except String Store := do
  let ready := lifecycles.rows.filter (isReady b.releasedThroughUs)
  let events ← lifecycleEvents b.qtyEpsilon ready
  let (orders, hedges) ← matchReleased b.qtyEpsilon tables events
  let lifecycles := lifecycles.filter (!isReady b.releasedThroughUs ·)
  pure {
    lifecycles, orders, hedges
    sourceReadThroughUs := b.sourceEndUs
    eventsReleasedThroughUs := b.releasedThroughUs
    marginFinalizedThroughUs := marginFinalizedWatermark orders lifecycles b.releasedThroughUs }

/-- The whole transaction. -/
def synthesize [Rounding] (s : Store) (b : Commit) : Except String Store := do
  let deltas ← foldFrame b.frame .empty
  b.release (upsertLifecycles s.lifecycles deltas.rows) (s.orders, s.hedges)

/-! ## A run -/

/-- `Args`, with the flags that a single run does not show. -/
structure CommandLine extends Args where
  sourceChunkMinutes : ℤ := 60
  rebuild : Bool := false

def CommandLine.validate (args : CommandLine) : Except String Unit :=
  if args.sourceChunkMinutes ≤ 0 then .error "--source-chunk-minutes must be positive"
  else args.toArgs.validate

/-- A run of `fetch_lifecycle_deltas`: `frame` is what it has read, `lifecycle` its map. -/
structure Download where
  args : CommandLine
  startUs : ℤ
  endUs : ℤ
  eventsReleasedThroughUs : ℤ
  cursor : ℤ
  frame : List FrameRow := []
  lifecycle : Lifecycles := .empty

namespace Download

def windowEnd (d : Download) : ℤ := min (d.cursor + d.args.sourceChunkMinutes * 60000000) d.endUs

def commit (d : Download) : Commit where
  frame := d.frame
  qtyEpsilon := d.args.qtyEpsilon
  sourceEndUs := d.endUs
  releasedThroughUs := max (d.endUs - d.args.reorderUs - 1) d.eventsReleasedThroughUs

/-- `load_watermark` and the check of the endpoint. -/
def start (args : CommandLine) (verifiedThroughMs : ℤ) (s : Store) : Except String Download :=
  let endUs := args.sourceEndUs verifiedThroughMs
  if endUs < s.sourceReadThroughUs then
    .error s!"requested endpoint {endUs} is behind source cursor {s.sourceReadThroughUs}"
  else .ok {
    args, endUs
    startUs := s.sourceReadThroughUs
    eventsReleasedThroughUs := s.eventsReleasedThroughUs
    cursor := s.sourceReadThroughUs }

/-- One window. -/
def fetch [Rounding] (d : Download) (reply : List FrameRow) : Except String Download :=
  (foldFrame reply d.lifecycle).map fun lifecycle =>
    { d with cursor := d.windowEnd, frame := d.frame ++ reply, lifecycle }

end Download

/-- Where a run stands. -/
inductive Process where
  | exited (error : Option String)
  | scoping (args : CommandLine)
  | rebuilding (args : CommandLine) (verifiedThroughMs : ℤ)
  | resetting (args : CommandLine) (verifiedThroughMs : ℤ)
  | loading (args : CommandLine) (verifiedThroughMs : ℤ)
  | downloading (d : Download)
  | locked (d : Download)
  | upserted (d : Download) (lifecycles : Lifecycles)
  | written (d : Download) (store : Store)

/-- The run is in a transaction that holds the lock. -/
def Process.inside : Process → Bool
  | .resetting .. | .locked _ | .upserted .. | .written .. => true
  | _ => false

/-- What is committed. -/
structure Database where
  store : Store
  commits : List Commit := []

/-- What `reset_synthesis` commits. -/
def Database.reset (alignedFromMs : ℤ) : Database where
  store := .start (alignedFromMs * 1000)

abbrev System := Mutex ℕ Database Process

def System.start (alignedFromMs : ℤ) : System where
  resource := .reset alignedFromMs
  processes := fun _ => .exited none

inductive Event where
  | start (args : CommandLine)
  /-- `strategy_scope`: the checkpoint may have moved since. -/
  | scope (verifiedThroughMs : ℤ)
  | lockTable
  | commitReset
  | loadWatermark
  /-- The rows of the next window, in any order. -/
  | fetch (reply : List FrameRow)
  | lockWatermark
  | upsertLifecycles
  | release
  | commit
  /-- The run ends, at any step; the server rolls back what it had open. -/
  | abort

def exited (error : String) : Process := .exited (some error)

/-- One step of process `p`. -/
def System.step [Rounding] (s : System) (log : List FrameRow) (alignedFromMs : ℤ) (p : ℕ)
    (e : Event) : Except String System :=
  match e, s.processes p with
  | .start args, .exited _ =>
    .ok (s.attempt p exited (args.validate.map fun _ => .scoping args))
  | .scope verified, .scoping args =>
    .ok (s.setProcess p (if args.rebuild then .rebuilding args verified else .loading args verified))
  | .lockTable, .rebuilding args verified =>
    if s.holder = none then .ok (s.enter p (.resetting args verified)) else .error "waits for the lock"
  | .commitReset, .resetting args verified =>
    .ok (s.leave p (.reset alignedFromMs) (.loading args verified))
  | .loadWatermark, .loading args verified =>
    .ok (s.attempt p exited ((Download.start args verified s.resource.store).map .downloading))
  | .fetch reply, .downloading d =>
    if d.cursor < d.endUs ∧ reply.Perm (sourceWindow log d.cursor d.windowEnd) then
      .ok (s.attempt p exited ((d.fetch reply).map .downloading))
    else .error "not enabled"
  | .lockWatermark, .downloading d =>
    if d.cursor < d.endUs then .error "not enabled"
    else if s.holder = none then
      -- The row is read as it is when the lock is granted.
      if s.resource.store.sourceReadThroughUs = d.startUs then .ok (s.enter p (.locked d))
      else .ok (s.setProcess p (exited s!"concurrent synthesis advanced source cursor from {
        d.startUs} to {s.resource.store.sourceReadThroughUs}"))
    else .error "waits for the lock"
  | .upsertLifecycles, .locked d =>
    .ok (s.setProcess p
      (.upserted d (Sync.upsertLifecycles s.resource.store.lifecycles d.lifecycle.rows)))
  | .release, .upserted d lifecycles =>
    .ok (s.attempt p exited
      ((d.commit.release lifecycles (s.resource.store.orders, s.resource.store.hedges)).map
        (.written d)))
  | .commit, .written d store =>
    .ok (s.leave p { store, commits := s.resource.commits ++ [d.commit] } (.exited none))
  | .abort, _ => .ok (s.quit p (exited "aborted"))
  | _, _ => .error "not enabled"

/-- Any interleaving of any number of runs. -/
def interleave [Rounding] (log : List FrameRow) (alignedFromMs : ℤ) (events : List (ℕ × Event)) :
    Except String System :=
  events.foldlM (fun s e => s.step log alignedFromMs e.1 e.2) (.start alignedFromMs)

/-! ## What a transaction computes -/

theorem release_source [Rounding] {b : Commit} {lifecycles : Lifecycles} {tables : Orders × Hedges}
    {store : Store} (h : b.release lifecycles tables = .ok store) :
    store.sourceReadThroughUs = b.sourceEndUs := by
  obtain ⟨events, -, h⟩ := bind_eq_ok.mp h
  obtain ⟨⟨orders, hedges⟩, -, h⟩ := bind_eq_ok.mp h
  rw [← pure_eq_ok.mp h]

/-- The fold and the statements after it are the transaction. -/
theorem synthesize_eq [Rounding] {b : Commit} {deltas : Lifecycles}
    (h : foldFrame b.frame .empty = .ok deltas) (s : Store) : synthesize s b
      = b.release (Sync.upsertLifecycles s.lifecycles deltas.rows) (s.orders, s.hedges) := by
  unfold synthesize
  rw [h]
  rfl

/-! ## The invariant -/

/-- The commits bring an empty store to the committed one, and are the log up to its cursor. -/
structure Database.Consistent [Rounding] (log : List FrameRow) (alignedFromMs : ℤ) (db : Database) :
    Prop where
  aligned : alignedFromMs * 1000 ≤ db.store.sourceReadThroughUs
  frames : (db.commits.flatMap Commit.frame).Perm
    (sourceWindow log (alignedFromMs * 1000) db.store.sourceReadThroughUs)
  replay : db.commits.foldlM synthesize (.start (alignedFromMs * 1000)) = .ok db.store

/-- A download has read the log from its start to its cursor. -/
structure Download.Consistent [Rounding] (log : List FrameRow) (d : Download) : Prop where
  chunk : 0 < d.args.sourceChunkMinutes
  start : d.startUs ≤ d.cursor
  finish : d.cursor ≤ d.endUs
  frame : d.frame.Perm (sourceWindow log d.startUs d.cursor)
  lifecycle : foldFrame d.frame .empty = .ok d.lifecycle

/-- A download that may be committed: nothing was, since it started. -/
structure Download.Ready [Rounding] (log : List FrameRow) (db : Database) (d : Download) : Prop
    extends d.Consistent log where
  done : d.cursor = d.endUs
  current : db.store.sourceReadThroughUs = d.startUs

def Process.Consistent [Rounding] (log : List FrameRow) (db : Database) : Process → Prop
  | .exited _ => True
  | .scoping args | .rebuilding args _ | .resetting args _ | .loading args _ =>
    0 < args.sourceChunkMinutes
  | .downloading d => d.Consistent log
  | .locked d => d.Ready log db
  | .upserted d lifecycles => d.Ready log db ∧
    lifecycles = Sync.upsertLifecycles db.store.lifecycles d.lifecycle.rows
  | .written d store => d.Ready log db ∧ synthesize db.store d.commit = .ok store

/-- What holds of a run outside of its transactions does not depend on the database. -/
theorem Process.Consistent.outside [Rounding] {log : List FrameRow} (db db' : Database)
    (q : Process) (hq : q.inside = false) (h : q.Consistent log db) : q.Consistent log db' := by
  cases q with
  | exited | scoping | rebuilding | loading | downloading => exact h
  | resetting | locked | upserted | written => cases hq

abbrev System.Consistent [Rounding] (log : List FrameRow) (alignedFromMs : ℤ) (s : System) : Prop :=
  s.Disciplined Process.inside (Database.Consistent log alignedFromMs) (Process.Consistent log)

theorem reset_consistent [Rounding] (log : List FrameRow) (alignedFromMs : ℤ) :
    (Database.reset alignedFromMs).Consistent log alignedFromMs where
  aligned := le_rfl
  frames := List.Perm.of_eq (sourceWindow_self log _).symm
  replay := rfl

theorem start_consistent [Rounding] (log : List FrameRow) (alignedFromMs : ℤ) :
    (System.start alignedFromMs).Consistent log alignedFromMs where
  holds := fun _ => iff_of_false (by simp [System.start, Process.inside]) (by simp [System.start])
  resource := reset_consistent log alignedFromMs
  process := fun _ => trivial

theorem Download.start_consistent [Rounding] {log : List FrameRow} {args : CommandLine}
    (hchunk : 0 < args.sourceChunkMinutes) {verifiedThroughMs : ℤ} {s : Store} {d : Download}
    (h : Download.start args verifiedThroughMs s = .ok d) : d.Consistent log := by
  unfold Download.start at h
  dsimp only at h
  split at h
  · cases h
  · rename_i hend
    cases h
    exact {
      chunk := hchunk, start := le_rfl, finish := not_lt.mp hend
      frame := List.Perm.of_eq (sourceWindow_self log _).symm
      lifecycle := rfl }

/-- A window is read once, and the next begins where it ends. -/
theorem Download.Consistent.fetch [Rounding] {log : List FrameRow} {d d' : Download}
    (h : d.Consistent log) {reply : List FrameRow} (hcursor : d.cursor < d.endUs)
    (hreply : reply.Perm (sourceWindow log d.cursor d.windowEnd)) (hok : d.fetch reply = .ok d') :
    d'.Consistent log := by
  obtain ⟨lifecycle, hfold, rfl⟩ := map_eq_ok.mp hok
  have hchunk := h.chunk
  have hnext : d.cursor ≤ d.windowEnd := by
    unfold Download.windowEnd
    omega
  exact {
    chunk := h.chunk
    start := h.start.trans hnext
    finish := min_le_right _ _
    frame := (h.frame.append hreply).trans (sourceWindow_append h.start hnext)
    lifecycle := run_append.mpr ⟨d.lifecycle, h.lifecycle, hfold⟩ }

/-- A commit appends what was downloaded to what was committed before it. -/
theorem Database.Consistent.commit [Rounding] {log : List FrameRow} {alignedFromMs : ℤ}
    {db : Database} (h : db.Consistent log alignedFromMs) {d : Download} (hd : d.Ready log db)
    {store : Store} (hstore : synthesize db.store d.commit = .ok store) :
    Database.Consistent log alignedFromMs { store, commits := db.commits ++ [d.commit] } := by
  have hsource : store.sourceReadThroughUs = d.endUs := by
    rw [synthesize_eq hd.lifecycle] at hstore
    exact release_source hstore
  have hmiddle : alignedFromMs * 1000 ≤ d.startUs := hd.current ▸ h.aligned
  refine ⟨?_, ?_, run_append.mpr ⟨db.store, h.replay, run_cons.mpr ⟨store, hstore, rfl⟩⟩⟩
  · rw [hsource]
    exact hmiddle.trans (hd.start.trans hd.finish)
  · have hframes := h.frames
    have hframe := hd.frame
    rw [hd.current] at hframes
    rw [hd.done] at hframe
    rw [hsource, List.flatMap_append, List.flatMap_singleton]
    exact (hframes.append hframe).trans (sourceWindow_append hmiddle (hd.start.trans hd.finish))

/-! ## Steps and runs -/

section Run

variable {log : List FrameRow} {alignedFromMs : ℤ}

theorem validate_chunk {args : CommandLine} {u : Unit} (h : args.validate = .ok u) :
    0 < args.sourceChunkMinutes := by
  unfold CommandLine.validate at h
  split at h
  · cases h
  · exact not_le.mp ‹_›

/-- **Every step of every run** keeps the invariant. -/
theorem System.Consistent.step [Rounding] {s s' : System} {p : ℕ} {e : Event}
    (h : s.Consistent log alignedFromMs) (hstep : s.step log alignedFromMs p e = .ok s') :
    s'.Consistent log alignedFromMs := by
  have houtside := @Process.Consistent.outside _ log
  have hexited : ∀ error, (exited error).inside = false ∧
      (exited error).Consistent log s.resource := fun _ => ⟨rfl, trivial⟩
  have hp := h.process p
  unfold System.step at hstep
  split at hstep
  · rename_i args _ hproc
    cases hstep
    refine h.attempt houtside hexited fun q hq => ?_
    obtain ⟨u, hu, rfl⟩ := map_eq_ok.mp hq
    rw [hproc]
    exact ⟨rfl, validate_chunk hu⟩
  · rename_i verified args hproc
    cases hstep
    rw [hproc] at hp
    refine h.setProcess ?_ ?_
    · rw [hproc]
      split <;> rfl
    · split
      · exact hp
      · exact hp
  · rename_i args verified hproc
    split at hstep
    · rename_i hfree
      cases hstep
      rw [hproc] at hp
      exact h.enter hfree rfl hp
    · cases hstep
  · rename_i args verified hproc
    cases hstep
    have hinside : (s.processes p).inside = true := by rw [hproc]; rfl
    rw [hproc] at hp
    exact h.leave houtside hinside rfl (reset_consistent log alignedFromMs) hp
  · rename_i args verified hproc
    cases hstep
    rw [hproc] at hp
    refine h.attempt houtside hexited fun q hq => ?_
    obtain ⟨d, hd, rfl⟩ := map_eq_ok.mp hq
    rw [hproc]
    exact ⟨rfl, Download.start_consistent hp hd⟩
  · rename_i reply d hproc
    split at hstep
    · rename_i henabled
      cases hstep
      rw [hproc] at hp
      refine h.attempt houtside hexited fun q hq => ?_
      obtain ⟨d', hd', rfl⟩ := map_eq_ok.mp hq
      rw [hproc]
      exact ⟨rfl, Download.Consistent.fetch hp henabled.1 henabled.2 hd'⟩
    · cases hstep
  · rename_i d hproc
    rw [hproc] at hp
    split at hstep
    · cases hstep
    · rename_i hdone
      split at hstep
      · rename_i hfree
        split at hstep
        · rename_i hcurrent
          cases hstep
          have hd : d.Consistent log := hp
          exact h.enter hfree rfl { hd with
            done := le_antisymm hd.finish (not_lt.mp hdone), current := hcurrent }
        · cases hstep
          exact h.setProcess (by rw [hproc]; rfl) trivial
      · cases hstep
  · rename_i d hproc
    cases hstep
    rw [hproc] at hp
    exact h.setProcess (by rw [hproc]; rfl) ⟨hp, rfl⟩
  · rename_i d lifecycles hproc
    cases hstep
    rw [hproc] at hp
    obtain ⟨hready, rfl⟩ := hp
    refine h.attempt houtside hexited fun q hq => ?_
    obtain ⟨store, hstore, rfl⟩ := map_eq_ok.mp hq
    rw [hproc]
    exact ⟨rfl, hready, (synthesize_eq hready.lifecycle _).trans hstore⟩
  · rename_i d store hproc
    cases hstep
    have hinside : (s.processes p).inside = true := by rw [hproc]; rfl
    rw [hproc] at hp
    exact h.leave houtside hinside rfl (h.resource.commit hp.1 hp.2) trivial
  · cases hstep
    exact h.quit houtside rfl trivial
  · cases hstep

theorem run_consistent [Rounding] {events : List (ℕ × Event)} {s : System}
    (hrun : interleave log alignedFromMs events = .ok s) : s.Consistent log alignedFromMs :=
  run_invariant (P := fun s => System.Consistent log alignedFromMs s)
    (fun _ _ _ _ h hstep => h.step hstep) (start_consistent log alignedFromMs) hrun

end Run

/-! ## What is folded -/

/-- The row as `fold_frame` folds it, if it does not skip or refuse it. -/
def FrameRow.orderRow (row : FrameRow) : Option OrderRow := row.read.toOption.join

/-- The rows folded since the last reset. -/
def Database.folded (db : Database) : List FrameRow :=
  db.commits.flatMap fun b => b.frame.filter (·.orderRow.isSome)

def FrameRow.ofVenues (row : FrameRow) : Bool := row.tradingVenue.any (· ∈ venues)

theorem required_eq_ok {α : Type} {column : String} {o : Option α} {a : α} :
    required column o = .ok a ↔ o = some a := by
  cases o with
  | none => simp [required]
  | some b => simp [required]

theorem read_ofVenues {row : FrameRow} {o : Option OrderRow} (h : row.read = .ok o) :
    o.isSome = row.ofVenues ∧ ∀ r ∈ o, row.tsUs = some r.source ∧ 0 ≤ r.fill := by
  obtain ⟨venue, hvenue, h⟩ := bind_eq_ok.mp h
  unfold FrameRow.ofVenues
  rw [required_eq_ok.mp hvenue, Option.any_some]
  split at h
  · rename_i hother
    cases pure_eq_ok.mp h
    exact ⟨(decide_eq_false hother).symm, fun r hr => (by cases hr)⟩
  · rename_i hmem
    obtain ⟨clientOrderId, -, h⟩ := bind_eq_ok.mp h
    obtain ⟨source, hsource, h⟩ := bind_eq_ok.mp h
    obtain ⟨market, -, h⟩ := bind_eq_ok.mp h
    obtain ⟨create, -, h⟩ := bind_eq_ok.mp h
    obtain ⟨update, -, h⟩ := bind_eq_ok.mp h
    obtain ⟨localTs, -, h⟩ := bind_eq_ok.mp h
    obtain ⟨status, -, h⟩ := bind_eq_ok.mp h
    obtain ⟨fill, -, h⟩ := bind_eq_ok.mp h
    split at h
    · cases h
    · rename_i hfill
      obtain ⟨price, -, h⟩ := bind_eq_ok.mp h
      cases pure_eq_ok.mp h
      refine ⟨(decide_eq_true (not_not.mp hmem)).symm, fun r hr => ?_⟩
      cases hr
      exact ⟨required_eq_ok.mp hsource, not_lt.mp hfill⟩

/-- What was read without an error was folded or skipped, by its venue alone. -/
theorem foldFrame_orderRow [Rounding] {frame : List FrameRow} {lifecycle lifecycle' : Lifecycles}
    (h : foldFrame frame lifecycle = .ok lifecycle') :
    (∀ row ∈ frame, row.orderRow.isSome = row.ofVenues) ∧
      (frame.filterMap FrameRow.orderRow).foldlM foldInto lifecycle = .ok lifecycle' := by
  induction frame generalizing lifecycle with
  | nil => exact ⟨fun row hrow => absurd hrow List.not_mem_nil, h⟩
  | cons row frame ih =>
    obtain ⟨next, hnext, hrest⟩ := run_cons.mp h
    obtain ⟨o, ho, hnext⟩ := bind_eq_ok.mp hnext
    obtain ⟨hvenues, hfold⟩ := ih hrest
    have hrow : row.orderRow = o := by
      unfold FrameRow.orderRow
      rw [ho]
      rfl
    constructor
    · rw [List.forall_mem_cons]
      exact ⟨hrow ▸ (read_ofVenues ho).1, hvenues⟩
    · cases o with
      | none =>
        rw [List.filterMap_cons_none hrow, pure_eq_ok.mp hnext]
        exact hfold
      | some r =>
        rw [List.filterMap_cons_some hrow]
        exact run_cons.mpr ⟨next, hnext, hfold⟩

theorem mem_sourceWindow {log : List FrameRow} {startUs endUs : ℤ} {row : FrameRow} :
    row ∈ sourceWindow log startUs endUs ↔
      row ∈ log ∧ ∃ t, row.tsUs = some t ∧ startUs ≤ t ∧ t < endUs := by
  unfold sourceWindow
  rw [List.mem_filter]
  cases row.tsUs with
  | none => simp
  | some t => simp

/-- A commit that no reset came before is the run of its own rows. -/
theorem Download.Ready.synthesize_eq_run [Rounding] {log : List FrameRow} {db : Database}
    {d : Download} (hd : d.Ready log db) {verifiedThroughMs : ℤ}
    (hargs : d.args.toArgs.validate = .ok ())
    (hend : d.endUs = d.args.sourceEndUs verifiedThroughMs)
    (hreleased : d.eventsReleasedThroughUs = db.store.eventsReleasedThroughUs) :
    synthesize db.store d.commit
      = run (d.frame.filterMap FrameRow.orderRow) verifiedThroughMs d.args.toArgs db.store := by
  obtain ⟨-, hfold⟩ := foldFrame_orderRow hd.lifecycle
  have hwindow : (d.frame.filterMap FrameRow.orderRow).filter
      (fun r => db.store.sourceReadThroughUs ≤ r.source ∧ r.source < d.endUs)
        = d.frame.filterMap FrameRow.orderRow := by
    rw [List.filter_eq_self]
    intro r hr
    obtain ⟨row, hrow, hr⟩ := List.mem_filterMap.mp hr
    obtain ⟨-, t, ht, hbounds⟩ := mem_sourceWindow.mp (hd.frame.mem_iff.mp hrow)
    have hread : row.read = .ok (some r) := eq_ok_of_join hr
    obtain ⟨hsource, -⟩ := (read_ofVenues hread).2 r rfl
    rw [ht] at hsource
    rw [decide_eq_true_eq, hd.current, ← Option.some.inj hsource, ← hd.done]
    exact hbounds
  have hfetch : fetchLifecycleDeltas (d.frame.filterMap FrameRow.orderRow)
      db.store.sourceReadThroughUs d.endUs = .ok d.lifecycle.rows := by
    unfold fetchLifecycleDeltas
    rw [hwindow, hfold]
    rfl
  have hahead : ¬ d.endUs < db.store.sourceReadThroughUs := by
    rw [hd.current]
    exact not_lt.mpr (hd.start.trans hd.finish)
  unfold run
  rw [synthesize_eq hd.lifecycle, hargs]
  simp only [bind, Except.bind, ← hend]
  rw [if_neg hahead, hfetch]
  unfold Commit.release Download.commit
  rw [hreleased]
  rfl

/-! ## Exactly once -/

/-- **The log is consumed exactly once.** Whatever the runs do, the rows of the four venues from the
    aligned start to the committed cursor are folded since the last reset, each once, and no others;
    and folding them, commit after commit, is what the committed tables are. -/
theorem log_folded_once [Rounding] (log : List FrameRow) (alignedFromMs : ℤ)
    {events : List (ℕ × Event)} {s : System}
    (hrun : interleave log alignedFromMs events = .ok s) :
    s.resource.folded.Perm ((sourceWindow log (alignedFromMs * 1000)
        s.resource.store.sourceReadThroughUs).filter FrameRow.ofVenues) ∧
      (∀ row ∈ s.resource.folded, ∃ t, row.tsUs = some t ∧
        t < s.resource.store.sourceReadThroughUs) ∧
      s.resource.commits.foldlM synthesize (.start (alignedFromMs * 1000))
        = .ok s.resource.store := by
  have hdb := (run_consistent hrun).resource
  have hvenues : ∀ b ∈ s.resource.commits, ∀ row ∈ b.frame,
      row.orderRow.isSome = row.ofVenues := by
    have hkeep := run_prefix (P := fun past _ => ∀ b ∈ past, ∀ row ∈ b.frame,
      row.orderRow.isSome = row.ofVenues) ?_ (fun b hb => absurd hb List.not_mem_nil) hdb.replay
    · exact hkeep
    · intro past b rest _ store store' hpast hstep b' hb'
      rcases List.mem_append.mp hb' with hb' | hb'
      · exact hpast b' hb'
      · rw [List.mem_singleton.mp hb']
        obtain ⟨deltas, hdeltas, -⟩ := bind_eq_ok.mp hstep
        exact (foldFrame_orderRow hdeltas).1
  have hfolded : s.resource.folded
      = (s.resource.commits.flatMap Commit.frame).filter FrameRow.ofVenues := by
    unfold Database.folded
    rw [List.filter_flatMap]
    refine List.flatMap_congr fun b hb => ?_
    exact List.filter_congr fun row hrow => hvenues b hb row hrow
  have hperm := hfolded ▸ hdb.frames.filter FrameRow.ofVenues
  refine ⟨hperm, fun row hrow => ?_, hdb.replay⟩
  obtain ⟨-, t, ht, -, hlt⟩ := mem_sourceWindow.mp (List.mem_of_mem_filter (hperm.mem_iff.mp hrow))
  exact ⟨t, ht, hlt⟩

/-- A canceled order without a fill. -/
def canceledRow (venue : String) (ts : ℤ) : FrameRow where
  tsUs := some ts
  clientOrderId := some 7
  tradingVenue := some venue
  mktTs := some ts
  createTs := some ts
  updateTs := some ts
  localTs := some ts
  symbol := some "BTCUSDT"
  side := some "buy"
  price := some 1
  priceOffset := some 0
  amountInit := some 1
  amountUpdate := some 0
  status := some "CANCELED"
  fromKey := none

def hourly : CommandLine where
  qtyEpsilon := 0

/-- A run without `--rebuild`, alone, up to the verified endpoint 2. -/
def aloneRun (log : List FrameRow) : List (ℕ × Event) :=
  [(0, .start hourly), (0, .scope 2), (0, .loadWatermark), (0, .fetch log), (0, .lockWatermark),
    (0, .upsertLifecycles), (0, .release), (0, .commit)]

/-- Two runs download the same window; between their commits a third resets the tables, and the
    second commits what it read before the reset. -/
def resetBetween (log : List FrameRow) : List (ℕ × Event) :=
  [(1, .start hourly), (1, .scope 2), (1, .loadWatermark), (1, .fetch log),
    (2, .start { hourly with rebuild := true }), (2, .scope 2)] ++ aloneRun log ++
  [(2, .lockTable), (2, .commitReset), (1, .lockWatermark), (2, .abort), (1, .upsertLifecycles),
    (1, .release), (1, .commit)]

theorem log_folded_once_reset : ∃ s : System,
    interleave [canceledRow "BybitMargin" 1500] 1 (resetBetween [canceledRow "BybitMargin" 1500])
      = .ok s ∧ s.resource.store.sourceReadThroughUs = 3000 ∧
    s.resource.folded.Perm ((sourceWindow [canceledRow "BybitMargin" 1500] (1 * 1000)
      s.resource.store.sourceReadThroughUs).filter FrameRow.ofVenues) := by
  obtain ⟨s, hs, hsource⟩ : Yields
      (interleave [canceledRow "BybitMargin" 1500] 1 (resetBetween [canceledRow "BybitMargin" 1500]))
      (fun s => s.resource.store.sourceReadThroughUs = 3000) := by decide +kernel
  exact ⟨s, hs, hsource, (log_folded_once [canceledRow "BybitMargin" 1500] 1 hs).1⟩

/-- A row of another venue is read past and never folded. -/
theorem other_venue_skipped : ∃ s : System,
    interleave [canceledRow "OkexMargin" 1500] 1 (aloneRun [canceledRow "OkexMargin" 1500]) = .ok s ∧
    ¬ s.resource.folded.Perm (sourceWindow [canceledRow "OkexMargin" 1500] (1 * 1000)
      s.resource.store.sourceReadThroughUs) := by
  have hyields : Yields
      (interleave [canceledRow "OkexMargin" 1500] 1 (aloneRun [canceledRow "OkexMargin" 1500]))
      (fun s => ¬ s.resource.folded.Perm (sourceWindow [canceledRow "OkexMargin" 1500] (1 * 1000)
        s.resource.store.sourceReadThroughUs)) := by decide +kernel
  exact hyields

end CryptoNav.Sync
