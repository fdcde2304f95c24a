import CryptoNav.Lib.Runs
import CryptoNav.Lib.Table

/-!
# Exporting matched orders

`export_matched_orders` writes the matched orders of a day to a Parquet file and, beside it, the
fingerprint of the rows it came from: their number and the time of the last update. A day whose
recorded fingerprint is the database's is skipped. An exporter replaces the Parquet file first and
checks the database afterwards, so another that is slower can replace a current file by an older
snapshot, while the fingerprint that is recorded stays the database's. Where that does not happen, a
file that is marked current is current (`marked_current`).

A system is the orders of one strategy, its files and any number of exporters. The columns of an
order other than its key and its times are two parameters: those that a later upsert keeps, and
those that it replaces.

Parquet is left out: a file is the snapshot it was written from, and it and the file beside it
are each replaced at once, as the source writes a temporary file and renames it. A crash between
the two replacements is a run that ends there, and is among the interleavings. The clock of the
database may give one time to two updates; that the fingerprint cannot tell such states apart is
in the theorem's condition and not assumed away.
-/

set_option autoImplicit false

namespace CryptoNav.Export

open CryptoNav.Lib

def maxSnapshotRetries : ℕ := 5

def microsPerDay : ℤ := 86400000000

/-- The columns that are exported. -/
structure OrderRow (Fixed Updated : Type) where
  fkey : ℤ
  cts : ℤ
  fixed : Fixed
  updated : Updated
  deriving DecidableEq

/-- A row of `intra_orders`. -/
structure StoredOrder (Fixed Updated : Type) extends OrderRow Fixed Updated where
  updatedUs : ℤ

variable {Fixed Updated : Type}

def StoredOrder.key (row : StoredOrder Fixed Updated) : ℤ := row.fkey

abbrev Orders (Fixed Updated : Type) := Table (@StoredOrder.key Fixed Updated)

structure DayState where
  rowCount : ℕ
  maxUpdatedUs : ℤ
  deriving DecidableEq

/-- The rows of a table with their fingerprint. -/
structure Snapshot (Fixed Updated : Type) where
  state : DayState
  rows : List (OrderRow Fixed Updated)

/-- What a run of the exporter has still to do: dates, each with the fingerprint that it had when
    the run began. -/
structure Plan where
  force : Bool
  dates : List (ℤ × DayState)

/-- Where an exporter is: before a date of its plan, or, for one date, before loading a snapshot,
    before replacing the Parquet file, before checking the database, before recording the
    fingerprint. -/
inductive Exporter (Fixed Updated : Type) where
  | idle
  | choosing (plan : Plan)
  | loading (plan : Plan) (date : ℤ) (attempt : ℕ)
  | replacing (plan : Plan) (date : ℤ) (attempt : ℕ) (snapshot : Snapshot Fixed Updated)
  | checking (plan : Plan) (date : ℤ) (attempt : ℕ) (snapshot : Snapshot Fixed Updated)
  | recording (plan : Plan) (date : ℤ) (snapshot : Snapshot Fixed Updated)

/-- `clock` is the time of the last transaction that changed rows. -/
structure System (Fixed Updated : Type) where
  orders : Orders Fixed Updated := .empty
  clock : ℤ := 0
  parquet : ℤ → Option (List (OrderRow Fixed Updated)) := fun _ => none
  exportState : ℤ → Option DayState := fun _ => none
  exporters : ℕ → Exporter Fixed Updated := fun _ => .idle

inductive Event (Fixed Updated : Type) where
  /-- A transaction of the synthesis upserts rows, all with its own time. -/
  | upsert (startUs : ℤ) (rows : List (OrderRow Fixed Updated))
  /-- A rebuild deletes all rows. -/
  | reset
  | start (exporter : ℕ) (force : Bool) (tradeDates : List ℤ)
  /-- The next step of an exporter. -/
  | advance (exporter : ℕ)
  | kill (exporter : ℕ)

/-! ## The database -/

/-- On conflict the key, the time and the fixed columns stay. -/
def merge (old new : StoredOrder Fixed Updated) : StoredOrder Fixed Updated :=
  { old with updated := new.updated, updatedUs := new.updatedUs }

def upsertOrders (orders : Orders Fixed Updated) (startUs : ℤ)
    (rows : List (OrderRow Fixed Updated)) : Orders Fixed Updated :=
  rows.foldl (fun orders row => orders.upsert merge { row with updatedUs := startUs }) orders

/-- The fingerprint of some rows, if there are any. -/
def stateOf (rows : List (StoredOrder Fixed Updated)) : Option DayState :=
  (rows.map StoredOrder.updatedUs).max?.map fun maxUpdatedUs => { rowCount := rows.length, maxUpdatedUs }

/-- The rows from the start of a day to the start of the next. -/
def dayOrders (orders : Orders Fixed Updated) (date : ℤ) : Orders Fixed Updated :=
  orders.filter fun row => date * microsPerDay ≤ row.cts && row.cts < (date + 1) * microsPerDay

def loadOneDayState (orders : Orders Fixed Updated) (date : ℤ) : Option DayState :=
  stateOf (dayOrders orders date).rows

/-- The rows of a day, in the order of their times and keys. -/
def dayRows (orders : Orders Fixed Updated) (date : ℤ) : List (OrderRow Fixed Updated) :=
  (sortByKey (fun row => toLex (row.cts, row.fkey)) (dayOrders orders date).rows).map
    StoredOrder.toOrderRow

/-- Both queries see one state of the database. -/
def loadDaySnapshot (orders : Orders Fixed Updated) (date : ℤ) : Option (Snapshot Fixed Updated) :=
  (loadOneDayState orders date).map fun state => { state, rows := dayRows orders date }

/-- The database divides towards zero. -/
def utcDay (row : StoredOrder Fixed Updated) : ℤ := row.cts.tdiv microsPerDay

def loadDayStates (orders : Orders Fixed Updated) (date : ℤ) : Option DayState :=
  stateOf (orders.rows.filter fun row => utcDay row = date)

/-! ## The steps -/

namespace System

variable (sys : System Fixed Updated)

def withExporter (id : ℕ) (exporter : Exporter Fixed Updated) : System Fixed Updated :=
  { sys with exporters := Function.update sys.exporters id exporter }

def start (id : ℕ) (force : Bool) (tradeDates : List ℤ) : System Fixed Updated :=
  let withState (date : ℤ) := (loadDayStates sys.orders date).map fun state => (date, state)
  if tradeDates = [] then
    let dates := (sortedSet (sys.orders.rows.map utcDay)).filterMap withState
    sys.withExporter id (.choosing { force, dates })
  else if tradeDates.all fun date => (withState date).isSome then
    sys.withExporter id (.choosing { force, dates := (sortedSet tradeDates).filterMap withState })
  else sys.withExporter id .idle

/-- A date is skipped if there is a file and the fingerprint recorded is that of the plan. -/
def choose (id : ℕ) (plan : Plan) : System Fixed Updated :=
  match plan.dates with
  | [] => sys.withExporter id .idle
  | (date, databaseState) :: dates =>
    if !plan.force && (sys.parquet date).isSome &&
        decide (sys.exportState date = some databaseState) then
      sys.withExporter id (.choosing { plan with dates })
    else sys.withExporter id (.loading { plan with dates } date 1)

def load (id : ℕ) (plan : Plan) (date : ℤ) (attempt : ℕ) : System Fixed Updated :=
  match loadDaySnapshot sys.orders date with
  | some snapshot => sys.withExporter id (.replacing plan date attempt snapshot)
  | none => sys.withExporter id .idle

/-- `write_parquet_atomic` -/
def replace (id : ℕ) (plan : Plan) (date : ℤ) (attempt : ℕ) (snapshot : Snapshot Fixed Updated) :
    System Fixed Updated :=
  { sys with parquet := Function.update sys.parquet date (some snapshot.rows) }.withExporter id
    (.checking plan date attempt snapshot)

def check (id : ℕ) (plan : Plan) (date : ℤ) (attempt : ℕ) (snapshot : Snapshot Fixed Updated) :
    System Fixed Updated :=
  match loadOneDayState sys.orders date with
  | none => sys.withExporter id .idle
  | some current =>
    if current = snapshot.state then sys.withExporter id (.recording plan date snapshot)
    else if attempt < maxSnapshotRetries then
      sys.withExporter id (.loading plan date (attempt + 1))
    else sys.withExporter id .idle

/-- `write_export_state_atomic` -/
def record (id : ℕ) (plan : Plan) (date : ℤ) (snapshot : Snapshot Fixed Updated) :
    System Fixed Updated :=
  { sys with exportState := Function.update sys.exportState date (some snapshot.state) }.withExporter
    id (.choosing plan)

def advance (id : ℕ) : Except Unit (System Fixed Updated) :=
  match sys.exporters id with
  | .idle => .error ()
  | .choosing plan => .ok (sys.choose id plan)
  | .loading plan date attempt => .ok (sys.load id plan date attempt)
  | .replacing plan date attempt snapshot => .ok (sys.replace id plan date attempt snapshot)
  | .checking plan date attempt snapshot => .ok (sys.check id plan date attempt snapshot)
  | .recording plan date snapshot => .ok (sys.record id plan date snapshot)

/-- Transactions come one after another, a later one with a later time. -/
def step (sys : System Fixed Updated) : Event Fixed Updated → Except Unit (System Fixed Updated)
  | .upsert startUs rows =>
    if sys.clock < startUs then
      .ok { sys with orders := upsertOrders sys.orders startUs rows, clock := startUs }
    else .error ()
  | .reset => .ok { sys with orders := .empty }
  | .start id force tradeDates =>
    match sys.exporters id with
    | .idle => .ok (sys.start id force tradeDates)
    | _ => .error ()
  | .advance id => sys.advance id
  | .kill id => .ok (sys.withExporter id .idle)

end System

/-! ## What a transaction does to the rows of a day -/

/-- Every row is as it was, or has been stamped on the same day. The stamp is the clock of the
    database, which a row cannot be younger than. -/
def Touched (startUs : ℤ) (orders orders' : Orders Fixed Updated) : Prop :=
  ∀ k, orders'.get k = orders.get k ∨ ∃ row, orders'.get k = some row ∧ row.updatedUs = startUs ∧
    ∀ old, orders.get k = some old → old.cts = row.cts

theorem Touched.trans {startUs : ℤ} {a b c : Orders Fixed Updated} (hab : Touched startUs a b)
    (hbc : Touched startUs b c) : Touched startUs a c := by
  intro k
  rcases hbc k with hsame | ⟨row, hrow, hstamp, hday⟩
  · rw [hsame]
    exact hab k
  · refine .inr ⟨row, hrow, hstamp, fun old hold => ?_⟩
    rcases hab k with hsame | ⟨between, hbetween, -, hday'⟩
    · exact hday old (hsame.trans hold)
    · exact (hday' old hold).trans (hday between hbetween)

theorem merge_key (old new : StoredOrder Fixed Updated) (h : old.key = new.key) :
    (merge old new).key = new.key := h

theorem upsertOrders_touched (orders : Orders Fixed Updated) (startUs : ℤ)
    (rows : List (OrderRow Fixed Updated)) :
    Touched startUs orders (upsertOrders orders startUs rows) := by
  induction rows generalizing orders with
  | nil => exact fun k => .inl rfl
  | cons row rows ih =>
    refine Touched.trans (fun k => ?_) (ih _)
    dsimp only
    rw [Table.get_upsert merge_key]
    split
    · refine .inr ⟨_, rfl, ?_, fun old hold => ?_⟩
      · cases orders.get k with
        | none => rfl
        | some old => rfl
      · rw [hold]
        rfl
    · exact .inl rfl

theorem Touched.stamped {startUs clock : ℤ} {orders orders' : Orders Fixed Updated}
    (h : Touched startUs orders orders') (hclock : clock < startUs)
    (hstamped : ∀ row ∈ orders.rows, row.updatedUs ≤ clock) :
    ∀ row ∈ orders'.rows, row.updatedUs ≤ startUs := by
  intro row hrow
  rw [Table.mem_rows] at hrow
  rcases h row.key with hsame | ⟨row', hrow', hstamp, -⟩
  · exact (hstamped row (Table.mem_rows.mpr (hsame.symm.trans hrow))).trans hclock.le
  · cases hrow.symm.trans hrow'
    exact hstamp.le

/-- A day whose rows are touched gets the fingerprint of the transaction. -/
theorem Touched.day_cases {startUs clock : ℤ} {orders orders' : Orders Fixed Updated}
    (h : Touched startUs orders orders') (hclock : clock < startUs)
    (hstamped : ∀ row ∈ orders.rows, row.updatedUs ≤ clock) (date : ℤ) :
    dayOrders orders' date = dayOrders orders date ∨
      ∃ state, loadOneDayState orders' date = some state ∧ state.maxUpdatedUs = startUs := by
  by_cases htouched : ∃ row ∈ (dayOrders orders' date).rows, row.updatedUs = startUs
  · obtain ⟨row, hrow, hstamp⟩ := htouched
    right
    have hmax : ((dayOrders orders' date).rows.map StoredOrder.updatedUs).max? = some startUs := by
      refine List.max?_eq_some_iff.mpr ⟨List.mem_map.mpr ⟨row, hrow, hstamp⟩, fun t ht => ?_⟩
      obtain ⟨other, hother, rfl⟩ := List.mem_map.mp ht
      exact h.stamped hclock hstamped other (List.mem_filter.mp hother).1
    exact ⟨_, by rw [loadOneDayState, stateOf, hmax]; rfl, rfl⟩
  · left
    refine Table.ext fun k => ?_
    rw [dayOrders, dayOrders, Table.get_filter, Table.get_filter]
    rcases h k with hsame | ⟨row, hrow, hstamp, hday⟩
    · rw [hsame]
    · -- A stamped row is not of this day, and neither was the row that it replaces.
      have hout : (some row).filter
          (fun row => date * microsPerDay ≤ row.cts && row.cts < (date + 1) * microsPerDay)
          = none := by
        rw [← hrow, ← Table.get_filter, Table.get_eq_none]
        intro other hother hkey
        have hother' := (List.mem_filter.mp hother).1
        rw [Table.mem_rows, hkey, hrow] at hother'
        cases hother'
        exact htouched ⟨row, hother, hstamp⟩
      rw [hrow, hout]
      cases hold : orders.get k with
      | none => rfl
      | some old =>
        rw [Option.filter_some] at hout ⊢
        rw [hday old hold]
        split at hout
        · cases hout
        · rename_i hnot
          rw [if_neg hnot]

/-! ## Snapshots and marks -/

namespace System

variable {sys sys' : System Fixed Updated} {date : ℤ}

/-- While the database has the snapshot's fingerprint, it has the snapshot's rows. A fingerprint is
    the number of the rows and the time of the last update, and a later update has a later time. -/
def Holds (sys : System Fixed Updated) (date : ℤ) (snapshot : Snapshot Fixed Updated) : Prop :=
  snapshot.state.maxUpdatedUs ≤ sys.clock ∧
    (loadOneDayState sys.orders date = some snapshot.state →
      dayRows sys.orders date = snapshot.rows)

/-- While the database has the fingerprint, the Parquet file has the rows of the database. It is
    what `Holds` says, of the file instead of a snapshot that an exporter has in memory. -/
def Marked (sys : System Fixed Updated) (date : ℤ) (state : DayState) : Prop :=
  state.maxUpdatedUs ≤ sys.clock ∧
    (loadOneDayState sys.orders date = some state →
      sys.parquet date = some (dayRows sys.orders date))

/-- What an exporter is about to write may be written. -/
def Prepared (sys : System Fixed Updated) : Exporter Fixed Updated → Prop
  | .replacing _ date _ snapshot => sys.Holds date snapshot
  | .checking _ date _ snapshot => sys.Marked date snapshot.state
  | .recording _ date snapshot => sys.Marked date snapshot.state
  | _ => True

structure Sound (sys : System Fixed Updated) : Prop where
  stamped : ∀ row ∈ sys.orders.rows, row.updatedUs ≤ sys.clock
  recorded : ∀ date state, sys.exportState date = some state → sys.Marked date state
  prepared : ∀ id, sys.Prepared (sys.exporters id)

theorem sound_new : Sound ({} : System Fixed Updated) :=
  ⟨fun _ h => (by cases h), fun _ _ h => (by cases h), fun _ => trivial⟩

/-- No current Parquet file is replaced by an older snapshot. -/
def ReplacesStale (sys : System Fixed Updated) : Exporter Fixed Updated → Prop
  | .replacing _ date _ snapshot =>
    sys.parquet date = some (dayRows sys.orders date) → snapshot.rows = dayRows sys.orders date
  | _ => True

def Guarded (sys : System Fixed Updated) : Event Fixed Updated → Prop
  | .advance id => sys.ReplacesStale (sys.exporters id)
  | _ => True

/-- The database moves on: a day keeps its rows, or gets a fingerprint that was not there before. A
    transaction may touch several days, and each of them is looked at by itself. -/
structure Moves (sys sys' : System Fixed Updated) : Prop where
  clock : sys.clock ≤ sys'.clock
  parquet : sys'.parquet = sys.parquet
  days : ∀ date, dayOrders sys'.orders date = dayOrders sys.orders date ∨
    ∀ state, loadOneDayState sys'.orders date = some state → sys.clock < state.maxUpdatedUs

theorem Holds.moves {snapshot : Snapshot Fixed Updated} (h : sys.Holds date snapshot)
    (hmoves : sys.Moves sys') : sys'.Holds date snapshot := by
  refine ⟨h.1.trans hmoves.clock, fun hstate => ?_⟩
  rcases hmoves.days date with hsame | hnew
  · unfold loadOneDayState dayRows at *
    rw [hsame] at hstate ⊢
    exact h.2 hstate
  · exact absurd (hnew _ hstate) (not_lt.mpr h.1)

theorem Marked.moves {state : DayState} (h : sys.Marked date state) (hmoves : sys.Moves sys') :
    sys'.Marked date state := by
  refine ⟨h.1.trans hmoves.clock, fun hstate => ?_⟩
  rw [hmoves.parquet]
  rcases hmoves.days date with hsame | hnew
  · have hmarked := h.2
    unfold loadOneDayState dayRows at *
    rw [hsame] at hstate ⊢
    exact hmarked hstate
  · exact absurd (hnew _ hstate) (not_lt.mpr h.1)

theorem Sound.moves (h : sys.Sound) (hmoves : sys.Moves sys')
    (hstamped : ∀ row ∈ sys'.orders.rows, row.updatedUs ≤ sys'.clock)
    (hexportState : sys'.exportState = sys.exportState)
    (hexporters : sys'.exporters = sys.exporters) : sys'.Sound := by
  refine ⟨hstamped, fun date state hstate => ?_, fun id => ?_⟩
  · exact (h.recorded date state (hexportState ▸ hstate)).moves hmoves
  · have hprepared := h.prepared id
    rw [hexporters]
    cases hexporter : sys.exporters id with
    | replacing plan date attempt snapshot =>
      rw [hexporter] at hprepared
      exact Holds.moves hprepared hmoves
    | checking plan date attempt snapshot =>
      rw [hexporter] at hprepared
      exact Marked.moves hprepared hmoves
    | recording plan date snapshot =>
      rw [hexporter] at hprepared
      exact Marked.moves hprepared hmoves
    | idle => trivial
    | choosing plan => trivial
    | loading plan date attempt => trivial

/-- An exporter goes on with something it may write. -/
theorem Sound.withExporter (h : sys.Sound) (id : ℕ) {exporter : Exporter Fixed Updated}
    (hprepared : sys.Prepared exporter) : (sys.withExporter id exporter).Sound := by
  refine ⟨h.stamped, h.recorded, fun other => ?_⟩
  have hwhich : (sys.withExporter id exporter).exporters other =
      if other = id then exporter else sys.exporters other := Function.update_apply _ _ _ _
  rw [hwhich]
  split
  · exact hprepared
  · exact h.prepared other

theorem Marked.replace {plan : Plan} {id attempt : ℕ} {date' : ℤ} {state : DayState}
    {snapshot : Snapshot Fixed Updated} (h : sys.Marked date' state)
    (hguard : sys.parquet date = some (dayRows sys.orders date) →
      snapshot.rows = dayRows sys.orders date) :
    (sys.replace id plan date attempt snapshot).Marked date' state := by
  refine ⟨h.1, fun hstate => ?_⟩
  have hcurrent := h.2 hstate
  by_cases hdate : date' = date
  · cases hdate
    exact (Function.update_self _ _ _).trans (congrArg some (hguard hcurrent))
  · exact (Function.update_of_ne hdate _ _).trans hcurrent

theorem Sound.replace (h : sys.Sound) {plan : Plan} {id attempt : ℕ}
    {snapshot : Snapshot Fixed Updated} (hholds : sys.Holds date snapshot)
    (hguard : sys.parquet date = some (dayRows sys.orders date) →
      snapshot.rows = dayRows sys.orders date) :
    (sys.replace id plan date attempt snapshot).Sound := by
  refine ⟨h.stamped, fun date' state hstate => ?_, fun other => ?_⟩
  · exact (h.recorded date' state hstate).replace hguard
  · have hwhich : (sys.replace id plan date attempt snapshot).exporters other =
        if other = id then .checking plan date attempt snapshot else sys.exporters other :=
      Function.update_apply _ _ _ _
    rw [hwhich]
    split
    · refine ⟨hholds.1, fun hstate => ?_⟩
      exact (Function.update_self _ _ _).trans (congrArg some (hholds.2 hstate).symm)
    · have hprepared := h.prepared other
      cases hexporter : sys.exporters other with
      | replacing plan' date' attempt' snapshot' =>
        rw [hexporter] at hprepared
        exact hprepared
      | checking plan' date' attempt' snapshot' =>
        rw [hexporter] at hprepared
        exact Marked.replace hprepared hguard
      | recording plan' date' snapshot' =>
        rw [hexporter] at hprepared
        exact Marked.replace hprepared hguard
      | idle => trivial
      | choosing plan => trivial
      | loading plan date attempt => trivial

theorem Sound.le_clock (h : sys.Sound) {state : DayState}
    (hstate : loadOneDayState sys.orders date = some state) : state.maxUpdatedUs ≤ sys.clock := by
  obtain ⟨t, hmax, rfl⟩ := Option.map_eq_some_iff.mp hstate
  obtain ⟨row, hrow, rfl⟩ := List.mem_map.mp (List.max?_eq_some_iff.mp hmax).1
  exact h.stamped row (List.mem_filter.mp hrow).1

theorem Sound.holds (h : sys.Sound) {snapshot : Snapshot Fixed Updated}
    (hload : loadDaySnapshot sys.orders date = some snapshot) : sys.Holds date snapshot := by
  obtain ⟨state, hstate, rfl⟩ := Option.map_eq_some_iff.mp hload
  exact ⟨h.le_clock hstate, fun _ => rfl⟩

theorem Sound.advance (h : sys.Sound) {id : ℕ} (hguard : sys.ReplacesStale (sys.exporters id))
    (hstep : sys.advance id = .ok sys') : sys'.Sound := by
  have hprepared := h.prepared id
  unfold System.advance at hstep
  cases hexporter : sys.exporters id with
  | idle =>
    rw [hexporter] at hstep
    cases hstep
  | choosing plan =>
    rw [hexporter] at hstep
    cases hstep
    unfold choose
    split
    · exact h.withExporter id trivial
    · split
      · exact h.withExporter id trivial
      · exact h.withExporter id trivial
  | loading plan date attempt =>
    rw [hexporter] at hstep
    cases hstep
    unfold load
    split
    · rename_i hload
      exact h.withExporter id (h.holds hload)
    · exact h.withExporter id trivial
  | replacing plan date attempt snapshot =>
    rw [hexporter] at hstep hprepared hguard
    cases hstep
    exact h.replace hprepared hguard
  | checking plan date attempt snapshot =>
    rw [hexporter] at hstep hprepared
    cases hstep
    unfold check
    split
    · exact h.withExporter id trivial
    · split
      · exact h.withExporter id hprepared
      · split
        · exact h.withExporter id trivial
        · exact h.withExporter id trivial
  | recording plan date snapshot =>
    rw [hexporter] at hstep hprepared
    cases hstep
    have hrecorded : Sound { sys with
        exportState := Function.update sys.exportState date (some snapshot.state) } := by
      refine ⟨h.stamped, fun date' state hstate => ?_, h.prepared⟩
      by_cases hdate : date' = date
      · cases hdate
        cases (Function.update_self _ _ _).symm.trans hstate
        exact hprepared
      · exact h.recorded date' state ((Function.update_of_ne hdate _ _).symm.trans hstate)
    exact hrecorded.withExporter id trivial

/-- **One step** that replaces no current file by an older snapshot. -/
theorem Sound.step (h : sys.Sound) {event : Event Fixed Updated} (hguard : sys.Guarded event)
    (hstep : sys.step event = .ok sys') : sys'.Sound := by
  cases event with
  | upsert startUs rows =>
    simp only [System.step] at hstep
    split at hstep
    · rename_i hclock
      cases hstep
      have htouched := upsertOrders_touched sys.orders startUs rows
      refine h.moves ⟨hclock.le, rfl, fun date => ?_⟩ (htouched.stamped hclock h.stamped) rfl rfl
      refine (htouched.day_cases hclock h.stamped date).imp_right ?_
      rintro ⟨new, hnew, hstamp⟩ state hstate
      cases hnew.symm.trans hstate
      exact hstamp ▸ hclock
    · cases hstep
  | reset =>
    cases hstep
    exact h.moves ⟨le_rfl, rfl, fun date => .inr fun _ hstate => by cases hstate⟩
      (fun _ hrow => by cases hrow) rfl rfl
  | start id force tradeDates =>
    simp only [System.step] at hstep
    split at hstep
    · cases hstep
      unfold System.start
      dsimp only
      split
      · exact h.withExporter id trivial
      · split
        · exact h.withExporter id trivial
        · exact h.withExporter id trivial
    · cases hstep
  | advance id => exact h.advance hguard hstep
  | kill id =>
    cases hstep
    exact h.withExporter id trivial

end System

/-- **A file that is marked current is current**: whatever the order of transactions and exporters,
    if no exporter replaces the current file of a day by an older snapshot, then a Parquet file whose
    recorded fingerprint is the database's has the rows of the database. -/
theorem marked_current {events : List (Event Fixed Updated)} {sys : System Fixed Updated}
    (hrun : events.foldlM System.step {} = .ok sys)
    (hguarded : Throughout System.step System.Guarded {} events) :
    ∀ date state rows, sys.exportState date = some state →
      loadOneDayState sys.orders date = some state → sys.parquet date = some rows →
      rows = dayRows sys.orders date := by
  intro date state rows hstate hcurrent hrows
  have hsound : sys.Sound :=
    run_throughout (fun _ _ _ h hguard hstep => h.step hguard hstep) System.sound_new hguarded hrun
  exact Option.some.inj (hrows.symm.trans ((hsound.recorded date state hstate).2 hcurrent))

/-! ## A slow exporter -/

instance [DecidableEq Fixed] [DecidableEq Updated] (sys : System Fixed Updated) :
    DecidablePred sys.ReplacesStale
  | .replacing _ date _ snapshot => inferInstanceAs (Decidable
      (sys.parquet date = some (dayRows sys.orders date) →
        snapshot.rows = dayRows sys.orders date))
  | .idle | .choosing _ | .loading _ _ _ | .checking _ _ _ _ | .recording _ _ _ => isTrue trivial

instance [DecidableEq Fixed] [DecidableEq Updated] (sys : System Fixed Updated) :
    DecidablePred sys.Guarded
  | .advance id => inferInstanceAs (Decidable (sys.ReplacesStale (sys.exporters id)))
  | .upsert _ _ | .reset | .start _ _ _ | .kill _ => isTrue trivial

def order (updated : ℤ) : OrderRow Unit ℤ :=
  { fkey := 1, cts := 1786233600000000, fixed := (), updated }

/-- An exporter of that day, for as many steps. -/
def exports (id steps : ℕ) : List (Event Unit ℤ) :=
  .start id false [20674] :: List.replicate steps (.advance id)

/-- The first exporter has loaded its snapshot when the order changes; the second exports the change
    and records it; then the first replaces the file. -/
def overtaken : List (Event Unit ℤ) :=
  [.upsert 1 [order 5]] ++ exports 0 2 ++ [.upsert 2 [order 7]] ++ exports 1 5 ++ [.advance 0]

/-- The first exporter is done before the order changes. -/
def inTurn : List (Event Unit ℤ) :=
  [.upsert 1 [order 5]] ++ exports 0 6 ++ [.upsert 2 [order 7]] ++ exports 1 5

theorem stale_file_marked_current :
    Yields (overtaken.foldlM System.step {}) fun sys =>
      sys.exportState 20674 = some { rowCount := 1, maxUpdatedUs := 2 } ∧
      loadOneDayState sys.orders 20674 = some { rowCount := 1, maxUpdatedUs := 2 } ∧
      sys.parquet 20674 = some [order 5] ∧ dayRows sys.orders 20674 = [order 7] := by
  decide +kernel

theorem marked_current_in_turn : ∃ sys : System Unit ℤ, inTurn.foldlM System.step {} = .ok sys ∧
    sys.exportState 20674 = loadOneDayState sys.orders 20674 ∧
    sys.parquet 20674 = some (dayRows sys.orders 20674) := by
  obtain ⟨sys, hrun, hstate, hcurrent, hrows⟩ :
      Yields (inTurn.foldlM System.step {}) fun sys =>
        sys.exportState 20674 = some { rowCount := 1, maxUpdatedUs := 2 } ∧
        loadOneDayState sys.orders 20674 = some { rowCount := 1, maxUpdatedUs := 2 } ∧
        (sys.parquet 20674).isSome := by
    decide +kernel
  obtain ⟨rows, hrows⟩ := Option.isSome_iff_exists.mp hrows
  refine ⟨sys, hrun, hstate.trans hcurrent.symm, ?_⟩
  rw [hrows, marked_current hrun (by decide +kernel) _ _ _ hstate hcurrent hrows]

end CryptoNav.Export
