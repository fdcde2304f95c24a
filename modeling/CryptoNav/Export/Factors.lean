import CryptoNav.Lib.Runs
import Mathlib.Algebra.Order.Group.Int
import Mathlib.Data.List.Basic
import Mathlib.Logic.Function.Basic

/-!
# Exporting the factors of matched orders

`export_matched_order_factors` reads the orders of a matched-order file, fetches for each the factors
of the five seconds it was created in, and records what the file was made from: size and time of the
source, and the fingerprint of the factor table. The fingerprint and the source's times are sampled
before anything is read, so that a later change shows; all but the names of the factor columns,
which are read before the fingerprint. A column that is added in between is missing in files that are
marked current, and nothing else goes wrong (`marked_current_iff`).

What the columns hold is a parameter. Runs follow one another; every one of them may end anywhere.

Two runs at a time are left out: the program takes one file after another, and nothing in it
makes a second process wait. A factor table is a list of columns with what they hold for each
second; how the values of five seconds are put together is the program's business with numbers
and has no part in whether a file is current.
-/

set_option autoImplicit false

namespace CryptoNav.Export.Factors

open CryptoNav.Lib

def factorIntervalUs : ℤ := 5000000

def microsPerDay : ℤ := 86400000000

/-- The start of the interval that a time lies in. -/
def factorBucketUs (cts : ℤ) : ℤ := cts / factorIntervalUs * factorIntervalUs

structure OrderKey where
  fkey : ℤ
  symbol : String
  cts : ℤ
  deriving DecidableEq

structure FactorState where
  rows : ℕ
  maxTsUs : ℤ
  maxReplayVersion : ℕ
  deriving DecidableEq

/-- The factor table; `find` is the row that is left of a symbol and a time. -/
structure FactorTable (Value : Type) where
  columns : List String
  state : FactorState
  find : String → ℤ → Option (String → Value)

/-- A matched-order file. -/
structure Source where
  size : ℕ
  modifiedNs : ℕ
  keys : List OrderKey

structure ExportState where
  sourceSize : ℕ
  sourceModifiedNs : ℕ
  factor : FactorState
  deriving DecidableEq

/-- A factor file: for each order the time and the factors found, if any. -/
structure Parquet (Value : Type) where
  columns : List String
  rows : List (OrderKey × Option (ℤ × List Value))
  deriving DecidableEq

/-- The alias and the date of a file. -/
abbrev File := String × ℤ

structure Run where
  force : Bool
  columns : List String
  factor : FactorState

/-- Where a run is: after asking for the columns, between two files, after sampling the state of a
    file, reading its orders, fetching their factors, writing the factor file. -/
inductive Phase (Value : Type) where
  | idle
  | columned (force : Bool) (columns : List String)
  | listing (run : Run)
  | sampled (run : Run) (file : File) (state : ExportState)
  | keyed (run : Run) (file : File) (state : ExportState) (keys : List OrderKey)
  | fetched (run : Run) (file : File) (state : ExportState) (parquet : Parquet Value)
  | written (run : Run) (file : File) (state : ExportState)

/-- `seenFactors` and `seenSources` are the fingerprints that there have been. -/
structure System (Value : Type) where
  table : FactorTable Value
  sources : File → Option Source
  factorFiles : File → Option (Parquet Value) := fun _ => none
  exportStates : File → Option ExportState := fun _ => none
  phase : Phase Value := .idle
  seenFactors : List FactorState := [table.state]
  seenSources : File → List (ℕ × ℕ) := fun file =>
    (sources file).toList.map fun source => (source.size, source.modifiedNs)

inductive Event (Value : Type) where
  /-- The factor table changes, its rows or its columns. -/
  | changeTable (table : FactorTable Value)
  | replaceSource (file : File) (source : Source)
  /-- A run begins with the query for the columns. -/
  | loadColumns (force : Bool)
  | loadState
  /-- The next file of the listing. -/
  | sample (file : File)
  | readKeys
  | fetch
  | write
  | record
  /-- The run is through, fails or is killed. -/
  | stop

variable {Value : Type}

def sourceState (source : Source) (factor : FactorState) : ExportState where
  sourceSize := source.size
  sourceModifiedNs := source.modifiedNs
  factor

/-- Every order with the factors of its interval. -/
def fetchFactorParquet (columns : List String) (keys : List OrderKey) (table : FactorTable Value) :
    Parquet Value where
  columns
  rows := keys.map fun key =>
    let bucket := factorBucketUs key.cts
    (key, (table.find key.symbol bucket).map fun values => (bucket, columns.map values))

/-- An order gets no factors of its future, and none that are five seconds old. -/
theorem factorBucketUs_le (cts : ℤ) :
    factorBucketUs cts ≤ cts ∧ cts - factorBucketUs cts < factorIntervalUs := by
  unfold factorBucketUs factorIntervalUs
  omega

namespace System

variable (sys : System Value)

/-- The state of a file as it is now. -/
def currentState (file : File) : Option ExportState :=
  (sys.sources file).map fun source => sourceState source sys.table.state

/-- The factor file as it would be exported now, with the columns of a run. -/
def exported (columns : List String) (file : File) : Option (Parquet Value) :=
  (sys.sources file).map fun source => fetchFactorParquet columns source.keys sys.table

/-- A file later than the last factors is passed over, and one whose state is recorded. -/
def sample (run : Run) (file : File) (source : Source) : Phase Value :=
  let state := sourceState source run.factor
  if run.factor.maxTsUs / microsPerDay < file.2 then .listing run
  else if !run.force && (sys.factorFiles file).isSome &&
      decide (sys.exportStates file = some state) then .listing run
  else .sampled run file state

def step (sys : System Value) : Event Value → Except Unit (System Value)
  | .changeTable table =>
    if table.state ∈ sys.seenFactors then .error ()
    else .ok { sys with table, seenFactors := table.state :: sys.seenFactors }
  | .replaceSource file source =>
    if (source.size, source.modifiedNs) ∈ sys.seenSources file then .error ()
    else .ok { sys with
      sources := Function.update sys.sources file (some source)
      seenSources := Function.update sys.seenSources file
        ((source.size, source.modifiedNs) :: sys.seenSources file) }
  | .loadColumns force =>
    match sys.phase with
    | .idle => .ok { sys with phase := .columned force sys.table.columns }
    | _ => .error ()
  | .loadState =>
    match sys.phase with
    | .columned force columns =>
      .ok { sys with phase := .listing { force, columns, factor := sys.table.state } }
    | _ => .error ()
  | .sample file =>
    match sys.phase, sys.sources file with
    | .listing run, some source => .ok { sys with phase := sys.sample run file source }
    | _, _ => .error ()
  | .readKeys =>
    match sys.phase with
    | .sampled run file state =>
      match sys.sources file with
      | some source => .ok { sys with phase := .keyed run file state source.keys }
      | none => .ok { sys with phase := .idle }
    | _ => .error ()
  | .fetch =>
    match sys.phase with
    | .keyed run file state keys =>
      if run.columns ⊆ sys.table.columns then
        .ok { sys with
          phase := .fetched run file state (fetchFactorParquet run.columns keys sys.table) }
      else .ok { sys with phase := .idle }
    | _ => .error ()
  | .write =>
    match sys.phase with
    | .fetched run file state parquet =>
      .ok { sys with
        factorFiles := Function.update sys.factorFiles file (some parquet)
        phase := .written run file state }
    | _ => .error ()
  | .record =>
    match sys.phase with
    | .written run file state =>
      .ok { sys with
        exportStates := Function.update sys.exportStates file (some state)
        phase := .listing run }
    | _ => .error ()
  | .stop => .ok { sys with phase := .idle }

/-- A factor file whose state is recorded is what an export would make. Where the state is an old
    one the file may hold anything, as the next export makes it anew. -/
def Current (sys : System Value) : Prop :=
  ∀ file state, sys.exportStates file = some state → sys.currentState file = some state →
    sys.factorFiles file = sys.exported sys.table.columns file

/-- A run that records the current state has the columns of the table. -/
def ColumnsCurrent (sys : System Value) : Event Value → Prop
  | .record =>
    match sys.phase with
    | .written run file state =>
      sys.currentState file = some state → run.columns = sys.table.columns
    | _ => True
  | _ => True

/-! ## What a run holds -/

def Seen (sys : System Value) (file : File) (state : ExportState) : Prop :=
  (state.sourceSize, state.sourceModifiedNs) ∈ sys.seenSources file ∧
    state.factor ∈ sys.seenFactors

/-- Where a current state is recorded, the columns of the run are those of the table. The columns
    were read when the run began, and the state is recorded when it is done with a file. -/
def ColumnsFresh (sys : System Value) (columns : List String) : Prop :=
  ∀ file state, sys.exportStates file = some state → sys.currentState file = some state →
    columns = sys.table.columns

/-- The state sampled of a file, or the one recorded, is its current one. Only such a state can make
    a file look current. -/
def MarksCurrent (sys : System Value) (file : File) (sampled : ExportState) : Prop :=
  ∃ state, (state = sampled ∨ sys.exportStates file = some state) ∧
    sys.currentState file = some state

/-- What a run has read of a file is what is there, as long as it is marked current. -/
def Ready (sys : System Value) : Phase Value → Prop
  | .idle => True
  | .columned _ columns => sys.ColumnsFresh columns
  | .listing run => sys.ColumnsFresh run.columns ∧ run.factor ∈ sys.seenFactors
  | .sampled run file state =>
    sys.ColumnsFresh run.columns ∧ run.factor ∈ sys.seenFactors ∧ sys.Seen file state
  | .keyed run file state keys =>
    sys.ColumnsFresh run.columns ∧ run.factor ∈ sys.seenFactors ∧ sys.Seen file state ∧
      (sys.MarksCurrent file state → (sys.sources file).map Source.keys = some keys)
  | .fetched run file state parquet =>
    sys.ColumnsFresh run.columns ∧ run.factor ∈ sys.seenFactors ∧ sys.Seen file state ∧
      (sys.MarksCurrent file state → sys.exported run.columns file = some parquet)
  | .written run file state =>
    sys.ColumnsFresh run.columns ∧ run.factor ∈ sys.seenFactors ∧ sys.Seen file state ∧
      (sys.MarksCurrent file state → sys.factorFiles file = sys.exported run.columns file)

structure Sound (sys : System Value) : Prop where
  factorSeen : sys.table.state ∈ sys.seenFactors
  sourceSeen : ∀ file source, sys.sources file = some source →
    (source.size, source.modifiedNs) ∈ sys.seenSources file
  recordedSeen : ∀ file state, sys.exportStates file = some state → sys.Seen file state
  ready : sys.Ready sys.phase

theorem sound_start (table : FactorTable Value) (sources : File → Option Source) :
    Sound { table, sources } := by
  refine ⟨List.mem_singleton_self _, fun file source h => ?_, fun _ _ h => (by cases h), trivial⟩
  simp only at h
  simp [h]

/-- Something outside changes: a state that has been seen is current afterwards only if it was, and
    then nothing that it is the state of has changed. -/
structure Ages (sys sys' : System Value) : Prop where
  unseen : ∀ file state, sys.Seen file state → sys'.currentState file = some state →
    sys.currentState file = some state ∧ sys'.sources file = sys.sources file ∧
      sys'.table = sys.table
  factors : sys.seenFactors ⊆ sys'.seenFactors
  sources : ∀ file, sys.seenSources file ⊆ sys'.seenSources file
  factorFiles : sys'.factorFiles = sys.factorFiles
  exportStates : sys'.exportStates = sys.exportStates
  phase : sys'.phase = sys.phase

variable {sys sys' : System Value} {file : File} {state : ExportState}

theorem Ages.seen (h : sys.Ages sys') (hseen : sys.Seen file state) : sys'.Seen file state :=
  ⟨h.sources file hseen.1, h.factors hseen.2⟩

theorem Ages.columnsFresh (h : sys.Ages sys') (hsound : sys.Sound) {columns : List String}
    (hfresh : sys.ColumnsFresh columns) : sys'.ColumnsFresh columns := by
  intro file state hstate hcurrent
  rw [h.exportStates] at hstate
  obtain ⟨hbefore, -, htable⟩ := h.unseen file state (hsound.recordedSeen file state hstate) hcurrent
  rw [htable]
  exact hfresh file state hstate hbefore

theorem Ages.marksCurrent (h : sys.Ages sys') (hsound : sys.Sound) (hseen : sys.Seen file state)
    (hmarks : sys'.MarksCurrent file state) :
    sys.MarksCurrent file state ∧ sys'.sources file = sys.sources file ∧ sys'.table = sys.table := by
  obtain ⟨marked, hmarked, hcurrent⟩ := hmarks
  rw [h.exportStates] at hmarked
  have hmarkedSeen : sys.Seen file marked := by
    rcases hmarked with rfl | hrecorded
    · exact hseen
    · exact hsound.recordedSeen file marked hrecorded
  obtain ⟨hbefore, hsame⟩ := h.unseen file marked hmarkedSeen hcurrent
  exact ⟨⟨marked, hmarked, hbefore⟩, hsame⟩

theorem Ages.ready (h : sys.Ages sys') (hsound : sys.Sound) : sys'.Ready sys'.phase := by
  have hready := hsound.ready
  rw [h.phase]
  cases hphase : sys.phase with
  | idle => trivial
  | columned force columns =>
    rw [hphase] at hready
    exact h.columnsFresh hsound hready
  | listing run =>
    rw [hphase] at hready
    exact ⟨h.columnsFresh hsound hready.1, h.factors hready.2⟩
  | sampled run file state =>
    rw [hphase] at hready
    obtain ⟨hfresh, hfactor, hseen⟩ := hready
    exact ⟨h.columnsFresh hsound hfresh, h.factors hfactor, h.seen hseen⟩
  | keyed run file state keys =>
    rw [hphase] at hready
    obtain ⟨hfresh, hfactor, hseen, hkeys⟩ := hready
    refine ⟨h.columnsFresh hsound hfresh, h.factors hfactor, h.seen hseen, fun hmarks => ?_⟩
    obtain ⟨hbefore, hsources, -⟩ := h.marksCurrent hsound hseen hmarks
    rw [hsources]
    exact hkeys hbefore
  | fetched run file state parquet =>
    rw [hphase] at hready
    obtain ⟨hfresh, hfactor, hseen, hparquet⟩ := hready
    refine ⟨h.columnsFresh hsound hfresh, h.factors hfactor, h.seen hseen, fun hmarks => ?_⟩
    obtain ⟨hbefore, hsources, htable⟩ := h.marksCurrent hsound hseen hmarks
    rw [exported, hsources, htable]
    exact hparquet hbefore
  | written run file state =>
    rw [hphase] at hready
    obtain ⟨hfresh, hfactor, hseen, hwritten⟩ := hready
    refine ⟨h.columnsFresh hsound hfresh, h.factors hfactor, h.seen hseen, fun hmarks => ?_⟩
    obtain ⟨hbefore, hsources, htable⟩ := h.marksCurrent hsound hseen hmarks
    rw [exported, hsources, htable, h.factorFiles]
    exact hwritten hbefore

theorem Ages.current (h : sys.Ages sys') (hsound : sys.Sound) (hcurrent : sys.Current) :
    sys'.Current := by
  intro file state hstate hnow
  rw [h.exportStates] at hstate
  obtain ⟨hbefore, hsources, htable⟩ :=
    h.unseen file state (hsound.recordedSeen file state hstate) hnow
  rw [exported, hsources, htable, h.factorFiles]
  exact hcurrent file state hstate hbefore

/-- A new fingerprint makes every state that has been seen an old one. -/
theorem ages_changeTable {table : FactorTable Value} (hnew : table.state ∉ sys.seenFactors) :
    sys.Ages { sys with table, seenFactors := table.state :: sys.seenFactors } := by
  refine ⟨fun file state hseen hnow => ?_, List.subset_cons_self _ _,
    fun _ => List.Subset.refl _, rfl, rfl, rfl⟩
  obtain ⟨source, -, rfl⟩ := Option.map_eq_some_iff.mp hnow
  exact absurd hseen.2 hnew

theorem ages_replaceSource {source : Source}
    (hnew : (source.size, source.modifiedNs) ∉ sys.seenSources file) :
    sys.Ages { sys with
      sources := Function.update sys.sources file (some source)
      seenSources := Function.update sys.seenSources file
        ((source.size, source.modifiedNs) :: sys.seenSources file) } := by
  refine ⟨fun other state hseen hnow => ?_, List.Subset.refl _, fun other => ?_, rfl, rfl, rfl⟩
  · by_cases hother : other = file
    · cases hother
      simp only [currentState, Function.update_self, Option.map_some] at hnow
      cases hnow
      exact absurd hseen.1 hnew
    · have hsame := Function.update_of_ne hother (some source) sys.sources
      rw [currentState] at hnow
      simp only [hsame] at hnow
      exact ⟨hnow, hsame, rfl⟩
  · by_cases hother : other = file
    · cases hother
      dsimp only
      rw [Function.update_self]
      exact List.subset_cons_self _ _
    · dsimp only
      rw [Function.update_of_ne hother]
      exact List.Subset.refl _

theorem Sound.withPhase (h : sys.Sound) {phase : Phase Value} (hready : sys.Ready phase) :
    Sound { sys with phase } := by
  refine ⟨h.factorSeen, h.sourceSeen, h.recordedSeen, ?_⟩
  cases phase with
  | idle => trivial
  | columned force columns => exact hready
  | listing run => exact hready
  | sampled run file state => exact hready
  | keyed run file state keys => exact hready
  | fetched run file state parquet => exact hready
  | written run file state => exact hready

theorem Sound.sample (h : sys.Sound) {run : Run} {source : Source} (hphase : sys.phase = .listing run)
    (hsource : sys.sources file = some source) : sys.Ready (sys.sample run file source) := by
  have hready := h.ready
  rw [hphase] at hready
  unfold System.sample
  dsimp only
  split
  · exact hready
  · split
    · exact hready
    · exact ⟨hready.1, hready.2, h.sourceSeen file source hsource, hready.2⟩

/-- A factor file replaces the last one; if the state recorded is current, it is what that was. -/
theorem Sound.write (h : sys.Sound) (hcurrent : sys.Current) {run : Run} {parquet : Parquet Value}
    (hphase : sys.phase = .fetched run file state parquet) :
    let sys' := { sys with
      factorFiles := Function.update sys.factorFiles file (some parquet)
      phase := .written run file state }
    sys'.Current ∧ sys'.Sound := by
  have hready := h.ready
  rw [hphase] at hready
  obtain ⟨hfresh, hfactor, hseen, hparquet⟩ := hready
  refine ⟨fun other recorded hrecorded hnow => ?_, h.factorSeen, h.sourceSeen, h.recordedSeen,
    hfresh, hfactor, hseen, fun hmarks => ?_⟩
  · by_cases hother : other = file
    · cases hother
      refine (Function.update_self _ _ _).trans ?_
      rw [← hparquet ⟨recorded, .inr hrecorded, hnow⟩, hfresh file recorded hrecorded hnow]
      rfl
    · exact (Function.update_of_ne hother _ _).trans (hcurrent other recorded hrecorded hnow)
  · exact (Function.update_self _ _ _).trans (hparquet hmarks).symm

/-- Recording is right just when the columns are. -/
theorem Sound.record (h : sys.Sound) (hcurrent : sys.Current) {run : Run}
    (hphase : sys.phase = .written run file state) :
    let sys' := { sys with
      exportStates := Function.update sys.exportStates file (some state)
      phase := .listing run }
    (sys'.Current ↔ (sys.currentState file = some state → run.columns = sys.table.columns)) ∧
      (sys'.Current → sys'.Sound) := by
  have hready := h.ready
  rw [hphase] at hready
  obtain ⟨hfresh, hfactor, hseen, hwritten⟩ := hready
  have hself : Function.update sys.exportStates file (some state) file = some state :=
    Function.update_self _ _ _
  have hcolumns : Current { sys with
      exportStates := Function.update sys.exportStates file (some state)
      phase := .listing run } →
      sys.currentState file = some state → run.columns = sys.table.columns := by
    intro hafter hnow
    have hfile := (hwritten ⟨state, .inl rfl, hnow⟩).symm.trans (hafter file state hself hnow)
    -- The file names its columns.
    obtain ⟨source, hsource, -⟩ := Option.map_eq_some_iff.mp hnow
    simp only [exported, hsource, Option.map_some, Option.some.injEq] at hfile
    exact congrArg Parquet.columns hfile
  have hother : ∀ other ≠ file, ∀ recorded,
      Function.update sys.exportStates file (some state) other = some recorded →
        sys.exportStates other = some recorded := fun other hother recorded hrecorded =>
    (Function.update_of_ne hother _ _).symm.trans hrecorded
  refine ⟨⟨hcolumns, fun hguard other recorded hrecorded hnow => ?_⟩, fun hafter =>
    ⟨h.factorSeen, h.sourceSeen, fun other recorded hrecorded => ?_,
      fun other recorded hrecorded hnow => ?_, hfactor⟩⟩
  · by_cases hfile : other = file
    · cases hfile
      cases hself.symm.trans hrecorded
      exact (hwritten ⟨state, .inl rfl, hnow⟩).trans (by rw [hguard hnow]; rfl)
    · exact hcurrent other recorded (hother other hfile recorded hrecorded) hnow
  · by_cases hfile : other = file
    · cases hfile
      cases hself.symm.trans hrecorded
      exact hseen
    · exact h.recordedSeen other recorded (hother other hfile recorded hrecorded)
  · by_cases hfile : other = file
    · cases hfile
      cases hself.symm.trans hrecorded
      exact hcolumns hafter hnow
    · exact hfresh other recorded (hother other hfile recorded hrecorded) hnow

/-- **One step.** -/
theorem Sound.step (h : sys.Sound) (hcurrent : sys.Current) {event : Event Value}
    (hstep : sys.step event = .ok sys') :
    (sys'.Current ↔ sys.ColumnsCurrent event) ∧ (sys'.Current → sys'.Sound) := by
  -- A step that touches no file leaves everything current.
  have hidle : ∀ phase, sys.Ready phase →
      (Current { sys with phase } ↔ True) ∧ (Current { sys with phase } → Sound { sys with phase }) :=
    fun phase hready => ⟨iff_true_intro hcurrent, fun _ => h.withPhase hready⟩
  have hready := h.ready
  cases event with
  | changeTable table =>
    simp only [System.step] at hstep
    split at hstep
    · cases hstep
    · rename_i hnew
      cases hstep
      have hages := ages_changeTable hnew
      exact ⟨iff_true_intro (hages.current h hcurrent), fun _ =>
        ⟨List.mem_cons_self, h.sourceSeen, fun file state hstate =>
          hages.seen (h.recordedSeen file state hstate), hages.ready h⟩⟩
  | replaceSource file source =>
    simp only [System.step] at hstep
    split at hstep
    · cases hstep
    · rename_i hnew
      cases hstep
      have hages := ages_replaceSource hnew
      refine ⟨iff_true_intro (hages.current h hcurrent), fun _ =>
        ⟨h.factorSeen, fun other found hfound => ?_, fun other state hstate =>
          hages.seen (h.recordedSeen other state hstate), hages.ready h⟩⟩
      by_cases hother : other = file
      · cases hother
        simp only [Function.update_self] at hfound ⊢
        cases hfound
        exact List.mem_cons_self
      · simp only [Function.update_of_ne hother] at hfound ⊢
        exact h.sourceSeen other found hfound
  | loadColumns force =>
    simp only [System.step] at hstep
    split at hstep
    · cases hstep
      exact hidle _ fun _ _ _ _ => rfl
    · cases hstep
  | loadState =>
    simp only [System.step] at hstep
    split at hstep
    · rename_i hphase
      cases hstep
      rw [hphase] at hready
      exact hidle _ ⟨hready, h.factorSeen⟩
    · cases hstep
  | sample file =>
    simp only [System.step] at hstep
    split at hstep
    · rename_i hphase hsource
      cases hstep
      exact hidle _ (h.sample hphase hsource)
    · cases hstep
  | readKeys =>
    simp only [System.step] at hstep
    split at hstep
    · rename_i hphase
      rw [hphase] at hready
      split at hstep
      · rename_i hsource
        cases hstep
        obtain ⟨hfresh, hfactor, hseen⟩ := hready
        refine hidle _ ⟨hfresh, hfactor, hseen, fun _ => ?_⟩
        rw [hsource, Option.map_some]
      · cases hstep
        exact hidle _ trivial
    · cases hstep
  | fetch =>
    simp only [System.step] at hstep
    split at hstep
    · rename_i hphase
      rw [hphase] at hready
      obtain ⟨hfresh, hfactor, hseen, hkeys⟩ := hready
      split at hstep
      · cases hstep
        refine hidle _ ⟨hfresh, hfactor, hseen, fun hmarks => ?_⟩
        obtain ⟨source, hsource, rfl⟩ := Option.map_eq_some_iff.mp (hkeys hmarks)
        rw [exported, hsource, Option.map_some]
      · cases hstep
        exact hidle _ trivial
    · cases hstep
  | write =>
    simp only [System.step] at hstep
    split at hstep
    · rename_i hphase
      cases hstep
      obtain ⟨hafter, hsound⟩ := h.write hcurrent hphase
      exact ⟨iff_true_intro hafter, fun _ => hsound⟩
    · cases hstep
  | record =>
    simp only [System.step] at hstep
    split at hstep
    · rename_i hphase
      cases hstep
      simp only [ColumnsCurrent, hphase]
      exact h.record hcurrent hphase
    · cases hstep
  | stop =>
    cases hstep
    exact hidle _ trivial

theorem columnsCurrent_of_error {event : Event Value} {e : Unit} (h : sys.step event = .error e) :
    sys.ColumnsCurrent event := by
  cases event with
  | record =>
    cases hphase : sys.phase with
    | written run file state =>
      simp only [System.step, hphase] at h
      cases h
    | _ =>
      unfold ColumnsCurrent
      rw [hphase]
      trivial
  | _ => trivial

end System

/-- **A factor file that is marked current is current** in every state of a run, just when no run
    records the current state of a file with other columns than the factor table's. The columns are
    read before the fingerprint, and between the two the table may change. -/
theorem marked_current_iff (table : FactorTable Value) (sources : File → Option Source)
    (events : List (Event Value)) :
    Throughout System.step (fun sys event => ∀ sys', sys.step event = .ok sys' → sys'.Current)
        { table, sources } events ↔
      Throughout System.step System.ColumnsCurrent { table, sources } events :=
  throughout_good_iff
    (fun _ _ _ hsound hcurrent hstep => System.Sound.step hsound hcurrent hstep)
    (fun _ _ _ herror => System.columnsCurrent_of_error herror)
    (System.sound_start table sources) fun _ _ h => by cases h

/-! ## A column that is added while a run begins -/

def oldTable : FactorTable ℤ where
  columns := ["alpha"]
  state := { rows := 1, maxTsUs := 1786233600000000, maxReplayVersion := 1 }
  find := fun _ _ => some fun _ => 1

def newTable : FactorTable ℤ where
  columns := ["alpha", "beta"]
  state := { rows := 2, maxTsUs := 1786233605000000, maxReplayVersion := 1 }
  find := fun _ _ => some fun _ => 1

def matched : File := ("binance-mt", 20674)

def oneOrder (file : File) : Option Source :=
  if file = matched then
    some { size := 4096, modifiedNs := 1786240000000000000
           keys := [{ fkey := 1, symbol := "BTCUSDT", cts := 1786233602000000 }] }
  else none

/-- One file from its sampling to its record. -/
def exportFile : List (Event ℤ) := [.sample matched, .readKeys, .fetch, .write, .record]

/-- The column comes after the query for the columns and before that for the fingerprint. -/
def columnAdded : List (Event ℤ) :=
  [.loadColumns false, .changeTable newTable, .loadState] ++ exportFile

theorem column_missing : ∃ sys : System ℤ,
    columnAdded.foldlM System.step { table := oldTable, sources := oneOrder } = .ok sys ∧
      ¬sys.Current := by
  obtain ⟨sys, hrun, hsome, hstate, hfile⟩ :
      Yields (columnAdded.foldlM System.step { table := oldTable, sources := oneOrder }) fun sys =>
        (sys.exportStates matched).isSome ∧ sys.currentState matched = sys.exportStates matched ∧
          sys.factorFiles matched ≠ sys.exported sys.table.columns matched := by
    decide +kernel
  obtain ⟨state, hrecorded⟩ := Option.isSome_iff_exists.mp hsome
  exact ⟨sys, hrun, fun hcurrent => hfile (hcurrent matched state hrecorded (hstate.trans hrecorded))⟩

end CryptoNav.Export.Factors
