import CryptoNav.Lib.Balance
import CryptoNav.Lib.Calendar
import CryptoNav.Lib.Csv
import CryptoNav.Lib.Runs
import CryptoNav.Lib.Table
import CryptoNav.Lib.Text

/-!
# Daily files

`export_history` writes the rows of a dataset into one CSV file for each UTC date that has any,
in the directory of the strategy, one date after another. A file is emptied when it is opened,
so a write that goes through replaces it as a whole, and one that fails leaves it with whatever
got to the disk; the later dates of that write stay as they were. What a write leaves of a date
depends on its rows and on the disk alone (`get_write`), and the writes of one dataset do not
touch the files of another.

The CSV writer and reader are those of a library; what is documented of them is `CsvFormat.Lawful`.
Where the disk fails is a parameter (`Disk`), and so is what a file is left with then. The path of a
file is its name.
-/

set_option autoImplicit false

namespace CryptoNav.Export

open CryptoNav.Lib

/-! ## The CSV library -/

structure CsvFormat where
  write : List Csv.Record → List Char
  read : List Char → Option (List Csv.Record)

/-- What is written can be read: a header that does not begin with a byte order mark, and records
    of its length. -/
def CsvFormat.Lawful (csv : CsvFormat) : Prop :=
  ∀ header records, Csv.NoMark header → (∀ record ∈ records, record.length = header.length) →
    csv.read (csv.write (header :: records)) = some (header :: records)

def plainCsv : CsvFormat := ⟨Csv.write, Csv.read⟩

theorem plainCsv_lawful : plainCsv.Lawful := fun _ _ hheader h => Csv.read_write hheader h

/-! ## Files -/

structure File where
  name : String
  text : List Char

abbrev Files := Table File.name

/-- How a file fails: it cannot be created, or it can but does not get written to its end. -/
inductive Fault where
  | create
  | write (left : List Char)
  | flush (left : List Char)

/-- The files that fail. -/
abbrev Disk := String → Option Fault

/-- A disk on which nothing fails. -/
def noFaults : Disk := fun _ => none

/-- What is left of a file that fails. -/
def Fault.left (name : String) : Fault → Option File
  | .create => none
  | .write left | .flush left => some ⟨name, left⟩

def Fault.message (label name : String) : Fault → String
  | .create => s!"create {label} CSV {name}"
  | .write _ => s!"write {label} CSV {name}"
  | .flush _ => s!"flush {label} CSV {name}"

/-- The body of `write_trade_csv` and `write_cash_csv`: the files in order, up to one that fails. -/
def writeFiles (disk : Disk) (label : String) : Files → List File → Files × Except String Unit
  | files, [] => (files, .ok ())
  | files, file :: rest =>
    match disk file.name with
    | none => writeFiles disk label (files.put file) rest
    | some fault =>
      ((fault.left file.name).elim files files.put, .error (fault.message label file.name))

structure DayRows (α : Type) where
  date : String
  rows : List α

abbrev Daily (α : Type) := Table (@DayRows.date α)

def Daily.rowsOf {α : Type} (daily : Daily α) (date : String) : List α :=
  (daily.get date).elim [] DayRows.rows

def millisPerDay : ℤ := 86400000

/-- The range of `DateTime::<Utc>::from_timestamp_millis`: the years from -262143 to 262142. -/
def minMillis : ℤ := -8334601228800000

def maxMillis : ℤ := 8210266876799999

/-- The date of a time as `%Y-%m-%d`. -/
def utcDate (ms : ℤ) : Option String :=
  if minMillis ≤ ms ∧ ms ≤ maxMillis then some (.ofList (dateText (date (ms / millisPerDay))))
  else none

def fileName (dataset date : String) : String := dataset ++ "_" ++ date ++ ".csv"

section
variable {α : Type} (timestamp : α → ℤ)

def pushDay (daily : Daily α) (row : α) : Except String (Daily α) :=
  match utcDate (timestamp row) with
  | none => .error s!"invalid export timestamp {timestamp row}"
  | some date => .ok (daily.put ⟨date, daily.rowsOf date ++ [row]⟩)

def groupByDay (rows : List α) : Except String (Daily α) := rows.foldlM (pushDay timestamp) .empty

variable (csv : CsvFormat) (disk : Disk) (label dataset : String) (header : Csv.Record)
  (record : α → Csv.Record)

def dayFile (day : DayRows α) : File :=
  ⟨fileName dataset day.date, csv.write (header :: day.rows.map record)⟩

/-- The files with those of the rows' dates written, and how many these are. -/
def writeDaily (files : Files) (rows : List α) : Files × Except String ℕ :=
  match groupByDay timestamp rows with
  | .error message => (files, .error message)
  | .ok daily =>
    let (files, result) :=
      writeFiles disk label files (daily.rows.map (dayFile csv dataset header record))
    (files, result.map fun () => daily.rows.length)

end

/-! ## Groups -/

section
variable {α : Type} {timestamp : α → ℤ} {rows : List α} {daily : Daily α}

def onDay (timestamp : α → ℤ) (date : String) (rows : List α) : List α :=
  rows.filter fun row => utcDate (timestamp row) = some date

/-- A group holds the rows of its date, in their order, and has one. -/
theorem get_groupByDay (h : groupByDay timestamp rows = .ok daily) (date : String) :
    daily.get date =
      if onDay timestamp date rows = [] then none else some ⟨date, onDay timestamp date rows⟩ := by
  refine run_prefix (P := fun past (daily : Daily α) => ∀ date, daily.get date =
    if onDay timestamp date past = [] then none else some ⟨date, onDay timestamp date past⟩)
    ?_ (fun _ => rfl) h date
  intro past row _ _ daily daily' hpast hstep date
  unfold pushDay at hstep
  split at hstep
  · cases hstep
  · next date' hdate' =>
    cases hstep
    have hrows : daily.rowsOf date' = onDay timestamp date' past := by
      rw [Daily.rowsOf, hpast]
      split
      · next hnone => exact hnone.symm
      · rfl
    rw [Table.get_put, hrows]
    by_cases hdate : date = date'
    · subst hdate
      simp [onDay, List.filter_append, hdate']
    · rw [if_neg hdate, hpast date]
      have hother : ¬utcDate (timestamp row) = some date := by
        rw [hdate', Option.some.injEq]
        exact fun heq => hdate heq.symm
      simp [onDay, List.filter_append, hother]

theorem groupByDay_isOk (h : ∀ row ∈ rows, (utcDate (timestamp row)).isSome) :
    ∃ daily, groupByDay timestamp rows = .ok daily := by
  refine run_progress (P := fun _ _ => True) (fun past row rest hrows daily _ => ?_) trivial
  obtain ⟨date, hdate⟩ := Option.isSome_iff_exists.mp (h row (hrows ▸ List.mem_append_right _
    List.mem_cons_self))
  exact ⟨_, by rw [pushDay, hdate], trivial⟩

theorem isSome_of_groupByDay (h : groupByDay timestamp rows = .ok daily) :
    ∀ row ∈ rows, (utcDate (timestamp row)).isSome := by
  refine run_prefix (P := fun past _ => ∀ row ∈ past, (utcDate (timestamp row)).isSome)
    ?_ nofun h
  intro past row _ _ daily daily' hpast hstep
  unfold pushDay at hstep
  split at hstep
  · cases hstep
  · next date hdate =>
    intro r hr
    rcases List.mem_append.mp hr with hr | hr
    · exact hpast r hr
    · rw [List.mem_singleton.mp hr, hdate]
      rfl

theorem mem_groupByDay (h : groupByDay timestamp rows = .ok daily) {day : DayRows α} :
    day ∈ daily.rows ↔ day.rows ≠ [] ∧ day.rows = onDay timestamp day.date rows := by
  rw [Table.mem_rows, get_groupByDay h]
  constructor
  · intro hday
    split at hday
    · cases hday
    · next hne =>
      have hrows := congrArg DayRows.rows (Option.some.inj hday)
      exact ⟨hrows ▸ hne, hrows.symm⟩
  · rintro ⟨hne, hrows⟩
    rw [← hrows, if_neg hne]

/-- The groups are all of the rows. -/
theorem flatMap_groupByDay (h : groupByDay timestamp rows = .ok daily) :
    (daily.rows.flatMap DayRows.rows).Perm rows := by
  have hnodup : (daily.rows.map fun day => some day.date).Nodup := by
    refine List.Nodup.map_on ?_ daily.rows_nodup
    intro a ha b hb hab
    have hget := Table.mem_rows.mp ha
    rw [Option.some.inj hab, Table.mem_rows.mp hb] at hget
    exact (Option.some.inj hget).symm
  have hcover : ∀ row ∈ rows,
      utcDate (timestamp row) ∈ daily.rows.map fun day => some day.date := by
    intro row hrow
    obtain ⟨date, hdate⟩ := Option.isSome_iff_exists.mp (isSome_of_groupByDay h row hrow)
    have hmem : row ∈ onDay timestamp date rows :=
      List.mem_filter.mpr ⟨hrow, decide_eq_true hdate⟩
    have hday : (⟨date, onDay timestamp date rows⟩ : DayRows α) ∈ daily.rows :=
      (mem_groupByDay h).mpr ⟨List.ne_nil_of_mem hmem, rfl⟩
    exact List.mem_map.mpr ⟨_, hday, hdate.symm⟩
  refine .trans (.of_eq ?_) (flatMap_fiber_perm hnodup hcover)
  rw [List.flatMap_map]
  refine List.flatMap_congr fun day hday => ?_
  exact ((mem_groupByDay h).mp hday).2

end

/-! ## Names -/

theorem fileName_inj {dataset dataset' date date' : String} (h : '_' ∉ dataset.toList)
    (h' : '_' ∉ dataset'.toList) (hname : fileName dataset date = fileName dataset' date') :
    dataset = dataset' ∧ date = date' := by
  have hlist := congrArg String.toList hname
  simp only [fileName, String.toList_append, List.append_assoc] at hlist
  obtain ⟨hdataset, hrest⟩ := stretch_unique (p := (· = '_')) hlist
    (fun c hc => decide_eq_false fun heq => h (heq ▸ hc)) (by simp)
    (fun c hc => decide_eq_false fun heq => h' (heq ▸ hc)) (by simp)
  exact ⟨String.toList_inj.mp hdataset,
    String.toList_inj.mp (List.append_cancel_right (List.append_cancel_left hrest))⟩

/-! ## What a write leaves -/

/-- What some files leave of one, as they are written. -/
def leftOf (disk : Disk) (name : String) : List File → Option File
  | [] => none
  | file :: rest =>
    if file.name = name then
      match disk name with
      | none => some file
      | some fault => fault.left name
    else if (disk file.name).isSome then none
    else leftOf disk name rest

theorem leftOf_of_notMem {disk : Disk} {name : String} {l : List File}
    (h : name ∉ l.map File.name) : leftOf disk name l = none := by
  induction l with
  | nil => rfl
  | cons file rest ih =>
    obtain ⟨hfile, hrest⟩ := not_or.mp fun hmem => h (List.mem_cons.mpr hmem)
    rw [leftOf, if_neg (Ne.symm hfile), ih hrest, ite_self]

theorem Fault.name_of_left {fault : Fault} {name : String} {left : File}
    (h : fault.left name = some left) : left.name = name := by
  cases fault <;> cases h <;> rfl

theorem get_writeFiles {disk : Disk} {label name : String} {files : Files} {l : List File}
    (h : (l.map File.name).Nodup) :
    (writeFiles disk label files l).1.get name = (leftOf disk name l).or (files.get name) := by
  induction l generalizing files with
  | nil => rfl
  | cons file rest ih =>
    obtain ⟨hnew, hrest⟩ := List.nodup_cons.mp h
    rw [writeFiles, leftOf]
    by_cases hname : file.name = name
    · subst hname
      rw [if_pos rfl]
      cases disk file.name with
      | none =>
        simp only
        rw [ih hrest, leftOf_of_notMem hnew, Table.get_put_self]
        rfl
      | some fault =>
        simp only
        cases hleft : fault.left file.name with
        | none => rfl
        | some left =>
          rw [Option.elim_some, ← Fault.name_of_left hleft, Table.get_put_self]
          rfl
    · rw [if_neg hname]
      cases disk file.name with
      | none =>
        simp only
        rw [ih hrest, Table.get_put_of_ne _ (Ne.symm hname)]
        rfl
      | some fault =>
        simp only
        cases hleft : fault.left file.name with
        | none => rfl
        | some left => exact Table.get_put_of_ne _ (Fault.name_of_left hleft ▸ Ne.symm hname)

/-- A write that goes through puts all of its files. -/
theorem writeFiles_ok {disk : Disk} {label : String} {files files' : Files} {l : List File}
    (h : writeFiles disk label files l = (files', .ok ())) :
    files' = files.putAll l ∧ ∀ file ∈ l, disk file.name = none := by
  induction l generalizing files with
  | nil =>
    cases h
    exact ⟨rfl, List.forall_mem_nil _⟩
  | cons file rest ih =>
    rw [writeFiles] at h
    cases hfault : disk file.name with
    | none =>
      rw [hfault] at h
      obtain ⟨hfiles, hrest⟩ := ih h
      exact ⟨hfiles, List.forall_mem_cons.mpr ⟨hfault, hrest⟩⟩
    | some fault =>
      rw [hfault] at h
      cases (Prod.mk.inj h).2

theorem writeFiles_isOk {disk : Disk} {label : String} {files : Files} {l : List File}
    (h : ∀ file ∈ l, disk file.name = none) :
    writeFiles disk label files l = (files.putAll l, .ok ()) := by
  induction l generalizing files with
  | nil => rfl
  | cons file rest ih =>
    obtain ⟨hfile, hrest⟩ := List.forall_mem_cons.mp h
    rw [writeFiles, hfile]
    exact ih hrest

section
variable {α : Type} {timestamp : α → ℤ} {csv : CsvFormat} {disk : Disk} {label dataset : String}
  {header : Csv.Record} {record : α → Csv.Record} {files files' : Files} {rows : List α} {n : ℕ}

theorem dayFile_names (hname : '_' ∉ dataset.toList) (daily : Daily α) :
    ((daily.rows.map (dayFile csv dataset header record)).map File.name).Nodup := by
  rw [List.map_map]
  refine List.Nodup.map_on ?_ daily.rows_nodup
  intro a ha b hb hab
  obtain ⟨-, hdate⟩ := fileName_inj hname hname hab
  have hget := Table.mem_rows.mp ha
  rw [hdate, Table.mem_rows.mp hb] at hget
  exact (Option.some.inj hget).symm

/-- A write that goes through. -/
theorem writeDaily_ok (h : writeDaily timestamp csv disk label dataset header record files rows =
    (files', .ok n)) :
    ∃ daily, groupByDay timestamp rows = .ok daily ∧
      files' = files.putAll (daily.rows.map (dayFile csv dataset header record)) := by
  unfold writeDaily at h
  split at h
  · cases h
  · next daily hdaily =>
    obtain ⟨hfiles, hresult⟩ := Prod.mk.inj h
    obtain ⟨⟨⟩, hresult, -⟩ := map_eq_ok.mp hresult
    exact ⟨daily, hdaily, hfiles ▸ (writeFiles_ok (Prod.ext rfl hresult)).1⟩

/-- What the files of some days, in order, leave of one of them. -/
theorem leftOf_days {days : List (DayRows α)} (hdays : days.Pairwise fun a b => a.date < b.date)
    (hname : '_' ∉ dataset.toList) {dataset' : String} (hname' : '_' ∉ dataset'.toList)
    (date : String) :
    leftOf disk (fileName dataset' date) (days.map (dayFile csv dataset header record)) =
      if dataset' = dataset ∧
          ¬∃ day ∈ days, day.date < date ∧ (disk (fileName dataset day.date)).isSome then
        (days.find? (·.date = date)).bind fun day =>
          match disk (fileName dataset date) with
          | none => some (dayFile csv dataset header record day)
          | some fault => fault.left (fileName dataset date)
      else none := by
  induction days with
  | nil => simp [leftOf]
  | cons day rest ih =>
    obtain ⟨hday, hrest⟩ := List.pairwise_cons.mp hdays
    have hsame : (dayFile csv dataset header record day).name = fileName dataset' date ↔
        dataset' = dataset ∧ day.date = date := by
      constructor
      · intro heq
        obtain ⟨hdataset, hdate⟩ := fileName_inj hname hname' heq
        exact ⟨hdataset.symm, hdate⟩
      · rintro ⟨rfl, rfl⟩
        rfl
    rw [List.map_cons, leftOf, ih hrest]
    by_cases hdataset : dataset' = dataset
    · subst hdataset
      by_cases hdate : day.date = date
      · have hfirst : ¬∃ other ∈ day :: rest, other.date < date ∧
            (disk (fileName dataset' other.date)).isSome := by
          rintro ⟨other, hother, hbefore, -⟩
          rcases List.mem_cons.mp hother with rfl | hother
          · exact absurd hdate hbefore.ne
          · exact lt_asymm hbefore (hdate ▸ hday other hother)
        rw [if_pos (hsame.mpr ⟨rfl, hdate⟩), if_pos ⟨rfl, hfirst⟩,
          List.find?_cons_of_pos (by simpa using hdate), Option.bind_some]
      · have hother : ¬(dayFile csv dataset' header record day).name = fileName dataset' date :=
          fun heq => hdate (hsame.mp heq).2
        rw [if_neg hother, List.find?_cons_of_neg (by simpa using hdate)]
        cases hfault : (disk (dayFile csv dataset' header record day).name).isSome with
        | false =>
          have hexists : (∃ other ∈ day :: rest, other.date < date ∧
              (disk (fileName dataset' other.date)).isSome) ↔ ∃ other ∈ rest, other.date < date ∧
              (disk (fileName dataset' other.date)).isSome := by
            rw [List.exists_mem_cons_iff]
            have hwell : ¬(disk (fileName dataset' day.date)).isSome = true :=
              Bool.eq_false_iff.mp hfault
            exact or_iff_right fun hself => hwell hself.2
          simp only [hexists, Bool.false_eq_true, if_false]
        | true =>
          rw [if_pos rfl]
          symm
          split
          · next hnone =>
            have hafter : ¬day.date < date := fun hlt =>
              hnone.2 ⟨day, List.mem_cons_self, hlt, hfault⟩
            cases hfind : rest.find? (·.date = date) with
            | none => rfl
            | some found =>
              have hfound := List.find?_some hfind
              rw [decide_eq_true_eq] at hfound
              exact absurd (hfound ▸ hday found (List.mem_of_find?_eq_some hfind)) hafter
          · rfl
    · have hother : ¬(dayFile csv dataset header record day).name = fileName dataset' date :=
        fun heq => hdataset (hsame.mp heq).1
      simp only [if_neg hother, hdataset, false_and, if_false, ite_self]

end

/-! ## One write after another -/

/-- Rows with their times, as a write of a dataset gets them. -/
structure DailyWrite where
  label : String
  dataset : String
  header : Csv.Record
  rows : List (ℤ × Csv.Record)

namespace DailyWrite

variable (csv : CsvFormat) (disk : Disk) (w : DailyWrite)

def onDay (date : String) : List (ℤ × Csv.Record) := Export.onDay Prod.fst date w.rows

def write (files : Files) : Files × Except String ℕ :=
  writeDaily Prod.fst csv disk w.label w.dataset w.header Prod.snd files w.rows

/-- The dates of the rows whose file fails. -/
def failing : List String :=
  w.rows.filterMap fun row =>
    (utcDate row.1).filter fun date => (disk (fileName w.dataset date)).isSome

/-- The whole file of a date. -/
def file (date : String) : File :=
  ⟨fileName w.dataset date, csv.write (w.header :: (w.onDay date).map Prod.snd)⟩

/-- What a write leaves of a date, if it gets to it. -/
def left (date : String) : Option File :=
  if w.onDay date = [] ∨ ∃ earlier ∈ w.failing disk, earlier < date then none
  else
    match disk (fileName w.dataset date) with
    | none => some (w.file csv date)
    | some fault => fault.left (fileName w.dataset date)

/-- What it leaves of a date of some dataset. -/
def leftFor (dataset date : String) : Option File :=
  if dataset = w.dataset then w.left csv disk date else none

variable {csv disk w} {files : Files}

theorem mem_failing {daily : Daily (ℤ × Csv.Record)} (h : groupByDay Prod.fst w.rows = .ok daily)
    {date : String} : date ∈ w.failing disk ↔
      ∃ day ∈ daily.rows, day.date = date ∧ (disk (fileName w.dataset date)).isSome := by
  rw [failing, List.mem_filterMap]
  constructor
  · rintro ⟨row, hrow, hdate⟩
    obtain ⟨hdate, hfault⟩ := Option.filter_eq_some_iff.mp hdate
    have hmem : row ∈ w.onDay date := List.mem_filter.mpr ⟨hrow, decide_eq_true hdate⟩
    exact ⟨⟨date, w.onDay date⟩, (mem_groupByDay h).mpr ⟨List.ne_nil_of_mem hmem, rfl⟩, rfl, hfault⟩
  · rintro ⟨day, hday, rfl, hfault⟩
    obtain ⟨hne, hrows⟩ := (mem_groupByDay h).mp hday
    obtain ⟨row, hrow⟩ := List.exists_mem_of_ne_nil _ hne
    rw [hrows] at hrow
    obtain ⟨hrow, hdate⟩ := List.mem_filter.mp hrow
    exact ⟨row, hrow, Option.filter_eq_some_iff.mpr ⟨of_decide_eq_true hdate, hfault⟩⟩

/-- A write of rows that have a date succeeds unless one of its files fails. -/
theorem write_isOk (h : ∀ row ∈ w.rows, (utcDate row.1).isSome) :
    (w.write csv disk files).2.isOk ↔ w.failing disk = [] := by
  obtain ⟨daily, hdaily⟩ := groupByDay_isOk h
  have hfaults : w.failing disk = [] ↔
      ∀ file ∈ daily.rows.map (dayFile csv w.dataset w.header Prod.snd), disk file.name = none := by
    rw [List.eq_nil_iff_forall_not_mem, List.forall_mem_map]
    constructor
    · intro hnone day hday
      by_contra hfault
      exact hnone day.date ((mem_failing hdaily).mpr
        ⟨day, hday, rfl, Option.isSome_iff_ne_none.mpr hfault⟩)
    · intro hnone date hdate
      obtain ⟨day, hday, rfl, hfault⟩ := (mem_failing hdaily).mp hdate
      rw [show disk (fileName w.dataset day.date) = none from hnone day hday] at hfault
      cases hfault
  rw [hfaults, write, writeDaily, hdaily]
  simp only
  constructor
  · intro hok
    cases hwrite : writeFiles disk w.label files
        (daily.rows.map (dayFile csv w.dataset w.header Prod.snd)) with
    | mk files' result =>
      rw [hwrite] at hok
      cases result with
      | error message => cases hok
      | ok _ => exact (writeFiles_ok hwrite).2
  · intro hnone
    rw [writeFiles_isOk hnone]
    rfl

/-- **What a write leaves** of a date: its rows, if it gets that far and the file does not fail. Any
other file is as it was. -/
theorem get_write (hdated : ∀ row ∈ w.rows, (utcDate row.1).isSome) (hname : '_' ∉ w.dataset.toList)
    {dataset : String} (hname' : '_' ∉ dataset.toList) (date : String) :
    (w.write csv disk files).1.get (fileName dataset date) =
      (w.leftFor csv disk dataset date).or (files.get (fileName dataset date)) := by
  obtain ⟨daily, hdaily⟩ := groupByDay_isOk hdated
  have hfind : daily.rows.find? (·.date = date) =
      if w.onDay date = [] then none else some ⟨date, w.onDay date⟩ := get_groupByDay hdaily date
  have hearlier : (∃ day ∈ daily.rows, day.date < date ∧
      (disk (fileName w.dataset day.date)).isSome) ↔ ∃ earlier ∈ w.failing disk, earlier < date := by
    simp only [mem_failing hdaily]
    constructor
    · rintro ⟨day, hday, hbefore, hfault⟩
      exact ⟨day.date, ⟨day, hday, rfl, hfault⟩, hbefore⟩
    · rintro ⟨_, ⟨day, hday, rfl, hfault⟩, hbefore⟩
      exact ⟨day, hday, hbefore, hfault⟩
  rw [write, writeDaily, hdaily]
  simp only
  rw [get_writeFiles (dayFile_names hname daily), leftOf_days daily.sorted hname hname', hfind,
    leftFor, left]
  simp only [hearlier]
  congr 1
  by_cases hdataset : dataset = w.dataset
  · by_cases hstopped : ∃ earlier ∈ w.failing disk, earlier < date
    · rw [if_neg fun h => h.2 hstopped, if_pos hdataset, if_pos (.inr hstopped)]
    · rw [if_pos ⟨hdataset, hstopped⟩, if_pos hdataset]
      by_cases hrows : w.onDay date = []
      · rw [if_pos hrows, if_pos (.inl hrows)]
        rfl
      · rw [if_neg hrows, if_neg (not_or.mpr ⟨hrows, hstopped⟩)]
        rfl
  · rw [if_neg fun h => hdataset h.1, if_neg hdataset]

/-- **After any number of writes** a file is as the last that got to it left it. -/
theorem get_afterWrites {writes : List (Disk × DailyWrite)} (files : Files)
    (hdated : ∀ entry ∈ writes, ∀ row ∈ entry.2.rows, (utcDate row.1).isSome)
    (hnames : ∀ entry ∈ writes, '_' ∉ entry.2.dataset.toList) {dataset : String}
    (hname : '_' ∉ dataset.toList) (date : String) :
    (writes.foldl (fun files entry => (entry.2.write csv entry.1 files).1) files).get
        (fileName dataset date) =
      (writes.filterMap fun entry => entry.2.leftFor csv entry.1 dataset date).getLast?.or
        (files.get (fileName dataset date)) := by
  induction writes using List.reverseRecOn with
  | nil => rfl
  | append_singleton writes entry ih =>
    obtain ⟨hdated, hlast⟩ := List.forall_mem_append.mp hdated
    obtain ⟨hnames, hlastName⟩ := List.forall_mem_append.mp hnames
    rw [List.foldl_concat, get_write (hlast entry (List.mem_singleton_self _))
      (hlastName entry (List.mem_singleton_self _)) hname, ih hdated hnames, List.filterMap_append]
    cases hleft : entry.2.leftFor csv entry.1 dataset date with
    | none => simp [hleft]
    | some file => simp [hleft]

end DailyWrite

end CryptoNav.Export
