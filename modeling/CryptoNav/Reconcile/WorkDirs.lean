import CryptoNav.Exchange.Client
import CryptoNav.Lib.Calendar
import CryptoNav.Lib.Runs
import CryptoNav.Lib.Table
import CryptoNav.Lib.Text

/-!
# The work directories of the reconciliation

A run of `reconcile_rocksdb` makes itself a directory to work in, named after the time and its
process id, in one common directory. It removes it in the end unless it is told to keep it, and a run
that is killed leaves it behind. So a run first removes what others have left: directories in which
nothing has changed for a while and whose process, by the name, no longer runs this program.

Looking at a directory, asking for the process and removing the directory are three steps, and other
runs begin, work, end and clean up in between, with process ids used again. Still no run ever loses
the directory it has made (`work_dir_kept`).

With `--work-dir` a run is given its directory, which only has to be empty. Nothing of the kind holds
of such runs: two may be given the same directory, and the first that ends removes it. Nor may one of
them be given the common directory or a part of it, for then it removes what others work in; this the
theorem assumes. Directories elsewhere are not part of the state.

Times are in microseconds.
-/

set_option autoImplicit false

namespace CryptoNav.Reconcile.WorkDirs

open CryptoNav.Lib

/-! ## Names -/

/-- A time as `%Y%m%dT%H%M%SZ`. -/
def stampText (micros : ℤ) : List Char :=
  let seconds := micros / 1000000
  let ofDay := (seconds % 86400).toNat
  let d := date (seconds / 86400)
  yearText d.year ++ (padded 2 d.month ++ padded 2 d.day) ++ ['T'] ++
    (padded 2 (ofDay / 3600) ++ padded 2 (ofDay / 60 % 60) ++ padded 2 (ofDay % 60)) ++ ['Z']

/-- The clock is read twice. -/
def runName (stamp : ℤ) (pid : ℕ) (micros : ℤ) : List Char :=
  ['-'].intercalate [stampText stamp, Nat.toDigits 10 pid, (toString micros).toList]

def validStamp (stamp : List Char) : Bool :=
  stamp.length = 16 && (stamp.take 8).all Char.isDigit && stamp[8]? = some 'T' &&
    ((stamp.drop 9).take 6).all Char.isDigit && stamp[15]? = some 'Z'

/-- `str::parse::<u32>`. -/
def parseU32 (text : List Char) : Option ℕ :=
  let digits := if text.head? = some '+' then text.tail else text
  if digits ≠ [] ∧ digits.all Char.isDigit ∧ digitsValue digits < 2 ^ 32 then
    some (digitsValue digits)
  else none

def parseRunPid (name : List Char) : Option ℕ :=
  match name.splitOn '-' with
  | [stamp, pid, micros] =>
    if validStamp stamp && micros ≠ [] && micros.all Char.isDigit then
      (parseU32 pid).filter (0 < ·)
    else none
  | _ => none

/-- Until the year 9999. -/
def FourDigitYear (micros : ℤ) : Prop :=
  0 ≤ (date (micros / 1000000 / 86400)).year ∧ (date (micros / 1000000 / 86400)).year ≤ 9999

section
variable {stamp micros : ℤ} {pid : ℕ}

theorem validStamp_of_digits {day time : List Char} (hday : day.length = 8)
    (htime : time.length = 6) (hdigits : ∀ c ∈ day ++ time, c.isDigit = true) :
    validStamp (day ++ ['T'] ++ time ++ ['Z']) = true := by
  have hfirst : (day ++ ['T'] ++ time ++ ['Z']).take 8 = day := by
    rw [List.append_assoc, List.append_assoc, List.take_left' hday]
  have hlast : ((day ++ ['T'] ++ time ++ ['Z']).drop 9).take 6 = time := by
    rw [List.append_assoc, List.drop_left' (by simp [hday]), List.take_left' htime]
  have hT : (day ++ ['T'] ++ time ++ ['Z'])[8]? = some 'T' := by
    simp [hday]
  have hZ : (day ++ ['T'] ++ time ++ ['Z'])[15]? = some 'Z' := by
    simp [hday, htime]
  rw [validStamp, hfirst, hlast, hT, hZ,
    List.all_eq_true.mpr fun c hc => hdigits c (List.mem_append_left _ hc),
    List.all_eq_true.mpr fun c hc => hdigits c (List.mem_append_right _ hc)]
  simp [hday, htime]

/-- The parts of a stamp. -/
theorem stampText_digits (h : FourDigitYear stamp) : ∃ day time, day.length = 8 ∧
    time.length = 6 ∧ (∀ c ∈ day ++ time, c.isDigit = true) ∧
      stampText stamp = day ++ ['T'] ++ time ++ ['Z'] := by
  obtain ⟨hmonth, hday⟩ := date_bounds (stamp / 1000000 / 86400)
  have hseconds : (stamp / 1000000 % 86400).toNat < 86400 := by omega
  have hyear : yearText (date (stamp / 1000000 / 86400)).year =
      padded 4 (date (stamp / 1000000 / 86400)).year.toNat := if_pos h
  refine ⟨_, _, ?_, ?_, ?_, rfl⟩
  · rw [hyear]
    simp only [List.length_append]
    rw [length_padded (by decide) (by have := h.2; omega), length_padded (by decide) (by omega),
      length_padded (by decide) (by omega)]
  · simp only [List.length_append]
    rw [length_padded (by decide) (by omega), length_padded (by decide) (by omega),
      length_padded (by decide) (by omega)]
  · rw [hyear]
    intro c hc
    simp only [List.mem_append] at hc
    rcases hc with (hc | hc | hc) | ((hc | hc) | hc) <;> exact isDigit_of_mem_padded hc

theorem validStamp_stampText (h : FourDigitYear stamp) : validStamp (stampText stamp) = true := by
  obtain ⟨day, time, hday, htime, hdigits, hstamp⟩ := stampText_digits h
  exact hstamp ▸ validStamp_of_digits hday htime hdigits

theorem toString_digits (h : 0 ≤ micros) :
    (toString micros).toList = Nat.toDigits 10 micros.toNat := by
  rw [Int.toString_eq_repr, Int.repr_eq_if, if_pos h, Nat.toList_repr]

theorem runName_parts (hstamp : FourDigitYear stamp) (hmicros : 0 ≤ micros) :
    (runName stamp pid micros).splitOn '-' =
      [stampText stamp, Nat.toDigits 10 pid, (toString micros).toList] := by
  have hdigits {n : ℕ} : '-' ∉ Nat.toDigits 10 n := fun h =>
    absurd (Nat.isDigit_of_mem_toDigits (by decide) (by decide) h) (by decide)
  refine List.splitOn_intercalate '-' (fun part hpart => ?_) (by simp)
  simp only [List.mem_cons, List.not_mem_nil, or_false] at hpart
  rcases hpart with rfl | rfl | rfl
  · obtain ⟨day, time, -, -, hall, htext⟩ := stampText_digits hstamp
    rw [htext]
    simp only [List.mem_append, List.mem_singleton, not_or]
    refine ⟨⟨⟨fun h => ?_, by decide⟩, fun h => ?_⟩, by decide⟩
    · exact absurd (hall _ (List.mem_append_left _ h)) (by decide)
    · exact absurd (hall _ (List.mem_append_right _ h)) (by decide)
  · exact hdigits
  · rw [toString_digits hmicros]
    exact hdigits

/-- **The process id can be read off the name.** -/
theorem parse_runName (hstamp : FourDigitYear stamp) (hmicros : 0 ≤ micros) (hpid : 0 < pid)
    (hpid' : pid < 2 ^ 32) : parseRunPid (runName stamp pid micros) = some pid := by
  have hall {n : ℕ} : (Nat.toDigits 10 n).all Char.isDigit = true :=
    List.all_eq_true.mpr fun c hc => Nat.isDigit_of_mem_toDigits (by decide) (by decide) hc
  have hplus : (Nat.toDigits 10 pid).head? ≠ some '+' := by
    intro h
    have hmem : '+' ∈ Nat.toDigits 10 pid := List.mem_of_mem_head? h
    exact absurd (Nat.isDigit_of_mem_toDigits (by decide) (by decide) hmem) (by decide)
  have hnumber : parseU32 (Nat.toDigits 10 pid) = some pid := by
    rw [parseU32, if_neg hplus, Exchange.digitsValue_toDigits]
    exact if_pos ⟨Nat.toDigits_ne_nil, hall, hpid'⟩
  rw [parseRunPid, runName_parts hstamp hmicros]
  simp only [validStamp_stampText hstamp, toString_digits hmicros, hall, hnumber]
  simp [hpid, Nat.toDigits_ne_nil]

/-- **The name tells when the directory was made.** -/
theorem runName_inj {stamp' micros' : ℤ} {pid' : ℕ} (hstamp : FourDigitYear stamp)
    (hstamp' : FourDigitYear stamp') (hmicros : 0 ≤ micros) (hmicros' : 0 ≤ micros')
    (h : runName stamp pid micros = runName stamp' pid' micros') : micros = micros' := by
  have hparts := congrArg (List.splitOn '-') h
  rw [runName_parts hstamp hmicros, runName_parts hstamp' hmicros'] at hparts
  obtain ⟨-, hparts⟩ := List.cons.inj hparts
  obtain ⟨-, hparts⟩ := List.cons.inj hparts
  exact Exchange.toString_injective (String.toList_inj.mp (List.cons.inj hparts).1)

end

/-! ## Directories -/

inductive Node where
  | file (modified : ℤ)
  | dir (modified : ℤ) (children : List Node)
  | unreadable

def Node.isDir : Node → Bool
  | .dir .. => true
  | _ => false

mutual

def newestModified : Node → Option ℤ
  | .file modified => some modified
  | .dir modified children => newestOf modified children
  | .unreadable => none

def newestOf (newest : ℤ) : List Node → Option ℤ
  | [] => some newest
  | child :: children =>
    match newestModified child with
    | some modified => newestOf (max newest modified) children
    | none => none

end

structure Entry where
  name : String
  node : Node

def legacyStale : ℤ := 24 * 60 * 60 * 1000000

/-- A directory in which nothing has changed for long enough. -/
def isOld (now staleAge : ℤ) (entry : Entry) : Bool :=
  entry.node.isDir &&
    match newestModified entry.node with
    | some newest =>
      let threshold :=
        if (parseRunPid entry.name.toList).isSome then staleAge else max staleAge legacyStale
      threshold ≤ max (now - newest) 0
    | none => false

/-! ## Processes -/

structure Options where
  keepWorkDir : Bool
  cleanupOnSuccess : Bool
  staleAge : ℤ

/-- The directory that a run is given. -/
inductive Given where
  /-- Neither in the common directory nor above it. -/
  | apart
  | common
  /-- A directory in the common one. -/
  | inside (name : String)

/-- Where a run is. -/
inductive Phase where
  /-- `now`: when it began -/
  | listing (now : ℤ)
  /-- It has found an old directory. -/
  | found (now : ℤ) (name : String)
  /-- It has found that no process owns it. -/
  | removing (now : ℤ) (name : String)
  | cleaned
  /-- It works in the directory that it has made. -/
  | working (name : String)
  | lodging (given : Given)
  | finished

/-- `cmdline`: its arguments if they can be read. `run`: if it runs this program. -/
structure Process where
  cmdline : Option (List (List Char))
  run : Option (Options × Phase)

def programName : List Char := "reconcile_rocksdb".toList

structure World where
  clock : ℤ
  root : Table Entry.name
  procs : ℕ → Option Process

def World.phase (w : World) (pid : ℕ) : Option Phase := ((w.procs pid).bind Process.run).map Prod.snd

def Process.ownsRun (process : Process) : Bool :=
  match process.cmdline with
  | some args => args.any (contains programName)
  | none => true

def processOwnsRun (w : World) (pid : ℕ) : Bool := (w.procs pid).any Process.ownsRun

inductive Action where
  /-- Some other program. -/
  | spawnOther (cmdline : Option (List (List Char)))
  | spawn (cmdline : Option (List (List Char))) (options : Options)
  | inspect (name : String)
  | checkOwner
  | remove
  /-- The end of the listing, or an error. -/
  | cleaned
  | prepare (stamp : ℤ)
  | prepareGiven (given : Given)
  | write (node : Node)
  /-- `WorkDirGuard::finalize`, also when a run fails or panics. -/
  | finalize (succeeded : Bool)
  /-- A process ends, or is killed wherever it is. -/
  | exit

def World.setProcess (w : World) (pid : ℕ) (process : Option Process) : World :=
  { w with procs := Function.update w.procs pid process }

def World.removeDir (w : World) (name : String) : World :=
  { w with root := w.root.filter (·.name ≠ name) }

/-- `prepare_report_root` of a directory that is given: nothing may be in it, and it is made if it is
    not there. -/
def World.prepareGiven (w : World) : Given → Option World
  | .apart => some w
  | .common => if w.root.rows = [] then some w else none
  | .inside name =>
    match w.root.get name with
    | none => some { w with root := w.root.put ⟨name, .dir w.clock []⟩ }
    | some ⟨_, .dir _ []⟩ => some w
    | some _ => none

def World.writeGiven (w : World) (node : Node) : Given → World
  | .apart => w
  | .common => { w with root := w.root.put ⟨"summary.json", node⟩ }
  | .inside name => { w with root := w.root.modify name fun entry => ⟨entry.name, node⟩ }

def World.removeGiven (w : World) : Given → World
  | .apart => w
  | .common => { w with root := .empty }
  | .inside name => w.removeDir name

/-- Whether the directory is removed in the end. -/
def Options.removes (options : Options) (succeeded : Bool) : Bool :=
  !options.keepWorkDir && (!succeeded || options.cleanupOnSuccess)

/-- A step of a run that is in a phase. -/
def World.stepRun (w : World) (pid : ℕ) (options : Options) : Phase → Action →
    Except String (World × Phase)
  | .listing now, .inspect name =>
    match w.root.get name with
    | some entry =>
      .ok (w, if isOld now options.staleAge entry then .found now name else .listing now)
    | none => .ok (w, .listing now)
  | .found now name, .checkOwner =>
    .ok (w, if (parseRunPid name.toList).any (processOwnsRun w) then .listing now
      else .removing now name)
  | .removing now name, .remove =>
    if (w.root.get name).isSome then .ok (w.removeDir name, .listing now) else .ok (w, .cleaned)
  | .listing _, .cleaned => .ok (w, .cleaned)
  | .cleaned, .prepareGiven given =>
    match w.prepareGiven given with
    | some w => .ok (w, .lodging given)
    | none => .ok (w, .finished)
  | .cleaned, .prepare stamp =>
    let name := String.ofList (runName stamp pid w.clock)
    if (w.root.get name).isSome then .ok (w, .finished)
    else .ok ({ w with root := w.root.put ⟨name, .dir w.clock []⟩ }, .working name)
  | .working name, .write node =>
    .ok ({ w with root := w.root.modify name fun entry => ⟨entry.name, node⟩ }, .working name)
  | .working name, .finalize succeeded =>
    if options.removes succeeded then .ok (w.removeDir name, .finished) else .ok (w, .finished)
  | .lodging given, .write node => .ok (w.writeGiven node given, .lodging given)
  | .lodging given, .finalize succeeded =>
    if options.removes succeeded then .ok (w.removeGiven given, .finished) else .ok (w, .finished)
  | _, _ => .error "not a step of this phase"

/-- A process does something. -/
def World.act (w : World) (pid : ℕ) : Action → Except String World
  | .spawnOther cmdline =>
    if (w.procs pid).isSome then .error "the process id is in use"
    else .ok (w.setProcess pid (some ⟨cmdline, none⟩))
  | .spawn cmdline options =>
    if (w.procs pid).isSome then .error "the process id is in use"
    else if ¬(0 < pid ∧ pid < 2 ^ 32) then .error "process ids are positive"
    else if !(Process.ownsRun ⟨cmdline, none⟩) then .error "this program is run under its name"
    else .ok (w.setProcess pid (some ⟨cmdline, some (options, .listing w.clock)⟩))
  | .exit => .ok (w.setProcess pid none)
  | action =>
    match w.procs pid with
    | some ⟨cmdline, some (options, phase)⟩ =>
      (w.stepRun pid options phase action).map fun (w, phase) =>
        w.setProcess pid (some ⟨cmdline, some (options, phase)⟩)
    | _ => .error "no run of this program"

/-- What happened when. -/
structure Event where
  time : ℤ
  pid : ℕ
  action : Action

def World.step (w : World) (e : Event) : Except String World :=
  if e.time ≤ w.clock then .error "the clock moves on" else { w with clock := e.time }.act e.pid e.action

/-! ## Steps -/

/-- The name of a run that is still to come. -/
def Future (clock : ℤ) (name : String) : Prop :=
  ∃ stamp pid micros, FourDigitYear stamp ∧ clock < micros ∧
    name = String.ofList (runName stamp pid micros)

/-- What every step keeps: a run that works has its directory, and no other run is about to remove
    it; what is there, or has been found, has been made by now; and who was given a directory is
    elsewhere. -/
structure Kept (w : World) : Prop where
  clock : 0 ≤ w.clock
  named : ∀ p process, w.procs p = some process → process.run.isSome →
    process.ownsRun = true ∧ 0 < p ∧ p < 2 ^ 32
  present : ∀ p name, w.phase p = some (.working name) →
    (w.root.get name).isSome ∧ parseRunPid name.toList = some p
  past : ∀ name, (w.root.get name).isSome → ¬Future w.clock name
  seen : ∀ p now name, w.phase p = some (.found now name) ∨ w.phase p = some (.removing now name) →
    ¬Future w.clock name
  unowned : ∀ p now name, w.phase p = some (.removing now name) →
    ∀ q, w.phase q ≠ some (.working name)
  apart : ∀ p given, w.phase p = some (.lodging given) → given = .apart

theorem procs_setProcess (w : World) (pid : ℕ) (process : Option Process) (p : ℕ) :
    (w.setProcess pid process).procs p = if p = pid then process else w.procs p :=
  Function.update_apply ..

theorem phase_setProcess (w : World) (pid : ℕ) (process : Option Process) (p : ℕ) :
    (w.setProcess pid process).phase p =
      if p = pid then (process.bind Process.run).map Prod.snd else w.phase p := by
  rw [World.phase, procs_setProcess]
  split
  · rfl
  · rfl

theorem Future.mono {clock clock' : ℤ} {name : String} (h : Future clock' name)
    (hclock : clock ≤ clock') : Future clock name := by
  obtain ⟨stamp, pid, micros, hstamp, hmicros, rfl⟩ := h
  exact ⟨stamp, pid, micros, hstamp, hclock.trans_lt hmicros, rfl⟩

section
variable {w : World}

theorem Kept.tick (h : Kept w) {time : ℤ} (htime : w.clock ≤ time) :
    Kept { w with clock := time } where
  clock := h.clock.trans htime
  named := h.named
  present := h.present
  past name hname hfuture := h.past name hname (hfuture.mono htime)
  seen p now name hp hfuture := h.seen p now name hp (hfuture.mono htime)
  unowned := h.unowned
  apart := h.apart

theorem Kept.setProcess (h : Kept w) {pid : ℕ} {process : Option Process}
    (hnamed : ∀ p ∈ process, p.run.isSome → p.ownsRun = true ∧ 0 < pid ∧ pid < 2 ^ 32)
    (hworking : ∀ name, (process.bind Process.run).map Prod.snd = some (.working name) →
      ((w.root.get name).isSome ∧ parseRunPid name.toList = some pid) ∧
        ∀ p now, w.phase p ≠ some (.removing now name))
    (hseen : ∀ now name, (process.bind Process.run).map Prod.snd = some (.found now name) ∨
      (process.bind Process.run).map Prod.snd = some (.removing now name) → ¬Future w.clock name)
    (hremoving : ∀ now name, (process.bind Process.run).map Prod.snd = some (.removing now name) →
      ∀ p, w.phase p ≠ some (.working name))
    (hgiven : ∀ given, (process.bind Process.run).map Prod.snd = some (.lodging given) →
      given = .apart) :
    Kept (w.setProcess pid process) := by
  have hphase := phase_setProcess w pid process
  refine ⟨h.clock, fun p q hp hrun => ?_, fun p name hp => ?_, h.past, fun p now name hp => ?_,
    fun p now name hp q hq => ?_, fun p given hp => ?_⟩
  · rw [procs_setProcess] at hp
    split at hp
    · next heq => exact heq ▸ hnamed q hp hrun
    · exact h.named p q hp hrun
  · rw [hphase] at hp
    split at hp
    · next heq => exact heq ▸ (hworking name hp).1
    · exact h.present p name hp
  · rw [hphase] at hp
    split at hp
    · exact hseen now name hp
    · exact h.seen p now name hp
  · rw [hphase] at hp hq
    split at hp
    · next hpid =>
      split at hq
      · rw [hp] at hq
        cases hq
      · exact hremoving now name hp q hq
    · split at hq
      · exact (hworking name hq).2 p now hp
      · exact h.unowned p now name hp q hq
  · rw [hphase] at hp
    split at hp
    · exact hgiven given hp
    · exact h.apart p given hp

/-- Neither at work in the common directory nor with a directory found there. -/
def Phase.Idle : Phase → Prop
  | .found .. | .removing .. | .working _ => False
  | .lodging given => given = .apart
  | _ => True

theorem Kept.setIdle (h : Kept w) {pid : ℕ} {process : Option Process}
    (hnamed : ∀ p ∈ process, p.run.isSome → p.ownsRun = true ∧ 0 < pid ∧ pid < 2 ^ 32)
    (hidle : ∀ phase ∈ (process.bind Process.run).map Prod.snd, phase.Idle) :
    Kept (w.setProcess pid process) := by
  refine h.setProcess hnamed (fun name hp => ?_) (fun now name hp => ?_) (fun now name hp => ?_)
    fun given hp => ?_
  · exact (hidle _ hp).elim
  · rcases hp with hp | hp
    · exact (hidle _ hp).elim
    · exact (hidle _ hp).elim
  · exact (hidle _ hp).elim
  · exact hidle _ hp

section
variable {pid : ℕ} {cmdline : Option (List (List Char))} {options : Options} {phase : Phase}
  (hprocess : w.procs pid = some ⟨cmdline, some (options, phase)⟩)
include hprocess

theorem Kept.namedAs (h : Kept w) (phase' : Phase) :
    ∀ p ∈ some (⟨cmdline, some (options, phase')⟩ : Process), p.run.isSome →
      p.ownsRun = true ∧ 0 < pid ∧ pid < 2 ^ 32 := by
  rintro _ ⟨⟩ -
  have hown := h.named pid _ hprocess rfl
  exact hown

theorem Kept.setFound (h : Kept w) {now : ℤ} {name : String} (hpast : ¬Future w.clock name) :
    Kept (w.setProcess pid (some ⟨cmdline, some (options, .found now name)⟩)) := by
  refine h.setProcess (h.namedAs hprocess _) nofun ?_ nofun nofun
  rintro now' name' (hp | hp)
  · cases hp
    exact hpast
  · cases hp

theorem Kept.setRemoving (h : Kept w) {now : ℤ} {name : String} (hpast : ¬Future w.clock name)
    (hfree : ∀ p, w.phase p ≠ some (.working name)) :
    Kept (w.setProcess pid (some ⟨cmdline, some (options, .removing now name)⟩)) := by
  refine h.setProcess (h.namedAs hprocess _) nofun ?_ ?_ nofun
  · rintro now' name' (hp | hp)
    · cases hp
    · cases hp
      exact hpast
  · intro now' name' hp
    cases hp
    exact hfree

theorem Kept.setWorking (h : Kept w) {name : String} (hname : (w.root.get name).isSome)
    (hpid : parseRunPid name.toList = some pid)
    (hfree : ∀ p now, w.phase p ≠ some (.removing now name)) :
    Kept (w.setProcess pid (some ⟨cmdline, some (options, .working name)⟩)) := by
  refine h.setProcess (h.namedAs hprocess _) ?_ (by rintro now name' (hp | hp) <;> cases hp) nofun
    nofun
  intro name' hp
  cases hp
  exact ⟨⟨hname, hpid⟩, hfree⟩

end

theorem isSome_removeDir {w : World} {name name' : String} :
    ((w.removeDir name).root.get name').isSome ↔ (w.root.get name').isSome ∧ name' ≠ name := by
  rw [World.removeDir, Table.get_filter]
  cases hget : w.root.get name' with
  | none => simp
  | some entry =>
    have hname := Table.key_of_get hget
    simp [hname]

theorem Kept.removeDir (h : Kept w) {name : String} (hfree : ∀ p, w.phase p ≠ some (.working name)) :
    Kept (w.removeDir name) where
  clock := h.clock
  named := h.named
  present p name' hp := by
    refine ⟨isSome_removeDir.mpr ⟨(h.present p name' hp).1, ?_⟩, (h.present p name' hp).2⟩
    rintro rfl
    exact hfree p hp
  past name' hname' := h.past name' (isSome_removeDir.mp hname').1
  seen := h.seen
  unowned := h.unowned
  apart := h.apart

theorem Kept.put (h : Kept w) {entry : Entry} (hpast : ¬Future w.clock entry.name) :
    Kept { w with root := w.root.put entry } where
  clock := h.clock
  named := h.named
  present p name hp := by
    refine ⟨?_, (h.present p name hp).2⟩
    rw [Table.get_put]
    split
    · rfl
    · exact (h.present p name hp).1
  past name hname := by
    rw [Table.get_put] at hname
    split at hname
    · next heq => exact heq ▸ hpast
    · exact h.past name hname
  seen := h.seen
  unowned := h.unowned
  apart := h.apart

theorem isSome_modify {name name' : String} {node : Node} :
    ((w.root.modify name fun entry => ⟨entry.name, node⟩).get name').isSome ↔
      (w.root.get name').isSome := by
  rw [Table.get_modify w.root name (fun entry => ⟨entry.name, node⟩) fun _ => rfl]
  split
  · next heq => rw [heq, Option.isSome_map]
  · rfl

theorem Kept.modify (h : Kept w) (node : Node) (name : String) :
    Kept { w with root := w.root.modify name fun entry => ⟨entry.name, node⟩ } where
  clock := h.clock
  named := h.named
  present p name' hp := ⟨isSome_modify.mpr (h.present p name' hp).1, (h.present p name' hp).2⟩
  past name' hname := h.past name' (isSome_modify.mp hname)
  seen := h.seen
  unowned := h.unowned
  apart := h.apart

/-- What a step of a run leaves. -/
theorem Kept.stepRun (h : Kept w) {pid : ℕ} {cmdline : Option (List (List Char))}
    {options : Options} {phase phase' : Phase} {action : Action} {w' : World}
    (hprocess : w.procs pid = some ⟨cmdline, some (options, phase)⟩)
    (hnew : ∀ p now name, w.phase p = some (.found now name) ∨ w.phase p = some (.removing now name) →
      ∀ stamp, FourDigitYear stamp → name ≠ String.ofList (runName stamp pid w.clock))
    (hyear : ∀ stamp, action = .prepare stamp → FourDigitYear stamp)
    (hgiven : ∀ given, action = .prepareGiven given → given = .apart)
    (hstep : w.stepRun pid options phase action = .ok (w', phase')) :
    Kept (w'.setProcess pid (some ⟨cmdline, some (options, phase')⟩)) := by
  have hphase : w.phase pid = some phase := by rw [World.phase, hprocess]; rfl
  have hidle : ∀ phase' : Phase, phase'.Idle →
      Kept (w.setProcess pid (some ⟨cmdline, some (options, phase')⟩)) := by
    intro phase' hphase'
    refine h.setIdle (h.namedAs hprocess phase') ?_
    rintro _ ⟨⟩
    exact hphase'
  unfold World.stepRun at hstep
  split at hstep
  case h_1 now name =>
    split at hstep
    · next entry hentry =>
      cases hstep
      split
      · exact h.setFound hprocess (h.past name (hentry ▸ rfl))
      · exact hidle _ trivial
    · cases hstep
      exact hidle _ trivial
  case h_2 now name =>
    cases hstep
    split
    · exact hidle _ trivial
    · next hunowned =>
      -- A run that worked there would be the process of the name, which does not run this program.
      refine h.setRemoving hprocess (h.seen pid now name (.inl hphase)) fun q hq => hunowned ?_
      rw [(h.present q name hq).2, Option.any_some, processOwnsRun]
      obtain ⟨⟨options', phase'⟩, hrun, hphase'⟩ := Option.map_eq_some_iff.mp hq
      obtain ⟨process, hprocess', hrun⟩ := Option.bind_eq_some_iff.mp hrun
      rw [hprocess', Option.any_some]
      exact (h.named q process hprocess' (hrun ▸ rfl)).1
  case h_3 now name =>
    split at hstep
    · cases hstep
      exact (hidle (.listing now) trivial).removeDir fun q hq => by
        rw [phase_setProcess] at hq
        split at hq
        · cases hq
        · exact h.unowned pid now name hphase q hq
    · cases hstep
      exact hidle _ trivial
  case h_4 =>
    cases hstep
    exact hidle _ trivial
  case h_5 given =>
    cases hgiven given rfl
    cases hstep
    exact hidle _ rfl
  case h_6 stamp =>
    have hstamp := hyear stamp rfl
    dsimp only at hstep
    split at hstep
    · cases hstep
      exact hidle _ trivial
    · cases hstep
      have hpast : ¬Future w.clock (String.ofList (runName stamp pid w.clock)) := by
        rintro ⟨stamp', pid', micros, hstamp', hmicros, hname⟩
        have := runName_inj hstamp hstamp' h.clock (h.clock.trans hmicros.le)
          (String.ofList_injective hname)
        exact absurd this hmicros.ne
      have hown := h.named pid _ hprocess rfl
      refine Kept.setWorking (w := { w with root := w.root.put _ }) hprocess (h.put hpast) ?_ ?_ ?_
      · rw [Table.get_put_self]
        rfl
      · rw [String.toList_ofList, parse_runName hstamp h.clock hown.2.1 hown.2.2]
      · exact fun p now hp => hnew p now _ (.inr hp) stamp hstamp rfl
  case h_7 name node =>
    cases hstep
    have hhere := h.present pid name hphase
    refine Kept.setWorking (w := { w with root := w.root.modify name _ }) hprocess (h.modify node name)
      (isSome_modify.mpr hhere.1) hhere.2 fun p now hp => h.unowned p now name hp pid hphase
  case h_8 name succeeded =>
    split at hstep
    · cases hstep
      refine (hidle .finished trivial).removeDir fun q hq => ?_
      rw [phase_setProcess] at hq
      split at hq
      · cases hq
      · next hne =>
        have hpid := (h.present q name hq).2
        rw [(h.present pid name hphase).2] at hpid
        exact hne (Option.some.inj hpid).symm
    · cases hstep
      exact hidle _ trivial
  case h_9 given node =>
    cases h.apart pid given hphase
    cases hstep
    exact hidle _ rfl
  case h_10 given succeeded =>
    cases h.apart pid given hphase
    split at hstep
    · cases hstep
      exact hidle _ trivial
    · cases hstep
      exact hidle _ trivial
  case h_11 => cases hstep

/-- Nothing that a run is asked to do takes it into the common directory but for one of its own, and
    that has a name that can be read. -/
structure Event.Regular (e : Event) : Prop where
  year : ∀ stamp, e.action = .prepare stamp → FourDigitYear stamp
  given : ∀ given, e.action = .prepareGiven given → given = .apart

theorem Kept.step (h : Kept w) {e : Event} {w' : World} (hregular : e.Regular)
    (hstep : w.step e = .ok w') : Kept w' := by
  unfold World.step at hstep
  split at hstep
  · cases hstep
  · next htime =>
    rw [not_le] at htime
    have hnow := h.tick htime.le
    -- No directory that a run has found can be the one that is made now.
    have hnew : ∀ p now name, w.phase p = some (.found now name) ∨
        w.phase p = some (.removing now name) → ∀ stamp, FourDigitYear stamp →
          name ≠ String.ofList (runName stamp e.pid e.time) := by
      rintro p now name hp stamp hstamp rfl
      exact h.seen p now _ hp ⟨stamp, e.pid, e.time, hstamp, htime, rfl⟩
    unfold World.act at hstep
    split at hstep
    case h_1 cmdline _ =>
      split at hstep
      · cases hstep
      · cases hstep
        exact hnow.setIdle (by rintro _ ⟨⟩ ⟨⟩) (by rintro _ ⟨⟩)
    case h_2 cmdline options _ =>
      split at hstep
      · cases hstep
      · split at hstep
        · cases hstep
        · next hpid =>
          split at hstep
          · cases hstep
          · next hown =>
            cases hstep
            refine hnow.setIdle ?_ (by rintro _ ⟨⟩; trivial)
            rintro _ ⟨⟩ -
            have hown' : Process.ownsRun ⟨cmdline, none⟩ = true := by simpa using hown
            exact ⟨hown', not_not.mp hpid⟩
    case h_3 =>
      cases hstep
      exact hnow.setIdle (by rintro _ ⟨⟩) (by rintro _ ⟨⟩)
    case h_4 =>
      split at hstep
      · next cmdline options phase hprocess =>
        obtain ⟨⟨after, phase'⟩, hrun, rfl⟩ := map_eq_ok.mp hstep
        exact hnow.stepRun hprocess hnew hregular.year hregular.given hrun
      · cases hstep

/-- A world in which no run of the program is going on, and no directory has the name of a run to
    come. -/
structure Fresh (w : World) : Prop where
  clock : 0 ≤ w.clock
  runs : ∀ p process, w.procs p = some process → process.run = none
  past : ∀ name, (w.root.get name).isSome → ¬Future w.clock name

theorem Fresh.kept (h : Fresh w) : Kept w := by
  have hphase : ∀ p, w.phase p = none := by
    intro p
    rw [World.phase]
    cases hprocess : w.procs p with
    | none => rfl
    | some process => rw [Option.bind_some, h.runs p process hprocess, Option.map_none]
  refine ⟨h.clock, fun p process hp hrun => ?_, fun p name hp => ?_, h.past, fun p now name hp => ?_,
    fun p now name hp => ?_, fun p given hp => ?_⟩
  · rw [h.runs p process hp] at hrun
    cases hrun
  · rw [hphase] at hp
    cases hp
  · rw [hphase] at hp
    rcases hp with hp | hp <;> cases hp
  · rw [hphase] at hp
    cases hp
  · rw [hphase] at hp
    cases hp

/-- A run and the name of the directory it works in determine each other. -/
theorem Kept.alone (h : Kept w) {p q : ℕ} {name : String} (hp : w.phase p = some (.working name))
    (hq : w.phase q = some (.working name)) : q = p := by
  have hpid := (h.present q name hq).2
  rw [(h.present p name hp).2] at hpid
  exact (Option.some.inj hpid).symm

theorem get_removeDir_of_ne {name name' : String} (hne : name ≠ name') :
    (w.removeDir name').root.get name = w.root.get name := by
  rw [World.removeDir, Table.get_filter]
  cases hget : w.root.get name with
  | none => rfl
  | some entry =>
    have hname := Table.key_of_get hget
    simp [hname, hne]

/-- A step of another run leaves the directory as it is. -/
theorem Kept.stepRun_other (h : Kept w) {pid other : ℕ} {name : String}
    (hworking : w.phase pid = some (.working name)) (hne : other ≠ pid) {options : Options}
    {phase phase' : Phase} (hphase : w.phase other = some phase) {action : Action} {w' : World}
    (hgiven : ∀ given, action = .prepareGiven given → given = .apart)
    (hstep : w.stepRun other options phase action = .ok (w', phase')) :
    w'.root.get name = w.root.get name ∧ w'.procs = w.procs := by
  unfold World.stepRun at hstep
  split at hstep
  case h_1 =>
    split at hstep
    · cases hstep
      exact ⟨rfl, rfl⟩
    · cases hstep
      exact ⟨rfl, rfl⟩
  case h_3 now name' =>
    split at hstep
    · cases hstep
      refine ⟨get_removeDir_of_ne ?_, rfl⟩
      rintro rfl
      exact h.unowned other now name hphase pid hworking
    · cases hstep
      exact ⟨rfl, rfl⟩
  case h_5 given =>
    cases hgiven given rfl
    cases hstep
    exact ⟨rfl, rfl⟩
  case h_6 =>
    dsimp only at hstep
    split at hstep
    · cases hstep
      exact ⟨rfl, rfl⟩
    · next hfree =>
      cases hstep
      refine ⟨Table.get_put_of_ne _ ?_, rfl⟩
      rintro rfl
      exact hfree (h.present pid _ hworking).1
  case h_7 name' node =>
    cases hstep
    refine ⟨?_, rfl⟩
    rw [Table.get_modify w.root name' (fun entry => ⟨entry.name, node⟩) fun _ => rfl, if_neg]
    rintro rfl
    exact hne (h.alone hworking hphase)
  case h_8 name' _ =>
    split at hstep
    · cases hstep
      refine ⟨get_removeDir_of_ne ?_, rfl⟩
      rintro rfl
      exact hne (h.alone hworking hphase)
    · cases hstep
      exact ⟨rfl, rfl⟩
  case h_9 given node =>
    cases h.apart other given hphase
    cases hstep
    exact ⟨rfl, rfl⟩
  case h_10 given succeeded =>
    cases h.apart other given hphase
    split at hstep
    · cases hstep
      exact ⟨rfl, rfl⟩
    · cases hstep
      exact ⟨rfl, rfl⟩
  case h_11 => cases hstep
  all_goals
    cases hstep
    exact ⟨rfl, rfl⟩

theorem Kept.step_other (h : Kept w) {pid : ℕ} {name : String}
    (hworking : w.phase pid = some (.working name)) {e : Event} (hne : e.pid ≠ pid)
    (hregular : e.Regular) {w' : World} (hstep : w.step e = .ok w') :
    w'.root.get name = w.root.get name ∧ w'.phase pid = some (.working name) := by
  have hsame {now : World} {process : Option Process} (hprocs : now.procs = w.procs) :
      (now.setProcess e.pid process).phase pid = some (.working name) := by
    rw [phase_setProcess, if_neg (Ne.symm hne), ← hworking, World.phase, World.phase, hprocs]
  unfold World.step at hstep
  split at hstep
  · cases hstep
  · next htime =>
    have hnow := h.tick (not_le.mp htime).le
    unfold World.act at hstep
    split at hstep
    case h_1 =>
      split at hstep
      · cases hstep
      · cases hstep
        exact ⟨rfl, hsame rfl⟩
    case h_2 =>
      split at hstep
      · cases hstep
      · split at hstep
        · cases hstep
        · split at hstep
          · cases hstep
          · cases hstep
            exact ⟨rfl, hsame rfl⟩
    case h_3 =>
      cases hstep
      exact ⟨rfl, hsame rfl⟩
    case h_4 =>
      split at hstep
      · next cmdline options phase hprocess =>
        obtain ⟨⟨after, phase'⟩, hrun, rfl⟩ := map_eq_ok.mp hstep
        have hphase : w.phase e.pid = some phase := by rw [World.phase, hprocess]; rfl
        obtain ⟨hroot, hprocs⟩ := hnow.stepRun_other hworking hne hphase hregular.given hrun
        exact ⟨hroot, hsame hprocs⟩
      · cases hstep

/-- **No run loses the directory it has made.** Until it does something itself the directory stays as
it left it, whatever other runs of the program and other processes do, as long as none of them is
given a part of the common directory; and nobody else works there. -/
theorem work_dir_kept (hfresh : Fresh w) {before after : List Event}
    (hregular : ∀ e ∈ before ++ after, e.Regular)
    {w₁ w₂ : World} (hbefore : before.foldlM World.step w = .ok w₁) {pid : ℕ} {name : String}
    (hworking : w₁.phase pid = some (.working name)) (hothers : ∀ e ∈ after, e.pid ≠ pid)
    (hafter : after.foldlM World.step w₁ = .ok w₂) :
    ∃ entry, w₁.root.get name = some entry ∧ w₂.root.get name = some entry ∧
      ∀ p, w₂.phase p = some (.working name) → p = pid := by
  have hkept : Kept w₁ := run_invariant (P := Kept)
    (fun e he s t hs hstep => hs.step (hregular e (List.mem_append_left _ he)) hstep)
    hfresh.kept hbefore
  obtain ⟨entry, hentry⟩ := Option.isSome_iff_exists.mp (hkept.present pid name hworking).1
  have hend := run_invariant (P := fun s : World => Kept s ∧
      s.phase pid = some (.working name) ∧ s.root.get name = some entry)
    (fun e he s t hs hstep => by
      obtain ⟨hs, hphase, hget⟩ := hs
      have hregular := hregular e (List.mem_append_right _ he)
      obtain ⟨hroot, hphase'⟩ := hs.step_other hphase (hothers e he) hregular hstep
      exact ⟨hs.step hregular hstep, hphase', hroot.trans hget⟩)
    ⟨hkept, hworking, hentry⟩ hafter
  exact ⟨entry, hentry, hend.2.2, fun p hp => hend.1.alone hend.2.1 hp⟩

end

/-! ## Two runs -/

def emptyWorld : World := ⟨0, .empty, fun _ => none⟩

theorem emptyWorld_fresh : Fresh emptyWorld := ⟨le_rfl, nofun, nofun⟩

def oneWorks : List Event :=
  [⟨1, 8, .spawn (some [programName]) ⟨false, false, 0⟩⟩, ⟨2, 8, .cleaned⟩, ⟨3, 8, .prepare 3⟩]

/-- The other finds the directory old, and asks for its process. -/
def otherCleans : List Event :=
  [⟨4, 9, .spawn (some [programName]) ⟨false, false, 0⟩⟩,
    ⟨5, 9, .inspect (.ofList (runName 3 8 3))⟩, ⟨6, 9, .checkOwner⟩, ⟨7, 9, .cleaned⟩]

def worldAfter (w : World) (events : List Event) : World :=
  match events.foldlM World.step w with
  | .ok w => w
  | .error _ => w

theorem two_runs_regular : ∀ e ∈ oneWorks ++ otherCleans, e.Regular := by
  have hall : ∀ e ∈ oneWorks ++ otherCleans, match e.action with
      | .prepare stamp => stamp = 3
      | .prepareGiven _ => False
      | _ => True := by
    simp [oneWorks, otherCleans]
  intro e he
  refine ⟨fun stamp hstamp => ?_, fun given hgiven => ?_⟩
  · have hthree := hall e he
    rw [hstamp] at hthree
    rw [hthree]
    exact ⟨by decide, by decide⟩
  · have hnone := hall e he
    rw [hgiven] at hnone
    exact hnone.elim

theorem two_runs : ∃ entry,
    (worldAfter emptyWorld oneWorks).root.get (.ofList (runName 3 8 3)) = some entry ∧
      (worldAfter (worldAfter emptyWorld oneWorks) otherCleans).root.get
        (.ofList (runName 3 8 3)) = some entry ∧
      ∀ p, (worldAfter (worldAfter emptyWorld oneWorks) otherCleans).phase p =
        some (.working (.ofList (runName 3 8 3))) → p = 8 :=
  work_dir_kept emptyWorld_fresh two_runs_regular
    (rfl : oneWorks.foldlM World.step emptyWorld = .ok (worldAfter emptyWorld oneWorks)) rfl
    (by decide)
    (rfl : otherCleans.foldlM World.step (worldAfter emptyWorld oneWorks) =
      .ok (worldAfter (worldAfter emptyWorld oneWorks) otherCleans))

/-- A run is given the common directory, and removes it in the end. -/
def lodgerEnds : List Event :=
  [⟨1, 9, .spawn (some [programName]) ⟨false, true, 0⟩⟩, ⟨2, 9, .cleaned⟩,
    ⟨3, 9, .prepareGiven .common⟩, ⟨4, 8, .spawn (some [programName]) ⟨false, false, 0⟩⟩,
    ⟨5, 8, .cleaned⟩, ⟨6, 8, .prepare 6⟩, ⟨7, 9, .finalize true⟩]

/-- The other, which has made a directory there, is left without it. -/
example : (worldAfter emptyWorld lodgerEnds).root.rows = [] ∧
    (worldAfter emptyWorld lodgerEnds).phase 8 =
      some (.working (.ofList (runName 6 8 6))) :=
  ⟨rfl, rfl⟩

end CryptoNav.Reconcile.WorkDirs
