import CryptoNav.History.Fields
import CryptoNav.Lib.Lines
import CryptoNav.Lib.Runs

/-!
# The automatic alignment switch

The live history loop of a strategy may check its trades against RocksDB at the end of a cycle. The
check is a program of its own, which writes its progress into the row of the strategy; when it fails
the loop turns the row's switch off, and an administrator may turn it on again. All of these write
the same row, each statement whenever it comes: other runs of the check that somebody started by
hand, the server being restarted in between. Still a strategy whose check has failed is not checked
again before an administrator has asked for it (`check_after_failure`).

The child process that runs the check is left out but for what it prints and when it is given
up; its writes are statements like all others. Which trades it compares, and whether a failure
is one of the trades or of the connection, makes no difference to the switch. The server and the
loop may be stopped anywhere, and the row is all that is left of them.
-/

set_option autoImplicit false

namespace CryptoNav.Live

open CryptoNav.Lib
open CryptoNav.History.Raw (trim)

inductive AlignmentState where
  | waiting
  | running
  | succeeded
  | mismatch
  | failed
  deriving DecidableEq

/-- A row of `rocksdb_alignment_status`. -/
structure AlignmentStatus where
  state : AlignmentState
  phase : String
  progressPercent : ℕ
  runId : Option String := none
  startedAt : Option ℕ := none
  updatedAt : ℕ
  completedAt : Option ℕ := none
  candidateEndMs : Option ℤ := none
  scanStartMs : Option ℤ := none
  pgSuccessEndMs : Option ℤ := none
  actualEndMs : Option ℤ := none
  groupCount : Option ℕ := none
  mismatchCount : Option ℕ := none
  pgEventCount : Option ℕ := none
  localEventCount : Option ℕ := none
  message : Option String := none
  automaticEnabled : Bool := true
  automaticUpdatedAt : ℕ

def truncated (text : String) : String := .ofList (text.toList.take 1000)

/-! ## Statements of the check -/

/-- A statement of `reconcile_rocksdb` on the row of its strategy. -/
inductive CheckStatement where
  | startStatus (runId : String) (candidateEndMs : ℤ)
  | setPhase (phase : String) (progress : ℕ)
    (scanStartMs pgSuccessEndMs actualEndMs : Option ℤ)
  | completeStatus (aligned : Bool)
    (groupCount mismatchedGroupCount pgEventCount uniformEventCount : ℕ)
  | failStatus (message : String)

def CheckStatement.run (now : ℕ) (row : Option AlignmentStatus) :
    CheckStatement → Option AlignmentStatus
  | .startStatus runId candidateEndMs => some
    { state := .running, phase := "preparing", progressPercent := 5, runId := some runId
      startedAt := some now, updatedAt := now, candidateEndMs := some candidateEndMs
      automaticEnabled := row.elim true (·.automaticEnabled)
      automaticUpdatedAt := row.elim now (·.automaticUpdatedAt) }
  | .setPhase phase progress scanStartMs pgSuccessEndMs actualEndMs => row.map fun row =>
    { row with
      state := .running, phase, progressPercent := progress, updatedAt := now
      scanStartMs := scanStartMs.or row.scanStartMs
      pgSuccessEndMs := pgSuccessEndMs.or row.pgSuccessEndMs
      actualEndMs := actualEndMs.or row.actualEndMs }
  | .completeStatus aligned groupCount mismatchedGroupCount pgEventCount uniformEventCount =>
    row.map fun row =>
      { row with
        state := if aligned then .succeeded else .mismatch
        phase := "complete", progressPercent := 100, updatedAt := now, completedAt := some now
        groupCount := some groupCount, mismatchCount := some mismatchedGroupCount
        pgEventCount := some pgEventCount, localEventCount := some uniformEventCount
        message := some (if aligned then "全部分组匹配"
          else toString mismatchedGroupCount ++ " 个分组存在差异") }
  | .failStatus message => row.map fun row =>
    { row with
      state := .failed, phase := "complete", progressPercent := 100, updatedAt := now
      completedAt := some now, message := some (truncated message) }

/-! ## The loop -/

structure AlignmentFailure where
  reason : String
  mismatch : Bool

/-- How a run of the check ended for the loop. -/
inductive CheckOutput where
  | timedOut (seconds : ℕ)
  | notRun (error : String)
  | exited (success : Bool) (status stdout stderr : String)

/-- `run_alignment_check`, with the last line of what a check printed that succeeded. -/
def runAlignmentCheck (program slug : String) : CheckOutput → Except AlignmentFailure String
  | .timedOut seconds => .error
    { reason := s!"{program} timed out after {seconds} seconds for {slug}", mismatch := false }
  | .notRun error => .error { reason := s!"run {program} for {slug}: {error}", mismatch := false }
  | .exited false status stdout stderr => .error
    { reason := s!"{program} exited with {status}: stdout={trim stdout} stderr={trim stderr}"
      mismatch := (lines stdout.toList).any ((slug ++ ": aligned=false ").toList.isPrefixOf ·) }
  | .exited true _ stdout _ =>
    let printed := (lines stdout.toList).reverse.map (trim <| .ofList ·)
    .ok ((printed.find? (· ≠ "")).getD "completed")

def alignmentCheckEnabled (slug : String) (automaticEnabled : Bool) : Bool :=
  automaticEnabled && ["binance_mm_alpha", "bybit_mm_alpha", "binance-intra-arb01",
    "bybit-intra-arb01", "bybit-intra-arb02"].contains slug

/-- The statement of `load_automatic_alignment_enabled`; an error counts as off. -/
def loadAutomaticEnabled (row : Option AlignmentStatus) (answered : Bool) : Bool :=
  answered && row.elim true (·.automaticEnabled)

/-- The statement of `persist_alignment_failure`. -/
def persistAlignmentFailure (now : ℕ) (failure : AlignmentFailure) (row : Option AlignmentStatus) :
    AlignmentStatus :=
  let message := truncated failure.reason
  let state : AlignmentState := if failure.mismatch then .mismatch else .failed
  match row with
  | none =>
    { state, phase := "complete", progressPercent := 100, updatedAt := now, completedAt := some now
      automaticEnabled := false, automaticUpdatedAt := now, message := some message }
  | some row =>
    { row with
      automaticEnabled := false, automaticUpdatedAt := now, state, phase := "complete"
      progressPercent := 100, updatedAt := now, completedAt := some now
      message := if state = .mismatch ∧ row.state = .mismatch then row.message else some message }

/-- Where the loop of a strategy is in its cycle. -/
inductive Loop where
  | waiting
  /-- The switch has been read, and the trades are being fetched. -/
  | syncing (automaticEnabled : Bool)
  | checking
  | failed (failure : AlignmentFailure)

/-- The database, the server's loops, and whether the server was started with alignment. -/
structure Switches where
  rows : String → Option AlignmentStatus
  loops : String → Loop
  autoReconcile : Bool

/-- One statement or one move of a loop. -/
inductive SwitchAction where
  /-- The loop wakes up and reads the switch, if it gets an answer. -/
  | load (slug : String) (answered : Bool)
  /-- The trades and the other datasets have been fetched, or not. -/
  | synced (slug : String) (tradesSucceeded : Bool)
  | checked (slug program : String) (output : CheckOutput)
  /-- The failure is persisted, or cannot be. -/
  | persist (slug : String) (now : ℕ) (done : Bool)
  /-- The task of a cycle panics. -/
  | panic (slug : String)
  | restart (autoReconcile : Bool)
  /-- A statement of some run of the check, of the loop's own or of another. -/
  | check (slug : String) (now : ℕ) (statement : CheckStatement)
  /-- The statement of `set_alignment_automatic`. -/
  | setAutomatic (slug : String) (now : ℕ) (enabled : Bool)

namespace Switches

def setLoop (s : Switches) (slug : String) (loop : Loop) : Switches :=
  { s with loops := Function.update s.loops slug loop }

def setRow (s : Switches) (slug : String) (row : Option AlignmentStatus) : Switches :=
  { s with rows := Function.update s.rows slug row }

/-- An action that the loop of the strategy is not ready for is an error. -/
def step (s : Switches) : SwitchAction → Except String Switches
  | .load slug answered =>
    match s.loops slug with
    | .waiting => .ok (s.setLoop slug
        (.syncing (s.autoReconcile && loadAutomaticEnabled (s.rows slug) answered)))
    | _ => .error "not waiting"
  | .synced slug tradesSucceeded =>
    match s.loops slug with
    | .syncing automaticEnabled => .ok (s.setLoop slug
        (if tradesSucceeded && alignmentCheckEnabled slug automaticEnabled then .checking
        else .waiting))
    | _ => .error "not syncing"
  | .checked slug program output =>
    match s.loops slug with
    | .checking =>
      match runAlignmentCheck program slug output with
      | .ok _ => .ok (s.setLoop slug .waiting)
      | .error failure => .ok (s.setLoop slug (.failed failure))
    | _ => .error "not checking"
  | .persist slug now done =>
    match s.loops slug with
    | .failed failure => .ok ((if done then
        s.setRow slug (some (persistAlignmentFailure now failure (s.rows slug))) else s).setLoop
          slug .waiting)
    | _ => .error "nothing failed"
  | .panic slug => .ok (s.setLoop slug .waiting)
  | .restart autoReconcile => .ok { s with loops := fun _ => .waiting, autoReconcile }
  | .check slug now statement => .ok (s.setRow slug (statement.run now (s.rows slug)))
  | .setAutomatic slug now enabled => .ok (s.setRow slug ((s.rows slug).map fun row =>
      { row with automaticEnabled := enabled, automaticUpdatedAt := now }))

end Switches

/-! ## What a step does to a strategy -/

/-- What the loop reads from the row; a strategy without a row is on. -/
def isEnabled (row : Option AlignmentStatus) : Bool := row.elim true (·.automaticEnabled)

theorem CheckStatement.isEnabled_run (now : ℕ) (row : Option AlignmentStatus)
    (statement : CheckStatement) : isEnabled (statement.run now row) = isEnabled row := by
  cases row with
  | none => cases statement <;> rfl
  | some row => cases statement <;> rfl

theorem not_isEnabled_persist (now : ℕ) (failure : AlignmentFailure)
    (row : Option AlignmentStatus) :
    isEnabled (some (persistAlignmentFailure now failure row)) = false := by
  cases row <;> rfl

namespace Switches

variable {s t : Switches} {a : SwitchAction} {slug : String}

@[simp] theorem setLoop_rows (s : Switches) (slug : String) (loop : Loop) :
    (s.setLoop slug loop).rows = s.rows := rfl

@[simp] theorem setRow_loops (s : Switches) (slug : String) (row : Option AlignmentStatus) :
    (s.setRow slug row).loops = s.loops := rfl

@[simp] theorem setLoop_loops (s : Switches) (slug other : String) (loop : Loop) :
    (s.setLoop slug loop).loops other = if other = slug then loop else s.loops other :=
  Function.update_apply ..

@[simp] theorem setRow_rows (s : Switches) (slug other : String) (row : Option AlignmentStatus) :
    (s.setRow slug row).rows other = if other = slug then row else s.rows other :=
  Function.update_apply ..

/-- Only an administrator turns a switch on. -/
theorem enabled_of_step (h : s.step a = .ok t) (ht : isEnabled (t.rows slug) = true) :
    isEnabled (s.rows slug) = true ∨ ∃ now, a = .setAutomatic slug now true := by
  cases a with
  | load other answered =>
    simp only [step] at h
    split at h
    · cases h
      exact .inl ht
    · cases h
  | synced other tradesSucceeded =>
    simp only [step] at h
    split at h
    · cases h
      exact .inl ht
    · cases h
  | checked other program output =>
    simp only [step] at h
    split at h
    · split at h
      · cases h
        exact .inl ht
      · cases h
        exact .inl ht
    · cases h
  | persist other now done =>
    simp only [step] at h
    split at h
    · next failure _ =>
      cases h
      by_cases hslug : slug = other
      · cases done with
        | true =>
          subst hslug
          simp [not_isEnabled_persist] at ht
        | false => exact .inl ht
      · cases done with
        | true => exact .inl (by simpa [hslug] using ht)
        | false => exact .inl ht
    · cases h
  | panic other =>
    cases h
    exact .inl ht
  | restart autoReconcile =>
    cases h
    exact .inl ht
  | check other now statement =>
    cases h
    by_cases hslug : slug = other
    · subst hslug
      exact .inl (by simpa [CheckStatement.isEnabled_run] using ht)
    · exact .inl (by simpa [hslug] using ht)
  | setAutomatic other now enabled =>
    cases h
    by_cases hslug : slug = other
    · subst hslug
      cases hrow : s.rows slug with
      | none => exact .inl rfl
      | some row =>
        simp only [setRow_rows, hrow, if_true] at ht
        exact .inr ⟨now, by rw [show enabled = true from ht]⟩
    · exact .inl (by simpa [hslug] using ht)

/-- A loop syncs with the switch on only from the moment it has read so. -/
theorem armed_of_step (h : s.step a = .ok t) (ht : t.loops slug = .syncing true) :
    (s.loops slug = .syncing true ∧ ∀ answered, a ≠ .load slug answered) ∨
      ∃ answered, a = .load slug answered ∧ isEnabled (s.rows slug) = true := by
  cases a with
  | load other answered =>
    simp only [step] at h
    split at h
    · cases h
      by_cases hslug : slug = other
      · subst hslug
        simp only [setLoop_loops, if_true, Loop.syncing.injEq, Bool.and_eq_true,
          loadAutomaticEnabled] at ht
        exact .inr ⟨answered, rfl, ht.2.2⟩
      · refine .inl ⟨by simpa [hslug] using ht, fun _ heq => ?_⟩
        cases heq
        exact hslug rfl
    · cases h
  | synced other tradesSucceeded =>
    simp only [step] at h
    split at h
    · cases h
      by_cases hslug : slug = other
      · subst hslug
        rw [setLoop_loops, if_pos rfl] at ht
        split at ht <;> cases ht
      · exact .inl ⟨by simpa [hslug] using ht, by simp⟩
    · cases h
  | checked other program output =>
    simp only [step] at h
    split at h
    · split at h
      all_goals
        cases h
        by_cases hslug : slug = other
        · simp [hslug] at ht
        · exact .inl ⟨by simpa [hslug] using ht, by simp⟩
    · cases h
  | persist other now done =>
    simp only [step] at h
    split at h
    · cases h
      by_cases hslug : slug = other
      · simp [hslug] at ht
      · cases done with
        | true => exact .inl ⟨by simpa [hslug] using ht, by simp⟩
        | false => exact .inl ⟨by simpa [hslug] using ht, by simp⟩
    · cases h
  | panic other =>
    cases h
    by_cases hslug : slug = other
    · simp [hslug] at ht
    · exact .inl ⟨by simpa [hslug] using ht, by simp⟩
  | restart autoReconcile =>
    cases h
    cases ht
  | check other now statement =>
    cases h
    exact .inl ⟨ht, by simp⟩
  | setAutomatic other now enabled =>
    cases h
    exact .inl ⟨ht, by simp⟩

/-! ## After a failed check -/

/-- In `actions` an administrator turns the switch on, and then the loop reads it and goes on with
that. -/
def AskedAndRead (slug : String) (actions : List SwitchAction) : Prop :=
  ∃ asked answered rest, actions = asked ++ .load slug answered :: rest ∧
    (∃ now, .setAutomatic slug now true ∈ asked) ∧ ∀ answered, .load slug answered ∉ rest

theorem AskedAndRead.append {actions : List SwitchAction} (h : AskedAndRead slug actions)
    (ha : ∀ answered, a ≠ .load slug answered) : AskedAndRead slug (actions ++ [a]) := by
  obtain ⟨asked, answered, rest, rfl, hasked, hrest⟩ := h
  refine ⟨asked, answered, rest ++ [a], by simp, hasked, fun answered' hmem => ?_⟩
  rcases List.mem_append.mp hmem with hmem | hmem
  · exact hrest answered' hmem
  · exact ha answered' (List.mem_singleton.mp hmem).symm

/-- What holds ever after the switch has been turned off by a loop that went back to waiting. -/
theorem off_until_asked {actions : List SwitchAction} (hrow : isEnabled (s.rows slug) = false)
    (hloop : s.loops slug = .waiting) (h : actions.foldlM step s = .ok t) :
    (isEnabled (t.rows slug) = true → ∃ now, .setAutomatic slug now true ∈ actions) ∧
      (t.loops slug = .syncing true → AskedAndRead slug actions) := by
  refine run_prefix (P := fun past t =>
    (isEnabled (t.rows slug) = true → ∃ now, .setAutomatic slug now true ∈ past) ∧
      (t.loops slug = .syncing true → AskedAndRead slug past)) ?_ ⟨?_, ?_⟩ h
  · intro past a rest _ s t hpast hstep
    constructor
    · intro ht
      rcases enabled_of_step hstep ht with hs | ⟨now, rfl⟩
      · obtain ⟨now, hmem⟩ := hpast.1 hs
        exact ⟨now, List.mem_append_left _ hmem⟩
      · exact ⟨now, by simp⟩
    · intro ht
      rcases armed_of_step hstep ht with ⟨hs, hload⟩ | ⟨answered, rfl, hs⟩
      · exact (hpast.2 hs).append hload
      · exact ⟨past, answered, [], rfl, hpast.1 hs, by simp⟩
  · exact fun hs => absurd hs (by simp [hrow])
  · exact fun hs => by rw [hloop] at hs; cases hs

/-- **A failed check is the last one until an administrator asks for more.** When a loop begins a
check after it has persisted a failure, an administrator has turned the switch on since, and this
cycle of the loop has read it after that: whatever the check wrote into the row, or anyone else. -/
theorem check_after_failure (s₀ : Switches) (before between : List SwitchAction) (now : ℕ)
    (tradesSucceeded : Bool)
    (h : (before ++ .persist slug now true :: between).foldlM step s₀ = .ok s)
    (hbegins : s.step (.synced slug tradesSucceeded) = .ok t)
    (hchecks : t.loops slug = .checking) : AskedAndRead slug between := by
  obtain ⟨s₁, -, h⟩ := run_append.mp h
  obtain ⟨s₂, hpersist, h⟩ := run_cons.mp h
  have hoff : isEnabled (s₂.rows slug) = false ∧ s₂.loops slug = .waiting := by
    simp only [step] at hpersist
    split at hpersist
    · cases hpersist
      exact ⟨by simp [not_isEnabled_persist], by simp⟩
    · cases hpersist
  refine (off_until_asked hoff.1 hoff.2 h).2 ?_
  simp only [step] at hbegins
  split at hbegins
  · next automaticEnabled hloop =>
    cases hbegins
    rw [setLoop_loops, if_pos rfl] at hchecks
    split at hchecks
    · next hcheck =>
      rw [hloop, show automaticEnabled = true by
        simp only [alignmentCheckEnabled, Bool.and_eq_true] at hcheck
        exact hcheck.2.1]
    · cases hchecks
  · cases hbegins

/-- A check that ran too long, and an administrator who asks for another. -/
theorem check_after_timeout : AskedAndRead "bybit_mm_alpha"
    [.setAutomatic "bybit_mm_alpha" 30 true, .load "bybit_mm_alpha" true] :=
  check_after_failure ⟨fun _ => none, fun _ => .waiting, true⟩
    [.load "bybit_mm_alpha" true, .synced "bybit_mm_alpha" true,
      .check "bybit_mm_alpha" 10 (.startStatus "run" 5),
      .checked "bybit_mm_alpha" "reconcile_rocksdb" (.timedOut 1800)]
    [.setAutomatic "bybit_mm_alpha" 30 true, .load "bybit_mm_alpha" true] 20 true rfl rfl rfl

end Switches

end CryptoNav.Live
