import CryptoNav.Lib.Queue
import CryptoNav.Lib.Sorting
import CryptoNav.Monitor.Logs
import CryptoNav.Monitor.Parse

/-!
# What the alerts count

`LogMonitor::summary` counts the events in the queue of a component, in the order in which they were
read. Only a scan that reads the log takes out what has expired, and only from the front of the
queue. So the counts respect the window just when a scan that cannot read the log finds nothing
expired, and one that reads it finds no expired event behind a fresh one and the newest event last
(`alerts_respect_window_iff`). No fresh event is lost, but for those that are cut off with the flag
set (`accounted_after`).

How a line becomes an event is a parameter, so an event may have any time, and the log may be
written by several threads that do not agree about the order of their lines. Alerts that
somebody acknowledged are no concept of the program. What is shown of an event beside its count
is in `Redact`, and a scan that panics takes no summary after it.
-/

set_option autoImplicit false

namespace CryptoNav.Monitor

open CryptoNav.Lib

def maxSamplesPerComponent : ℕ := 5

structure AlertSample where
  severity : AlertSeverity
  atMs : ℤ
  count : ℕ
  message : List Char

structure AlertSummary where
  warningCount : ℕ := 0
  errorCount : ℕ := 0
  lastAlertAtMs : Option ℤ := none
  truncated : Bool := false
  samples : List AlertSample := []

def AlertSample.new (event : LogEvent) : AlertSample where
  severity := event.severity
  atMs := event.atMs
  count := 0
  message := event.message

/-- A group takes the message of its newest event. -/
def AlertSample.note (group : AlertSample) (event : LogEvent) : AlertSample :=
  let group := { group with count := group.count + 1 }
  if event.atMs ≥ group.atMs then { group with atMs := event.atMs, message := event.message }
  else group

def noteAlert (groups : List ((AlertSeverity × List Char) × AlertSample)) (event : LogEvent) :
    List ((AlertSeverity × List Char) × AlertSample) :=
  let key := (event.severity, event.fingerprint)
  if groups.any fun group => group.1 = key then
    groups.map fun group => if group.1 = key then (key, group.2.note event) else group
  else groups ++ [(key, (AlertSample.new event).note event)]

/-- The groups that were seen last, newest first. The source takes them out of a hash map; here they
    come in the order of their first events. -/
def alertSamples (events : List LogEvent) : List AlertSample :=
  (sortByKey (fun sample => OrderDual.toDual sample.atMs)
    ((events.foldl noteAlert []).map Prod.snd)).take maxSamplesPerComponent

namespace LogMonitor

variable {Trading : Type}

def summary (m : LogMonitor Trading LogEvent) (slug : String) (role : ComponentRole) :
    AlertSummary :=
  match m.events (slug, role) with
  | none => {}
  | some events => {
      warningCount := events.countP fun event => event.severity = .warning
      errorCount := events.countP fun event => event.severity = .error
      lastAlertAtMs := events.getLast?.map LogEvent.atMs
      truncated := m.truncated (slug, role)
      samples := alertSamples events }

end LogMonitor

/-! ## The parsers -/

/-- What `parse_log_event` and `observe_trading_line` make of a line. A line that stops the program
    is passed over here. -/
def Parse.value {α : Type} (x : Parse α) (h : x.run.Ends) : Option α :=
  (x.run.result h).toOption.join

theorem Parse.value_eq {α : Type} {x : Parse α} {r : Option α} (hr : x.run.Gives (.ok r))
    (h : x.run.Ends) : x.value h = r := by
  rw [Parse.value, hr.result_eq h]
  rfl

def logParsers (readers : Readers) (whitelistUsd : List Float) : Parsers TradingState LogEvent where
  observeTradingLine state slug line nowMs windowMs :=
    ((observeTradingLine readers state slug line nowMs windowMs).value
      (observeTradingLine_ends readers state slug line nowMs windowMs)).getD state
  pruneTradingState := TradingState.prune
  isWhitelistedMaxPositionRejection line :=
    isWhitelistedMaxPositionRejection readers line whitelistUsd
  parseLogEvent line nowMs windowMs := (parseLogEvent readers line nowMs windowMs).value
    (parseLogEvent_ends readers line nowMs windowMs)
  atMs := LogEvent.atMs

/-! ## Scans of a component -/

def Scan.key (scan : Scan) : String × ComponentRole := (scan.slug, scan.role)

/-- The log is there and can be read. -/
def Scan.reads (scan : Scan) : Bool := scan.view.metadata.isSome && scan.view.content.isSome

def Scan.expired (scan : Scan) (event : LogEvent) : Bool :=
  scan.nowMs - event.atMs > scan.windowMs

namespace LogMonitor

variable {Trading : Type} (parsers : Parsers Trading LogEvent)

def counted (m : LogMonitor Trading LogEvent) (key : String × ComponentRole) : List LogEvent :=
  (m.events key).getD []

/-- The events of the lines that a scan hands over. -/
def arriving (m : LogMonitor Trading LogEvent) (scan : Scan) : List LogEvent :=
  ((m.scan parsers scan).2.filter fun line =>
    !parsers.isWhitelistedMaxPositionRejection line).filterMap fun line =>
      parsers.parseLogEvent line scan.nowMs scan.windowMs

def after (m : LogMonitor Trading LogEvent) (scans : List Scan) : LogMonitor Trading LogEvent :=
  scans.foldl (fun m scan => (m.scan parsers scan).1) m

def delivered (m : LogMonitor Trading LogEvent) : List Scan → List LogEvent
  | [] => []
  | scan :: scans => m.arriving parsers scan ++ (m.scan parsers scan).1.delivered scans

end LogMonitor

/-- Scans of one component, one after the other, with one window. Other components have cursors and
    queues of their own. -/
structure OfComponent (key : String × ComponentRole) (windowMs : ℤ) (scans : List Scan) : Prop where
  same : ∀ scan ∈ scans, scan.key = key ∧ scan.windowMs = windowMs
  inTime : scans.Pairwise fun scan later => scan.nowMs ≤ later.nowMs

/-- What the summary after a scan is to be, where `delivered` has been delivered so far. What it
    counts was delivered and is fresh, and everything fresh is counted unless the flag says that
    some was cut off. -/
structure RespectsWindow {Trading : Type} (m : LogMonitor Trading LogEvent) (scan : Scan)
    (delivered : List LogEvent) : Prop where
  warnings : (m.summary scan.slug scan.role).warningCount
    = (m.counted scan.key).countP fun event => event.severity = .warning
  errors : (m.summary scan.slug scan.role).errorCount
    = (m.counted scan.key).countP fun event => event.severity = .error
  ofDelivered : (m.counted scan.key).Sublist delivered
  onlyFresh : ∀ event ∈ m.counted scan.key, scan.nowMs - event.atMs ≤ scan.windowMs
  everyFresh : (m.summary scan.slug scan.role).truncated = false →
    (delivered.filter fun event => scan.nowMs - event.atMs ≤ scan.windowMs).Sublist
      (m.counted scan.key)
  newest : (m.summary scan.slug scan.role).lastAlertAtMs
    = ((m.counted scan.key).map LogEvent.atMs).max?

/-- What a scan has to find for that: if it cannot read the log, nothing in the queue that has
    expired. If it reads it, among the events that there is room for none that has expired behind
    one that has not, and, if one has not, the newest of these at the end. -/
structure InOrder {Trading : Type} (parsers : Parsers Trading LogEvent)
    (m : LogMonitor Trading LogEvent) (scan : Scan) : Prop where
  unread : scan.reads = false → ∀ event ∈ m.counted scan.key, scan.expired event = false
  front : scan.reads → ∀ before event after,
    m.counted scan.key ++ m.arriving parsers scan = before ++ event :: after →
    after.length < maxEventsPerComponent → scan.expired event → ∀ b ∈ before, scan.expired b
  last : scan.reads → NewestLast LogEvent.atMs (m.counted scan.key ++ m.arriving parsers scan)
    ((recent maxEventsPerComponent (m.counted scan.key ++ m.arriving parsers scan)).filter
      fun event => !scan.expired event)

/-! ## One scan -/

namespace LogMonitor

variable {Trading : Type} {parsers : Parsers Trading LogEvent} {m : LogMonitor Trading LogEvent}
  {scan : Scan} {key : String × ComponentRole}

/-- A flag that is down was not raised. -/
theorem raise_eq_false {κ : Type} [DecidableEq κ] {flags : κ → Bool} {key : κ} {p : Prop}
    [Decidable p] (h : (if p then Function.update flags key true else flags) key = false) :
    ¬p ∧ flags key = false := by
  split at h
  · rw [Function.update_self] at h
    cases h
  · exact ⟨‹_›, h⟩

/-- A scan that does not read the log leaves the queue alone. -/
theorem scan_unread (h : scan.reads = false) :
    (m.scan parsers scan).1.events = m.events ∧ m.arriving parsers scan = [] ∧
      ((m.scan parsers scan).1.truncated scan.key = false → m.truncated scan.key = false) := by
  unfold arriving LogMonitor.scan
  cases hmeta : scan.view.metadata with
  | none => exact ⟨rfl, rfl, id⟩
  | some found =>
    cases hcontent : scan.view.content with
    | none => exact ⟨rfl, rfl, fun hflag => (raise_eq_false hflag).2⟩
    | some content =>
      rw [Scan.reads, hmeta, hcontent] at h
      cases h

/-- A scan that reads it queues the new events and keeps what there is room for. -/
theorem scan_read (hat : parsers.atMs = LogEvent.atMs) (h : scan.reads) :
    (m.scan parsers scan).1.events scan.key = some (kept scan.expired maxEventsPerComponent
        (m.counted scan.key ++ m.arriving parsers scan)) ∧
      ((m.scan parsers scan).1.truncated scan.key = false → m.truncated scan.key = false ∧
        ((m.counted scan.key ++ m.arriving parsers scan).dropWhile scan.expired).length
          ≤ maxEventsPerComponent) := by
  unfold arriving LogMonitor.scan
  cases hmeta : scan.view.metadata with
  | none =>
    rw [Scan.reads, hmeta] at h
    cases h
  | some found =>
    cases hcontent : scan.view.content with
    | none =>
      rw [Scan.reads, hmeta, hcontent] at h
      cases h
    | some content =>
      dsimp only
      generalize lines _ = handed
      unfold observe
      rw [hat]
      generalize maxEventsPerComponent = limit
      refine ⟨Function.update_self _ _ _, fun hflag => ?_⟩
      dsimp only at hflag
      split at hflag
      · exact ⟨(raise_eq_false hflag).2, Nat.sub_eq_zero_iff_le.mp ‹_›⟩
      · rw [Scan.key, Function.update_self] at hflag
        cases hflag

theorem counted_unread (h : scan.reads = false) :
    (m.scan parsers scan).1.counted scan.key = m.counted scan.key := by
  rw [counted, (scan_unread h).1, counted]

theorem counted_read (hat : parsers.atMs = LogEvent.atMs) (h : scan.reads) :
    (m.scan parsers scan).1.counted scan.key = kept scan.expired maxEventsPerComponent
      (m.counted scan.key ++ m.arriving parsers scan) := by
  rw [counted, (scan_read hat h).1, Option.getD_some]

/-- A scan leaves a queue that is fresh and has its newest event last just when all was in order. -/
theorem inOrder_iff (hat : parsers.atMs = LogEvent.atMs)
    (hnewest : NewestLast LogEvent.atMs (m.counted scan.key) (m.counted scan.key)) :
    InOrder parsers m scan ↔
      (∀ event ∈ (m.scan parsers scan).1.counted scan.key, scan.expired event = false) ∧
        NewestLast LogEvent.atMs ((m.scan parsers scan).1.counted scan.key)
          ((m.scan parsers scan).1.counted scan.key) := by
  cases hreads : scan.reads with
  | false =>
    rw [counted_unread hreads]
    constructor
    · exact fun h => ⟨h.unread hreads, hnewest⟩
    · rintro ⟨hfresh, -⟩
      have hread : ¬scan.reads = true := Bool.eq_false_iff.mp hreads
      exact ⟨fun _ => hfresh, fun h => absurd h hread, fun h => absurd h hread⟩
  | true =>
    rw [counted_read hat hreads]
    constructor
    · intro h
      have hfresh := kept_fresh_iff.mpr (h.front hreads)
      exact ⟨hfresh, (newestLast_kept_iff _ hfresh).mpr (h.last hreads)⟩
    · rintro ⟨hfresh, hlast⟩
      refine ⟨fun h => ?_, fun _ => kept_fresh_iff.mp hfresh, fun _ => ?_⟩
      · rw [hreads] at h
        cases h
      · exact (newestLast_kept_iff _ hfresh).mp hlast

/-! ## All that has been delivered -/

/-- The queue at `nowMs`: the last of the events that were delivered, and, as long as the flag is
    down, all but some that have expired. -/
structure Accounted (m : LogMonitor Trading LogEvent) (key : String × ComponentRole)
    (windowMs nowMs : ℤ) (delivered : List LogEvent) : Prop where
  unseen : m.events key = none → delivered = []
  suffix : m.counted key <:+ delivered
  gone : m.truncated key = false → ∃ gone, delivered = gone ++ m.counted key ∧
    ∀ event ∈ gone, nowMs - event.atMs > windowMs

variable {windowMs nowMs : ℤ} {delivered : List LogEvent}

theorem Accounted.later (h : Accounted m key windowMs nowMs delivered) {laterMs : ℤ}
    (hle : nowMs ≤ laterMs) : Accounted m key windowMs laterMs delivered := by
  refine ⟨h.unseen, h.suffix, fun hflag => ?_⟩
  obtain ⟨gone, hsplit, hgone⟩ := h.gone hflag
  refine ⟨gone, hsplit, fun event hevent => ?_⟩
  have := hgone event hevent
  omega

theorem Accounted.scanned (hat : parsers.atMs = LogEvent.atMs)
    (h : Accounted m scan.key scan.windowMs scan.nowMs delivered) :
    Accounted (m.scan parsers scan).1 scan.key scan.windowMs scan.nowMs
      (delivered ++ m.arriving parsers scan) := by
  cases hreads : scan.reads with
  | false =>
    obtain ⟨hevents, harriving, hflag⟩ := @scan_unread _ parsers m scan hreads
    rw [harriving, List.append_nil]
    refine ⟨?_, ?_, ?_⟩
    · rw [hevents]
      exact h.unseen
    · rw [counted_unread hreads]
      exact h.suffix
    · rw [counted_unread hreads]
      exact fun hdown => h.gone (hflag hdown)
  | true =>
    obtain ⟨hevents, hflag⟩ := @scan_read _ parsers m scan hat hreads
    refine ⟨fun hnone => ?_, ?_, fun hdown => ?_⟩
    · rw [hevents] at hnone
      cases hnone
    · rw [counted_read hat hreads]
      obtain ⟨old, hold⟩ := h.suffix
      rw [← hold, List.append_assoc]
      exact kept_suffix.trans (List.suffix_append _ _)
    · obtain ⟨hdown, hroom⟩ := hflag hdown
      obtain ⟨gone, hsplit, hgone⟩ := h.gone hdown
      have harrivals := kept_of_length_le hroom
      refine ⟨gone ++ (m.counted scan.key ++ m.arriving parsers scan).takeWhile scan.expired, ?_, ?_⟩
      · rw [counted_read hat hreads, List.append_assoc, ← harrivals, hsplit, List.append_assoc]
      · intro event hevent
        rcases List.mem_append.mp hevent with hevent | hevent
        · exact hgone event hevent
        · have hexpired : scan.expired event := List.mem_takeWhile_imp hevent
          exact of_decide_eq_true hexpired

theorem delivered_append (m : LogMonitor Trading LogEvent) (scans : List Scan) (scan : Scan) :
    m.delivered parsers (scans ++ [scan])
      = m.delivered parsers scans ++ (m.after parsers scans).arriving parsers scan := by
  induction scans generalizing m with
  | nil => exact List.append_nil _
  | cons first scans ih =>
    rw [List.cons_append, LogMonitor.delivered, ih, LogMonitor.delivered, List.append_assoc]
    rfl

theorem after_append (m : LogMonitor Trading LogEvent) (scans : List Scan) (scan : Scan) :
    m.after parsers (scans ++ [scan]) = ((m.after parsers scans).scan parsers scan).1 := by
  rw [after, List.foldl_append]
  rfl

/-- **No fresh event is lost** over a whole run, while the flag is down. -/
theorem accounted_after (hat : parsers.atMs = LogEvent.atMs) (hnew : m.events key = none)
    {scans : List Scan} (h : OfComponent key windowMs scans)
    (hnow : ∀ scan ∈ scans, scan.nowMs ≤ nowMs) :
    Accounted (m.after parsers scans) key windowMs nowMs (m.delivered parsers scans) := by
  induction scans using List.reverseRecOn generalizing nowMs with
  | nil =>
    refine ⟨fun _ => rfl, ?_, fun _ => ⟨[], ?_, fun _ hmem => absurd hmem List.not_mem_nil⟩⟩
    · rw [after, List.foldl_nil, counted, hnew]
      exact List.suffix_rfl
    · rw [after, List.foldl_nil, counted, hnew]
      rfl
  | append_singleton scans scan ih =>
    obtain ⟨rfl, rfl⟩ := h.same scan (List.mem_append_right _ (List.mem_singleton.mpr rfl))
    obtain ⟨hearlier, -, hbefore⟩ := List.pairwise_append.mp h.inTime
    rw [after_append, delivered_append]
    refine Accounted.later (Accounted.scanned hat (ih ?_ ?_)) (hnow scan ?_)
    · exact ⟨fun s hs => h.same s (List.mem_append_left _ hs), hearlier⟩
    · exact fun s hs => hbefore s hs scan (List.mem_singleton.mpr rfl)
    · exact List.mem_append_right _ (List.mem_singleton.mpr rfl)

theorem summary_lastAlertAtMs (m : LogMonitor Trading LogEvent) (slug : String)
    (role : ComponentRole) : (m.summary slug role).lastAlertAtMs
      = (m.counted (slug, role)).getLast?.map LogEvent.atMs := by
  unfold summary counted
  cases m.events (slug, role) with
  | none => rfl
  | some events => rfl

/-- Then the summary is right just when the queue is fresh and has its newest event last. -/
theorem Accounted.respectsWindow_iff
    (h : Accounted m scan.key scan.windowMs scan.nowMs delivered) :
    RespectsWindow m scan delivered ↔
      (∀ event ∈ m.counted scan.key, scan.expired event = false) ∧
        NewestLast LogEvent.atMs (m.counted scan.key) (m.counted scan.key) := by
  have hexpired : ∀ event, scan.expired event = false ↔
      scan.nowMs - event.atMs ≤ scan.windowMs := by
    intro event
    rw [Scan.expired, decide_eq_false_iff_not, gt_iff_lt, not_lt]
  rw [← getLast?_eq_max?_iff, Scan.key, ← summary_lastAlertAtMs]
  simp only [hexpired]
  constructor
  · exact fun h => ⟨h.onlyFresh, h.newest⟩
  · rintro ⟨hfresh, hnewest⟩
    refine ⟨?_, ?_, h.suffix.sublist, hfresh, fun hflag => ?_, hnewest⟩
    · unfold summary counted Scan.key
      cases m.events (scan.slug, scan.role) with
      | none => rfl
      | some events => rfl
    · unfold summary counted Scan.key
      cases m.events (scan.slug, scan.role) with
      | none => rfl
      | some events => rfl
    · cases hevents : m.events scan.key with
      | none =>
        rw [h.unseen hevents]
        exact List.nil_sublist _
      | some events =>
        -- What is not queued any more has expired.
        have hdown : m.truncated scan.key = false := by
          rw [summary, ← Scan.key, hevents] at hflag
          exact hflag
        obtain ⟨gone, hsplit, hgone⟩ := h.gone hdown
        rw [hsplit, List.filter_append, List.filter_eq_nil_iff.mpr, List.nil_append]
        · exact List.filter_sublist
        · intro event hevent
          have := hgone event hevent
          simp only [decide_eq_true_eq]
          omega

/-- **One more scan** of a run: the summary after it is right just when it finds all in order. -/
theorem respectsWindow_scan_iff (hat : parsers.atMs = LogEvent.atMs)
    (h : Accounted m scan.key scan.windowMs scan.nowMs delivered)
    (hnewest : NewestLast LogEvent.atMs (m.counted scan.key) (m.counted scan.key)) :
    RespectsWindow (m.scan parsers scan).1 scan (delivered ++ m.arriving parsers scan) ↔
      InOrder parsers m scan := by
  rw [(h.scanned hat).respectsWindow_iff, inOrder_iff hat hnewest]

end LogMonitor

theorem RespectsWindow.newestLast {Trading : Type} {m : LogMonitor Trading LogEvent} {scan : Scan}
    {delivered : List LogEvent} (h : RespectsWindow m scan delivered) :
    NewestLast LogEvent.atMs (m.counted scan.key) (m.counted scan.key) :=
  (getLast?_eq_max?_iff _ _).mp
    ((LogMonitor.summary_lastAlertAtMs m scan.slug scan.role).symm.trans h.newest)

/-- **The alert counts respect the window** after every scan of a run just when every scan finds all
    in order. A scan that finds something out of order shows it at once: the summary right after it
    is wrong. -/
theorem alerts_respect_window_iff {Trading : Type} {parsers : Parsers Trading LogEvent}
    (hat : parsers.atMs = LogEvent.atMs) {m : LogMonitor Trading LogEvent}
    {key : String × ComponentRole} (hnew : m.events key = none) {windowMs : ℤ} {scans : List Scan}
    (h : OfComponent key windowMs scans) :
    (∀ before scan later, scans = before ++ scan :: later →
      RespectsWindow (m.after parsers (before ++ [scan])) scan
        (m.delivered parsers (before ++ [scan]))) ↔
      ∀ before scan later, scans = before ++ scan :: later →
        InOrder parsers (m.after parsers before) scan := by
  -- One scan, where the scans before it have left the newest event last.
  have hstep : ∀ before scan later, scans = before ++ scan :: later →
      NewestLast LogEvent.atMs ((m.after parsers before).counted key)
        ((m.after parsers before).counted key) →
      (RespectsWindow (m.after parsers (before ++ [scan])) scan
        (m.delivered parsers (before ++ [scan])) ↔
        InOrder parsers (m.after parsers before) scan) := by
    intro before scan later hscans hnewest
    subst hscans
    obtain ⟨rfl, rfl⟩ := h.same scan (List.mem_append_right _ List.mem_cons_self)
    obtain ⟨hearlier, -, hbefore⟩ := List.pairwise_append.mp h.inTime
    rw [LogMonitor.after_append, LogMonitor.delivered_append]
    refine LogMonitor.respectsWindow_scan_iff hat (LogMonitor.accounted_after hat hnew ?_ ?_) hnewest
    · exact ⟨fun s hs => h.same s (List.mem_append_left _ hs), hearlier⟩
    · exact fun s hs => hbefore s hs scan List.mem_cons_self
  have hfirst : NewestLast LogEvent.atMs ((m.after parsers []).counted key)
      ((m.after parsers []).counted key) := by
    rw [LogMonitor.after, List.foldl_nil, LogMonitor.counted, hnew]
    exact fun before last hnil => absurd hnil.symm (List.append_ne_nil_of_right_ne_nil _ (by simp))
  constructor
  · intro hrespects before scan later hscans
    refine (hstep before scan later hscans ?_).mp (hrespects before scan later hscans)
    cases before using List.reverseRecOn with
    | nil => exact hfirst
    | append_singleton before last _ =>
      have hlast := hrespects before last (scan :: later) (by rw [hscans]; simp)
      obtain ⟨rfl, -⟩ := h.same last (by rw [hscans]; simp)
      exact hlast.newestLast
  · intro hinOrder before
    -- The induction is on the scans before; each of them has left the newest event last.
    induction before using List.reverseRecOn with
    | nil =>
      intro scan later hscans
      exact (hstep [] scan later hscans hfirst).mpr (hinOrder [] scan later hscans)
    | append_singleton before last ih =>
      intro scan later hscans
      have hlast := ih last (scan :: later) (by rw [hscans]; simp)
      obtain ⟨rfl, -⟩ := h.same last (by rw [hscans]; simp)
      exact (hstep _ scan later hscans hlast.newestLast).mpr (hinOrder _ scan later hscans)

/-! ## A log that goes away -/

/-- One time is read, as `chrono` reads it. -/
def augustReaders : Readers where
  rfc3339Millis text :=
    if text = "2026-08-03T02:15:35Z".toList then some 1785723335000 else none
  float := fun _ => none

def warningLine : List Char := "[2026-08-03T02:15:35Z WARN  trade_engine] request failed".toList

def requestFailed : LogEvent where
  severity := .warning
  atMs := 1785723335000
  message := "trade_engine] request failed".toList
  fingerprint := "trade_engine] request failed".toList

/-- A log of one line, read five seconds after it was written. -/
def warningScan : Scan where
  slug := "binance-intra-arb01"
  role := .tradeEngine
  path := "/home/ubuntu/trade_engine.log"
  view :=
    { metadata := some (7, 57), content := some (encode (warningLine ++ ['\n'])) }
  nowMs := 1785723340000
  windowMs := 900000

/-- The log is gone twenty minutes later. -/
def goneScan : Scan :=
  { warningScan with view := { metadata := none, content := none }, nowMs := 1785724540000 }

theorem parse_warningLine : (parseLogEvent augustReaders warningLine warningScan.nowMs
    warningScan.windowMs).run.Gives (.ok (some requestFailed)) :=
  ⟨2, by decide +kernel⟩

theorem arriving_warningScan :
    LogMonitor.arriving (logParsers augustReaders []) { trading := {} } warningScan
      = [requestFailed] := by
  have hlines : (LogMonitor.scan (logParsers augustReaders []) { trading := {} } warningScan).2
      = [warningLine] := by decide +kernel
  have hevent : (logParsers augustReaders []).parseLogEvent warningLine warningScan.nowMs
      warningScan.windowMs = some requestFailed := Parse.value_eq parse_warningLine _
  have hpassed : (logParsers augustReaders []).isWhitelistedMaxPositionRejection warningLine
      = false := by decide +kernel
  rw [LogMonitor.arriving, hlines, List.filter_singleton, hpassed]
  exact List.filterMap_cons_some hevent

theorem counted_warningScan : (LogMonitor.scan (logParsers augustReaders []) { trading := {} }
    warningScan).1.counted warningScan.key = [requestFailed] := by
  rw [LogMonitor.counted_read rfl rfl, arriving_warningScan]
  decide

/-- The warning is counted for as long as the log cannot be read. -/
theorem gone_log_still_counted :
    OfComponent warningScan.key 900000 [warningScan, goneScan] ∧
      (LogMonitor.after (logParsers augustReaders []) { trading := {} }
        [warningScan, goneScan]).counted goneScan.key = [requestFailed] ∧
      goneScan.nowMs - requestFailed.atMs > goneScan.windowMs ∧
      ¬RespectsWindow (LogMonitor.after (logParsers augustReaders []) { trading := {} }
        [warningScan, goneScan]) goneScan
        (LogMonitor.delivered (logParsers augustReaders []) { trading := {} }
          [warningScan, goneScan]) := by
  have hcounted : (LogMonitor.after (logParsers augustReaders []) { trading := {} }
      [warningScan, goneScan]).counted goneScan.key = [requestFailed] :=
    (LogMonitor.counted_unread rfl).trans counted_warningScan
  refine ⟨⟨by decide, by decide⟩, hcounted, by decide, fun h => ?_⟩
  have hfresh := h.onlyFresh requestFailed (by rw [hcounted]; exact List.mem_singleton.mpr rfl)
  exact absurd hfresh (by decide)

/-- A warning that is read in time. -/
theorem warning_counted :
    RespectsWindow (LogMonitor.after (logParsers augustReaders []) { trading := {} } [warningScan])
      warningScan
      (LogMonitor.delivered (logParsers augustReaders []) { trading := {} } [warningScan]) := by
  have hscans : OfComponent warningScan.key 900000 [warningScan] := ⟨by decide, by decide⟩
  refine (@alerts_respect_window_iff _ (logParsers augustReaders []) rfl { trading := {} } _ rfl _ _
    hscans).mpr ?_ [] warningScan [] rfl
  intro before scan later hsplit
  obtain ⟨rfl, hsplit⟩ | ⟨_, -, hnil⟩ := List.cons_eq_append_iff.mp hsplit
  · obtain ⟨rfl, rfl⟩ := List.cons.inj hsplit
    refine ⟨fun hreads => ?_, fun _ => ?_, fun _ => ?_⟩
    · cases hreads
    · intro before event after harrivals _ hexpired
      rw [LogMonitor.after, List.foldl_nil, arriving_warningScan] at harrivals
      obtain ⟨rfl, -⟩ | ⟨_, -, hnil⟩ := List.cons_eq_append_iff.mp harrivals
      · exact fun b hb => absurd hb List.not_mem_nil
      · exact absurd hnil (by simp)
    · rw [LogMonitor.after, List.foldl_nil, arriving_warningScan]
      intro before last harrivals event hevent
      have hfailed : event ∈ [requestFailed] :=
        List.mem_of_mem_drop (List.mem_filter.mp hevent).1
      obtain ⟨-, hlast⟩ := List.append_inj' harrivals rfl
      rw [List.mem_singleton.mp hfailed, List.singleton_inj.mp hlast]
  · exact absurd hnil (by simp)

end CryptoNav.Monitor
