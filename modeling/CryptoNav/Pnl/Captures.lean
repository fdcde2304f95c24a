import CryptoNav.Lib.StepCurve
import CryptoNav.Pnl.Agreement

/-!
# What a replay captures

One pass of `replay` serves three cursors: the events in order of time, the wanted boundaries, and
the start of the points. The statement about all of them is in terms of `gainAfter`, which knows
nothing of the pass: what a selection of the events does to the seeded states. A boundary has the
gain of the events before it, a point that of the events up to it, and the start that of the events
before the start, as far as they were replayed at all (`replay_captures`).

`gainAfter` is what the pass is compared with, so it is defined without cursors, by a filter of
the events and a fold. Boundaries may be given in any order and twice; times after the end of
the replay are not captured and have no gain. Which boundaries a page asks for is left to the
pages.
-/

set_option autoImplicit false

namespace CryptoNav.Pnl

open CryptoNav.Lib

/-- What `events` add to a metric of the seeded states, summed over the symbols. -/
def gainAfter (metric : Metrics → ℚ) (source : PnlSourceKind) (inputs : PnlInputs)
    (events : List PnlEvent) : Except PnlError ℚ := do
  let seeded ← inputs.initialPositions.foldlM seedInitial
    (initialStates source inputs.availableSymbols)
  let states ← events.foldlM applyEvent seeded
  return sumOver metric states inputs.availableSymbols
    - sumOver metric seeded inputs.availableSymbols

variable {source : PnlSourceKind} {inputs : PnlInputs}

/-! ## The totals -/

/-- The replay of `past` from the seeded states is at `r`. -/
def Replayed (source : PnlSourceKind) (inputs : PnlInputs) (past : List PnlEvent) (r : Replay) :
    Prop :=
  ∃ seeded states, inputs.initialPositions.foldlM seedInitial
      (initialStates source inputs.availableSymbols) = .ok seeded ∧
    past.foldlM applyEvent seeded = .ok states ∧
    Tracks source inputs.availableSymbols seeded r states

theorem Replayed.total {past : List PnlEvent} {r : Replay} (h : Replayed source inputs past r) :
    gainAfter Metrics.totalPnlUsdt source inputs past = .ok r.total := by
  obtain ⟨seeded, states, hseeded, hstates, htracks⟩ := h
  rw [htracks.total]
  exact bind_eq_ok.mpr ⟨seeded, hseeded, bind_eq_ok.mpr ⟨states, hstates, rfl⟩⟩

theorem Replayed.realized {past : List PnlEvent} {r : Replay} (h : Replayed source inputs past r) :
    gainAfter realizedNetPnl source inputs past = .ok r.realizedNet := by
  obtain ⟨seeded, states, hseeded, hstates, htracks⟩ := h
  rw [htracks.realized]
  exact bind_eq_ok.mpr ⟨seeded, hseeded, bind_eq_ok.mpr ⟨states, hstates, rfl⟩⟩

theorem Replayed.step {past : List PnlEvent} {r r' : Replay} {event : PnlEvent} {start : ℤ}
    (h : Replayed source inputs past r) (hmem : event.symbol ∈ inputs.availableSymbols)
    (hr : r.apply source start event = .ok r') : Replayed source inputs (past ++ [event]) r' := by
  obtain ⟨seeded, states, hseeded, hstates, htracks⟩ := h
  obtain ⟨states', hstates', htracks'⟩ := htracks.apply (sortedSet_nodup _) hmem hr
  exact ⟨seeded, states', hseeded,
    run_append.mpr ⟨states, hstates, run_cons.mpr ⟨states', hstates', rfl⟩⟩, htracks'⟩

theorem Replayed.start {states : States}
    (h : inputs.initialPositions.foldlM (seedEntry source) (fun _ => none) = .ok states)
    (wanted : List ℤ) : Replayed source inputs [] { states, wanted } := by
  have hpositions : ∀ p ∈ inputs.initialPositions, p.symbol ∈ inputs.availableSymbols := by
    intro p hp
    simp only [PnlInputs.availableSymbols, mem_sortedSet, List.mem_append, List.mem_map]
    exact .inl (.inl (.inl ⟨p, hp, rfl⟩))
  obtain ⟨seeded, hseeded, hinStep⟩ := seeds_inStep hpositions h
  exact ⟨seeded, seeded, hseeded, rfl, hinStep, (sub_self _).symm, (sub_self _).symm⟩

/-! ## The boundaries -/

/-- An event at or after a time does not count before it. -/
theorem filter_before_append {past : List PnlEvent} {event : PnlEvent} {t : ℤ} (h : t ≤ event.ts) :
    (past ++ [event]).filter (·.ts < t) = past.filter (·.ts < t) := by
  rw [List.filter_append, List.filter_cons_of_neg (by simpa using h), List.filter_nil,
    List.append_nil]

theorem filter_before_eq_self {past : List PnlEvent} {t : ℤ} (h : ∀ e ∈ past, e.ts < t) :
    past.filter (·.ts < t) = past :=
  List.filter_eq_self.mpr fun e he => decide_eq_true (h e he)

/-- Values captured at the wanted times, of which `pending` are left. The values are those of the
    events before the boundary, as a boundary is captured when the first event at or after it comes.
    -/
structure BoundaryValues (gain : List PnlEvent → Except PnlError ℚ) (wanted pending : List ℤ)
    (past : List PnlEvent) (captured : List (ℤ × ℚ)) : Prop where
  keys : captured.map (·.1) ++ pending = wanted
  later : ∀ b ∈ pending, ∀ e ∈ past, e.ts < b
  reached : ∀ c ∈ captured, ∃ e ∈ past, c.1 ≤ e.ts
  value : ∀ c ∈ captured, gain (past.filter (·.ts < c.1)) = .ok c.2

variable {gain : List PnlEvent → Except PnlError ℚ}

theorem BoundaryValues.step {wanted pending : List ℤ} {past : List PnlEvent} {captured : List (ℤ × ℚ)}
    {value : ℚ} {event : PnlEvent} (h : BoundaryValues gain wanted pending past captured)
    (hsorted : pending.Pairwise (· < ·)) (hpast : ∀ e ∈ past, e.ts ≤ event.ts)
    (hvalue : gain past = .ok value) :
    BoundaryValues gain wanted (pending.dropWhile (· ≤ event.ts)) (past ++ [event])
      (captured ++ (pending.takeWhile (· ≤ event.ts)).map (·, value)) where
  keys := by
    rw [List.map_append, List.map_map, List.append_assoc]
    refine (congrArg _ ?_).trans h.keys
    exact (congrArg (· ++ _) (List.map_id _)).trans List.takeWhile_append_dropWhile
  later := by
    intro b hb e he
    have hevent : event.ts < b := by
      have hnot := not_of_mem_dropWhile (hsorted.imp fun {a c} hac => ?_) hb
      · simpa using hnot
      · exact fun hc => decide_eq_true (hac.le.trans (of_decide_eq_true hc))
    rcases List.mem_append.mp he with he | he
    · exact (hpast e he).trans_lt hevent
    · rw [List.mem_singleton.mp he]
      exact hevent
  reached := by
    intro c hc
    rcases List.mem_append.mp hc with hc | hc
    · obtain ⟨e, he, hle⟩ := h.reached c hc
      exact ⟨e, List.mem_append_left _ he, hle⟩
    · obtain ⟨b, hb, rfl⟩ := List.mem_map.mp hc
      have hle : b ≤ event.ts := by simpa using List.mem_takeWhile_imp hb
      exact ⟨event, List.mem_append_right _ List.mem_cons_self, hle⟩
  value := by
    intro c hc
    rcases List.mem_append.mp hc with hc | hc
    · obtain ⟨e, he, hle⟩ := h.reached c hc
      rw [filter_before_append (hle.trans (hpast e he))]
      exact h.value c hc
    · -- All that is past came before the boundaries that were pending.
      obtain ⟨b, hb, rfl⟩ := List.mem_map.mp hc
      have hle : b ≤ event.ts := by simpa using List.mem_takeWhile_imp hb
      rw [filter_before_append hle, filter_before_eq_self (h.later b ((List.takeWhile_prefix _).subset hb))]
      exact hvalue

/-- What is still pending after the last event takes the final value. -/
theorem BoundaryValues.finish {wanted pending : List ℤ} {past : List PnlEvent} {captured : List (ℤ × ℚ)}
    {value : ℚ} (h : BoundaryValues gain wanted pending past captured) (hvalue : gain past = .ok value) :
    (captured ++ pending.map (·, value)).map (·.1) = wanted ∧
      ∀ c ∈ captured ++ pending.map (·, value), gain (past.filter (·.ts < c.1)) = .ok c.2 := by
  constructor
  · rw [List.map_append, List.map_map]
    exact (congrArg (_ ++ ·) (List.map_id _)).trans h.keys
  · intro c hc
    rcases List.mem_append.mp hc with hc | hc
    · exact h.value c hc
    · obtain ⟨b, hb, rfl⟩ := List.mem_map.mp hc
      rw [filter_before_eq_self (h.later b hb)]
      exact hvalue

/-! ## The points -/

/-- A value for each time of an event from `start` on, that of all events up to it. Events of one
    time make one point, the last of them counting. -/
structure Drawn (gain : List PnlEvent → Except PnlError ℚ) (start : ℤ) (past : List PnlEvent)
    (points : List (ℤ × ℚ)) : Prop where
  increasing : (points.map (·.1)).Pairwise (· < ·)
  keys : ∀ t, t ∈ points.map (·.1) ↔ start ≤ t ∧ ∃ e ∈ past, e.ts = t
  value : ∀ c ∈ points, gain (past.filter (·.ts ≤ c.1)) = .ok c.2

theorem filter_upTo_append {past : List PnlEvent} {event : PnlEvent} {t : ℤ} (h : t < event.ts) :
    (past ++ [event]).filter (·.ts ≤ t) = past.filter (·.ts ≤ t) := by
  rw [List.filter_append, List.filter_cons_of_neg (by simpa using h), List.filter_nil,
    List.append_nil]

theorem filter_upTo_eq_self {past : List PnlEvent} {t : ℤ} (h : ∀ e ∈ past, e.ts ≤ t) :
    past.filter (·.ts ≤ t) = past :=
  List.filter_eq_self.mpr fun e he => decide_eq_true (h e he)

/-- `result.points` after an event: the value of its time is new, or replaces the one that is
    there. -/
def draw (points : List (ℤ × ℚ)) (ts : ℤ) (value : ℚ) : List (ℤ × ℚ) :=
  if (points.getLast?.map (·.1)) = some ts then points.dropLast ++ [(ts, value)]
  else points ++ [(ts, value)]

/-- Either way the points before the time stay, and the new value is the last. -/
theorem draw_eq {points : List (ℤ × ℚ)} {ts : ℤ} (value : ℚ)
    (hincreasing : (points.map (·.1)).Pairwise (· < ·)) (hle : ∀ c ∈ points, c.1 ≤ ts) :
    draw points ts value = points.filter (·.1 < ts) ++ [(ts, value)] := by
  unfold draw
  cases points using List.reverseRecOn with
  | nil => rfl
  | append_singleton points last =>
    rw [List.map_append, List.pairwise_append] at hincreasing
    have hbefore : ∀ c ∈ points, c.1 < last.1 := fun c hc =>
      hincreasing.2.2 c.1 (List.mem_map_of_mem hc) last.1 (List.mem_singleton.mpr rfl)
    have hlast := hle last (List.mem_append_right _ (List.mem_singleton.mpr rfl))
    have hall : points.filter (·.1 < ts) = points :=
      List.filter_eq_self.mpr fun c hc => decide_eq_true ((hbefore c hc).trans_le hlast)
    have hkey : ((points ++ [last]).getLast?.map (·.1)) = some last.1 := by
      rw [List.getLast?_concat]
      rfl
    rw [hkey, List.dropLast_concat, List.filter_append, hall]
    by_cases heq : last.1 = ts
    · rw [if_pos (congrArg some heq), List.filter_cons_of_neg (by simpa using heq.ge), List.filter_nil,
        List.append_nil]
    · rw [if_neg fun h => heq (Option.some.inj h), List.filter_cons_of_pos (by simpa using lt_of_le_of_ne hlast heq),
        List.filter_nil]

/-- All points are at times of events, none after the last. -/
theorem Drawn.key_le {start ts : ℤ} {past : List PnlEvent} {points : List (ℤ × ℚ)}
    (h : Drawn gain start past points) (hpast : ∀ e ∈ past, e.ts ≤ ts) : ∀ c ∈ points, c.1 ≤ ts := by
  intro c hc
  obtain ⟨-, e, he, heq⟩ := (h.keys c.1).mp (List.mem_map_of_mem hc)
  exact heq ▸ hpast e he

theorem Drawn.draw {start : ℤ} {past : List PnlEvent} {points : List (ℤ × ℚ)} {event : PnlEvent}
    {value : ℚ} (h : Drawn gain start past points) (hpast : ∀ e ∈ past, e.ts ≤ event.ts)
    (hstart : start ≤ event.ts) (hvalue : gain (past ++ [event]) = .ok value) :
    Drawn gain start (past ++ [event]) (draw points event.ts value) := by
  rw [draw_eq value h.increasing (h.key_le hpast)]
  constructor
  · rw [List.map_append]
    refine List.pairwise_append.mpr ⟨?_, List.pairwise_singleton _ _, ?_⟩
    · exact h.increasing.sublist (List.filter_sublist.map _)
    · intro t ht u hu
      obtain ⟨c, hc, rfl⟩ := List.mem_map.mp ht
      rw [List.mem_singleton.mp hu]
      exact of_decide_eq_true (List.mem_filter.mp hc).2
  · intro t
    rw [List.map_append, List.mem_append]
    constructor
    · rintro (ht | ht)
      · obtain ⟨c, hc, rfl⟩ := List.mem_map.mp ht
        obtain ⟨hlow, e, he, heq⟩ :=
          (h.keys c.1).mp (List.mem_map_of_mem (List.mem_filter.mp hc).1)
        exact ⟨hlow, e, List.mem_append_left _ he, heq⟩
      · rw [List.mem_singleton.mp ht]
        exact ⟨hstart, event, List.mem_append_right _ List.mem_cons_self, rfl⟩
    · rintro ⟨hlow, e, he, rfl⟩
      rcases List.mem_append.mp he with he | he
      · rcases (hpast e he).lt_or_eq with hlt | heq
        · obtain ⟨c, hc, hkey⟩ := List.mem_map.mp ((h.keys e.ts).mpr ⟨hlow, e, he, rfl⟩)
          refine .inl (List.mem_map.mpr ⟨c, List.mem_filter.mpr ⟨hc, ?_⟩, hkey⟩)
          exact decide_eq_true (hkey.trans_lt hlt)
        · exact .inr (List.mem_singleton.mpr heq)
      · rw [List.mem_singleton.mp he]
        exact .inr (List.mem_singleton.mpr rfl)
  · intro c hc
    rcases List.mem_append.mp hc with hc | hc
    · obtain ⟨hc, hlt⟩ := List.mem_filter.mp hc
      rw [filter_upTo_append (of_decide_eq_true hlt)]
      exact h.value c hc
    · rw [List.mem_singleton.mp hc, filter_upTo_eq_self]
      · exact hvalue
      · intro e he
        rcases List.mem_append.mp he with he | he
        · exact hpast e he
        · rw [List.mem_singleton.mp he]

/-- Before the start there are no points. -/
theorem Drawn.skip {start : ℤ} {past : List PnlEvent} {points : List (ℤ × ℚ)} {event : PnlEvent}
    (h : Drawn gain start past points) (hpast : ∀ e ∈ past, e.ts ≤ event.ts)
    (hstart : event.ts < start) : Drawn gain start (past ++ [event]) points := by
  have hnone : points = [] := by
    refine List.eq_nil_iff_forall_not_mem.mpr fun c hc => ?_
    have hlow := ((h.keys c.1).mp (List.mem_map_of_mem hc)).1
    exact absurd (h.key_le hpast c hc) (not_le.mpr (hstart.trans_le hlow))
  subst hnone
  refine ⟨.nil, fun t => ⟨fun ht => (by cases ht), ?_⟩, fun _ hc => by cases hc⟩
  rintro ⟨hlow, e, he, rfl⟩
  refine absurd hlow (not_le.mpr ?_)
  rcases List.mem_append.mp he with he | he
  · exact (hpast e he).trans_lt hstart
  · rw [List.mem_singleton.mp he]
    exact hstart

/-! ## The start -/

/-- `started` says whether an event reached the start, and then `start_pnl` is taken. Until then
    every event was before the start. -/
structure Opening (gain : List PnlEvent → Except PnlError ℚ) (start : ℤ) (past : List PnlEvent)
    (r : Replay) : Prop where
  reached : r.started = true → ∃ e ∈ past, start ≤ e.ts
  value : r.started = true → gain (past.filter (·.ts < start)) = .ok r.startPnl
  before : r.started = false → ∀ e ∈ past, e.ts < start

theorem markStart_eq (r : Replay) (start ts : ℤ) : r.markStart start ts = { r with
    startPnl := if r.started = false ∧ start ≤ ts then r.total else r.startPnl
    started := r.started || decide (start ≤ ts) } := by
  unfold Replay.markStart
  obtain ⟨states, wanted, boundaries, realized, points, startPnl, total, net, started⟩ := r
  cases started with
  | true => simp
  | false => by_cases hts : start ≤ ts <;> simp [hts]

/-- What an event does to the points and to the start. -/
theorem apply_points {start : ℤ} {r r' : Replay} {event : PnlEvent}
    (h : r.apply source start event = .ok r') :
    r'.points = (if start ≤ event.ts then draw r.points event.ts r'.total else r.points) ∧
      r'.started = (r.started || decide (start ≤ event.ts)) ∧
      r'.startPnl = if r.started = false ∧ start ≤ event.ts then r.total else r.startPnl := by
  unfold Replay.apply at h
  rw [markStart_eq] at h
  obtain ⟨after, -, h⟩ := bind_eq_ok.mp h
  split at h
  · cases h
  · have h := pure_eq_ok.mp h
    by_cases hts : start ≤ event.ts
    · rw [if_pos hts] at h ⊢
      subst h
      exact ⟨rfl, rfl, rfl⟩
    · rw [if_neg hts] at h ⊢
      subst h
      exact ⟨rfl, rfl, rfl⟩

theorem Opening.step {start : ℤ} {past : List PnlEvent} {r r' : Replay} {event : PnlEvent}
    (h : Opening gain start past r) (hpast : ∀ e ∈ past, e.ts ≤ event.ts)
    (htotal : gain past = .ok r.total) (hr : r.apply source start event = .ok r') :
    Opening gain start (past ++ [event]) r' := by
  obtain ⟨-, hstarted', hstart'⟩ := apply_points hr
  have hevent : event ∈ past ++ [event] := List.mem_append_right _ List.mem_cons_self
  cases hstarted : r.started with
  | true =>
    obtain ⟨e, he, hle⟩ := h.reached hstarted
    rw [hstarted, Bool.true_or] at hstarted'
    rw [hstarted, if_neg (by simp)] at hstart'
    refine ⟨fun _ => ⟨e, List.mem_append_left _ he, hle⟩, fun _ => ?_, fun hf => ?_⟩
    · rw [hstart', filter_before_append (hle.trans (hpast e he))]
      exact h.value hstarted
    · rw [hstarted'] at hf
      cases hf
  | false =>
    rw [hstarted, Bool.false_or] at hstarted'
    by_cases hts : start ≤ event.ts
    · rw [hstarted, if_pos ⟨rfl, hts⟩] at hstart'
      rw [decide_eq_true hts] at hstarted'
      refine ⟨fun _ => ⟨event, hevent, hts⟩, fun _ => ?_, fun hf => ?_⟩
      · rw [hstart', filter_before_append hts, filter_before_eq_self (h.before hstarted)]
        exact htotal
      · rw [hstarted'] at hf
        cases hf
    · rw [decide_eq_false hts] at hstarted'
      refine ⟨fun ht => ?_, fun ht => ?_, fun _ e he => ?_⟩
      · rw [hstarted'] at ht
        cases ht
      · rw [hstarted'] at ht
        cases ht
      · rcases List.mem_append.mp he with he | he
        · exact h.before hstarted e he
        · rw [List.mem_singleton.mp he]
          exact not_le.mp hts

/-! ## The pass -/

/-- Where the pass over the events is after `past`. It is the invariant of the pass, with a part for
    each of its three cursors. -/
structure Passed (source : PnlSourceKind) (inputs : PnlInputs) (start : ℤ) (wanted : List ℤ)
    (past : List PnlEvent) (r : Replay) : Prop where
  replayed : Replayed source inputs past r
  totals : BoundaryValues (gainAfter Metrics.totalPnlUsdt source inputs) wanted r.wanted past r.boundaries
  realized : BoundaryValues (gainAfter realizedNetPnl source inputs) wanted r.wanted past
    r.realizedBoundaries
  drawn : Drawn (gainAfter Metrics.totalPnlUsdt source inputs) start past r.points
  opening : Opening (gainAfter Metrics.totalPnlUsdt source inputs) start past r

theorem Passed.step {start : ℤ} {wanted : List ℤ} {past : List PnlEvent} {r r' : Replay}
    {event : PnlEvent} (hwanted : wanted.Pairwise (· < ·))
    (h : Passed source inputs start wanted past r)
    (hmem : event.symbol ∈ inputs.availableSymbols) (hpast : ∀ e ∈ past, e.ts ≤ event.ts)
    (hr : r.apply source start event = .ok r') :
    Passed source inputs start wanted (past ++ [event]) r' := by
  have hreplayed := h.replayed.step hmem hr
  have hpending : r.wanted.Pairwise (· < ·) := by
    refine hwanted.sublist ?_
    rw [← h.totals.keys]
    exact List.sublist_append_right _ _
  obtain ⟨-, -, -, -, -, hpending', hboundaries, hrealized⟩ := apply_eq_ok hr
  obtain ⟨hpoints, -, -⟩ := apply_points hr
  refine ⟨hreplayed, ?_, ?_, ?_, h.opening.step hpast h.replayed.total hr⟩
  · rw [hpending', hboundaries]
    exact h.totals.step hpending hpast h.replayed.total
  · rw [hpending', hrealized]
    exact h.realized.step hpending hpast h.replayed.realized
  · rw [hpoints]
    split
    · rename_i hts
      exact h.drawn.draw hpast hts hreplayed.total
    · rename_i hts
      exact h.drawn.skip hpast (not_le.mp hts)

/-- The events that are replayed. -/
theorem mem_replayed {ending : ℤ} {event : PnlEvent} :
    event ∈ inputs.sortedEvents.filter (·.ts ≤ ending) ↔ event ∈ inputs.events ∧ event.ts ≤ ending := by
  rw [List.mem_filter, PnlInputs.sortedEvents, mem_sortByKey, decide_eq_true_eq]

theorem sortedSet_strict (l : List ℤ) : (sortedSet l).Pairwise (· < ·) :=
  ((List.pairwise_insertionSort (· ≤ ·) l.dedup).and (sortedSet_nodup l)).imp
    fun h => lt_of_le_of_ne h.1 h.2

theorem passed_of_run {start ending : ℤ} {wanted : List ℤ} {states : States} {r : Replay}
    (hwanted : wanted.Pairwise (· < ·))
    (hseeds : inputs.initialPositions.foldlM (seedEntry source) (fun _ => none) = .ok states)
    (hr : (inputs.sortedEvents.filter (·.ts ≤ ending)).foldlM (Replay.apply source start)
      { states, wanted } = .ok r) :
    Passed source inputs start wanted (inputs.sortedEvents.filter (·.ts ≤ ending)) r := by
  have hbegin : Passed source inputs start wanted [] { states, wanted } := by
    refine ⟨.start hseeds wanted, ?_, ?_, ?_, ?_⟩
    · exact ⟨rfl, fun _ _ _ he => (by cases he), fun _ hc => (by cases hc), fun _ hc => by cases hc⟩
    · exact ⟨rfl, fun _ _ _ he => (by cases he), fun _ hc => (by cases hc), fun _ hc => by cases hc⟩
    · exact ⟨.nil, fun _ => ⟨fun ht => (by cases ht), fun ⟨_, _, he, _⟩ => by cases he⟩,
        fun _ hc => by cases hc⟩
    · exact ⟨fun ht => (by cases ht), fun ht => (by cases ht), fun _ _ he => by cases he⟩
  refine run_prefix (fun past event rest hl s t h hstep => ?_) hbegin hr
  have hevent : event ∈ inputs.sortedEvents :=
    (List.mem_filter.mp (hl ▸ List.mem_append_right _ List.mem_cons_self)).1
  have hsorted := (sortedEvents_pairwise inputs).filter (·.ts ≤ ending)
  rw [hl, List.pairwise_append] at hsorted
  exact h.step hwanted (event_symbol_available hevent)
    (fun e he => hsorted.2.2 e he event List.mem_cons_self) hstep

/-! ## The history -/

/-- What a history says of the events of `inputs`, in terms of their gains. It mentions no order of
    the boundaries, since they are sorted before the pass. -/
structure Captures (source : PnlSourceKind) (inputs : PnlInputs) (start ending : ℤ)
    (boundaries : List ℤ) (history : History) : Prop where
  boundaryKeys : history.boundaries.map (·.1) = sortedSet (boundaries.filter (· ≤ ending))
  realizedKeys : history.realizedBoundaries.map (·.1) = sortedSet (boundaries.filter (· ≤ ending))
  boundary : ∀ c ∈ history.boundaries,
    gainAfter Metrics.totalPnlUsdt source inputs (inputs.sortedEvents.filter (·.ts < c.1)) = .ok c.2
  realizedBoundary : ∀ c ∈ history.realizedBoundaries,
    gainAfter realizedNetPnl source inputs (inputs.sortedEvents.filter (·.ts < c.1)) = .ok c.2
  last : history.points.getLast? = some (ending, history.finalPnl)
  increasing : (history.points.dropLast.map (·.1)).Pairwise (· < ·)
  pointKeys : ∀ t, t ∈ history.points.dropLast.map (·.1) ↔
    start ≤ t ∧ t ≤ ending ∧ ∃ e ∈ inputs.events, e.ts = t
  point : ∀ c ∈ history.points,
    gainAfter Metrics.totalPnlUsdt source inputs (inputs.sortedEvents.filter (·.ts ≤ c.1)) = .ok c.2
  startPnl : gainAfter Metrics.totalPnlUsdt source inputs
    (inputs.sortedEvents.filter fun e => e.ts < start ∧ e.ts ≤ ending) = .ok history.startPnl

/-- Up to the end, what was replayed before or up to a time is what there is. -/
theorem replayed_filter {ending t : ℤ} (p : PnlEvent → Bool) (hp : ∀ e, p e → e.ts ≤ t)
    (ht : t ≤ ending) :
    (inputs.sortedEvents.filter (·.ts ≤ ending)).filter p = inputs.sortedEvents.filter p := by
  rw [List.filter_filter]
  refine List.filter_congr fun e _ => ?_
  cases he : p e with
  | false => rfl
  | true => exact decide_eq_true ((hp e he).trans ht)

/-- The loop of an accepted replay. -/
theorem passed_of_replay {start ending : ℤ} {boundaries : List ℤ} {history : History}
    (h : replay source inputs start ending boundaries = .ok history) :
    ∃ r, Passed source inputs start (sortedSet (boundaries.filter (· ≤ ending)))
      (inputs.sortedEvents.filter (·.ts ≤ ending)) r ∧ r.finish ending = history := by
  obtain ⟨states, hseeds, h⟩ := bind_eq_ok.mp h
  obtain ⟨r, hr, h⟩ := bind_eq_ok.mp h
  exact ⟨r, passed_of_run (sortedSet_strict _) hseeds hr, pure_eq_ok.mp h⟩

theorem Passed.captures {start ending : ℤ} {boundaries : List ℤ} {r : Replay}
    (hpassed : Passed source inputs start (sortedSet (boundaries.filter (· ≤ ending)))
      (inputs.sortedEvents.filter (·.ts ≤ ending)) r) :
    Captures source inputs start ending boundaries (r.finish ending) := by
  have htotal := hpassed.replayed.total
  obtain ⟨hkeys, hvalues⟩ := hpassed.totals.finish htotal
  obtain ⟨hrealizedKeys, hrealizedValues⟩ := hpassed.realized.finish hpassed.replayed.realized
  have hle : ∀ {t}, t ∈ sortedSet (boundaries.filter (· ≤ ending)) → t ≤ ending := fun ht =>
    of_decide_eq_true (List.mem_filter.mp (mem_sortedSet.mp ht)).2
  have hbefore : ∀ {t}, t ≤ ending →
      (inputs.sortedEvents.filter (·.ts ≤ ending)).filter (·.ts < t)
        = inputs.sortedEvents.filter (·.ts < t) := fun ht =>
    replayed_filter _ (fun e he => (of_decide_eq_true he).le) ht
  have hdropLast : (r.finish ending).points.dropLast = r.points := List.dropLast_concat
  have hdrawn := hpassed.drawn
  constructor
  · exact hkeys
  · exact hrealizedKeys
  · intro c hc
    rw [← hbefore (hle (hkeys ▸ List.mem_map_of_mem hc))]
    exact hvalues c hc
  · intro c hc
    rw [← hbefore (hle (hrealizedKeys ▸ List.mem_map_of_mem hc))]
    exact hrealizedValues c hc
  · exact List.getLast?_concat
  · rw [hdropLast]
    exact hdrawn.increasing
  · intro t
    rw [hdropLast, hdrawn.keys]
    refine and_congr_right fun _ => ?_
    constructor
    · rintro ⟨e, he, rfl⟩
      obtain ⟨he, hts⟩ := mem_replayed.mp he
      exact ⟨hts, e, he, rfl⟩
    · rintro ⟨hts, e, he, rfl⟩
      exact ⟨e, mem_replayed.mpr ⟨he, hts⟩, rfl⟩
  · intro c hc
    rcases List.mem_append.mp hc with hc | hc
    · obtain ⟨-, e, he, heq⟩ := (hdrawn.keys c.1).mp (List.mem_map_of_mem hc)
      have hts := heq ▸ (mem_replayed.mp he).2
      rw [← replayed_filter (fun e => decide (e.ts ≤ c.1)) (fun e he => of_decide_eq_true he) hts]
      exact hdrawn.value c hc
    · rw [List.mem_singleton.mp hc]
      exact htotal
  · have hopening := hpassed.opening
    have hsplit : (inputs.sortedEvents.filter fun e => decide (e.ts < start ∧ e.ts ≤ ending))
        = (inputs.sortedEvents.filter (·.ts ≤ ending)).filter (·.ts < start) := by
      rw [List.filter_filter]
      exact List.filter_congr fun e _ => Bool.decide_and _ _
    rw [hsplit]
    cases hstarted : r.started with
    | true =>
      rw [show (r.finish ending).startPnl = r.startPnl from if_pos hstarted]
      exact hopening.value hstarted
    | false =>
      rw [show (r.finish ending).startPnl = r.total from
        if_neg (Bool.eq_false_iff.mp hstarted), filter_before_eq_self (hopening.before hstarted)]
      exact htotal

/-- **A replay captures what it should**, whatever the boundaries, their order and their number: each
    requested time up to the end has the gain of exactly the events before it, the points have the
    gain up to each event time between start and end, and the start that of the replayed events
    before it. -/
theorem replay_captures {start ending : ℤ} {boundaries : List ℤ} {history : History}
    (h : replay source inputs start ending boundaries = .ok history) :
    Captures source inputs start ending boundaries history := by
  obtain ⟨r, hpassed, rfl⟩ := passed_of_replay h
  exact hpassed.captures

/-- The realized gain of all events up to the end. -/
theorem finalRealizedNet_of_replay {start ending : ℤ} {boundaries : List ℤ} {history : History}
    (h : replay source inputs start ending boundaries = .ok history) :
    gainAfter realizedNetPnl source inputs (inputs.sortedEvents.filter (·.ts ≤ ending))
      = .ok history.finalRealizedNet := by
  obtain ⟨r, hpassed, rfl⟩ := passed_of_replay h
  exact hpassed.replayed.realized

/-! ## The points as a curve -/

theorem Captures.points_eq {start ending : ℤ} {boundaries : List ℤ} {history : History}
    (h : Captures source inputs start ending boundaries history) :
    history.points = history.points.dropLast ++ [(ending, history.finalPnl)] := by
  obtain ⟨points, hpoints⟩ := List.getLast?_eq_some_iff.mp h.last
  rw [hpoints, List.dropLast_concat]

/-- Every event from the start to the end has a point. -/
theorem Captures.exists_point {start ending : ℤ} {boundaries : List ℤ} {history : History}
    (h : Captures source inputs start ending boundaries history) {e : PnlEvent}
    (he : e ∈ inputs.sortedEvents) (hstart : start ≤ e.ts) (hending : e.ts ≤ ending) :
    ∃ c ∈ history.points, c.1 = e.ts := by
  have hkey := (h.pointKeys e.ts).mpr ⟨hstart, hending, e, mem_sortByKey.mp he, rfl⟩
  obtain ⟨c, hc, hts⟩ := List.mem_map.mp hkey
  exact ⟨c, (List.dropLast_sublist _).subset hc, hts⟩

theorem Captures.isCurve {start ending : ℤ} {boundaries : List ℤ} {history : History}
    (h : Captures source inputs start ending boundaries history) : IsCurve history.points := by
  have hsingle : ∀ a ∈ history.points, ∀ b ∈ history.points, a.1 = b.1 → a.2 = b.2 := by
    intro a ha b hb heq
    have hb := h.point b hb
    rw [← heq, h.point a ha] at hb
    exact Except.ok.inj hb
  refine ⟨?_, List.pairwise_of_forall_mem_list hsingle⟩
  rw [h.points_eq, List.pairwise_append]
  refine ⟨(List.pairwise_map.mp h.increasing).imp le_of_lt, List.pairwise_singleton _ _, ?_⟩
  intro c hc d hd
  rw [List.mem_singleton.mp hd]
  exact ((h.pointKeys c.1).mp (List.mem_map_of_mem hc)).2.1

/-- **The points of a window are the changes of the curve** through it: from any time `low` that the
    points reach back to, the gain at a later time is that of the last point, or of `low`. -/
theorem Captures.stepAt {start ending : ℤ} {boundaries : List ℤ} {history : History}
    (h : Captures source inputs start ending boundaries history) {low high t : ℤ} {opening : ℚ}
    (hlow : start ≤ low) (hhigh : high ≤ ending) (ht : low ≤ t ∧ t ≤ high)
    (hopening : gainAfter Metrics.totalPnlUsdt source inputs
      (inputs.sortedEvents.filter (·.ts < low)) = .ok opening) :
    gainAfter Metrics.totalPnlUsdt source inputs (inputs.sortedEvents.filter (·.ts ≤ t))
      = .ok (stepAt opening (history.points.filter fun c => low ≤ c.1 ∧ c.1 ≤ high) t) := by
  have hcurve := h.isCurve.filter fun c => decide (low ≤ c.1 ∧ c.1 ≤ high)
  have hevent : ∀ e ∈ inputs.sortedEvents, low ≤ e.ts → e.ts ≤ t → ∃ c ∈ history.points.filter
      (fun c => decide (low ≤ c.1 ∧ c.1 ≤ high)), c.1 ≤ t ∧ c.1 = e.ts := by
    intro e he hlower hupper
    obtain ⟨c, hc, hts⟩ := h.exists_point he (hlow.trans hlower)
      ((hupper.trans ht.2).trans hhigh)
    exact ⟨c, List.mem_filter.mpr ⟨hc, decide_eq_true (hts ▸ ⟨hlower, hupper.trans ht.2⟩)⟩,
      hts ▸ hupper, hts⟩
  have hpoint : ∀ c ∈ history.points.filter (fun c => decide (low ≤ c.1 ∧ c.1 ≤ high)),
      low ≤ c.1 ∧ gainAfter Metrics.totalPnlUsdt source inputs
        (inputs.sortedEvents.filter (·.ts ≤ c.1)) = .ok c.2 := by
    intro c hc
    obtain ⟨hc, hwindow⟩ := List.mem_filter.mp hc
    exact ⟨(of_decide_eq_true hwindow).1, h.point c hc⟩
  generalize history.points.filter (fun c => decide (low ≤ c.1 ∧ c.1 ≤ high)) = points
    at hcurve hevent hpoint ⊢
  rw [Lib.stepAt, ← filter_le_eq_takeWhile hcurve.sorted]
  cases hlast : (points.filter (·.1 ≤ t)).getLast? with
  | none =>
    rw [Option.elim_none, ← hopening]
    refine congrArg _ (List.filter_congr fun e he => decide_eq_decide.mpr ⟨fun hupper => ?_, ?_⟩)
    · by_contra hlower
      obtain ⟨c, hc, hct, -⟩ := hevent e he (not_lt.mp hlower) hupper
      have hmem : c ∈ points.filter (·.1 ≤ t) := List.mem_filter.mpr ⟨hc, decide_eq_true hct⟩
      rw [List.getLast?_eq_none_iff.mp hlast] at hmem
      cases hmem
    · exact fun hlower => (hlower.trans_le ht.1).le
  | some c =>
    obtain ⟨front, hfront⟩ := List.getLast?_eq_some_iff.mp hlast
    obtain ⟨hc, hct⟩ := List.mem_filter.mp
      (hfront ▸ List.mem_append_right front (List.mem_singleton.mpr rfl))
    have hgreatest : ∀ d ∈ points, d.1 ≤ t → d.1 ≤ c.1 := by
      intro d hd hdt
      have hsorted := hcurve.sorted.filter fun d => decide (d.1 ≤ t)
      have hmem : d ∈ points.filter (·.1 ≤ t) := List.mem_filter.mpr ⟨hd, decide_eq_true hdt⟩
      rw [hfront] at hsorted hmem
      rcases List.mem_append.mp hmem with hmem | hmem
      · exact (List.pairwise_append.mp hsorted).2.2 d hmem c (List.mem_singleton.mpr rfl)
      · rw [List.mem_singleton.mp hmem]
    obtain ⟨hlow, hgain⟩ := hpoint c hc
    rw [Option.elim_some, ← hgain]
    refine congrArg _ (List.filter_congr fun e he => decide_eq_decide.mpr ⟨fun hupper => ?_, ?_⟩)
    · by_cases hlower : low ≤ e.ts
      · obtain ⟨d, hd, hdt, hts⟩ := hevent e he hlower hupper
        exact hts ▸ hgreatest d hd hdt
      · exact (not_le.mp hlower).le.trans hlow
    · exact fun hle => hle.trans (of_decide_eq_true hct)

/-- Two fills and a funding, with boundaries before, at and after them, one of them twice. -/
theorem replay_captures_sample :
    Yields (replay .intra sampleInputs 20 30 [25, 10, 25, 20, 99]) fun history =>
      history.boundaries.map (·.1) = [10, 20, 25] ∧
        Captures .intra sampleInputs 20 30 [25, 10, 25, 20, 99] history := by
  obtain ⟨history, hreplay, hkeys⟩ :
      Yields (replay .intra sampleInputs 20 30 [25, 10, 25, 20, 99]) fun history =>
        history.boundaries.map (·.1) = [10, 20, 25] := by decide +kernel
  exact ⟨history, hreplay, hkeys, replay_captures hreplay⟩

/-- A start after the end: the funding between them is before the start, and is not replayed. -/
theorem start_after_end_misses :
    Yields (replay .intra { funding := [⟨"ETHUSDT", 5, 25⟩] } 30 20 []) fun history =>
      gainAfter Metrics.totalPnlUsdt .intra { funding := [⟨"ETHUSDT", 5, 25⟩] }
        ((PnlInputs.sortedEvents { funding := [⟨"ETHUSDT", 5, 25⟩] }).filter (·.ts < 30))
          ≠ .ok history.startPnl := by
  decide +kernel

end CryptoNav.Pnl
