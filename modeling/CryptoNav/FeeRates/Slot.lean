import CryptoNav.Lib.Runs
import Mathlib.Data.Finset.Basic

/-!
# The fee-rate sync slot

`sync_account_fee_rates` puts the slug of its strategy into a set before it starts the sync process
and takes it out when the process has ended. The handler may be dropped wherever it awaits
something; the blocking task that runs the process is not. No lock is held over an await, so taking
the lock and using the set is one action.

What the process does is left out, and whether it succeeds is an input; a process that never
ends keeps its slot for ever, which is a run without that step. The set of slots lives as long
as the server. The lookup of the strategy comes before the slot and is left out, because a
request that fails there has touched nothing.
-/

set_option autoImplicit false

namespace CryptoNav.FeeRates

open CryptoNav.Lib

/-! ## Handlers and tasks -/

inductive TaskState where
  | queued
  /-- The process runs. -/
  | running
  | ended (outcome : Except String Unit)

/-- A task of `spawn_blocking`, which is in `run_fee_rate_sync`. -/
structure Task where
  slug : String
  state : TaskState := .queued

def Task.isRunning (task : Task) : Bool :=
  match task.state with
  | .running => true
  | _ => false

def Task.isEnded (task : Task) : Bool :=
  match task.state with
  | .ended _ => true
  | _ => false

/-- What a handler of `sync_account_fee_rates` awaits. -/
inductive Phase where
  /-- whether the strategy exists -/
  | querying
  /-- the lock, to put its slug into the set -/
  | inserting
  | joining (task : ℕ)
  /-- the lock, to take its slug out of the set -/
  | removing (result : Except String Unit)
  | returned (status : ℕ)
  /-- `held`: its slug was in the set on its behalf. -/
  | dropped (held : Bool)

structure Handler where
  slug : String
  phase : Phase

def Handler.isActive (handler : Handler) : Bool :=
  match handler.phase with
  | .returned _ | .dropped _ => false
  | _ => true

/-- The handler has put its slug into the set and has not taken it out. -/
def Handler.holds (handler : Handler) : Bool :=
  match handler.phase with
  | .joining _ | .removing _ => true
  | .dropped held => held
  | _ => false

structure Server where
  feeRateSyncs : Finset String := ∅
  handlers : List Handler := []
  tasks : List Task := []

/-! ## Steps -/

inductive Action where
  | request (slug : String) (isAdmin : Bool)
  /-- The query of a handler answers, or fails. -/
  | answered (handler : ℕ) (answer : Except String Bool)
  | insert (handler : ℕ)
  | start (task : ℕ)
  | finish (task : ℕ) (outcome : Except String Unit)
  | join (handler : ℕ)
  | remove (handler : ℕ)
  /-- The client has gone away. -/
  | drop (handler : ℕ)

def Server.setPhase (s : Server) (handler : ℕ) (phase : Phase) : Server :=
  { s with handlers := s.handlers.modify handler fun h => { h with phase } }

def Server.setTask (s : Server) (task : ℕ) (state : TaskState) : Server :=
  { s with tasks := s.tasks.modify task fun t => { t with state } }

/-- Insertion into the set; when the slug was not there, the blocking task is spawned. -/
def Server.insert (s : Server) (handler : ℕ) (slug : String) : Server :=
  if slug ∈ s.feeRateSyncs then s.setPhase handler (.returned 409)
  else { s.setPhase handler (.joining s.tasks.length) with
    feeRateSyncs := Insert.insert slug s.feeRateSyncs
    tasks := s.tasks ++ [{ slug }] }

def step (s : Server) : Action → Except String Server
  | .request slug isAdmin =>
    .ok { s with handlers := s.handlers ++
      [{ slug, phase := if isAdmin then .querying else .returned 403 }] }
  | .answered handler answer =>
    match s.handlers[handler]? with
    | some ⟨_, .querying⟩ => .ok (s.setPhase handler (match answer with
      | .ok true => .inserting
      | .ok false => .returned 404
      | .error _ => .returned 500))
    | _ => .error "not enabled"
  | .insert handler =>
    match s.handlers[handler]? with
    | some ⟨slug, .inserting⟩ => .ok (s.insert handler slug)
    | _ => .error "not enabled"
  | .start task =>
    match s.tasks[task]? with
    | some ⟨_, .queued⟩ => .ok (s.setTask task .running)
    | _ => .error "not enabled"
  | .finish task outcome =>
    match s.tasks[task]? with
    | some ⟨_, .running⟩ => .ok (s.setTask task (.ended outcome))
    | _ => .error "not enabled"
  | .join handler =>
    match s.handlers[handler]? with
    | some ⟨_, .joining task⟩ =>
      match s.tasks[task]? with
      | some ⟨_, .ended outcome⟩ => .ok (s.setPhase handler (.removing outcome))
      | _ => .error "not enabled"
    | _ => .error "not enabled"
  | .remove handler =>
    match s.handlers[handler]? with
    | some ⟨slug, .removing result⟩ =>
      .ok { s.setPhase handler (.returned (if result.isOk then 204 else 500)) with
        feeRateSyncs := s.feeRateSyncs.erase slug }
    | _ => .error "not enabled"
  | .drop handler =>
    match (s.handlers[handler]?).filter (·.isActive) with
    | some h => .ok (s.setPhase handler (.dropped h.holds))
    | none => .error "not enabled"

/-! ## What one step can do -/

/-- The handlers and tasks after a step, beside those it leaves alone. -/
inductive Stepped (s : Server) : Action → Server → Prop
  | request (slug : String) (isAdmin : Bool) :
    Stepped s (.request slug isAdmin) { s with handlers := s.handlers ++
      [{ slug, phase := if isAdmin then .querying else .returned 403 }] }
  | answered {handler : ℕ} {slug : String} (h : s.handlers[handler]? = some ⟨slug, .querying⟩)
      (answer : Except String Bool) {phase : Phase}
      (hphase : phase = .inserting ∨ ∃ status, status ≠ 409 ∧ phase = .returned status) :
    Stepped s (.answered handler answer) (s.setPhase handler phase)
  | conflict {handler : ℕ} {slug : String} (h : s.handlers[handler]? = some ⟨slug, .inserting⟩)
      (hslug : slug ∈ s.feeRateSyncs) :
    Stepped s (.insert handler) (s.setPhase handler (.returned 409))
  | insert {handler : ℕ} {slug : String} (h : s.handlers[handler]? = some ⟨slug, .inserting⟩)
      (hslug : slug ∉ s.feeRateSyncs) :
    Stepped s (.insert handler) { s.setPhase handler (.joining s.tasks.length) with
      feeRateSyncs := Insert.insert slug s.feeRateSyncs
      tasks := s.tasks ++ [{ slug }] }
  | start {task : ℕ} {slug : String} (h : s.tasks[task]? = some ⟨slug, .queued⟩) :
    Stepped s (.start task) (s.setTask task .running)
  | finish {task : ℕ} {slug : String} (h : s.tasks[task]? = some ⟨slug, .running⟩)
      (outcome : Except String Unit) :
    Stepped s (.finish task outcome) (s.setTask task (.ended outcome))
  | join {handler task : ℕ} {slug slug' : String} {outcome : Except String Unit}
      (h : s.handlers[handler]? = some ⟨slug, .joining task⟩)
      (ht : s.tasks[task]? = some ⟨slug', .ended outcome⟩) :
    Stepped s (.join handler) (s.setPhase handler (.removing outcome))
  | remove {handler : ℕ} {slug : String} {result : Except String Unit}
      (h : s.handlers[handler]? = some ⟨slug, .removing result⟩) :
    Stepped s (.remove handler)
      { s.setPhase handler (.returned (if result.isOk then 204 else 500)) with
        feeRateSyncs := s.feeRateSyncs.erase slug }
  | drop {handler : ℕ} {h : Handler} (hh : s.handlers[handler]? = some h)
      (hactive : h.isActive = true) :
    Stepped s (.drop handler) (s.setPhase handler (.dropped h.holds))

theorem stepped {s s' : Server} {a : Action} (h : step s a = .ok s') : Stepped s a s' := by
  cases a with
  | request slug isAdmin =>
    cases h
    exact .request slug isAdmin
  | answered handler answer =>
    simp only [step] at h
    split at h
    · rename_i slug hh
      cases h
      refine .answered hh answer ?_
      rcases answer with _ | (_ | _)
      · exact .inr ⟨500, by decide, rfl⟩
      · exact .inr ⟨404, by decide, rfl⟩
      · exact .inl rfl
    · cases h
  | insert handler =>
    simp only [step] at h
    split at h
    · rename_i slug hh
      cases h
      unfold Server.insert
      split
      · rename_i hslug
        exact .conflict hh hslug
      · rename_i hslug
        exact .insert hh hslug
    · cases h
  | start task =>
    simp only [step] at h
    split at h
    · rename_i slug ht
      cases h
      exact .start ht
    · cases h
  | finish task outcome =>
    simp only [step] at h
    split at h
    · rename_i slug ht
      cases h
      exact .finish ht outcome
    · cases h
  | join handler =>
    simp only [step] at h
    split at h
    · rename_i slug task hh
      split at h
      · rename_i slug' outcome ht
        cases h
        exact .join hh ht
      · cases h
    · cases h
  | remove handler =>
    simp only [step] at h
    split at h
    · rename_i slug result hh
      cases h
      exact .remove hh
    · cases h
  | drop handler =>
    simp only [step] at h
    split at h
    · rename_i handler' hh
      cases h
      obtain ⟨hh, hactive⟩ := Option.filter_eq_some_iff.mp hh
      exact .drop hh hactive
    · cases h

/-! ## The invariant -/

/-- The handler answers for a task that has not ended: it waits for it, or was dropped while it
    held the slot. -/
def Handler.owns (handler : Handler) (task : ℕ) : Prop :=
  handler.phase = .joining task ∨ handler.phase = .dropped true

theorem Handler.holds_of_owns {h : Handler} {task : ℕ} (howns : h.owns task) : h.holds = true := by
  rcases howns with hphase | hphase <;> simp [Handler.holds, hphase]

structure Kept (s : Server) : Prop where
  /-- The set holds what the handlers hold. -/
  slot : ∀ slug, slug ∈ s.feeRateSyncs ↔
    ∃ (i : ℕ) (h : Handler), s.handlers[i]? = some h ∧ h.slug = slug ∧ h.holds = true
  single : ∀ {i j : ℕ} {h g : Handler}, s.handlers[i]? = some h → s.handlers[j]? = some g →
    h.slug = g.slug → h.holds = true → g.holds = true → i = j
  owned : ∀ {t : ℕ} {task : Task}, s.tasks[t]? = some task → task.isEnded = false →
    ∃ (i : ℕ) (h : Handler), s.handlers[i]? = some h ∧ h.slug = task.slug ∧ h.owns t
  unique : ∀ {t u : ℕ} {a b : Task}, s.tasks[t]? = some a → s.tasks[u]? = some b →
    a.slug = b.slug → a.isEnded = false → b.isEnded = false → t = u

theorem kept_start : Kept {} where
  slot := by simp
  single := by simp
  owned := by simp
  unique := by simp

@[simp] theorem setPhase_feeRateSyncs (s : Server) (i : ℕ) (phase : Phase) :
    (s.setPhase i phase).feeRateSyncs = s.feeRateSyncs := rfl

/-- The handlers after one of them goes on. -/
theorem setPhase_getElem? {s : Server} {i j : ℕ} {slug : String} {p p' : Phase} {h : Handler}
    (hi : s.handlers[i]? = some ⟨slug, p⟩) :
    (s.setPhase i p').handlers[j]? = some h ↔
      (j = i ∧ h = ⟨slug, p'⟩) ∨ (j ≠ i ∧ s.handlers[j]? = some h) := by
  simp only [Server.setPhase, List.getElem?_modify]
  by_cases hj : i = j
  · subst hj
    simp [hi, eq_comm]
  · simp [hj, Ne.symm hj]

/-- A handler goes on, and holds the slot and answers for tasks as before. -/
theorem Kept.setPhase {s : Server} (hs : Kept s) {i : ℕ} {slug : String} {p p' : Phase}
    (hi : s.handlers[i]? = some ⟨slug, p⟩)
    (hholds : (⟨slug, p'⟩ : Handler).holds = (⟨slug, p⟩ : Handler).holds)
    (howns : ∀ t task, s.tasks[t]? = some task → task.isEnded = false →
      (⟨slug, p⟩ : Handler).owns t → (⟨slug, p'⟩ : Handler).owns t) :
    Kept (s.setPhase i p') := by
  -- every handler of the new state has one of the old state behind it
  have hback : ∀ {j : ℕ} {h : Handler}, (s.setPhase i p').handlers[j]? = some h →
      ∃ g, s.handlers[j]? = some g ∧ g.slug = h.slug ∧ g.holds = h.holds := by
    intro j h hj
    rcases (setPhase_getElem? hi).mp hj with ⟨rfl, rfl⟩ | ⟨-, hj⟩
    · exact ⟨_, hi, rfl, hholds.symm⟩
    · exact ⟨h, hj, rfl, rfl⟩
  constructor
  · intro slug'
    rw [setPhase_feeRateSyncs, hs.slot]
    constructor
    · rintro ⟨j, h, hj, hslug, hh⟩
      by_cases hji : j = i
      · subst hji
        obtain rfl := Option.some_injective _ (hi.symm.trans hj)
        exact ⟨j, _, (setPhase_getElem? hi).mpr (.inl ⟨rfl, rfl⟩), hslug, hholds.trans hh⟩
      · exact ⟨j, h, (setPhase_getElem? hi).mpr (.inr ⟨hji, hj⟩), hslug, hh⟩
    · rintro ⟨j, h, hj, hslug, hh⟩
      obtain ⟨g, hg, hslug', hh'⟩ := hback hj
      exact ⟨j, g, hg, hslug'.trans hslug, hh'.trans hh⟩
  · intro j k h g hj hk hslug hh hg
    obtain ⟨h', hj', hslugh, hhh⟩ := hback hj
    obtain ⟨g', hk', hslugg, hgg⟩ := hback hk
    exact hs.single hj' hk' (hslugh.trans (hslug.trans hslugg.symm)) (hhh.trans hh) (hgg.trans hg)
  · intro t task ht hend
    obtain ⟨j, h, hj, hslug, hown⟩ := hs.owned ht hend
    by_cases hji : j = i
    · subst hji
      obtain rfl := Option.some_injective _ (hi.symm.trans hj)
      exact ⟨j, _, (setPhase_getElem? hi).mpr (.inl ⟨rfl, rfl⟩), hslug, howns t task ht hend hown⟩
    · exact ⟨j, h, (setPhase_getElem? hi).mpr (.inr ⟨hji, hj⟩), hslug, hown⟩
  · exact hs.unique

/-- A task goes on; one that has ended stays so. -/
theorem Kept.setTask {s : Server} (hs : Kept s) {t : ℕ} {slug : String} {state state' : TaskState}
    (ht : s.tasks[t]? = some ⟨slug, state⟩) (hend : (⟨slug, state⟩ : Task).isEnded = false) :
    Kept (s.setTask t state') := by
  have hback : ∀ {u : ℕ} {task : Task}, (s.setTask t state').tasks[u]? = some task →
      task.isEnded = false →
      ∃ task', s.tasks[u]? = some task' ∧ task'.slug = task.slug ∧ task'.isEnded = false := by
    intro u task hu hend'
    simp only [Server.setTask, List.getElem?_modify] at hu
    by_cases htu : t = u
    · subst htu
      simp only [ht, if_true, Option.map_eq_map, Option.map_some, Option.some.injEq] at hu
      exact ⟨_, ht, by rw [← hu], hend⟩
    · simp only [htu, if_false, Option.map_eq_map, Option.map_id'] at hu
      exact ⟨task, hu, rfl, hend'⟩
  constructor
  · exact hs.slot
  · exact hs.single
  · intro u task hu hend'
    obtain ⟨task', hu', hslug, hend''⟩ := hback hu hend'
    obtain ⟨i, h, hi, hslug', hown⟩ := hs.owned hu' hend''
    exact ⟨i, h, hi, hslug'.trans hslug, hown⟩
  · intro u v a b hu hv hslug ha hb
    obtain ⟨a', hu', hsluga, ha'⟩ := hback hu ha
    obtain ⟨b', hv', hslugb, hb'⟩ := hback hv hb
    exact hs.unique hu' hv' (hsluga.trans (hslug.trans hslugb.symm)) ha' hb'

theorem getElem?_snoc {α : Type} {l : List α} {a b : α} {j : ℕ} :
    (l ++ [a])[j]? = some b ↔ l[j]? = some b ∨ (j = l.length ∧ b = a) := by
  rcases lt_trichotomy j l.length with hlt | rfl | hgt
  · rw [List.getElem?_append_left hlt]
    exact ⟨.inl, fun hj => hj.resolve_right fun hne => absurd hne.1 hlt.ne⟩
  · simp [eq_comm]
  · rw [List.getElem?_eq_none (by simp; omega), List.getElem?_eq_none hgt.le]
    simp [hgt.ne']

/-- A new handler holds nothing. -/
theorem Kept.request {s : Server} (hs : Kept s) {h : Handler} (hh : h.holds = false) :
    Kept { s with handlers := s.handlers ++ [h] } := by
  have hold : ∀ {j : ℕ} {g : Handler}, (s.handlers ++ [h])[j]? = some g → g.holds = true →
      s.handlers[j]? = some g := by
    intro j g hj hg
    refine (getElem?_snoc.mp hj).resolve_right fun hnew => ?_
    rw [hnew.2, hh] at hg
    cases hg
  constructor
  · intro slug
    rw [hs.slot]
    constructor
    · rintro ⟨j, g, hj, hslug, hg⟩
      exact ⟨j, g, getElem?_snoc.mpr (.inl hj), hslug, hg⟩
    · rintro ⟨j, g, hj, hslug, hg⟩
      exact ⟨j, g, hold hj hg, hslug, hg⟩
  · intro j k a b hj hk hslug ha hb
    exact hs.single (hold hj ha) (hold hk hb) hslug ha hb
  · intro t task ht hend
    obtain ⟨j, g, hj, hslug, hown⟩ := hs.owned ht hend
    exact ⟨j, g, getElem?_snoc.mpr (.inl hj), hslug, hown⟩
  · exact hs.unique

/-- The handler whose slug was not in the set holds the slot for the task it spawns. -/
theorem Kept.insert {s : Server} (hs : Kept s) {i : ℕ} {slug : String}
    (hi : s.handlers[i]? = some ⟨slug, .inserting⟩) (hslug : slug ∉ s.feeRateSyncs) :
    Kept { s.setPhase i (.joining s.tasks.length) with
      feeRateSyncs := Insert.insert slug s.feeRateSyncs
      tasks := s.tasks ++ [{ slug }] } := by
  have hfree : ∀ {j : ℕ} {h : Handler}, s.handlers[j]? = some h → h.slug = slug →
      h.holds = false := by
    intro j h hj hh
    by_contra hholds
    exact hslug ((hs.slot slug).mpr ⟨j, h, hj, hh, Bool.eq_true_of_not_eq_false hholds⟩)
  have hnone : ∀ {t : ℕ} {task : Task}, s.tasks[t]? = some task → task.isEnded = false →
      task.slug ≠ slug := by
    intro t task ht hend hsame
    obtain ⟨j, h, hj, hh, hown⟩ := hs.owned ht hend
    have := hfree hj (hh.trans hsame)
    rw [Handler.holds_of_owns hown] at this
    cases this
  constructor
  · intro slug'
    rw [Finset.mem_insert, hs.slot]
    constructor
    · rintro (rfl | ⟨j, h, hj, hh, hholds⟩)
      · exact ⟨i, _, (setPhase_getElem? hi).mpr (.inl ⟨rfl, rfl⟩), rfl, rfl⟩
      · refine ⟨j, h, (setPhase_getElem? hi).mpr (.inr ⟨?_, hj⟩), hh, hholds⟩
        rintro rfl
        obtain rfl := Option.some_injective _ (hi.symm.trans hj)
        cases hholds
    · rintro ⟨j, h, hj, hh, hholds⟩
      rcases (setPhase_getElem? hi).mp hj with ⟨rfl, rfl⟩ | ⟨-, hj⟩
      · exact .inl hh.symm
      · exact .inr ⟨j, h, hj, hh, hholds⟩
  · intro j k h g hj hk hsame hh hg
    rcases (setPhase_getElem? hi).mp hj with ⟨rfl, rfl⟩ | ⟨-, hj'⟩
    · rcases (setPhase_getElem? hi).mp hk with ⟨rfl, rfl⟩ | ⟨-, hk'⟩
      · rfl
      · rw [hfree hk' hsame.symm] at hg
        cases hg
    · rcases (setPhase_getElem? hi).mp hk with ⟨rfl, rfl⟩ | ⟨-, hk'⟩
      · rw [hfree hj' hsame] at hh
        cases hh
      · exact hs.single hj' hk' hsame hh hg
  · intro t task ht hend
    rcases getElem?_snoc.mp ht with ht' | ⟨rfl, rfl⟩
    · obtain ⟨j, h, hj, hh, hown⟩ := hs.owned ht' hend
      refine ⟨j, h, (setPhase_getElem? hi).mpr (.inr ⟨?_, hj⟩), hh, hown⟩
      rintro rfl
      obtain rfl := Option.some_injective _ (hi.symm.trans hj)
      exact hnone ht' hend hh.symm
    · exact ⟨i, _, (setPhase_getElem? hi).mpr (.inl ⟨rfl, rfl⟩), rfl, .inl rfl⟩
  · intro t u a b ht hu hsame ha hb
    rcases getElem?_snoc.mp ht with ht | ⟨rfl, rfl⟩
    · rcases getElem?_snoc.mp hu with hu | ⟨rfl, rfl⟩
      · exact hs.unique ht hu hsame ha hb
      · exact absurd hsame (hnone ht ha)
    · rcases getElem?_snoc.mp hu with hu | ⟨rfl, rfl⟩
      · exact absurd hsame.symm (hnone hu hb)
      · rfl

/-- The handler that gives the slot back was the only one to hold it, and its task has ended. -/
theorem Kept.remove {s : Server} (hs : Kept s) {i : ℕ} {slug : String}
    {result : Except String Unit} (hi : s.handlers[i]? = some ⟨slug, .removing result⟩)
    (status : ℕ) :
    Kept { s.setPhase i (.returned status) with feeRateSyncs := s.feeRateSyncs.erase slug } := by
  have honly : ∀ {j : ℕ} {h : Handler}, s.handlers[j]? = some h → h.slug = slug →
      h.holds = true → j = i := fun hj hh hholds => hs.single hj hi hh hholds rfl
  constructor
  · intro slug'
    rw [Finset.mem_erase, hs.slot]
    constructor
    · rintro ⟨hne, j, h, hj, hh, hholds⟩
      refine ⟨j, h, (setPhase_getElem? hi).mpr (.inr ⟨?_, hj⟩), hh, hholds⟩
      rintro rfl
      obtain rfl := Option.some_injective _ (hi.symm.trans hj)
      exact hne hh.symm
    · rintro ⟨j, h, hj, hh, hholds⟩
      rcases (setPhase_getElem? hi).mp hj with ⟨rfl, rfl⟩ | ⟨hji, hj⟩
      · cases hholds
      · exact ⟨fun hsame => hji (honly hj (hh.trans hsame) hholds), j, h, hj, hh, hholds⟩
  · intro j k h g hj hk hsame hh hg
    rcases (setPhase_getElem? hi).mp hj with ⟨rfl, rfl⟩ | ⟨-, hj⟩
    · cases hh
    · rcases (setPhase_getElem? hi).mp hk with ⟨rfl, rfl⟩ | ⟨-, hk⟩
      · cases hg
      · exact hs.single hj hk hsame hh hg
  · intro t task ht hend
    obtain ⟨j, h, hj, hh, hown⟩ := hs.owned ht hend
    refine ⟨j, h, (setPhase_getElem? hi).mpr (.inr ⟨?_, hj⟩), hh, hown⟩
    rintro rfl
    obtain rfl := Option.some_injective _ (hi.symm.trans hj)
    rcases hown with hown | hown <;> cases hown
  · exact hs.unique

theorem Kept.step {s s' : Server} {a : Action} (hs : Kept s) (h : step s a = .ok s') :
    Kept s' := by
  cases stepped h with
  | request slug isAdmin => exact hs.request (by cases isAdmin <;> rfl)
  | answered hi answer hphase =>
    refine hs.setPhase hi ?_ fun _ _ _ _ hown => by rcases hown with hown | hown <;> cases hown
    rcases hphase with rfl | ⟨status, -, rfl⟩ <;> rfl
  | conflict hi hslug =>
    exact hs.setPhase hi rfl fun _ _ _ _ hown => by rcases hown with hown | hown <;> cases hown
  | insert hi hslug => exact hs.insert hi hslug
  | start ht => exact hs.setTask ht rfl
  | finish ht outcome => exact hs.setTask ht rfl
  | join hi ht =>
    refine hs.setPhase hi rfl fun t task ht' hend hown => ?_
    rcases hown with hown | hown
    · cases hown
      obtain rfl := Option.some_injective _ (ht.symm.trans ht')
      cases hend
    · cases hown
  | remove hi => exact hs.remove hi _
  | @drop i h hi hactive =>
    refine hs.setPhase hi rfl fun t _ _ _ hown => .inr ?_
    exact congrArg Phase.dropped (Handler.holds_of_owns hown)

/-! ## Exclusion -/

/-- No two processes for one slug. Tasks that have ended stay in the list. -/
def Exclusive (s : Server) : Prop :=
  ∀ (t u : ℕ) (a b : Task), s.tasks[t]? = some a → s.tasks[u]? = some b → a.slug = b.slug →
    a.isRunning = true → b.isRunning = true → t = u

theorem Task.not_ended_of_isRunning {task : Task} (h : task.isRunning = true) :
    task.isEnded = false := by
  rcases task with ⟨slug, _ | _ | _⟩
  · cases h
  · rfl
  · cases h

theorem Kept.exclusive {s : Server} (hs : Kept s) : Exclusive s := fun _ _ _ _ ht hu hslug ha hb =>
  hs.unique ht hu hslug (Task.not_ended_of_isRunning ha) (Task.not_ended_of_isRunning hb)

/-! ## Giving the slot back -/

/-- No process for the slug runs and no handler for it is active. A handler that was dropped is not
    active, whatever it held. -/
def Idle (s : Server) (slug : String) : Prop :=
  (∀ task ∈ s.tasks, task.slug = slug → task.isRunning = false) ∧
    ∀ h ∈ s.handlers, h.slug = slug → h.isActive = false

/-- The action is no request for the slug. -/
def Action.elsewhere (slug : String) : Action → Prop
  | .request slug' _ => slug' ≠ slug
  | _ => True

/-- The next request for the slug, whatever else happens, is not answered with CONFLICT. What else
    happens is about other slugs, or is a step of no handler at all. -/
def NextAccepted (s : Server) (slug : String) : Prop :=
  ∀ (isAdmin : Bool) (actions : List Action) (s' : Server), (∀ a ∈ actions, a.elsewhere slug) →
    (Action.request slug isAdmin :: actions).foldlM step s = .ok s' →
    ∀ h, s'.handlers[s.handlers.length]? = some h → h.phase ≠ .returned 409

/-- Handler `n` is the only one for its slug that is active, and finds the slot free. -/
structure Sole (slug : String) (n : ℕ) (s : Server) : Prop where
  others : ∀ {j : ℕ} {g : Handler}, j ≠ n → s.handlers[j]? = some g → g.slug = slug →
    g.isActive = false
  bound : n < s.handlers.length
  named : ∀ {h : Handler}, s.handlers[n]? = some h → h.slug = slug
  accepted : ∀ {h : Handler}, s.handlers[n]? = some h → h.phase ≠ .returned 409
  free : ∀ {h : Handler}, s.handlers[n]? = some h → h.phase = .querying ∨ h.phase = .inserting →
    slug ∉ s.feeRateSyncs

theorem length_setPhase (s : Server) (i : ℕ) (phase : Phase) :
    (s.setPhase i phase).handlers.length = s.handlers.length := by
  simp [Server.setPhase]

/-- A handler goes on; `syncs` is the set afterwards. -/
theorem Sole.setPhase {slug : String} {n : ℕ} {s : Server} (hs : Sole slug n s) {i : ℕ}
    {slug' : String} {p p' : Phase} (hi : s.handlers[i]? = some ⟨slug', p⟩)
    (hactive : (⟨slug', p⟩ : Handler).isActive = true) {syncs : Finset String} {tasks : List Task}
    (haccepted : i = n → p' ≠ .returned 409)
    (hfree : i = n → p' = .querying ∨ p' = .inserting → slug ∉ syncs)
    (hsyncs : slug' ≠ slug → slug ∉ s.feeRateSyncs → slug ∉ syncs) :
    Sole slug n { s.setPhase i p' with feeRateSyncs := syncs, tasks := tasks } := by
  have hother : i ≠ n → slug' ≠ slug := by
    rintro hne rfl
    rw [hs.others hne hi rfl] at hactive
    cases hactive
  constructor
  · intro j g hj hg hslug
    rcases (setPhase_getElem? hi).mp hg with ⟨rfl, rfl⟩ | ⟨-, hg⟩
    · exact absurd hslug (hother hj)
    · exact hs.others hj hg hslug
  · exact (length_setPhase s i p').symm ▸ hs.bound
  · intro h hn
    rcases (setPhase_getElem? hi).mp hn with ⟨rfl, rfl⟩ | ⟨-, hn⟩
    · exact (hs.named hi : slug' = slug)
    · exact hs.named hn
  · intro h hn
    rcases (setPhase_getElem? hi).mp hn with ⟨rfl, rfl⟩ | ⟨-, hn⟩
    · exact haccepted rfl
    · exact hs.accepted hn
  · intro h hn hphase
    rcases (setPhase_getElem? hi).mp hn with ⟨rfl, rfl⟩ | ⟨hne, hn⟩
    · exact hfree rfl hphase
    · exact hsyncs (hother (Ne.symm hne)) (hs.free hn hphase)

theorem Sole.step {slug : String} {n : ℕ} {s s' : Server} {a : Action} (hs : Sole slug n s)
    (ha : a.elsewhere slug) (h : step s a = .ok s') : Sole slug n s' := by
  cases stepped h with
  | request slug' isAdmin =>
    have hold : ∀ {g : Handler}, (s.handlers ++ [(⟨slug', if isAdmin then .querying
        else .returned 403⟩ : Handler)])[n]? = some g → s.handlers[n]? = some g := fun hg =>
      (getElem?_snoc.mp hg).resolve_right fun hnew => absurd hnew.1 hs.bound.ne
    constructor
    · intro j g hj hg hslug
      rcases getElem?_snoc.mp hg with hg | ⟨-, rfl⟩
      · exact hs.others hj hg hslug
      · exact absurd hslug ha
    · exact hs.bound.trans_le (by simp)
    · exact fun hg => hs.named (hold hg)
    · exact fun hg => hs.accepted (hold hg)
    · exact fun hg => hs.free (hold hg)
  | answered hi answer hphase =>
    refine hs.setPhase hi rfl ?_ ?_ fun _ => id
    · rintro - rfl
      rcases hphase with hphase | ⟨status, hne, hphase⟩
      · cases hphase
      · cases hphase
        exact hne rfl
    · rintro rfl -
      exact hs.free hi (.inl rfl)
  | conflict hi hslug =>
    refine hs.setPhase hi rfl ?_ ?_ fun _ => id
    · rintro rfl
      have := hs.free hi (.inr rfl)
      rw [← hs.named hi] at this
      exact absurd hslug this
    · rintro - (hphase | hphase) <;> cases hphase
  | @insert i slug' hi hslug =>
    refine hs.setPhase hi rfl ?_ ?_ ?_
    · rintro - hphase
      cases hphase
    · rintro - (hphase | hphase) <;> cases hphase
    · intro hne hfree hmem
      rcases Finset.mem_insert.mp hmem with rfl | hmem
      · exact hne rfl
      · exact hfree hmem
  | start ht => exact ⟨hs.others, hs.bound, hs.named, hs.accepted, hs.free⟩
  | finish ht outcome => exact ⟨hs.others, hs.bound, hs.named, hs.accepted, hs.free⟩
  | join hi ht =>
    refine hs.setPhase hi rfl ?_ ?_ fun _ => id
    · rintro - hphase
      cases hphase
    · rintro - (hphase | hphase) <;> cases hphase
  | @remove i slug' result hi =>
    refine hs.setPhase hi rfl ?_ ?_ ?_
    · rintro - hphase
      cases result <;> cases hphase
    · rintro - (hphase | hphase) <;> cases hphase
    · exact fun _ hfree hmem => hfree (Finset.mem_of_mem_erase hmem)
  | @drop i g hi hactive =>
    refine hs.setPhase hi hactive ?_ ?_ fun _ => id
    · rintro - hphase
      cases hphase
    · rintro - (hphase | hphase) <;> cases hphase

/-- The next request is accepted exactly when the slot is free. -/
theorem nextAccepted_iff {s : Server} {slug : String} (hidle : Idle s slug) :
    NextAccepted s slug ↔ slug ∉ s.feeRateSyncs := by
  constructor
  · intro hnext hmem
    have hlast : (s.handlers ++ [(⟨slug, .querying⟩ : Handler)])[s.handlers.length]? =
        some ⟨slug, .querying⟩ := getElem?_snoc.mpr (.inr ⟨rfl, rfl⟩)
    let s₁ : Server := { s with handlers := s.handlers ++ [⟨slug, .querying⟩] }
    have hinserting : (s₁.setPhase s.handlers.length .inserting).handlers[s.handlers.length]? =
        some ⟨slug, .inserting⟩ := (setPhase_getElem? hlast).mpr (.inl ⟨rfl, rfl⟩)
    have hrun : [Action.request slug true, .answered s.handlers.length (.ok true),
        .insert s.handlers.length].foldlM step s =
        .ok ((s₁.setPhase s.handlers.length .inserting).setPhase s.handlers.length
          (.returned 409)) := by
      refine run_cons.mpr ⟨s₁, rfl, run_cons.mpr ⟨s₁.setPhase s.handlers.length .inserting, ?_,
        run_cons.mpr ⟨_, ?_, rfl⟩⟩⟩
      · simp only [step, s₁, hlast]
      · simp only [step, hinserting]
        exact congrArg Except.ok (if_pos hmem)
    exact hnext true _ _ (by simp [Action.elsewhere]) hrun _
      ((setPhase_getElem? hinserting).mpr (.inl ⟨rfl, rfl⟩)) rfl
  · intro hfree isAdmin actions s' helse hrun h hh
    obtain ⟨s₁, hs₁, hrest⟩ := run_cons.mp hrun
    cases hs₁
    have hstart : Sole slug s.handlers.length { s with handlers := s.handlers ++
        [⟨slug, if isAdmin then .querying else .returned 403⟩] } := by
      constructor
      · intro j g hj hg hslug
        rcases getElem?_snoc.mp hg with hg | ⟨hj', -⟩
        · exact hidle.2 g (List.mem_of_getElem? hg) hslug
        · exact absurd hj' hj
      · simp
      · intro g hg
        rcases getElem?_snoc.mp hg with hg | ⟨-, rfl⟩
        · simp at hg
        · rfl
      · intro g hg
        rcases getElem?_snoc.mp hg with hg | ⟨-, rfl⟩
        · simp at hg
        · cases isAdmin <;> simp
      · exact fun _ _ => hfree
    exact (run_invariant (fun a ha _ _ hs => hs.step (helse a ha)) hstart hrest).accepted hh

/-- No handler for the slug was dropped while it held the slot. Dropped before it took the slot, or
    after it gave it back, does no harm. -/
def NoneDropped (slug : String) (s : Server) : Prop :=
  ∀ (i : ℕ) (h : Handler), s.handlers[i]? = some h → h.slug = slug → h.phase ≠ .dropped true

/-- The step drops no handler for the slug that holds the slot. -/
def KeepsHolder (slug : String) (s : Server) : Action → Prop
  | .drop i => ∀ h, s.handlers[i]? = some h → h.slug = slug → h.holds = false
  | _ => True

theorem noneDropped_setPhase {slug slug' : String} {s : Server} {i : ℕ} {p p' : Phase}
    (hi : s.handlers[i]? = some ⟨slug', p⟩)
    (hactive : (⟨slug', p⟩ : Handler).isActive = true) :
    NoneDropped slug (s.setPhase i p') ↔
      NoneDropped slug s ∧ (slug' = slug → p' ≠ .dropped true) := by
  constructor
  · intro h
    refine ⟨fun j g hj hslug => ?_, fun hslug => ?_⟩
    · by_cases hji : j = i
      · subst hji
        obtain rfl := Option.some_injective _ (hi.symm.trans hj)
        rintro rfl
        cases hactive
      · exact h j g ((setPhase_getElem? hi).mpr (.inr ⟨hji, hj⟩)) hslug
    · exact h i _ ((setPhase_getElem? hi).mpr (.inl ⟨rfl, rfl⟩)) hslug
  · rintro ⟨h, hp'⟩ j g hj hslug
    rcases (setPhase_getElem? hi).mp hj with ⟨rfl, rfl⟩ | ⟨-, hj⟩
    · exact hp' hslug
    · exact h j g hj hslug

theorem noneDropped_step {slug : String} {s s' : Server} {a : Action} (h : step s a = .ok s') :
    NoneDropped slug s' ↔ NoneDropped slug s ∧ KeepsHolder slug s a := by
  cases stepped h with
  | request slug' isAdmin =>
    refine Iff.trans ⟨fun h i g hi => h i g (getElem?_snoc.mpr (.inl hi)), ?_⟩
      (and_iff_left trivial).symm
    intro h i g hi hslug
    rcases getElem?_snoc.mp hi with hi | ⟨-, rfl⟩
    · exact h i g hi hslug
    · cases isAdmin <;> simp
  | answered hi answer hphase =>
    refine (noneDropped_setPhase hi rfl).trans (and_congr_right fun _ => iff_of_true ?_ trivial)
    rintro - rfl
    rcases hphase with hphase | ⟨status, -, hphase⟩ <;> cases hphase
  | conflict hi hslug =>
    exact (noneDropped_setPhase hi rfl).trans
      (and_congr_right fun _ => iff_of_true (fun _ => by simp) trivial)
  | insert hi hslug =>
    exact (noneDropped_setPhase hi rfl).trans
      (and_congr_right fun _ => iff_of_true (fun _ => by simp) trivial)
  | start ht => exact (and_iff_left trivial).symm
  | finish ht outcome => exact (and_iff_left trivial).symm
  | join hi ht =>
    exact (noneDropped_setPhase hi rfl).trans
      (and_congr_right fun _ => iff_of_true (fun _ => by simp) trivial)
  | remove hi =>
    exact (noneDropped_setPhase hi rfl).trans
      (and_congr_right fun _ => iff_of_true (fun _ => by simp) trivial)
  | @drop i g hi hactive =>
    refine (noneDropped_setPhase hi hactive).trans (and_congr_right fun _ => ?_)
    constructor
    · intro h g' hg' hslug
      obtain rfl := Option.some_injective _ (hi.symm.trans hg')
      have := h hslug
      by_contra hholds
      exact this (by rw [Bool.eq_true_of_not_eq_false hholds])
    · intro h hslug hphase
      exact Bool.false_ne_true ((h g hi hslug).symm.trans (Phase.dropped.inj hphase))

/-- In a state where nothing is going on for a slug, the slot is taken only by handlers that were
    dropped while they held it. -/
theorem Kept.free_iff {s : Server} (hs : Kept s) {slug : String} (hidle : Idle s slug) :
    slug ∉ s.feeRateSyncs ↔ NoneDropped slug s := by
  rw [hs.slot]
  constructor
  · intro h i g hi hslug hphase
    exact h ⟨i, g, hi, hslug, by simp [Handler.holds, hphase]⟩
  · rintro h ⟨i, g, hi, hslug, hholds⟩
    have hactive := hidle.2 g (List.mem_of_getElem? hi) hslug
    rcases g with ⟨slug', p⟩
    cases p with
    | dropped held =>
      cases held
      · cases hholds
      · exact h i _ hi hslug rfl
    | returned status => cases hholds
    | querying => cases hactive
    | inserting => cases hactive
    | joining task => cases hactive
    | removing result => cases hactive

/-- The processes of a slug exclude each other in every run. Once nothing is going on for a slug,
    the next request for it is accepted exactly when no handler for it was dropped between taking
    the slot and giving it back. -/
theorem slot_given_back_iff {actions : List Action} {s : Server}
    (hrun : actions.foldlM step {} = .ok s) :
    Exclusive s ∧ ∀ slug, Idle s slug →
      (NextAccepted s slug ↔ Throughout step (KeepsHolder slug) {} actions) := by
  have hkept : Kept s := run_invariant (fun _ _ _ _ hs h => hs.step h) kept_start hrun
  refine ⟨hkept.exclusive, fun slug hidle => ?_⟩
  have hthroughout := throughout_iff (P := KeepsHolder slug) (Q := fun _ => True)
    (R := NoneDropped slug) (fun a _ s t _ h => ⟨trivial, noneDropped_step h⟩) trivial hrun
  have hstart : NoneDropped slug {} := by simp [NoneDropped]
  rw [nextAccepted_iff hidle, hkept.free_iff hidle, hthroughout, and_iff_right hstart]

/-- A sync that fails: its process exits with an error and its handler answers 500. -/
def failedSync : List Action :=
  [.request "okx_fr" true, .answered 0 (.ok true), .insert 0, .start 0,
    .finish 0 (.error "exited with 1"), .join 0, .remove 0]

def failedTask : Task := { slug := "okx_fr", state := .ended (.error "exited with 1") }

/-- The slot of a failed sync is given back. -/
theorem slot_free_after_failure : ∃ s, failedSync.foldlM step {} = .ok s ∧
    Idle s "okx_fr" ∧ NextAccepted s "okx_fr" := by
  refine ⟨_, rfl, ?_⟩
  have hidle : Idle ({ handlers := [⟨"okx_fr", .returned 500⟩], tasks := [failedTask] } : Server)
      "okx_fr" := by
    simp [Idle, failedTask, Task.isRunning, Handler.isActive]
  refine ⟨hidle, ((@slot_given_back_iff failedSync _ rfl).2 "okx_fr" hidle).mpr ?_⟩
  refine throughout_of_forall (fun a ha s => ?_) _
  simp only [failedSync, List.mem_cons, List.not_mem_nil, or_false] at ha
  rcases ha with rfl | rfl | rfl | rfl | rfl | rfl | rfl <;> trivial

/-- The client of a sync goes away while the process runs. When the process has ended, the next
    request is answered with CONFLICT. -/
theorem slot_taken_after_disconnect : ∃ s,
    [Action.request "okx_fr" true, .answered 0 (.ok true), .insert 0, .start 0, .drop 0,
      .finish 0 (.ok ())].foldlM step {} = .ok s ∧ Idle s "okx_fr" ∧ ¬NextAccepted s "okx_fr" := by
  refine ⟨_, rfl, ?_, fun hnext => ?_⟩
  · simp [Idle, Server.setPhase, Server.setTask, Server.insert, Task.isRunning, Handler.isActive]
  · exact hnext true [.answered 1 (.ok true), .insert 1] _ (by simp [Action.elsewhere]) rfl
      ⟨"okx_fr", .returned 409⟩ rfl rfl

end CryptoNav.FeeRates
