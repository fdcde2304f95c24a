import CryptoNav.Dispatch.Pool

/-!
# Concurrent calls

Any number of `dispatch` calls run on clones of one dispatcher. Each holds the lock only inside
`reserve_client`, `update_observed_weight` and `block_client`, so a call is a sequence of atomic
steps, and between any two of them the other calls may step and time may pass. `reserve_client`
reads the clock before it waits for the lock, `block_client` after. A call that panics lets go of
the lock (the mutex is not poisoned) and takes no further step; the others go on.

`history` is not part of the program: it records the reservations and the cooldowns of a run, which
is what the theorems about runs speak of. A cooldown is recorded when it is processed, whether or
not its block could be stored.

The request itself and the body of its answer are left out: what an attempt learns is a status
and headers, both inputs. A step that cannot be taken in a state is refused with a text, which
is no error of the program. Nothing forces a call to go on: dropping a call between two steps is
a run in which it takes no further one, and all that is proved of runs holds of those.
-/

set_option autoImplicit false

namespace CryptoNav.Dispatch

open CryptoNav.Lib

structure Response where
  status : ℕ
  headers : Headers := []

def Response.rateLimited (response : Response) : Bool :=
  response.status = 429 || response.status = 418

/-- `retry_after(..).unwrap_or_else(..)` -/
def cooldown {Ip : Type} (config : DispatcherConfig Ip) (response : Response) : ℕ :=
  (retryAfter response.headers).getD
    (if response.status = 418 then config.backoff418 else config.cooldown429)

/-- Where a call stands. -/
inductive Phase (Ip : Type) where
  | starting (attempt : ℕ)
  /-- The clock is read, the lock of `reserve_client` is not held yet. -/
  | reserving (attempt now : ℕ)
  | sent (attempt index : ℕ)
  | observing (attempt index : ℕ) (response : Response)
  | blocking (attempt index : ℕ) (response : Response)
  | returned (result : Except (DispatchError Ip) (ℕ × Response))
  | panicked

structure Call (Ip : Type) where
  weight : ℕ
  phase : Phase Ip

/-- A reservation, or a cooldown that began, at `time`. -/
inductive Event where
  | reserved (index weight now time : ℕ)
  | blocked (index time duration : ℕ)
  deriving DecidableEq

structure System (Ip : Type) where
  pool : PoolState Ip
  clock : ℕ
  calls : List (Call Ip) := []
  history : List Event := []

inductive Action where
  | tick (duration : ℕ)
  | dispatch (weight : ℕ)
  | readClock (call : ℕ)
  | reserve (call : ℕ)
  | respond (call : ℕ) (response : Response)
  | fail (call : ℕ)
  | observe (call : ℕ)
  | block (call : ℕ)

namespace System

variable {Ip : Type}

def start (config : DispatcherConfig Ip) (now : ℕ → ℕ) (clock : ℕ) : System Ip where
  pool := .new config now
  clock := clock

def setPhase (s : System Ip) (call : ℕ) (phase : Phase Ip) : System Ip :=
  { s with calls := s.calls.modify call fun c => { c with phase } }

def ipAt (s : System Ip) (index : ℕ) : Option Ip := (s.pool.clients[index]?).map IpClient.ip

def maxAttempts (config : DispatcherConfig Ip) : ℕ :=
  min (config.maxRateLimitRetries + 1) (2 ^ 64 - 1)

/-- `reserve_client`, once the lock is held. -/
def reserve (config : DispatcherConfig Ip) (s : System Ip) (call weight attempt now : ℕ) :
    System Ip :=
  match s.pool.reserveClient config now weight with
  | (pool, .error error) => { s with pool }.setPhase call (.returned (.error error))
  | (pool, .ok index) =>
    { s with
      pool, history := s.history ++ [Event.reserved index weight now s.clock] }.setPhase call
        (.sent attempt index)

/-- `update_observed_weight`, and the status check after it. -/
def observe (config : DispatcherConfig Ip) (s : System Ip) (call attempt index : ℕ)
    (response : Response) : System Ip :=
  { s with pool := s.pool.updateObservedWeight config index response.headers }.setPhase call
    (if response.rateLimited then .blocking attempt index response
      else .returned (.ok (attempt, response)))

/-- `block_client`, and the end of the attempt. -/
def block (config : DispatcherConfig Ip) (s : System Ip) (call attempt index : ℕ)
    (response : Response) : System Ip :=
  let duration := cooldown config response
  let history := s.history ++ [Event.blocked index s.clock duration]
  match s.pool.blockClient index s.clock duration with
  | none => { s with history }.setPhase call .panicked
  | some pool => { s with pool, history }.setPhase call
    (if attempt = maxAttempts config then
        (s.ipAt index).elim (.starting (attempt + 1)) fun ip =>
          .returned (.error (.rateLimited ip response.status duration))
      else .starting (attempt + 1))

/-- One atomic step. -/
def step (config : DispatcherConfig Ip) (s : System Ip) : Action → Except String (System Ip)
  | .tick duration => .ok { s with clock := s.clock + duration }
  | .dispatch weight =>
    let phase := if config.maxWeightPerWindow < weight then
        .returned (.error (.weightExceedsLimit weight config.maxWeightPerWindow))
      else .starting 1
    .ok { s with calls := s.calls ++ [{ weight, phase }] }
  | .readClock call =>
    match s.calls[call]? with
    | some ⟨_, .starting attempt⟩ => .ok (s.setPhase call (.reserving attempt s.clock))
    | _ => .error "not enabled"
  | .reserve call =>
    match s.calls[call]? with
    | some ⟨weight, .reserving attempt now⟩ => .ok (s.reserve config call weight attempt now)
    | _ => .error "not enabled"
  | .respond call response =>
    match s.calls[call]? with
    | some ⟨_, .sent attempt index⟩ => .ok (s.setPhase call (.observing attempt index response))
    | _ => .error "not enabled"
  | .fail call =>
    match s.calls[call]? with
    | some ⟨_, .sent _ index⟩ => match s.ipAt index with
      | some ip => .ok (s.setPhase call (.returned (.error (.request ip))))
      | none => .error "not enabled"
    | _ => .error "not enabled"
  | .observe call =>
    match s.calls[call]? with
    | some ⟨_, .observing attempt index response⟩ =>
      .ok (s.observe config call attempt index response)
    | _ => .error "not enabled"
  | .block call =>
    match s.calls[call]? with
    | some ⟨_, .blocking attempt index response⟩ =>
      .ok (s.block config call attempt index response)
    | _ => .error "not enabled"

/-- The steps that touch the pool or the history; all others only move a call or the clock. -/
inductive Effect (config : DispatcherConfig Ip) (s s' : System Ip) : Action → Prop where
  | quiet {a : Action} (hpool : s'.pool = s.pool) (hhistory : s'.history = s.history)
      (hclock : s.clock ≤ s'.clock) : Effect config s s' a
  | reserved {call weight attempt now : ℕ}
      (hcall : s.calls[call]? = some ⟨weight, .reserving attempt now⟩)
      (hs' : s' = s.reserve config call weight attempt now) : Effect config s s' (.reserve call)
  | observed {call weight attempt index : ℕ} {response : Response}
      (hcall : s.calls[call]? = some ⟨weight, .observing attempt index response⟩)
      (hs' : s' = s.observe config call attempt index response) : Effect config s s' (.observe call)
  | blocked {call weight attempt index : ℕ} {response : Response}
      (hcall : s.calls[call]? = some ⟨weight, .blocking attempt index response⟩)
      (hs' : s' = s.block config call attempt index response) : Effect config s s' (.block call)

theorem step_effect {config : DispatcherConfig Ip} {s s' : System Ip} {a : Action}
    (h : step config s a = .ok s') : Effect config s s' a := by
  cases a with
  | tick duration =>
    cases h
    exact .quiet rfl rfl (Nat.le_add_right _ _)
  | dispatch weight =>
    cases h
    exact .quiet rfl rfl le_rfl
  | readClock call =>
    simp only [step] at h
    split at h
    · cases h
      exact .quiet rfl rfl le_rfl
    · cases h
  | reserve call =>
    simp only [step] at h
    split at h
    · rename_i hcall
      cases h
      exact .reserved hcall rfl
    · cases h
  | respond call response =>
    simp only [step] at h
    split at h
    · cases h
      exact .quiet rfl rfl le_rfl
    · cases h
  | fail call =>
    simp only [step] at h
    split at h
    · split at h
      · cases h
        exact .quiet rfl rfl le_rfl
      · cases h
    · cases h
  | observe call =>
    simp only [step] at h
    split at h
    · rename_i hcall
      cases h
      exact .observed hcall rfl
    · cases h
  | block call =>
    simp only [step] at h
    split at h
    · rename_i hcall
      cases h
      exact .blocked hcall rfl
    · cases h

theorem reserve_pool (config : DispatcherConfig Ip) (s : System Ip) (call weight attempt now : ℕ) :
    (s.reserve config call weight attempt now).pool
      = (s.pool.reserveClient config now weight).1 := by
  unfold reserve
  split
  · rename_i pool error h
    rw [h]
    rfl
  · rename_i pool index h
    rw [h]
    rfl

theorem reserve_clock (config : DispatcherConfig Ip) (s : System Ip)
    (call weight attempt now : ℕ) :
    (s.reserve config call weight attempt now).clock = s.clock := by
  unfold reserve
  split
  · rfl
  · rfl

/-- A reservation enters the history with the client that the pool selected. -/
theorem reserve_history (config : DispatcherConfig Ip) (s : System Ip)
    (call weight attempt now : ℕ) :
    (s.reserve config call weight attempt now).history
      = s.history ++ match (s.pool.reserveClient config now weight).2 with
        | .ok index => [.reserved index weight now s.clock]
        | .error _ => [] := by
  unfold reserve
  split
  · rename_i pool error h
    rw [h, List.append_nil]
    rfl
  · rename_i pool index h
    rw [h]
    rfl

@[simp] theorem block_history (config : DispatcherConfig Ip) (s : System Ip)
    (call attempt index : ℕ) (response : Response) :
    (s.block config call attempt index response).history
      = s.history ++ [.blocked index s.clock (cooldown config response)] := by
  unfold block
  simp only
  split
  · rfl
  · rfl

@[simp] theorem block_clock (config : DispatcherConfig Ip) (s : System Ip)
    (call attempt index : ℕ) (response : Response) :
    (s.block config call attempt index response).clock = s.clock := by
  unfold block
  simp only
  split
  · rfl
  · rfl

/-- The pool has the new block when its end is an `Instant`, and is left alone when it is not. -/
theorem block_pool (config : DispatcherConfig Ip) (s : System Ip) (call attempt index : ℕ)
    (response : Response) :
    (s.block config call attempt index response).pool
      = (s.pool.blockClient index s.clock (cooldown config response)).getD s.pool := by
  unfold block
  simp only
  split
  · rename_i h
    rw [h]
    rfl
  · rename_i pool h
    rw [h]
    rfl

/-- A step keeps the clock, or lets it advance. -/
theorem step_clock {config : DispatcherConfig Ip} {s s' : System Ip} {a : Action}
    (h : step config s a = .ok s') : s.clock ≤ s'.clock := by
  cases step_effect h with
  | quiet _ _ hclock => exact hclock
  | reserved _ hs' =>
    rw [hs', reserve_clock]
  | observed _ hs' => exact hs' ▸ le_rfl
  | blocked _ hs' => rw [hs', block_clock]

/-- Every waiting call read its clock in the past. Between the reading and the lock other calls may
    pass, so the reading may be long out of date. -/
def ClockRead (s : System Ip) : Prop :=
  ∀ call weight attempt now : ℕ, s.calls[call]? = some ⟨weight, .reserving attempt now⟩ →
    now ≤ s.clock

theorem setPhase_reserving {s : System Ip} {call : ℕ} {phase : Phase Ip} {c weight attempt now : ℕ}
    (h : (s.setPhase call phase).calls[c]? = some ⟨weight, .reserving attempt now⟩) :
    phase = .reserving attempt now ∨ s.calls[c]? = some ⟨weight, .reserving attempt now⟩ := by
  replace h : (s.calls.modify call fun c => { c with phase })[c]? = _ := h
  rw [modify_get] at h
  by_cases hc : call = c
  · rw [if_pos hc] at h
    obtain ⟨old, -, hnew⟩ := Option.map_eq_some_iff.mp h
    exact .inl (congrArg Call.phase hnew)
  · rw [if_neg hc] at h
    exact .inr h

theorem ClockRead.step {config : DispatcherConfig Ip} {s s' : System Ip} {a : Action}
    (h : ClockRead s) (hstep : step config s a = .ok s') : ClockRead s' := by
  have hphase : ∀ call phase (t : System Ip), t.calls = s.calls → s.clock ≤ t.clock →
      (∀ attempt now, phase = .reserving attempt now → now ≤ t.clock) →
      ClockRead (t.setPhase call phase) := by
    intro call phase t hcalls hclock hnow c weight attempt now hc
    rcases setPhase_reserving hc with hp | hold
    · exact hnow attempt now hp
    · rw [hcalls] at hold
      exact (h c weight attempt now hold).trans hclock
  cases a with
  | tick duration =>
    cases hstep
    exact fun c weight attempt now hc => (h c weight attempt now hc).trans (Nat.le_add_right _ _)
  | dispatch weight =>
    cases hstep
    intro c w attempt now hc
    replace hc : (s.calls ++ [_])[c]? = _ := hc
    rw [List.getElem?_append] at hc
    split at hc
    · exact h c w attempt now hc
    · -- A new call has not read the clock.
      have hmem := List.mem_of_getElem? hc
      rw [List.mem_singleton, Call.mk.injEq] at hmem
      obtain ⟨-, hphase⟩ := hmem
      split at hphase
      · cases hphase
      · cases hphase
  | readClock call =>
    simp only [System.step] at hstep
    split at hstep
    · cases hstep
      refine hphase _ _ s rfl le_rfl fun attempt now hp => ?_
      cases hp
      exact le_rfl
    · cases hstep
  | reserve call =>
    simp only [System.step] at hstep
    split at hstep
    · cases hstep
      unfold System.reserve
      split
      · exact hphase _ _ _ rfl le_rfl fun _ _ hp => by cases hp
      · exact hphase _ _ _ rfl le_rfl fun _ _ hp => by cases hp
    · cases hstep
  | respond call response =>
    simp only [System.step] at hstep
    split at hstep
    · cases hstep
      exact hphase _ _ s rfl le_rfl fun _ _ hp => by cases hp
    · cases hstep
  | fail call =>
    simp only [System.step] at hstep
    split at hstep
    · split at hstep
      · cases hstep
        exact hphase _ _ s rfl le_rfl fun _ _ hp => by cases hp
      · cases hstep
    · cases hstep
  | observe call =>
    simp only [System.step] at hstep
    split at hstep
    · cases hstep
      refine hphase _ _ _ rfl le_rfl fun _ _ hp => ?_
      split at hp
      · cases hp
      · cases hp
    · cases hstep
  | block call =>
    simp only [System.step] at hstep
    split at hstep
    · cases hstep
      unfold System.block
      simp only
      split
      · exact hphase _ _ _ rfl le_rfl fun _ _ hp => by cases hp
      refine hphase _ _ _ rfl le_rfl fun _ _ hp => ?_
      split at hp
      · cases hip : s.ipAt _ with
        | none =>
          rw [hip] at hp
          cases hp
        | some ip =>
          rw [hip] at hp
          cases hp
      · cases hp
    · cases hstep

end System
end CryptoNav.Dispatch
