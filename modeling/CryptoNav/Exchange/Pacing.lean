import CryptoNav.Lib.Mutex
import CryptoNav.Dispatch.Pool
import CryptoNav.Exchange.Client

/-!
# Pacing the history requests of Bitget

The clones of a client share the time of the next request behind one lock. `wait_turn` holds the
lock while it sleeps until that time, and `history_get` asks again after a limited answer, when the
delay that the answer gave is over. Any number of calls run at once, time passes between any two
of their steps, and a call may be dropped wherever it waits. The turns are then a
minimum interval apart (`turns_apart`), and each call keeps to its delays and its number of retries
(`attempts_of_run`).

Times are nanoseconds. A sleep ends at its deadline or later.
-/

set_option autoImplicit false

namespace CryptoNav.Exchange.Pacing

open CryptoNav.Lib
open CryptoNav.Dispatch (DispatchError seconds)

/-! ## The policy -/

/-- `ExchangeError`, with an error of the dispatcher in full. -/
inductive HistoryError (Ip : Type) where
  | dispatch (error : DispatchError Ip)
  | exchange (error : ExchangeError)

structure HistoryRequestPolicy where
  minInterval : ℕ
  max429Retries : ℕ

def historyRetryDelay {Ip : Type} : HistoryError Ip → Option ℕ
  | .dispatch (.rateLimited _ _ retryAfter) => some retryAfter
  | .dispatch (.noAvailableIp (some retryAfter)) => some retryAfter
  | .exchange (.api _ code _) => if code = "429" then some (seconds 60) else none
  | _ => none

/-- What `private_get` answers. -/
abbrev Answer (Ip : Type) : Type := Except (HistoryError Ip) Json

/-- The delay that a limited answer gives. -/
def Answer.delay {Ip : Type} : Answer Ip → Option ℕ
  | .ok _ => none
  | .error error => historyRetryDelay error

/-! ## Calls -/

/-- Where a call of `history_get` stands, in the turn `retry` of its loop. -/
inductive Phase (Ip : Type) where
  | idle
  /-- for the lock of `wait_turn` -/
  | waiting (retry : ℕ)
  /-- The lock is held, until `deadline` and the step after it. -/
  | sleeping (retry deadline : ℕ)
  | asking (retry grantedAt : ℕ)
  | backingOff (retry deadline : ℕ)
  | returned (answer : Answer Ip)
  | dropped

def Phase.inside {Ip : Type} : Phase Ip → Bool
  | sleeping .. => true
  | _ => false

/-- A request: when it had its turn, and when it was answered with what. -/
structure Attempt (Ip : Type) where
  grantedAt : ℕ
  answeredAt : ℕ
  answer : Answer Ip

/-- `attempts` is not part of the program: it is what the results speak of. -/
structure Call (Ip : Type) where
  phase : Phase Ip := .idle
  attempts : List (Attempt Ip) := []

/-- What the lock guards, and the turns that were given so far. -/
structure Turns where
  nextRequestAt : ℕ
  granted : List ℕ := []

variable {ι Ip : Type}

structure System (ι Ip : Type) where
  lock : Mutex ι Turns (Call Ip)
  clock : ℕ

def System.start (clock : ℕ) : System ι Ip where
  lock := { resource := { nextRequestAt := clock }, processes := fun _ => {} }
  clock := clock

inductive Action (ι Ip : Type) where
  | tick (duration : ℕ)
  | call (call : ι)
  | lock (call : ι)
  | wake (call : ι)
  | answer (call : ι) (answer : Answer Ip)
  | resume (call : ι)
  | drop (call : ι)

/-- Where a call goes from an answer in the turn `retry`. -/
def afterAnswer (policy : HistoryRequestPolicy) (clock retry : ℕ) (answer : Answer Ip) : Phase Ip :=
  match answer.delay with
  | none => .returned answer
  | some delay =>
    if retry = policy.max429Retries then .returned answer else .backingOff retry (clock + delay)

section Step

variable [DecidableEq ι] (policy : HistoryRequestPolicy)

/-- One atomic step. -/
def System.step (s : System ι Ip) : Action ι Ip → Except String (System ι Ip)
  | .tick duration => .ok { s with clock := s.clock + duration }
  | .call p =>
    match s.lock.processes p with
    | ⟨.idle, attempts⟩ => .ok { s with lock := s.lock.setProcess p ⟨.waiting 0, attempts⟩ }
    | _ => .error "not enabled"
  | .lock p =>
    match s.lock.processes p, s.lock.holder with
    | ⟨.waiting retry, attempts⟩, none =>
      let deadline := max s.clock s.lock.resource.nextRequestAt
      .ok { s with lock := s.lock.enter p ⟨.sleeping retry deadline, attempts⟩ }
    | _, _ => .error "not enabled"
  | .wake p =>
    match s.lock.processes p with
    | ⟨.sleeping retry deadline, attempts⟩ =>
      if deadline ≤ s.clock then
        let turns := { nextRequestAt := s.clock + policy.minInterval,
                       granted := s.lock.resource.granted ++ [s.clock] }
        .ok { s with lock := s.lock.leave p turns ⟨.asking retry s.clock, attempts⟩ }
      else .error "not enabled"
    | _ => .error "not enabled"
  | .answer p answer =>
    match s.lock.processes p with
    | ⟨.asking retry grantedAt, attempts⟩ =>
      let attempts := attempts ++ [⟨grantedAt, s.clock, answer⟩]
      .ok { s with lock := s.lock.setProcess p ⟨afterAnswer policy s.clock retry answer, attempts⟩ }
    | _ => .error "not enabled"
  | .resume p =>
    match s.lock.processes p with
    | ⟨.backingOff retry deadline, attempts⟩ =>
      if deadline ≤ s.clock then
        .ok { s with lock := s.lock.setProcess p ⟨.waiting (retry + 1), attempts⟩ }
      else .error "not enabled"
    | _ => .error "not enabled"
  | .drop p =>
    match s.lock.processes p with
    | ⟨.returned _, _⟩ => .error "not enabled"
    | ⟨_, attempts⟩ => .ok { s with lock := s.lock.quit p ⟨.dropped, attempts⟩ }

end Step

/-! ## What every run keeps -/

/-- The turns given are an interval apart, and the next one is an interval after the last. The time
    of the next request is what the lock protects. -/
structure Turns.Spaced (minInterval : ℕ) (turns : Turns) : Prop where
  apart : turns.granted.Pairwise fun t u => t + minInterval ≤ u
  next : ∀ t ∈ turns.granted, t + minInterval ≤ turns.nextRequestAt

theorem Turns.Spaced.grant {minInterval clock : ℕ} {turns : Turns} (h : turns.Spaced minInterval)
    (hturn : turns.nextRequestAt ≤ clock) :
    Turns.Spaced minInterval ⟨clock + minInterval, turns.granted ++ [clock]⟩ where
  apart := by
    rw [List.pairwise_append]
    refine ⟨h.apart, List.pairwise_singleton .., ?_⟩
    intro t ht u hu
    cases List.mem_singleton.mp hu
    exact (h.next t ht).trans hturn
  next := by
    intro t ht
    rcases List.mem_append.mp ht with ht | ht
    · exact ((h.next t ht).trans hturn).trans (Nat.le_add_right _ _)
    · cases List.mem_singleton.mp ht
      exact le_rfl

/-- The second attempt keeps to the delay that the answer of the first gave. An answer without a
    delay is not asked again, so it has no second attempt. -/
def Delayed (a b : Attempt Ip) : Prop :=
  ∃ delay, a.answer.delay = some delay ∧ a.answeredAt + delay ≤ b.grantedAt

/-- A call that may have its next turn from `from` on: all its answers were limited. -/
structure Limited (attempts : List (Attempt Ip)) (ready : ℕ) : Prop where
  chain : attempts.IsChain Delayed
  last : ∀ a ∈ attempts.getLast?, ∃ delay, a.answer.delay = some delay ∧ a.answeredAt + delay ≤ ready

theorem Limited.mono {attempts : List (Attempt Ip)} {ready ready' : ℕ} (h : Limited attempts ready)
    (hle : ready ≤ ready') : Limited attempts ready' where
  chain := h.chain
  last a ha := by
    obtain ⟨delay, hdelay, hready⟩ := h.last a ha
    exact ⟨delay, hdelay, hready.trans hle⟩

/-- The turn after it: a chain again. -/
theorem Limited.attempt {attempts : List (Attempt Ip)} {next : Attempt Ip}
    (h : Limited attempts next.grantedAt) : (attempts ++ [next]).IsChain Delayed := by
  rw [List.isChain_append]
  refine ⟨h.chain, List.isChain_singleton _, ?_⟩
  intro a ha b hb
  cases Option.mem_some_iff.mp hb
  exact h.last a ha

/-- What holds of a call at the time `clock`. -/
def Call.Consistent (policy : HistoryRequestPolicy) (clock : ℕ) (turns : Turns)
    (call : Call Ip) : Prop :=
  match call.phase with
  | .idle => call.attempts = []
  | .waiting retry => call.attempts.length = retry ∧ retry ≤ policy.max429Retries ∧
      Limited call.attempts clock
  | .sleeping retry deadline => call.attempts.length = retry ∧ retry ≤ policy.max429Retries ∧
      Limited call.attempts deadline ∧ turns.nextRequestAt ≤ deadline
  | .asking retry grantedAt => call.attempts.length = retry ∧ retry ≤ policy.max429Retries ∧
      Limited call.attempts grantedAt ∧ grantedAt ≤ clock
  | .backingOff retry deadline => call.attempts.length = retry + 1 ∧
      retry < policy.max429Retries ∧ Limited call.attempts deadline
  | .returned answer => call.attempts.length ≤ policy.max429Retries + 1 ∧
      call.attempts.IsChain Delayed ∧ (∃ a ∈ call.attempts.getLast?, a.answer = answer) ∧
      (answer.delay = none ∨ call.attempts.length = policy.max429Retries + 1)
  | .dropped => call.attempts.length ≤ policy.max429Retries + 1 ∧ call.attempts.IsChain Delayed

theorem Call.Consistent.later {policy : HistoryRequestPolicy} {clock clock' : ℕ} {turns : Turns}
    {call : Call Ip} (h : call.Consistent policy clock turns) (hle : clock ≤ clock') :
    call.Consistent policy clock' turns := by
  obtain ⟨phase, attempts⟩ := call
  cases phase with
  | waiting retry => exact ⟨h.1, h.2.1, h.2.2.mono hle⟩
  | asking retry grantedAt => exact ⟨h.1, h.2.1, h.2.2.1, h.2.2.2.trans hle⟩
  | idle | sleeping | backingOff | returned | dropped => exact h

/-- What holds of a call outside of the lock does not depend on the turns. -/
theorem Call.Consistent.outside {policy : HistoryRequestPolicy} {clock : ℕ} (turns turns' : Turns)
    (call : Call Ip) (hcall : call.phase.inside = false) (h : call.Consistent policy clock turns) :
    call.Consistent policy clock turns' := by
  obtain ⟨phase, attempts⟩ := call
  cases phase with
  | sleeping => cases hcall
  | idle | waiting | asking | backingOff | returned | dropped => exact h

theorem Call.Consistent.dropped {policy : HistoryRequestPolicy} {clock : ℕ} {turns : Turns}
    {call : Call Ip} (h : call.Consistent policy clock turns) :
    Call.Consistent policy clock turns ⟨.dropped, call.attempts⟩ := by
  obtain ⟨phase, attempts⟩ := call
  cases phase with
  | idle =>
    have hnone : attempts = [] := h
    rw [hnone]
    exact ⟨Nat.zero_le _, List.isChain_nil⟩
  | waiting retry => exact ⟨h.1.le.trans (Nat.le_succ_of_le h.2.1), h.2.2.chain⟩
  | sleeping retry deadline => exact ⟨h.1.le.trans (Nat.le_succ_of_le h.2.1), h.2.2.1.chain⟩
  | asking retry grantedAt => exact ⟨h.1.le.trans (Nat.le_succ_of_le h.2.1), h.2.2.1.chain⟩
  | backingOff retry deadline => exact ⟨h.1.le.trans (Nat.succ_le_succ h.2.1.le), h.2.2.chain⟩
  | returned answer => exact ⟨h.1, h.2.1⟩
  | dropped => exact h

/-- A call after an answer in its turn `retry`. -/
theorem Call.Consistent.answer {policy : HistoryRequestPolicy} {clock retry grantedAt : ℕ}
    {turns : Turns} {attempts : List (Attempt Ip)}
    (h : Call.Consistent policy clock turns ⟨.asking retry grantedAt, attempts⟩)
    (answer : Answer Ip) :
    Call.Consistent policy clock turns
      ⟨afterAnswer policy clock retry answer, attempts ++ [⟨grantedAt, clock, answer⟩]⟩ := by
  obtain ⟨hlength, hretry, hlimited, -⟩ := h
  have hchain := @Limited.attempt _ _ ⟨grantedAt, clock, answer⟩ hlimited
  have hcount : (attempts ++ [(⟨grantedAt, clock, answer⟩ : Attempt Ip)]).length = retry + 1 := by
    rw [List.length_append, hlength]
    rfl
  have hlast : (attempts ++ [(⟨grantedAt, clock, answer⟩ : Attempt Ip)]).getLast? =
      some ⟨grantedAt, clock, answer⟩ := List.getLast?_concat
  unfold afterAnswer
  cases hdelay : answer.delay with
  | none => exact ⟨hcount.le.trans (Nat.succ_le_succ hretry), hchain, ⟨_, hlast, rfl⟩, .inl hdelay⟩
  | some delay =>
    dsimp only
    split
    · rename_i hfinal
      exact ⟨hcount.le.trans (Nat.succ_le_succ hretry), hchain, ⟨_, hlast, rfl⟩,
        .inr (hcount.trans (congrArg Nat.succ hfinal))⟩
    · refine ⟨hcount, by omega, hchain, ?_⟩
      intro a ha
      cases Option.mem_some_iff.mp (hlast ▸ ha)
      exact ⟨delay, hdelay, le_rfl⟩

abbrev System.Consistent (policy : HistoryRequestPolicy) (s : System ι Ip) : Prop :=
  s.lock.Disciplined (fun call => call.phase.inside) (Turns.Spaced policy.minInterval)
    (Call.Consistent policy s.clock)

theorem start_consistent (policy : HistoryRequestPolicy) (clock : ℕ) : (System.start clock : System ι Ip).Consistent policy where
  holds := fun _ => iff_of_false (by simp [System.start, Phase.inside]) (by simp [System.start])
  resource := ⟨List.Pairwise.nil, fun t ht => by cases ht⟩
  process := fun _ => rfl

section Runs

variable [DecidableEq ι] {policy : HistoryRequestPolicy}

theorem System.Consistent.step {s t : System ι Ip} {action : Action ι Ip}
    (h : s.Consistent policy) (hstep : s.step policy action = .ok t) : t.Consistent policy := by
  cases action with
  | tick duration =>
    cases hstep
    exact ⟨h.holds, h.resource, fun p => (h.process p).later (Nat.le_add_right _ _)⟩
  | call p =>
    simp only [System.step] at hstep
    split at hstep
    · rename_i attempts hp
      cases hstep
      have hcall := h.process p
      rw [hp] at hcall
      have hnone : attempts = [] := hcall
      refine h.setProcess (by rw [hp]; rfl) ?_
      rw [hnone]
      exact ⟨rfl, Nat.zero_le _, List.isChain_nil, fun a ha => by cases ha⟩
    · cases hstep
  | lock p =>
    simp only [System.step] at hstep
    split at hstep
    · rename_i retry attempts hp hfree
      cases hstep
      have hcall := h.process p
      rw [hp] at hcall
      exact h.enter hfree rfl
        ⟨hcall.1, hcall.2.1, hcall.2.2.mono (le_max_left _ _), le_max_right _ _⟩
    · cases hstep
  | wake p =>
    simp only [System.step] at hstep
    split at hstep
    · rename_i retry deadline attempts hp
      split at hstep
      · rename_i hdeadline
        cases hstep
        have hcall := h.process p
        rw [hp] at hcall
        obtain ⟨hlength, hretry, hlimited, hturn⟩ := hcall
        exact h.leave Call.Consistent.outside (by rw [hp]; rfl) rfl
          (h.resource.grant (hturn.trans hdeadline))
          ⟨hlength, hretry, hlimited.mono hdeadline, le_rfl⟩
      · cases hstep
    · cases hstep
  | answer p answer =>
    simp only [System.step] at hstep
    split at hstep
    · rename_i retry grantedAt attempts hp
      cases hstep
      have hcall := h.process p
      rw [hp] at hcall
      refine h.setProcess ?_ (hcall.answer answer)
      rw [hp]
      unfold afterAnswer
      split
      · rfl
      · split <;> rfl
    · cases hstep
  | resume p =>
    simp only [System.step] at hstep
    split at hstep
    · rename_i retry deadline attempts hp
      split at hstep
      · rename_i hdeadline
        cases hstep
        have hcall := h.process p
        rw [hp] at hcall
        refine h.setProcess (by rw [hp]; rfl) ?_
        exact ⟨hcall.1, hcall.2.1, hcall.2.2.mono hdeadline⟩
      · cases hstep
    · cases hstep
  | drop p =>
    have hdropped := (h.process p).dropped
    simp only [System.step] at hstep
    split at hstep
    · cases hstep
    · rename_i attempts _ hp
      cases hstep
      rw [hp] at hdropped
      exact h.quit Call.Consistent.outside rfl hdropped

/-- **Turns are an interval apart**, however calls overlap, wait, retry and are dropped. The turns
    are the times at which the lock was given back with a turn granted, so nothing is said of what a
    request then takes to arrive. -/
theorem turns_apart {clock : ℕ} {actions : List (Action ι Ip)} {s : System ι Ip}
    (hrun : actions.foldlM (System.step policy) (System.start clock) = .ok s) :
    s.lock.resource.granted.Pairwise fun t u => t + policy.minInterval ≤ u :=
  (run_invariant (P := System.Consistent policy) (fun _ _ _ _ hs hstep => hs.step hstep)
    (start_consistent policy clock) hrun).resource.apart

/-- Two calls at once, of which one is limited and asks again. -/
def sampleActions : List (Action Bool Unit) :=
  [.call true, .call false, .lock true, .wake true, .lock false,
    .answer true (.error (.dispatch (.rateLimited () 429 (seconds 2)))), .tick (seconds 1),
    .wake false, .answer false (.ok .null), .tick (seconds 1), .resume true, .lock true, .wake true,
    .answer true (.ok .null)]

def samplePolicy : HistoryRequestPolicy := ⟨250000000, 3⟩

theorem turns_of_sample :
    ∃ s, sampleActions.foldlM (System.step samplePolicy) (System.start 0) = .ok s ∧
      s.lock.resource.granted.Pairwise fun t u => t + samplePolicy.minInterval ≤ u :=
  ⟨_, rfl, turns_apart (show sampleActions.foldlM (System.step samplePolicy) (System.start 0) =
    .ok _ from rfl)⟩

/-- **A call keeps to its delays and its retries**, and returns what it was answered last: an
answer that is not limited, or the last one it may ask for. -/
theorem attempts_of_run {clock : ℕ} {actions : List (Action ι Ip)} {s : System ι Ip}
    (hrun : actions.foldlM (System.step policy) (System.start clock) = .ok s) (p : ι) :
    let call := s.lock.processes p
    call.attempts.length ≤ policy.max429Retries + 1 ∧ call.attempts.IsChain Delayed ∧
      ∀ answer, call.phase = .returned answer →
        (∃ a ∈ call.attempts.getLast?, a.answer = answer) ∧
          (answer.delay = none ∨ call.attempts.length = policy.max429Retries + 1) := by
  have hcall := (run_invariant (P := System.Consistent policy)
    (fun _ _ _ _ hs hstep => hs.step hstep) (start_consistent policy clock) hrun).process p
  refine ⟨hcall.dropped.1, hcall.dropped.2, fun answer hphase => ?_⟩
  unfold Call.Consistent at hcall
  rw [hphase] at hcall
  exact hcall.2.2

theorem attempts_of_sample :
    ∃ s, sampleActions.foldlM (System.step samplePolicy) (System.start 0) = .ok s ∧
      let call := s.lock.processes true
      call.attempts.length ≤ samplePolicy.max429Retries + 1 ∧ call.attempts.IsChain Delayed ∧
        ∀ answer, call.phase = .returned answer →
          (∃ a ∈ call.attempts.getLast?, a.answer = answer) ∧
            (answer.delay = none ∨ call.attempts.length = samplePolicy.max429Retries + 1) :=
  ⟨_, rfl, attempts_of_run (show sampleActions.foldlM (System.step samplePolicy) (System.start 0) =
    .ok _ from rfl) true⟩

end Runs

end CryptoNav.Exchange.Pacing
