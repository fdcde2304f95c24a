import CryptoNav.Dispatch.Calls

/-!
# Cooldowns

A rate-limit answer with a cooldown blocks its IP. `update_observed_weight` takes care that a late
response does not move the estimate backwards; `block_client` takes no such care, and a late short
cooldown ends a longer ban that is in force. A cooldown so long that its end is no `Instant` is not
stored at all: the call that was to store it panics. Where every block can be stored and none ends
before the one it replaces, every cooldown is honoured (`cooldowns_honoured`).

What is kept along a run is `Guarded`: the IPs are those of the configuration, no waiting call read
the clock in the future, every cooldown is over or its IP is blocked at least that long (`Held`),
and no reservation so far fell into a cooldown (`Honoured`).

A reservation that was decided before the block was set may still be sent after it: the request
is on its way and nothing could stop it. `Respects` compares clock readings, so what it forbids
is a reservation that was decided inside the cooldown. Whether the exchange counts the time in
the same way is left out; the header is taken at its word.
-/

set_option autoImplicit false

namespace CryptoNav.Dispatch

open CryptoNav.Lib

variable {Ip : Type}

/-! ## The block of one IP -/

def PoolState.blockedAt (pool : PoolState Ip) (index : ℕ) : Option ℕ :=
  (pool.clients[index]?).bind IpClient.blockedUntil

/-- An update of one client that leaves its block alone. -/
theorem modify_blockedUntil (clients : List (IpClient Ip)) (target index : ℕ)
    {f : IpClient Ip → IpClient Ip} (hf : ∀ c, (f c).blockedUntil = c.blockedUntil) :
    ((clients.modify target f)[index]?).bind IpClient.blockedUntil
      = (clients[index]?).bind IpClient.blockedUntil := by
  rw [modify_get]
  split
  · cases clients[index]? with
    | none => rfl
    | some client => exact hf client
  · rfl

theorem refresh_blockedAt (pool : PoolState Ip) (now window index : ℕ) :
    (pool.refresh now window).blockedAt index = (pool.blockedAt index).filter (now < ·) := by
  unfold PoolState.blockedAt PoolState.refresh
  rw [List.getElem?_map]
  cases pool.clients[index]? with
  | none => rfl
  | some client => exact client.refresh_blocked now window

theorem reserveClient_blockedAt (pool : PoolState Ip) (config : DispatcherConfig Ip)
    (now weight index : ℕ) :
    (pool.reserveClient config now weight).1.blockedAt index
      = (pool.blockedAt index).filter (now < ·) := by
  rw [← refresh_blockedAt pool now config.window index]
  rcases pool.reserveClient_cases config now weight with ⟨target, -, -, -, -, -, h⟩ | ⟨-, h, -⟩
  · unfold PoolState.blockedAt
    rw [h]
    exact modify_blockedUntil _ target index fun _ => rfl
  · rw [h]

theorem updateObservedWeight_blockedAt (pool : PoolState Ip) (config : DispatcherConfig Ip)
    (target : ℕ) (headers : Headers) (index : ℕ) :
    (pool.updateObservedWeight config target headers).blockedAt index = pool.blockedAt index := by
  unfold PoolState.updateObservedWeight
  simp only
  split
  · rfl
  · exact modify_blockedUntil _ target index fun _ => rfl

theorem blockClient_blockedAt (pool : PoolState Ip) {target now duration : ℕ} (index : ℕ)
    (hfits : now + duration < seconds (2 ^ 63)) :
    ((pool.blockClient target now duration).getD pool).blockedAt index
      = if target = index then (pool.clients[index]?).map fun _ => now + duration
        else pool.blockedAt index := by
  rw [PoolState.blockClient, instantAdd, if_pos hfits, Option.map_some, Option.getD_some]
  unfold PoolState.blockedAt
  rw [modify_get]
  by_cases h : target = index
  · rw [if_pos h, if_pos h]
    cases pool.clients[index]? with
    | none => rfl
    | some client => rfl
  · rw [if_neg h, if_neg h]

/-! ## The IPs of the pool -/

theorem modify_ips (clients : List (IpClient Ip)) (target : ℕ) {f : IpClient Ip → IpClient Ip}
    (hf : ∀ c, (f c).ip = c.ip) :
    (clients.modify target f).map IpClient.ip = clients.map IpClient.ip := by
  refine List.ext_getElem? fun i => ?_
  rw [List.getElem?_map, List.getElem?_map, modify_get]
  split
  · cases clients[i]? with
    | none => rfl
    | some client => exact congrArg some (hf client)
  · rfl

theorem reserveClient_ips (pool : PoolState Ip) (config : DispatcherConfig Ip) (now weight : ℕ) :
    (pool.reserveClient config now weight).1.clients.map IpClient.ip
      = pool.clients.map IpClient.ip := by
  have hrefresh : (pool.refresh now config.window).clients.map IpClient.ip
      = pool.clients.map IpClient.ip := by
    unfold PoolState.refresh
    rw [List.map_map]
    exact List.map_congr_left fun client _ => client.refresh_ip now config.window
  rcases pool.reserveClient_cases config now weight with ⟨target, -, -, -, -, -, h⟩ | ⟨-, h, -⟩
  · rw [h, modify_ips _ target (f := fun client => client.charge weight) fun _ => rfl, hrefresh]
  · rw [h, hrefresh]

theorem updateObservedWeight_ips (pool : PoolState Ip) (config : DispatcherConfig Ip) (target : ℕ)
    (headers : Headers) :
    (pool.updateObservedWeight config target headers).clients.map IpClient.ip
      = pool.clients.map IpClient.ip := by
  unfold PoolState.updateObservedWeight
  simp only
  split
  · rfl
  · exact modify_ips _ target fun _ => rfl

theorem blockClient_ips (pool : PoolState Ip) (target now duration : ℕ) :
    ((pool.blockClient target now duration).getD pool).clients.map IpClient.ip
      = pool.clients.map IpClient.ip := by
  unfold PoolState.blockClient
  cases instantAdd now duration with
  | none => rfl
  | some deadline => exact modify_ips _ target fun _ => rfl

namespace System

theorem start_ips (config : DispatcherConfig Ip) (now : ℕ → ℕ) (clock : ℕ) :
    (start config now clock).pool.clients.map IpClient.ip = config.localIps := by
  refine List.ext_getElem? fun i => ?_
  change ((config.localIps.mapIdx _).map IpClient.ip)[i]? = config.localIps[i]?
  rw [List.getElem?_map, List.getElem?_mapIdx, Option.map_map]
  exact Option.map_id'

/-- The IPs never change. -/
theorem step_ips {config : DispatcherConfig Ip} {s s' : System Ip} {a : Action}
    (h : step config s a = .ok s') :
    s'.pool.clients.map IpClient.ip = s.pool.clients.map IpClient.ip := by
  cases step_effect h with
  | quiet hpool => rw [hpool]
  | @reserved _ weight _ now _ hs' =>
    rw [hs', reserve_pool]
    exact reserveClient_ips s.pool config now weight
  | observed _ hs' =>
    rw [hs']
    exact updateObservedWeight_ips ..
  | blocked _ hs' =>
    rw [hs', block_pool]
    exact blockClient_ips ..

/-! ## Honoured cooldowns -/

/-- The later of two events is no reservation, during the cooldown that the earlier one began, of
    the IP it began for. What counts is the clock reading of the reservation, not when it got the
    lock. -/
def Respects (config : DispatcherConfig Ip) : Event → Event → Prop
  | .blocked index time duration, .reserved index' _ _ time' =>
    config.localIps[index]? = config.localIps[index']? → time + duration ≤ time'
  | _, _ => True

def Honoured (config : DispatcherConfig Ip) (s : System Ip) : Prop :=
  s.history.Pairwise (Respects config)

/-- A block that is about to be set can be stored, and does not end before the one it replaces.
    Where the answer has no cooldown, or the call stands elsewhere, nothing is asked of the step. -/
def KeepsBan (config : DispatcherConfig Ip) (s : System Ip) : Action → Prop
  | .block call => match s.calls[call]? with
    | some ⟨_, .blocking _ index response⟩ =>
      s.clock + cooldown config response < seconds (2 ^ 63) ∧
        ∀ deadline ∈ s.pool.blockedAt index, deadline ≤ s.clock + cooldown config response
    | _ => True
  | _ => True

/-- Every cooldown in the history is over, or its IP is blocked at least that long. A block may be
    longer than the cooldown that is asked about, when a later answer has prolonged it. -/
def Held (s : System Ip) : Prop :=
  ∀ index time duration, .blocked index time duration ∈ s.history →
    index < s.pool.clients.length → time + duration ≤ s.clock ∨
      ∃ deadline ∈ s.pool.blockedAt index, time + duration ≤ deadline

structure Guarded (config : DispatcherConfig Ip) (s : System Ip) : Prop where
  ips : s.pool.clients.map IpClient.ip = config.localIps
  clockRead : ClockRead s
  held : Held s
  honoured : Honoured config s

theorem Guarded.start (config : DispatcherConfig Ip) (now : ℕ → ℕ) (clock : ℕ) :
    Guarded config (start config now clock) where
  ips := start_ips config now clock
  clockRead := fun _ _ _ _ h => by cases h
  held := fun _ _ _ h => by cases h
  honoured := .nil

/-- Where the blocks stay or expire, a cooldown that was held is still held. -/
theorem Held.expire {s s' : System Ip} (h : Held s) (hhistory : ∀ index time duration,
      .blocked index time duration ∈ s'.history → .blocked index time duration ∈ s.history)
    (hlength : s'.pool.clients.length = s.pool.clients.length) (hclock : s.clock ≤ s'.clock)
    (hblocked : ∀ index, ∀ deadline ∈ s.pool.blockedAt index,
      deadline ≤ s'.clock ∨ deadline ∈ s'.pool.blockedAt index) : Held s' := by
  intro index time duration hmem hindex
  rcases h index time duration (hhistory index time duration hmem) (hlength ▸ hindex) with
    hover | ⟨deadline, hdeadline, hle⟩
  · exact .inl (hover.trans hclock)
  · rcases hblocked index deadline hdeadline with hover | hstill
    · exact .inl (hle.trans hover)
    · exact .inr ⟨deadline, hstill, hle⟩

/-- A reserved client has no block that outlasts the clock reading. -/
theorem reserveClient_free {pool : PoolState Ip} {config : DispatcherConfig Ip}
    {now weight index : ℕ} (h : (pool.reserveClient config now weight).2 = .ok index) :
    index < pool.clients.length ∧ ∀ deadline ∈ pool.blockedAt index, deadline ≤ now := by
  rcases pool.reserveClient_cases config now weight with
    ⟨index', client, hclient, haccepts, -, hok, -⟩ | ⟨⟨_, herror⟩, -⟩
  · obtain rfl : index' = index := Except.ok.inj (hok.symm.trans h)
    have hlt : index' < pool.clients.length := by
      rw [← List.length_map (f := fun c => c.refresh now config.window)]
      exact (List.getElem?_eq_some_iff.mp hclient).1
    refine ⟨hlt, fun deadline hd => ?_⟩
    have hnone : (pool.blockedAt index').filter (now < ·) = none := by
      rw [← refresh_blockedAt pool now config.window index']
      unfold PoolState.blockedAt
      rw [hclient]
      exact Option.isNone_iff_eq_none.mp (Bool.and_eq_true_iff.mp haccepts).1
    rw [Option.mem_def.mp hd, Option.filter_some] at hnone
    split at hnone
    · cases hnone
    · rename_i hlater
      exact Nat.not_lt.mp fun hlt => hlater (decide_eq_true hlt)
  · cases h.symm.trans herror

/-- A block that keeps the ban it replaces keeps the cooldowns that the ban stood for. -/
theorem Guarded.held_step {config : DispatcherConfig Ip} {s s' : System Ip} {a : Action}
    (h : Guarded config s) (hstep : step config s a = .ok s')
    (hkeeps : KeepsBan config s a) : Held s' := by
  have hlength : s'.pool.clients.length = s.pool.clients.length := by
    rw [← List.length_map IpClient.ip, step_ips hstep, List.length_map]
  have hclock := step_clock hstep
  cases step_effect hstep with
  | quiet hpool hhistory _ =>
    exact h.held.expire (fun _ _ _ hmem => hhistory ▸ hmem) hlength hclock fun index deadline hd =>
      .inr (hpool ▸ hd)
  | @reserved call weight attempt now hcall hs' =>
    have hnow : now ≤ s.clock := h.clockRead call weight attempt now hcall
    refine h.held.expire (fun index time duration hmem => ?_) hlength hclock
      fun index deadline hd => ?_
    · rw [hs', reserve_history, List.mem_append] at hmem
      rcases hmem with hold | hnew
      · exact hold
      · -- What is new is a reservation.
        split at hnew
        · cases List.mem_singleton.mp hnew
        · cases hnew
    · rw [hs', reserve_clock, reserve_pool, reserveClient_blockedAt]
      by_cases hlt : now < deadline
      · exact .inr (Option.mem_filter_iff.mpr ⟨hd, decide_eq_true hlt⟩)
      · exact .inl ((Nat.not_lt.mp hlt).trans hnow)
  | observed _ hs' =>
    refine h.held.expire (fun _ _ _ hmem => ?_) hlength hclock fun index deadline hd => .inr ?_
    · rw [hs'] at hmem
      exact hmem
    · rw [hs']
      exact (updateObservedWeight_blockedAt ..).symm ▸ hd
  | @blocked call weight attempt target response hcall hs' =>
    intro index time duration hmem hindex
    have hindex' : index < s.pool.clients.length := hlength ▸ hindex
    unfold KeepsBan at hkeeps
    simp only [hcall] at hkeeps
    obtain ⟨hfits, hkeeps⟩ := hkeeps
    rw [hs', block_history] at hmem
    rw [hs', block_clock, block_pool, blockClient_blockedAt s.pool index hfits,
      List.getElem?_eq_getElem hindex']
    rcases List.mem_append.mp hmem with hold | hnew
    · rcases h.held index time duration hold hindex' with hover | ⟨deadline, hdeadline, hle⟩
      · exact .inl hover
      · refine .inr ?_
        by_cases htarget : target = index
        · rw [if_pos htarget]
          exact ⟨_, rfl, hle.trans (hkeeps deadline (htarget ▸ hdeadline))⟩
        · rw [if_neg htarget]
          exact ⟨deadline, hdeadline, hle⟩
    · cases List.mem_singleton.mp hnew
      rw [if_pos rfl]
      exact .inr ⟨_, rfl, le_rfl⟩

/-- A reservation finds its IP unblocked at a clock reading in the past, so every cooldown of that
    IP is over. -/
theorem Guarded.honoured_step {config : DispatcherConfig Ip} (hips : config.localIps.Nodup)
    {s s' : System Ip} {a : Action} (h : Guarded config s) (hstep : step config s a = .ok s') :
    Honoured config s' := by
  have hadd : ∀ f : Event, (∀ e ∈ s.history, Respects config e f) →
      (s.history ++ [f]).Pairwise (Respects config) := by
    intro f hf
    refine List.pairwise_append.mpr ⟨h.honoured, List.pairwise_singleton _ _, fun e he g hg => ?_⟩
    exact List.mem_singleton.mp hg ▸ hf e he
  unfold Honoured
  cases step_effect hstep with
  | quiet _ hhistory _ =>
    rw [hhistory]
    exact h.honoured
  | @reserved call weight attempt now hcall hs' =>
    have hnow : now ≤ s.clock := h.clockRead call weight attempt now hcall
    rw [hs', reserve_history]
    split
    · rename_i index hok
      obtain ⟨hlt, hfree⟩ := reserveClient_free hok
      refine hadd _ fun e he => ?_
      cases e with
      | reserved => trivial
      | blocked index' time duration =>
        intro hip
        have hlt' : index < config.localIps.length := by
          rw [← h.ips, List.length_map]
          exact hlt
        obtain rfl : index' = index := by
          obtain ⟨_, hget⟩ :=
            List.getElem?_eq_some_iff.mp (hip.trans (List.getElem?_eq_getElem hlt'))
          exact hips.getElem_inj_iff.mp hget
        rcases h.held index' time duration he hlt with hover | ⟨deadline, hd, hle⟩
        · exact hover
        · exact (hle.trans (hfree deadline hd)).trans hnow
    · rw [List.append_nil]
      exact h.honoured
  | observed _ hs' =>
    rw [hs']
    exact h.honoured
  | @blocked call weight attempt target response hcall hs' =>
    rw [hs', block_history]
    refine hadd (.blocked target s.clock (cooldown config response)) fun e _ => ?_
    cases e with
    | reserved => trivial
    | blocked => trivial

theorem Guarded.step {config : DispatcherConfig Ip} (hips : config.localIps.Nodup)
    {s s' : System Ip} {a : Action} (h : Guarded config s) (hstep : step config s a = .ok s')
    (hkeeps : KeepsBan config s a) : Guarded config s' where
  ips := (step_ips hstep).trans h.ips
  clockRead := h.clockRead.step hstep
  held := h.held_step hstep hkeeps
  honoured := h.honoured_step hips hstep

/-- **Cooldowns are honoured** in every run whose source IPs are distinct and in which every block
    can be stored and none ends before the one it replaces. An IP that is listed twice has two
    clients, and a cooldown blocks only the one that was answered. -/
theorem cooldowns_honoured {config : DispatcherConfig Ip} {now : ℕ → ℕ} {clock : ℕ}
    {actions : List Action} {s : System Ip} (hips : config.localIps.Nodup)
    (hkeeps : Throughout (step config) (KeepsBan config) (start config now clock) actions)
    (hrun : actions.foldlM (step config) (start config now clock) = .ok s) : Honoured config s :=
  (run_throughout (Q := Guarded config) (fun _ _ _ h hP hstep => h.step hips hstep hP)
    (.start config now clock) hkeeps hrun).honoured

/-! ## A late short cooldown -/

instance {config : DispatcherConfig Ip} [DecidableEq Ip] :
    (e f : Event) → Decidable (Respects config e f)
  | .blocked index time duration, .reserved index' _ _ time' =>
    inferInstanceAs (Decidable (config.localIps[index]? = config.localIps[index']? →
      time + duration ≤ time'))
  | .reserved .., .reserved .. => isTrue trivial
  | .reserved .., .blocked .. => isTrue trivial
  | .blocked .., .blocked .. => isTrue trivial

instance {config : DispatcherConfig Ip} {s : System Ip} [DecidableEq Ip] :
    Decidable (Honoured config s) :=
  inferInstanceAs (Decidable (s.history.Pairwise (Respects config)))

instance (config : DispatcherConfig Ip) (s : System Ip) :
    (a : Action) → Decidable (KeepsBan config s a)
  | .block call => match h : s.calls[call]? with
    | some ⟨_, .blocking _ index response⟩ => decidable_of_iff
        (s.clock + cooldown config response < seconds (2 ^ 63) ∧
          ∀ deadline ∈ s.pool.blockedAt index, deadline ≤ s.clock + cooldown config response)
        (by unfold KeepsBan; simp only [h])
    | some ⟨_, .starting _⟩ | some ⟨_, .reserving ..⟩ | some ⟨_, .sent ..⟩
    | some ⟨_, .observing ..⟩ | some ⟨_, .returned _⟩ | some ⟨_, .panicked⟩ | none =>
      isTrue (by unfold KeepsBan; simp only [h])
  | .tick _ | .dispatch _ | .readClock _ | .reserve _ | .respond .. | .fail _ | .observe _ =>
    isTrue trivial

def oneIp : DispatcherConfig String := { localIps := ["127.0.0.1"] }

/-- Two calls are in flight on one IP. One is answered with a ban of two minutes, the other with a
    cooldown of a second; the blocks are set in the order `first`, `second`, and after `pause` a
    third call asks for the IP. -/
def twoAnswers (first second pause : ℕ) : List Action :=
  [.dispatch 1, .dispatch 1, .readClock 0, .reserve 0, .readClock 1, .reserve 1,
    .respond 0 { status := 418 }, .respond 1 { status := 429, headers := [("retry-after", "1")] },
    .observe 0, .observe 1, .block first, .block second, .tick pause, .dispatch 1, .readClock 2,
    .reserve 2]

/-- A call is told to stay away for 2^63 seconds, and a second call asks for the IP. -/
def endless : List Action :=
  [.dispatch 1, .readClock 0, .reserve 0,
    .respond 0 { status := 429, headers := [("retry-after", "9223372036854775808")] },
    .observe 0, .block 0, .dispatch 1, .readClock 1, .reserve 1]

/-- Set last, the short cooldown ends the ban: after two seconds the IP is selected. And a cooldown
    that is too long to be stored blocks nothing. -/
theorem late_cooldown_ends_the_ban : oneIp.validate = .ok () ∧
    Yields ((twoAnswers 0 1 (seconds 2)).foldlM (step oneIp) (start oneIp (fun _ => 0) 0))
      (fun s => ¬Honoured oneIp s) ∧
    Yields (endless.foldlM (step oneIp) (start oneIp (fun _ => 0) 0))
      fun s => ¬Honoured oneIp s := by
  decide +kernel

/-- Set first, it does no harm. -/
theorem cooldowns_honoured_early : ∃ s,
    (twoAnswers 1 0 (seconds 121)).foldlM (step oneIp) (start oneIp (fun _ => 0) 0) = .ok s ∧
      Honoured oneIp s := by
  have hkeeps : Throughout (step oneIp) (KeepsBan oneIp) (start oneIp (fun _ => 0) 0)
      (twoAnswers 1 0 (seconds 121)) := by
    decide +kernel
  have hruns : Yields ((twoAnswers 1 0 (seconds 121)).foldlM (step oneIp)
      (start oneIp (fun _ => 0) 0)) fun _ => True := by
    decide +kernel
  obtain ⟨s, hrun, -⟩ := hruns
  exact ⟨s, hrun, cooldowns_honoured (by decide +kernel) hkeeps hrun⟩

end System
end CryptoNav.Dispatch
