import CryptoNav.Dispatch.Cooldown
import CryptoNav.Dispatch.Retry

/-!
# The source IPs of one call

A rate-limited call is retried, and the retry is meant to go out through another IP. Nothing in
`dispatch` says so: what steers the retry away is the block that the attempt before it left in the
pool, and a block can be over, lifted or replaced when the retry reserves. `attempts` is not part of
the program: it records which IP each call reserved.

Two conditions on a retry speak of the state before it and of its clock reading. `KeptOff` is exact:
the stored block of the IP is not over, or its used weight leaves no room, or another IP is open and
comes first by its used weight and its turn. `Cooling` speaks of the answers alone: the last
cooldown that was processed for the IP, the attempt's own or one of another call, ends after the
retry takes the lock.
-/

set_option autoImplicit false

namespace CryptoNav.Dispatch

open CryptoNav.Lib

variable {Ip : Type}

namespace PoolState

/-! ## Which IP goes first -/

/-- How many IPs the rotation tries before this one. -/
def turn (pool : PoolState Ip) (index : ℕ) : ℕ :=
  (index + pool.clients.length - pool.nextTieBreak % pool.clients.length) % pool.clients.length

/-- Of two IPs that accept, the first is taken. Used weight comes first, and the turn decides where
    it is equal. -/
def Outranks (pool : PoolState Ip) (index other : ℕ) : Prop :=
  pool.usedAt index < pool.usedAt other ∨
    pool.usedAt index = pool.usedAt other ∧ pool.turn index < pool.turn other

theorem Outranks.asymm {pool : PoolState Ip} {index other : ℕ} (h : pool.Outranks index other) :
    ¬pool.Outranks other index := by
  unfold Outranks at h ⊢
  omega

theorem rotation_turns (pool : PoolState Ip) :
    pool.rotation.map pool.turn = List.range pool.clients.length := by
  unfold rotation
  rw [List.map_map]
  refine (List.map_congr_left fun offset hoffset => ?_).trans (List.map_id _)
  have hoffset := List.mem_range.mp hoffset
  have hstart : pool.nextTieBreak % pool.clients.length < pool.clients.length :=
    Nat.mod_lt _ (by omega)
  unfold turn
  simp only [Function.comp_apply, id_eq]
  generalize pool.nextTieBreak % pool.clients.length = start at hstart ⊢
  generalize pool.clients.length = n at hoffset hstart ⊢
  by_cases hend : start + offset < n
  · rw [Nat.mod_eq_of_lt hend, show start + offset + n - start = offset + n by omega,
      Nat.add_mod_right, Nat.mod_eq_of_lt hoffset]
  · -- Round the end.
    rw [Nat.mod_eq_sub_mod (Nat.not_lt.mp hend), Nat.mod_eq_of_lt (by omega : start + offset - n < n),
      show start + offset - n + n - start = offset by omega, Nat.mod_eq_of_lt hoffset]

theorem rotation_pairwise (pool : PoolState Ip) :
    pool.rotation.Pairwise fun index other => pool.turn index < pool.turn other :=
  List.pairwise_map.mp (pool.rotation_turns ▸ List.pairwise_lt_range)

/-- The selected IP outranks every other that accepts. -/
theorem select_outranks {pool : PoolState Ip} {weight limit index other : ℕ}
    (h : pool.select weight limit = some index) (hother : pool.acceptsAt weight limit other)
    (hne : other ≠ index) : pool.Outranks index other := by
  obtain ⟨before, after, hl, hbefore, hafter⟩ := head?_sortByKey h
  have hmem : other ∈ pool.rotation.filter (pool.acceptsAt weight limit) := by
    refine List.mem_filter.mpr ⟨mem_rotation.mpr ?_, hother⟩
    obtain ⟨client, hclient, -⟩ := (Option.any_eq_true _ _).mp hother
    exact (List.getElem?_eq_some_iff.mp hclient).1
  rw [hl, List.mem_append, List.mem_cons] at hmem
  rcases hmem with hmem | heq | hmem
  · exact .inl (hbefore other hmem)
  · exact absurd heq hne
  · -- Of two that are equally used the rotation came to the selected one first.
    have hturns := (pool.rotation_pairwise.filter (pool.acceptsAt weight limit))
    rw [hl, List.pairwise_append, List.pairwise_cons] at hturns
    rcases (hafter other hmem).lt_or_eq with hless | hsame
    · exact .inl hless
    · exact .inr ⟨hsame, hturns.2.1.1 other hmem⟩

/-- An IP that a request passes over: it does not accept, or another that does goes first. This is
    about the refreshed pool, in which the request is decided. -/
def Passed (pool : PoolState Ip) (weight limit index : ℕ) : Prop :=
  ¬pool.acceptsAt weight limit index ∨
    ∃ other < pool.clients.length, pool.acceptsAt weight limit other ∧ pool.Outranks other index

theorem acceptsAt_of_select {pool : PoolState Ip} {weight limit index : ℕ}
    (h : pool.select weight limit = some index) :
    index < pool.clients.length ∧ pool.acceptsAt weight limit index := by
  obtain ⟨client, hclient, haccepts, -⟩ := select_some h
  exact ⟨(List.getElem?_eq_some_iff.mp hclient).1,
    (Option.any_eq_true _ _).mpr ⟨client, hclient, haccepts⟩⟩

theorem select_ne_iff_passed {pool : PoolState Ip} {weight limit index : ℕ} :
    pool.select weight limit ≠ some index ↔ pool.Passed weight limit index := by
  constructor
  · intro hne
    by_cases haccepts : pool.acceptsAt weight limit index
    · cases h : pool.select weight limit with
      | none =>
        obtain ⟨client, hclient, hok⟩ := (Option.any_eq_true _ _).mp haccepts
        exact absurd hok (select_none h (List.mem_of_getElem? hclient))
      | some other =>
        obtain ⟨hlt, hother⟩ := acceptsAt_of_select h
        exact .inr ⟨other, hlt, hother,
          select_outranks h haccepts fun heq => hne (heq ▸ h)⟩
    · exact .inl haccepts
  · rintro (hrefuses | ⟨other, -, hother, hranks⟩) h
    · exact hrefuses (acceptsAt_of_select h).2
    · by_cases heq : other = index
      · rw [heq] at hranks
        exact hranks.asymm hranks
      · exact hranks.asymm (select_outranks h hother heq)

/-- A reservation takes the IP that the refreshed pool selects. -/
theorem reserveClient_ok_iff {pool : PoolState Ip} {config : DispatcherConfig Ip}
    {now weight index : ℕ} : (pool.reserveClient config now weight).2 = .ok index ↔
      (pool.refresh now config.window).select weight config.maxWeightPerWindow = some index := by
  unfold reserveClient
  simp only
  cases (pool.refresh now config.window).select weight config.maxWeightPerWindow with
  | none => exact ⟨fun h => (by cases h), fun h => by cases h⟩
  | some target => exact ⟨fun h => congrArg some (Except.ok.inj h), fun h => by cases h; rfl⟩

end PoolState

/-! ## What keeps a request off an IP -/

/-- The weight that counts at a clock reading: none once the window is over. -/
def IpClient.weightAt (client : IpClient Ip) (now window : ℕ) : ℕ :=
  if window ≤ now - client.windowStartedAt then 0 else client.usedWeight

/-- At a clock reading no block keeps the IP, and it has room for the weight. -/
def IpClient.Takes (config : DispatcherConfig Ip) (client : IpClient Ip) (now weight : ℕ) : Prop :=
  (∀ deadline ∈ client.blockedUntil, deadline ≤ now) ∧
    saturatingAdd (client.weightAt now config.window) weight ≤ config.maxWeightPerWindow

theorem IpClient.refresh_takes (config : DispatcherConfig Ip) (client : IpClient Ip)
    (now weight : ℕ) :
    (client.refresh now config.window).accepts weight config.maxWeightPerWindow ↔
      client.Takes config now weight := by
  rw [accepts_iff, refresh_blocked, filter_later_eq_none, refresh_usedWeight]
  rfl

namespace PoolState

/-- What keeps a request off an IP at a clock reading: a block that is not over, a used weight that
    leaves no room, or another IP that takes the request and has used less, or as much and is
    earlier in the rotation. -/
def KeptOff (config : DispatcherConfig Ip) (pool : PoolState Ip) (now weight index : ℕ) : Prop :=
  ∀ client ∈ pool.clients[index]?,
    (∃ deadline ∈ client.blockedUntil, now < deadline) ∨
    config.maxWeightPerWindow < saturatingAdd (client.weightAt now config.window) weight ∨
    ∃ other < pool.clients.length, ∃ free ∈ pool.clients[other]?, free.Takes config now weight ∧
      (free.weightAt now config.window < client.weightAt now config.window ∨
        free.weightAt now config.window = client.weightAt now config.window ∧
          pool.turn other < pool.turn index)

theorem refresh_acceptsAt (config : DispatcherConfig Ip) (pool : PoolState Ip)
    (now weight index : ℕ) :
    (pool.refresh now config.window).acceptsAt weight config.maxWeightPerWindow index ↔
      ∃ client ∈ pool.clients[index]?, client.Takes config now weight := by
  simp only [acceptsAt, refresh, List.getElem?_map]
  cases pool.clients[index]? with
  | none => exact iff_of_false Bool.false_ne_true fun ⟨_, h, _⟩ => by cases h
  | some client =>
    simp only [Option.map_some, Option.any_some, Option.mem_some_iff, exists_eq_left']
    exact client.refresh_takes config now weight

theorem refresh_usedAt {pool : PoolState Ip} {index : ℕ} {client : IpClient Ip}
    (h : pool.clients[index]? = some client) (now window : ℕ) :
    (pool.refresh now window).usedAt index = client.weightAt now window := by
  simp only [usedAt, refresh, List.getElem?_map, h, Option.map_some, Option.elim_some]
  exact client.refresh_usedWeight now window

theorem refresh_turn (pool : PoolState Ip) (now window index : ℕ) :
    (pool.refresh now window).turn index = pool.turn index := by
  simp only [turn, refresh, List.length_map]

/-- A refreshed pool passes over just the IPs that something keeps the request off. -/
theorem refresh_passed_iff (config : DispatcherConfig Ip) (pool : PoolState Ip)
    (now weight index : ℕ) :
    (pool.refresh now config.window).Passed weight config.maxWeightPerWindow index ↔
      pool.KeptOff config now weight index := by
  unfold Passed KeptOff
  simp only [refresh_acceptsAt]
  cases hclient : pool.clients[index]? with
  | none => exact iff_of_true (.inl fun ⟨_, h, _⟩ => by cases h) fun _ h => by cases h
  | some client =>
    simp only [Option.mem_some_iff, forall_eq', exists_eq_left']
    rw [IpClient.Takes, not_and_or, or_assoc]
    refine or_congr (by simp only [not_forall, Nat.not_le, exists_prop]) (or_congr Nat.not_le ?_)
    refine exists_congr fun other => and_congr (by simp only [refresh, List.length_map]) ?_
    constructor
    · rintro ⟨⟨free, hfree, htakes⟩, hfirst⟩
      rw [Outranks, refresh_usedAt hfree, refresh_usedAt hclient, refresh_turn,
        refresh_turn] at hfirst
      exact ⟨free, hfree, htakes, hfirst⟩
    · rintro ⟨free, hfree, htakes, hfirst⟩
      rw [Outranks, refresh_usedAt hfree, refresh_usedAt hclient, refresh_turn, refresh_turn]
      exact ⟨⟨free, hfree, htakes⟩, hfirst⟩

end PoolState

/-! ## The last cooldown of an IP -/

/-- The cooldown that an event began for the client at `index`, and when. -/
def Event.cooldownOf (index : ℕ) : Event → Option (ℕ × ℕ)
  | .blocked index' time duration => if index' = index then some (time, duration) else none
  | .reserved .. => none

def lastCooldown (history : List Event) (index : ℕ) : Option (ℕ × ℕ) :=
  (history.filterMap (Event.cooldownOf index)).getLast?

theorem lastCooldown_append (history : List Event) (event : Event) (index : ℕ) :
    lastCooldown (history ++ [event]) index =
      (event.cooldownOf index).or (lastCooldown history index) := by
  unfold lastCooldown
  rw [List.filterMap_append]
  cases h : event.cooldownOf index with
  | none => simp only [List.filterMap_cons, h, List.filterMap_nil, List.append_nil, Option.none_or]
  | some began =>
    simp only [List.filterMap_cons, h, List.filterMap_nil, List.getLast?_concat, Option.some_or]

theorem blockClient_blockedAt_of_ne (pool : PoolState Ip) {target index : ℕ} (h : target ≠ index)
    (now duration : ℕ) :
    ((pool.blockClient target now duration).getD pool).blockedAt index = pool.blockedAt index := by
  by_cases hfits : now + duration < seconds (2 ^ 63)
  · rw [blockClient_blockedAt pool index hfits, if_neg h]
  · rw [PoolState.blockClient, instantAdd, if_neg hfits]
    rfl

namespace System

/-- The last cooldown of a client is over, or it is the client's block, if it is one that can be
    stored. -/
def Stored (s : System Ip) : Prop :=
  ∀ index time duration, index < s.pool.clients.length →
    lastCooldown s.history index = some (time, duration) → time + duration < seconds (2 ^ 63) →
      time + duration ≤ s.clock ∨ time + duration ∈ s.pool.blockedAt index

/-- A step that begins no cooldown keeps or lifts the blocks. -/
theorem Stored.expire {s s' : System Ip} (h : Stored s)
    (hhistory : ∀ index, lastCooldown s'.history index = lastCooldown s.history index)
    (hlength : s'.pool.clients.length = s.pool.clients.length) (hclock : s.clock ≤ s'.clock)
    (hblocked : ∀ index, ∀ deadline ∈ s.pool.blockedAt index,
      deadline ≤ s'.clock ∨ deadline ∈ s'.pool.blockedAt index) : Stored s' := by
  intro index time duration hindex hlast hfits
  rw [hhistory] at hlast
  rcases h index time duration (hlength ▸ hindex) hlast hfits with hover | hstill
  · exact .inl (hover.trans hclock)
  · exact hblocked index _ hstill

theorem Stored.step {config : DispatcherConfig Ip} {s s' : System Ip} {a : Action} (h : Stored s)
    (hread : ClockRead s) (hstep : step config s a = .ok s') : Stored s' := by
  have hlength : s'.pool.clients.length = s.pool.clients.length := by
    rw [← List.length_map IpClient.ip, step_ips hstep, List.length_map]
  have hclock := step_clock hstep
  cases step_effect hstep with
  | quiet hpool hhistory _ =>
    exact h.expire (fun _ => by rw [hhistory]) hlength hclock fun index deadline hd =>
      .inr (hpool ▸ hd)
  | @reserved call weight attempt now hcall hs' =>
    have hnow : now ≤ s.clock := hread call weight attempt now hcall
    refine h.expire (fun index => ?_) hlength hclock fun index deadline hd => ?_
    · rw [hs', reserve_history]
      split
      · exact lastCooldown_append ..
      · rw [List.append_nil]
    · rw [hs', reserve_clock, reserve_pool, reserveClient_blockedAt]
      by_cases hlt : now < deadline
      · exact .inr (Option.mem_filter_iff.mpr ⟨hd, decide_eq_true hlt⟩)
      · exact .inl ((Nat.not_lt.mp hlt).trans hnow)
  | observed _ hs' =>
    refine h.expire (fun _ => by rw [hs']; rfl) hlength hclock fun index deadline hd => .inr ?_
    rw [hs']
    exact (updateObservedWeight_blockedAt ..).symm ▸ hd
  | @blocked call weight attempt target response hcall hs' =>
    intro index time duration hindex hlast hfits
    rw [hs', block_history, lastCooldown_append, Event.cooldownOf] at hlast
    rw [hs', block_clock, block_pool]
    by_cases htarget : target = index
    · rw [if_pos htarget, Option.some_or, Option.some.injEq, Prod.mk.injEq] at hlast
      obtain ⟨rfl, rfl⟩ := hlast
      rw [blockClient_blockedAt s.pool index hfits, if_pos htarget,
        List.getElem?_eq_getElem (hlength ▸ hindex)]
      exact .inr rfl
    · rw [if_neg htarget, Option.none_or] at hlast
      rw [blockClient_blockedAt_of_ne s.pool htarget]
      exact h index time duration (hlength ▸ hindex) hlast hfits

end System

/-! ## Attempts -/

structure Traced (Ip : Type) where
  system : System Ip
  /-- The reservations made so far, each with the call it was made for. -/
  attempts : List (ℕ × ℕ) := []

/-- The reservation that a step makes, if it makes one. -/
def attempt (config : DispatcherConfig Ip) (s : System Ip) : Action → List (ℕ × ℕ)
  | .reserve call => match s.calls[call]? with
    | some ⟨weight, .reserving _ now⟩ => match (s.pool.reserveClient config now weight).2 with
      | .ok index => [(call, index)]
      | .error _ => []
    | _ => []
  | _ => []

namespace Traced

def start (config : DispatcherConfig Ip) (now : ℕ → ℕ) (clock : ℕ) : Traced Ip where
  system := .start config now clock

def step (config : DispatcherConfig Ip) (t : Traced Ip) (a : Action) : Except String (Traced Ip) :=
  (t.system.step config a).map fun s =>
    { system := s, attempts := t.attempts ++ attempt config t.system a }

/-- The IPs that the attempts of a call reserved, in order. -/
def indices (t : Traced Ip) (call : ℕ) : List ℕ :=
  (t.attempts.filter (·.1 = call)).map (·.2)

/-- **Retries change the IP**: no two consecutive attempts of a call go out through the same one. -/
def Moves (config : DispatcherConfig Ip) (t : Traced Ip) : Prop :=
  ∀ call, ((t.indices call).map (config.localIps[·]?)).IsChain (· ≠ ·)

/-- When a retry reserves, something keeps it off the IP of the attempt before it. -/
def Steered (config : DispatcherConfig Ip) (t : Traced Ip) : Action → Prop
  | .reserve call => match t.system.calls[call]? with
    | some ⟨weight, .reserving _ now⟩ => ∀ previous ∈ (t.indices call).getLast?,
      t.system.pool.KeptOff config now weight previous
    | _ => True
  | _ => True

/-- When a retry takes the lock, the last cooldown of the IP of the attempt before it is one that
    could be stored, and is not over. -/
def Cooling (t : Traced Ip) : Action → Prop
  | .reserve call => match t.system.calls[call]? with
    | some ⟨_, .reserving _ _⟩ => ∀ previous ∈ (t.indices call).getLast?,
      ∃ began ∈ lastCooldown t.system.history previous,
        t.system.clock < began.1 + began.2 ∧ began.1 + began.2 < seconds (2 ^ 63)
    | _ => True
  | _ => True

structure Located (config : DispatcherConfig Ip) (t : Traced Ip) : Prop where
  ips : t.system.pool.clients.map IpClient.ip = config.localIps
  attempts : ∀ made ∈ t.attempts, made.2 < config.localIps.length
  clockRead : t.system.ClockRead
  stored : t.system.Stored

theorem Located.start (config : DispatcherConfig Ip) (now : ℕ → ℕ) (clock : ℕ) :
    Located config (start config now clock) where
  ips := System.start_ips config now clock
  attempts := fun _ h => by cases h
  clockRead := fun _ _ _ _ h => by cases h
  stored := fun _ _ _ _ h => by cases h

/-- A step reserves nothing, and then it is steered, or it reserves the IP that was selected. -/
theorem attempt_cases (config : DispatcherConfig Ip) (t : Traced Ip) (a : Action) :
    attempt config t.system a = [] ∧ Steered config t a ∨
      ∃ call index, attempt config t.system a = [(call, index)] ∧
        index < t.system.pool.clients.length ∧
        (Steered config t a ↔ ∀ previous ∈ (t.indices call).getLast?, previous ≠ index) := by
  cases a with
  | reserve call =>
    unfold attempt Steered
    simp only
    split
    · rename_i weight n now hcall
      simp only [← PoolState.refresh_passed_iff, ← PoolState.select_ne_iff_passed, ne_eq,
        ← PoolState.reserveClient_ok_iff]
      split
      · rename_i index hok
        have hlt := (PoolState.acceptsAt_of_select (PoolState.reserveClient_ok_iff.mp hok)).1
        refine .inr ⟨call, index, rfl, ?_, ?_⟩
        · exact (@List.length_map _ _ t.system.pool.clients _) ▸ hlt
        · rw [hok]
          refine forall₂_congr fun previous _ => not_congr ?_
          rw [Except.ok.injEq]
          exact eq_comm
      · rename_i error herror
        exact .inl ⟨rfl, fun previous _ h => by cases herror.symm.trans h⟩
    · exact .inl ⟨rfl, trivial⟩
  | tick | dispatch | readClock | respond | fail | observe | block => exact .inl ⟨rfl, trivial⟩

theorem Located.step {config : DispatcherConfig Ip} {t t' : Traced Ip} {a : Action}
    (h : Located config t) (hstep : step config t a = .ok t') : Located config t' := by
  obtain ⟨s, hs, rfl⟩ := map_eq_ok.mp hstep
  refine ⟨(System.step_ips hs).trans h.ips, fun made hmade => ?_, h.clockRead.step hs,
    h.stored.step h.clockRead hs⟩
  rcases List.mem_append.mp hmade with hold | hnew
  · exact h.attempts made hold
  · rcases attempt_cases config t a with ⟨hnone, -⟩ | ⟨call, index, hone, hlt, -⟩
    · rw [hnone] at hnew
      cases hnew
    · rw [hone] at hnew
      rw [List.mem_singleton.mp hnew, ← h.ips, List.length_map]
      exact hlt

/-- Distinct IPs have distinct places. -/
theorem Located.moves_iff {config : DispatcherConfig Ip} {t : Traced Ip} (h : Located config t)
    (hips : config.localIps.Nodup) :
    Moves config t ↔ ∀ call, (t.indices call).IsChain (· ≠ ·) := by
  refine forall_congr' fun call => ?_
  rw [List.isChain_map]
  refine List.IsChain.iff_of_mem_imp fun index other hindex hother => not_congr ?_
  have hlt : ∀ i ∈ t.indices call, i < config.localIps.length := by
    intro i hi
    obtain ⟨made, hmade, rfl⟩ := List.mem_map.mp hi
    exact h.attempts made (List.mem_filter.mp hmade).1
  rw [List.getElem?_eq_getElem (hlt index hindex), List.getElem?_eq_getElem (hlt other hother),
    Option.some.injEq]
  exact hips.getElem_inj_iff

/-- **The step rule**: a step from a state in which every retry changed the IP reaches another one
    just when it is steered. -/
theorem moves_step_iff {config : DispatcherConfig Ip} (hips : config.localIps.Nodup)
    {t t' : Traced Ip} {a : Action} (h : Located config t) (hstep : step config t a = .ok t') :
    Moves config t' ↔ Moves config t ∧ Steered config t a := by
  rw [(h.step hstep).moves_iff hips, h.moves_iff hips]
  obtain ⟨s, hs, rfl⟩ := map_eq_ok.mp hstep
  have hindices : ∀ call, indices { system := s, attempts := t.attempts ++ attempt config t.system a }
      call = t.indices call ++ ((attempt config t.system a).filter (·.1 = call)).map (·.2) := by
    intro call
    rw [indices, List.filter_append, List.map_append]
    rfl
  simp only [hindices]
  rcases attempt_cases config t a with ⟨hnone, hsteered⟩ | ⟨call, index, hone, -, hsteered⟩
  · rw [hnone, and_iff_left hsteered]
    simp only [List.filter_nil, List.map_nil, List.append_nil]
  · -- Only the call that reserved has a new attempt, and its last one is the one to differ from.
    have hother : ∀ c, c ≠ call → (List.filter (·.1 = c) [(call, index)]).map (·.2) = [] := by
      intro c hc
      rw [List.filter_cons_of_neg (by simpa using hc.symm), List.filter_nil, List.map_nil]
    have hown : (List.filter (·.1 = call) [(call, index)]).map (·.2) = [index] := by
      rw [List.filter_cons_of_pos (by simp), List.filter_nil, List.map_singleton]
    have hchain : (t.indices call ++ [index]).IsChain (· ≠ ·) ↔
        (t.indices call).IsChain (· ≠ ·) ∧ Steered config t a := by
      rw [List.isChain_append, hsteered]
      simp only [List.isChain_singleton, List.head?_cons, Option.mem_def, Option.some.injEq,
        true_and, forall_eq']
    rw [hone]
    constructor
    · intro hall
      have hnew := hall call
      rw [hown, hchain] at hnew
      refine ⟨fun c => ?_, hnew.2⟩
      by_cases hc : c = call
      · exact hc ▸ hnew.1
      · have hold := hall c
        rwa [hother c hc, List.append_nil] at hold
    · rintro ⟨hall, hsteered⟩ c
      by_cases hc : c = call
      · rw [hc, hown, hchain]
        exact ⟨hall call, hsteered⟩
      · rw [hother c hc, List.append_nil]
        exact hall c

/-- What a cooldown that is not over does to the retry: its block is the one that is stored. -/
theorem Located.steered {config : DispatcherConfig Ip} {t : Traced Ip} {a : Action}
    (h : Located config t) (hcooling : Cooling t a) : Steered config t a := by
  cases a with
  | reserve call =>
    unfold Cooling at hcooling
    unfold Steered
    simp only at hcooling ⊢
    split
    · rename_i weight n now hcall
      simp only [hcall] at hcooling
      intro previous hprevious client hclient
      obtain ⟨⟨time, duration⟩, hlast, hlater, hfits⟩ := hcooling previous hprevious
      have hlt : previous < t.system.pool.clients.length := (List.getElem?_eq_some_iff.mp hclient).1
      rcases h.stored previous time duration hlt hlast hfits with hover | hblocked
      · exact absurd hlater (Nat.not_lt.mpr hover)
      · unfold PoolState.blockedAt at hblocked
        rw [Option.mem_def.mp hclient] at hblocked
        exact .inl ⟨_, hblocked, (h.clockRead call weight n now hcall).trans_lt hlater⟩
    · trivial
  | tick | dispatch | readClock | respond | fail | observe | block => trivial

/-- **Retries change the IP just where something keeps them off**: in every run over distinct source
    IPs, whatever the answers and however the calls interleave, all consecutive attempts differ if
    and only if each retry is kept off the IP of the attempt before it, by its block, by its used
    weight or by an IP that comes first. It is enough that no cooldown is over when the retry takes
    the lock. -/
theorem retries_change_ip_iff {config : DispatcherConfig Ip} {now : ℕ → ℕ} {clock : ℕ}
    {actions : List Action} {t : Traced Ip} (hips : config.localIps.Nodup)
    (hrun : actions.foldlM (step config) (start config now clock) = .ok t) :
    (Moves config t ↔
      Throughout (step config) (Steered config) (start config now clock) actions) ∧
    (Throughout (step config) Cooling (start config now clock) actions → Moves config t) := by
  have hstart : Moves config (start config now clock) := fun _ => .nil
  constructor
  · rw [throughout_iff (Q := Located config) (R := Moves config) (P := Steered config)
      (fun a _ s s' h hstep => ⟨h.step hstep, moves_step_iff hips h hstep⟩)
      (.start config now clock) hrun]
    exact and_iff_right hstart
  · intro hcooling
    have hboth := run_throughout (Q := fun s => Located config s ∧ Moves config s)
      (fun a s s' h hcooling hstep => ⟨h.1.step hstep, (moves_step_iff hips h.1 hstep).mpr
        ⟨h.2, h.1.steered hcooling⟩⟩)
      ⟨.start config now clock, hstart⟩ hcooling hrun
    exact hboth.2

/-! ## A cooldown of no length -/

instance (config : DispatcherConfig Ip) (client : IpClient Ip) (now weight : ℕ) :
    Decidable (client.Takes config now weight) :=
  inferInstanceAs (Decidable (_ ∧ _))

instance (config : DispatcherConfig Ip) (pool : PoolState Ip) (now weight index : ℕ) :
    Decidable (pool.KeptOff config now weight index) :=
  inferInstanceAs (Decidable (∀ client ∈ pool.clients[index]?, _))

instance (config : DispatcherConfig Ip) (t : Traced Ip) :
    (a : Action) → Decidable (Steered config t a)
  | .reserve call => match h : t.system.calls[call]? with
    | some ⟨weight, .reserving _ now⟩ => decidable_of_iff
        (∀ previous ∈ (t.indices call).getLast?, t.system.pool.KeptOff config now weight previous)
        (by unfold Steered; simp only [h])
    | some ⟨_, .starting _⟩ | some ⟨_, .blocking ..⟩ | some ⟨_, .sent ..⟩
    | some ⟨_, .observing ..⟩ | some ⟨_, .returned _⟩ | some ⟨_, .panicked⟩ | none =>
      isTrue (by unfold Steered; simp only [h])
  | .tick _ | .dispatch _ | .readClock _ | .respond .. | .fail _ | .observe _ | .block _ =>
    isTrue trivial

/-- A call that is answered with 429 and these headers, and the start of its retry. -/
def retried (headers : Headers) : List Action :=
  [.dispatch 1, .readClock 0, .reserve 0, .respond 0 { status := 429, headers }, .observe 0,
    .block 0, .readClock 0, .reserve 0]

/-- Told to retry after no time at all, a call goes out through the only IP again. -/
theorem retry_keeps_ip : System.oneIp.validate = .ok () ∧ System.oneIp.localIps.Nodup ∧
    ∃ t, (retried [("retry-after", "0")]).foldlM (step System.oneIp)
        (start System.oneIp (fun _ => 0) 0) = .ok t ∧
      ¬Moves System.oneIp t := by
  have hruns : Yields ((retried [("retry-after", "0")]).foldlM (step System.oneIp)
      (start System.oneIp (fun _ => 0) 0))
      fun t => ¬((t.indices 0).map (System.oneIp.localIps[·]?)).IsChain (· ≠ ·) := by
    decide +kernel
  obtain ⟨t, hrun, hsame⟩ := hruns
  exact ⟨rfl, by decide +kernel, t, hrun, fun h => hsame (h 0)⟩

def loopbacks : DispatcherConfig String := { localIps := ["127.0.0.1", "127.0.0.2"] }

/-- With the default cooldown and a second IP it goes out through the other. -/
theorem retries_change_ip_two : ∃ t,
    (retried []).foldlM (step loopbacks) (start loopbacks (fun _ => 0) 0) = .ok t ∧
      Moves loopbacks t ∧ t.indices 0 = [0, 1] := by
  have hsteered : Throughout (step loopbacks) (Steered loopbacks)
      (start loopbacks (fun _ => 0) 0) (retried []) := by
    decide +kernel
  have hruns : Yields ((retried []).foldlM (step loopbacks) (start loopbacks (fun _ => 0) 0))
      fun t => t.indices 0 = [0, 1] := by
    decide +kernel
  obtain ⟨t, hrun, hindices⟩ := hruns
  exact ⟨t, hrun, (retries_change_ip_iff (by decide +kernel) hrun).1.mpr hsteered, hindices⟩

end Traced
end CryptoNav.Dispatch
