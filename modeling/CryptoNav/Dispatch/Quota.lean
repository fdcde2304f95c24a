import Mathlib.Algebra.GroupWithZero.Nat
import CryptoNav.Dispatch.Cooldown

/-!
# The quota

The weight reserved on an IP since its window started is covered by the IP's `used_weight` and
bounded by the quota. The counter is a `u32` and saturates, so this needs a quota below
`u32::MAX`: at `u32::MAX` the sum that is compared with the quota can never exceed it, and the
check passes for ever. And it needs distinct IPs: `validate` lets an IP be listed twice, and then
the pool has two clients for it, each with the whole quota.

What is kept along a run speaks of the clients of the pool (`Covered`). Only `QuotaSafe` speaks of
IPs, and where these are distinct a client is an IP (`reservedOn_eq`).

The exchange's own count, which comes back in a header, only ever raises `used_weight` and is an
input without any assumption. What is bounded is the weight reserved here within a window of
this pool; the windows of the exchange need not begin at the same time, and what other programs
send from the same IP is unknown to both sides until a header says so.
-/

set_option autoImplicit false

namespace CryptoNav.Dispatch

open CryptoNav.Lib

variable {Ip : Type}

/-! ## What is reserved -/

/-- What an event reserved on the client at `index` at a clock reading from `startedAt` on. -/
def Event.weightSince (index startedAt : ℕ) : Event → ℕ
  | .reserved index' weight now _ => if index' = index ∧ startedAt ≤ now then weight else 0
  | .blocked .. => 0

def reservedSince (history : List Event) (index startedAt : ℕ) : ℕ :=
  (history.map (Event.weightSince index startedAt)).sum

@[simp] theorem reservedSince_append (history new : List Event) (index startedAt : ℕ) :
    reservedSince (history ++ new) index startedAt
      = reservedSince history index startedAt + reservedSince new index startedAt := by
  unfold reservedSince
  rw [List.map_append, List.sum_append]

theorem reservedSince_reserved (index weight now time index' startedAt : ℕ) :
    reservedSince [.reserved index weight now time] index' startedAt
      = if index = index' ∧ startedAt ≤ now then weight else 0 := by
  simp [reservedSince, Event.weightSince]

theorem reservedSince_blocked (index time duration index' startedAt : ℕ) :
    reservedSince [.blocked index time duration] index' startedAt = 0 := rfl

/-- A client could take the request. The sum is the exact one here, which does not saturate. -/
def Eligible (config : DispatcherConfig Ip) (weight : ℕ) (client : IpClient Ip) : Prop :=
  client.blockedUntil = none ∧ client.usedWeight + weight ≤ config.maxWeightPerWindow

/-- Below `u32::MAX` the saturating sum does not hide an overflow. -/
theorem accepts_iff {config : DispatcherConfig Ip} (hmax : config.maxWeightPerWindow < u32Max)
    {weight : ℕ} {client : IpClient Ip} :
    client.accepts weight config.maxWeightPerWindow ↔ Eligible config weight client := by
  unfold IpClient.accepts Eligible saturatingAdd
  rw [Bool.and_eq_true_iff, Option.isNone_iff_eq_none, decide_eq_true_iff]
  refine and_congr_right fun _ => ?_
  omega

/-! ## One client -/

/-- Every reservation on the client was read before its window ends, and those of the window are
    covered. -/
structure Covered (config : DispatcherConfig Ip) (history : List Event) (index : ℕ)
    (client : IpClient Ip) : Prop where
  read : ∀ weight now time, .reserved index weight now time ∈ history →
    now < client.windowStartedAt + config.window
  used : reservedSince history index client.windowStartedAt ≤ client.usedWeight
  quota : reservedSince history index client.windowStartedAt ≤ config.maxWeightPerWindow

namespace Covered

variable {config : DispatcherConfig Ip} {history : List Event} {index : ℕ} {client : IpClient Ip}

/-- A restart finds every reservation in the past. -/
theorem refresh (h : Covered config history index client) (hwindow : 0 < config.window) (now : ℕ) :
    Covered config history index (client.refresh now config.window) := by
  rcases client.refresh_window now config.window with ⟨hover, -, hstart⟩ | ⟨-, hused, hstart⟩
  · have hpast : ∀ weight now' time, .reserved index weight now' time ∈ history →
        now' < now := fun weight now' time hmem => by
      have := h.read weight now' time hmem
      omega
    have hnone : reservedSince history index now = 0 := by
      refine List.sum_eq_zero fun n hn => ?_
      obtain ⟨e, he, rfl⟩ := List.mem_map.mp hn
      cases e with
      | blocked => rfl
      | reserved index' weight now' time =>
        refine if_neg fun ⟨hindex, hle⟩ => ?_
        have := hpast weight now' time (hindex ▸ he)
        omega
    refine ⟨fun weight now' time hmem => ?_, ?_, ?_⟩
    · rw [hstart]
      exact (hpast weight now' time hmem).trans_le (Nat.le_add_right _ _)
    · rw [hstart, hnone]
      exact Nat.zero_le _
    · rw [hstart, hnone]
      exact Nat.zero_le _
  · refine ⟨fun weight now' time hmem => ?_, ?_, ?_⟩
    · rw [hstart]
      exact h.read weight now' time hmem
    · rw [hstart, hused]
      exact h.used
    · rw [hstart]
      exact h.quota

/-- Events that reserve nothing on the client. -/
theorem append (h : Covered config history index client) {new : List Event}
    (hnew : ∀ weight now time, .reserved index weight now time ∉ new)
    (hzero : reservedSince new index client.windowStartedAt = 0) :
    Covered config (history ++ new) index client where
  read := fun weight now time hmem =>
    (List.mem_append.mp hmem).elim (h.read weight now time) fun hmem => absurd hmem (hnew _ _ _)
  used := by
    rw [reservedSince_append, hzero]
    exact h.used
  quota := by
    rw [reservedSince_append, hzero]
    exact h.quota

theorem charge (h : Covered config history index client)
    (hmax : config.maxWeightPerWindow < u32Max) {weight now time : ℕ}
    (hnow : now < client.windowStartedAt + config.window) (hok : Eligible config weight client) :
    Covered config (history ++ [.reserved index weight now time]) index (client.charge weight) := by
  have hused := h.used
  have hroom := hok.2
  have hcharged : (client.charge weight).usedWeight = client.usedWeight + weight :=
    Nat.min_eq_left (by omega)
  have hsum : reservedSince (history ++ [.reserved index weight now time]) index
      client.windowStartedAt ≤ client.usedWeight + weight := by
    rw [reservedSince_append, reservedSince_reserved]
    split
    · omega
    · omega
  refine ⟨fun weight' now' time' hmem => ?_, ?_, hsum.trans hroom⟩
  · rcases List.mem_append.mp hmem with hold | hnew
    · exact h.read weight' now' time' hold
    · cases List.mem_singleton.mp hnew
      exact hnow
  · rw [hcharged]
    exact hsum

end Covered

/-! ## The pool -/

namespace System

def Within (config : DispatcherConfig Ip) (s : System Ip) : Prop :=
  ∀ index client, s.pool.clients[index]? = some client → Covered config s.history index client

theorem Within.start (config : DispatcherConfig Ip) (now : ℕ → ℕ) (clock : ℕ) :
    Within config (start config now clock) := by
  intro index client hclient
  exact ⟨fun _ _ _ hmem => absurd hmem List.not_mem_nil, Nat.zero_le _, Nat.zero_le _⟩

/-- An update of one client that leaves its window and lowers no counter. -/
theorem Within.modify {config : DispatcherConfig Ip} {s : System Ip} (h : Within config s)
    {target : ℕ} {f : IpClient Ip → IpClient Ip}
    (hstart : ∀ c, (f c).windowStartedAt = c.windowStartedAt)
    (hused : ∀ c, c.usedWeight ≤ (f c).usedWeight) {index : ℕ} {client : IpClient Ip}
    (hclient : (s.pool.clients.modify target f)[index]? = some client) :
    Covered config s.history index client := by
  rw [modify_get] at hclient
  split at hclient
  · obtain ⟨old, hold, rfl⟩ := Option.map_eq_some_iff.mp hclient
    have hcovered := h index old hold
    refine ⟨?_, ?_, ?_⟩
    · rw [hstart]
      exact hcovered.read
    · rw [hstart]
      exact hcovered.used.trans (hused old)
    · rw [hstart]
      exact hcovered.quota
  · exact h index client hclient

theorem Within.reserve {config : DispatcherConfig Ip} (hwindow : 0 < config.window)
    (hmax : config.maxWeightPerWindow < u32Max) {s : System Ip} (h : Within config s)
    (call weight attempt now : ℕ) : Within config (s.reserve config call weight attempt now) := by
  intro index client hclient
  rw [reserve_pool] at hclient
  rw [reserve_history]
  -- The refreshed clients are covered, and not past the end of their window.
  have hrefreshed : ∀ i c, (s.pool.refresh now config.window).clients[i]? = some c →
      Covered config s.history i c ∧ now < c.windowStartedAt + config.window := by
    intro i c hc
    obtain ⟨old, hold, rfl⟩ := Option.map_eq_some_iff.mp ((List.getElem?_map ..).symm.trans hc)
    refine ⟨(h i old hold).refresh hwindow now, ?_⟩
    rcases old.refresh_window now config.window with ⟨-, -, hstart⟩ | ⟨hnow, -, hstart⟩
    · rw [hstart]
      exact Nat.lt_add_of_pos_right hwindow
    · rw [hstart]
      exact hnow
  rcases s.pool.reserveClient_cases config now weight with
    ⟨target, selected, hselected, haccepts, -, hok, hclients⟩ | ⟨⟨_, herror⟩, hpool, -⟩
  · rw [hclients, modify_get] at hclient
    rw [hok]
    split at hclient
    · rename_i htarget
      obtain ⟨old, hold, rfl⟩ := Option.map_eq_some_iff.mp hclient
      rw [← htarget, hselected] at hold
      cases hold
      obtain ⟨hcovered, hnow⟩ := hrefreshed target selected hselected
      exact htarget ▸ hcovered.charge hmax hnow ((accepts_iff hmax).mp haccepts)
    · rename_i htarget
      refine (hrefreshed index client hclient).1.append (fun weight' now' time hmem => ?_) ?_
      · cases List.mem_singleton.mp hmem
        exact htarget rfl
      · rw [reservedSince_reserved, if_neg fun hand => htarget hand.1]
  · rw [hpool] at hclient
    rw [herror, List.append_nil]
    exact (hrefreshed index client hclient).1

/-- **The step lemma.** -/
theorem Within.step {config : DispatcherConfig Ip} (hwindow : 0 < config.window)
    (hmax : config.maxWeightPerWindow < u32Max) {s s' : System Ip} {a : Action}
    (h : Within config s) (hstep : step config s a = .ok s') : Within config s' := by
  cases step_effect hstep with
  | quiet hpool hhistory _ =>
    unfold Within
    rw [hpool, hhistory]
    exact h
  | @reserved call weight attempt now _ hs' =>
    rw [hs']
    exact h.reserve hwindow hmax call weight attempt now
  | @observed call _ _ index response _ hs' =>
    rw [hs']
    intro index' client hclient
    replace hclient :
        (s.pool.updateObservedWeight config index response.headers).clients[index']? = _ := hclient
    unfold PoolState.updateObservedWeight at hclient
    simp only at hclient
    split at hclient
    · exact h index' client hclient
    · rename_i observed _
      exact h.modify (f := fun c => { c with usedWeight := max c.usedWeight observed })
        (fun _ => rfl) (fun _ => le_max_left _ _) hclient
  | @blocked call _ _ index response _ hs' =>
    rw [hs']
    intro index' client hclient
    rw [block_pool] at hclient
    rw [block_history]
    have hold : Covered config s.history index' client := by
      unfold PoolState.blockClient at hclient
      cases hend : instantAdd s.clock (cooldown config response) with
      | none =>
        rw [hend] at hclient
        exact h index' client hclient
      | some deadline =>
        rw [hend] at hclient
        exact h.modify (f := fun c => { c with blockedUntil := some deadline })
          (fun _ => rfl) (fun _ => le_rfl) hclient
    refine hold.append (fun weight now time hmem => ?_) (reservedSince_blocked ..)
    cases List.mem_singleton.mp hmem

/-! ## The choice -/

/-- What a step of `reserve_client` decides: a least used eligible IP, or no IP at all. The pool is
    the refreshed one, in which blocks that are over have been lifted. -/
def Chosen (config : DispatcherConfig Ip) (s s' : System Ip) (call : ℕ) : Prop :=
  ∃ weight attempt now, s.calls[call]? = some ⟨weight, .reserving attempt now⟩ ∧
    let clients := (s.pool.refresh now config.window).clients
    ((∃ index client, s'.history = s.history ++ [.reserved index weight now s.clock] ∧
        clients[index]? = some client ∧ Eligible config weight client ∧
        ∀ other ∈ clients, Eligible config weight other → client.usedWeight ≤ other.usedWeight) ∨
      ((∃ retry, s'.calls[call]? = some ⟨weight, .returned (.error (.noAvailableIp retry))⟩) ∧
        s'.history = s.history ∧ ∀ client ∈ clients, ¬Eligible config weight client))

theorem chosen_step {config : DispatcherConfig Ip} (hmax : config.maxWeightPerWindow < u32Max)
    {s s' : System Ip} {call : ℕ} (hstep : step config s (.reserve call) = .ok s') :
    Chosen config s s' call := by
  simp only [System.step] at hstep
  split at hstep
  · rename_i weight attempt now hcall
    cases hstep
    refine ⟨weight, attempt, now, hcall, ?_⟩
    rw [reserve_history]
    rcases s.pool.reserveClient_cases config now weight with
      ⟨index, client, hclient, haccepts, hleast, hok, -⟩ | ⟨⟨retry, herror⟩, -, hnone⟩
    · rw [hok]
      refine .inl ⟨index, client, rfl, hclient, (accepts_iff hmax).mp haccepts, ?_⟩
      exact fun other hother hel => hleast other hother ((accepts_iff hmax).mpr hel)
    · rw [herror, List.append_nil]
      refine .inr ⟨⟨retry, ?_⟩, rfl, fun client hmem hel => ?_⟩
      · have hpair : s.pool.reserveClient config now weight
            = ((s.pool.reserveClient config now weight).1, .error (.noAvailableIp retry)) :=
          Prod.ext rfl herror
        unfold System.reserve
        rw [hpair]
        change (s.calls.modify call _)[call]? = _
        rw [modify_get, if_pos rfl, hcall]
        rfl
      · exact hnone client hmem ((accepts_iff hmax).mpr hel)
  · cases hstep

variable [DecidableEq Ip]

/-- What the history reserved on a source IP, on whichever of its clients, at a clock reading from
    `startedAt` on. -/
def reservedOn (config : DispatcherConfig Ip) (history : List Event) (ip : Ip) (startedAt : ℕ) : ℕ :=
  (history.map fun
    | .reserved index weight now _ =>
      if config.localIps[index]? = some ip ∧ startedAt ≤ now then weight else 0
    | .blocked .. => 0).sum

/-- An IP that is listed once has one client. -/
theorem reservedOn_eq {config : DispatcherConfig Ip} (hips : config.localIps.Nodup)
    {history : List Event} {index : ℕ} {ip : Ip} (hip : config.localIps[index]? = some ip)
    (startedAt : ℕ) : reservedOn config history ip startedAt
      = reservedSince history index startedAt := by
  obtain ⟨hlt, rfl⟩ := List.getElem?_eq_some_iff.mp hip
  refine congrArg List.sum (List.map_congr_left fun e _ => ?_)
  cases e with
  | blocked => rfl
  | reserved index' weight now time =>
    have hsame : config.localIps[index']? = some config.localIps[index] ↔ index' = index := by
      constructor
      · intro h
        obtain ⟨hlt', h⟩ := List.getElem?_eq_some_iff.mp h
        exact hips.getElem_inj_iff.mp h
      · rintro rfl
        exact List.getElem?_eq_getElem hlt
    simp only [Event.weightSince, hsame]

/-- The quota of every source IP is kept, and the next reservation chooses as it should. The window
    is that of a client, and where an IP has two clients, the weight of both is counted in each. -/
def QuotaSafe (config : DispatcherConfig Ip) (s : System Ip) : Prop :=
  (∀ client ∈ s.pool.clients,
    reservedOn config s.history client.ip client.windowStartedAt ≤ client.usedWeight ∧
      reservedOn config s.history client.ip client.windowStartedAt ≤ config.maxWeightPerWindow) ∧
  ∀ call s', step config s (.reserve call) = .ok s' → Chosen config s s' call

def quotaOf (limit : ℕ) : DispatcherConfig String :=
  { localIps := ["127.0.0.1"], maxWeightPerWindow := limit }

/-- Two calls of one weight ask for the IP. -/
def twoRequests (weight : ℕ) : List Action :=
  [.dispatch weight, .dispatch weight, .readClock 0, .readClock 1, .reserve 0, .reserve 1]

def listedTwice : DispatcherConfig String :=
  { localIps := ["127.0.0.1", "127.0.0.1"], maxWeightPerWindow := 3 }

end System
end CryptoNav.Dispatch
