import CryptoNav.Dispatch.Pool

/-!
# The wait after a refusal

When no IP takes a request, `reserve_client` answers how long to wait. The answer comes from a
formula (`readyAt`), the next attempt from a refresh and a test (`accepts`), and both have to speak
of one instant. They do, and asking again in between, which refreshes the pool, changes nothing.

One instant has to be chosen since the pool reads the clock once for each request; that time
passes between the answer and the next attempt only helps. Other calls that take the weight in
the meantime are left out here, as the wait is computed for the caller alone and gives it no
right to anything.
-/

set_option autoImplicit false

namespace CryptoNav.Dispatch

variable {Ip : Type}

namespace IpClient

theorem accepts_iff {client : IpClient Ip} {weight limit : ℕ} :
    client.accepts weight limit ↔
      client.blockedUntil = none ∧ saturatingAdd client.usedWeight weight ≤ limit := by
  rw [accepts, Bool.and_eq_true, Option.isNone_iff_eq_none, decide_eq_true_eq]

theorem readyAt_le_iff {client : IpClient Ip} {now weight t : ℕ} {config : DispatcherConfig Ip}
    (ht : now ≤ t) : client.readyAt now weight config ≤ t ↔
      (∀ deadline ∈ client.blockedUntil, deadline ≤ t) ∧
        (config.maxWeightPerWindow < saturatingAdd client.usedWeight weight →
          client.windowStartedAt + config.window ≤ t) := by
  have hblocked : client.blockedUntil.elim now (max now) ≤ t ↔
      ∀ deadline ∈ client.blockedUntil, deadline ≤ t := by
    cases client.blockedUntil with
    | none => simpa using ht
    | some deadline => simpa using fun _ => ht
  unfold readyAt
  simp only
  split
  · rename_i hover
    rw [max_le_iff, hblocked, forall_prop_of_true hover]
  · rename_i hroom
    rw [hblocked, forall_prop_of_false hroom, and_true]

theorem filter_later_eq_none {blocked : Option ℕ} {t : ℕ} :
    blocked.filter (t < ·) = none ↔ ∀ deadline ∈ blocked, deadline ≤ t := by
  simp only [Option.filter_eq_none_iff, decide_eq_true_eq, Nat.not_lt, Option.mem_def]

theorem saturatingAdd_zero_le {weight limit : ℕ} (h : weight ≤ limit) :
    saturatingAdd 0 weight ≤ limit := by
  rw [saturatingAdd, Nat.zero_add]
  exact (Nat.min_le_left ..).trans h

theorem refresh_usedWeight (client : IpClient Ip) (now window : ℕ) :
    (client.refresh now window).usedWeight
      = if window ≤ now - client.windowStartedAt then 0 else client.usedWeight := by
  unfold refresh
  split
  · simp only
    split
    · rfl
    · rfl
  · simp only
    split
    · rfl
    · rfl

/-- **An IP is ready when `readyAt` says**: at that time, and not before, a refresh makes it accept
    a request that fits in an empty window. A window without length is always over, so an IP that
    was refreshed before has used nothing of it. -/
theorem refresh_accepts_iff {client : IpClient Ip} {config : DispatcherConfig Ip}
    {now weight t : ℕ} (hweight : weight ≤ config.maxWeightPerWindow) (ht : now ≤ t)
    (hwindow : config.window = 0 → client.usedWeight = 0) :
    (client.refresh t config.window).accepts weight config.maxWeightPerWindow ↔
      client.readyAt now weight config ≤ t := by
  rw [accepts_iff, refresh_blocked, filter_later_eq_none, readyAt_le_iff ht, refresh_usedWeight]
  refine and_congr_right fun _ => ?_
  have hempty := saturatingAdd_zero_le hweight
  split
  · rename_i hover
    refine iff_of_true hempty fun hfull => ?_
    rcases Nat.eq_zero_or_pos config.window with hzero | hpos
    · rw [hwindow hzero] at hfull
      exact absurd hempty (Nat.not_le.mpr hfull)
    · omega
  · rename_i hlater
    constructor
    · exact fun hroom hfull => absurd hroom (Nat.not_le.mpr hfull)
    · intro h
      by_contra hfull
      exact hlater (Nat.le_sub_of_add_le' (h (Nat.not_le.mp hfull)))

/-- A refresh in between does not change what a later refresh makes of an IP. -/
theorem refresh_refresh_accepts (client : IpClient Ip) {t t' : ℕ} (ht : t ≤ t')
    (window weight limit : ℕ) :
    ((client.refresh t window).refresh t' window).accepts weight limit
      = (client.refresh t' window).accepts weight limit := by
  have hused : ((client.refresh t window).refresh t' window).usedWeight
      = (client.refresh t' window).usedWeight := by
    rw [refresh_usedWeight, refresh_usedWeight, refresh_usedWeight]
    rcases client.refresh_window t window with ⟨hover, -, -⟩ | ⟨-, -, hstart⟩
    · -- Over at the first refresh, it is over at the second.
      rw [if_pos hover, if_pos (hover.trans (Nat.sub_le_sub_right ht _)), ite_self]
    · rw [hstart]
      split
      · rfl
      · rename_i hlater
        exact if_neg fun hover => hlater (hover.trans (Nat.sub_le_sub_right ht _))
  have hblocked : ((client.refresh t window).refresh t' window).blockedUntil
      = (client.refresh t' window).blockedUntil := by
    rw [refresh_blocked, refresh_blocked, refresh_blocked, Option.filter_filter]
    congr 1
    funext deadline
    rw [← Bool.decide_and]
    exact decide_eq_decide.mpr ⟨fun h => h.2, fun h => ⟨ht.trans_lt h, h⟩⟩
  rw [accepts, accepts, hused, hblocked]

end IpClient

namespace PoolState

/-! ## Asking again -/

/-- The requests for `weight` made one after the other, each answered from the pool that the one
    before it left. -/
def poll (pool : PoolState Ip) (config : DispatcherConfig Ip) (weight : ℕ) :
    List ℕ → PoolState Ip × List (Except (DispatchError Ip) ℕ)
  | [] => (pool, [])
  | t :: times =>
    let (pool, answer) := pool.reserveClient config t weight
    let (pool, answers) := poll pool config weight times
    (pool, answer :: answers)

/-- A pool has an IP that will accept at `t`. It is said of a pool that is refreshed at `t`,
    whenever it was refreshed before. -/
def Ready (pool : PoolState Ip) (config : DispatcherConfig Ip) (weight t : ℕ) : Prop :=
  ∃ client ∈ pool.clients,
    (client.refresh t config.window).accepts weight config.maxWeightPerWindow

theorem reserveClient_isOk {pool : PoolState Ip} {config : DispatcherConfig Ip} {t weight : ℕ} :
    (pool.reserveClient config t weight).2.isOk ↔ pool.Ready config weight t := by
  have hready : pool.Ready config weight t ↔ ∃ client ∈ (pool.refresh t config.window).clients,
      client.accepts weight config.maxWeightPerWindow := by
    unfold Ready refresh
    simp only [List.mem_map, exists_exists_and_eq_and]
  rw [hready]
  rcases pool.reserveClient_cases config t weight with
    ⟨index, client, hclient, haccepts, -, hok, -⟩ | ⟨⟨retry, herror⟩, -, hnone⟩
  · rw [hok]
    exact iff_of_true rfl ⟨client, List.mem_of_getElem? hclient, haccepts⟩
  · rw [herror]
    exact iff_of_false Bool.false_ne_true fun ⟨client, hmem, h⟩ => hnone client hmem h

/-- A refusal only refreshes the pool. -/
theorem reserveClient_refused {pool : PoolState Ip} {config : DispatcherConfig Ip} {t weight : ℕ}
    (h : ¬pool.Ready config weight t) :
    (pool.reserveClient config t weight).1 = pool.refresh t config.window := by
  rcases pool.reserveClient_cases config t weight with ⟨index, -, -, -, -, hok, -⟩ | ⟨-, hpool, -⟩
  · rw [← reserveClient_isOk, hok] at h
    exact absurd rfl h
  · exact hpool

/-- A refresh does not bring the IPs closer to being ready, nor further. -/
theorem refresh_ready {pool : PoolState Ip} {config : DispatcherConfig Ip} {weight t t' : ℕ}
    (ht : t ≤ t') :
    (pool.refresh t config.window).Ready config weight t' ↔ pool.Ready config weight t' := by
  unfold Ready refresh
  simp only [List.mem_map, exists_exists_and_eq_and, IpClient.refresh_refresh_accepts _ ht]

/-- As long as no IP is ready, all requests are refused, and the pool they leave is ready for a later
    one just when the pool before them was. -/
theorem poll_refused {pool : PoolState Ip} {config : DispatcherConfig Ip} {weight : ℕ}
    {times : List ℕ} (t' : ℕ) (hsorted : times.Pairwise (· ≤ ·)) (ht' : ∀ t ∈ times, t ≤ t')
    (hnot : ∀ t ∈ times, ¬pool.Ready config weight t) :
    (∀ answer ∈ (pool.poll config weight times).2, ¬answer.isOk) ∧
      ((pool.poll config weight times).1.Ready config weight t' ↔
        pool.Ready config weight t') := by
  induction times generalizing pool with
  | nil => exact ⟨fun _ h => (by cases h), Iff.rfl⟩
  | cons t times ih =>
    obtain ⟨hfirst, hsorted⟩ := List.pairwise_cons.mp hsorted
    have hrefused := hnot t List.mem_cons_self
    have hrest := @ih (pool.refresh t config.window) hsorted
      (fun u hu => ht' u (List.mem_cons_of_mem _ hu)) fun u hu => by
        rw [refresh_ready (hfirst u hu)]
        exact hnot u (List.mem_cons_of_mem _ hu)
    rw [refresh_ready (ht' t List.mem_cons_self), ← reserveClient_refused hrefused] at hrest
    refine ⟨fun answer hanswer => ?_, hrest.2⟩
    rcases List.mem_cons.mp hanswer with rfl | hanswer
    · exact fun hok => hrefused (reserveClient_isOk.mp hok)
    · exact hrest.1 answer hanswer

/-! ## The answer -/

/-- When the first IP of a refreshed pool is ready. -/
def earliest (pool : PoolState Ip) (config : DispatcherConfig Ip) (now weight : ℕ) : Option ℕ :=
  (pool.clients.map (·.readyAt now weight config)).min?

theorem reserveClient_retry {pool : PoolState Ip} {config : DispatcherConfig Ip} {now weight : ℕ}
    (h : ¬pool.Ready config weight now) : (pool.reserveClient config now weight).2
      = .error (.noAvailableIp
          (((pool.refresh now config.window).earliest config now weight).map (· - now))) := by
  rw [← reserveClient_isOk] at h
  unfold reserveClient at h ⊢
  simp only at h ⊢
  split
  · rfl
  · rename_i index hindex
    rw [hindex] at h
    exact absurd rfl h

theorem le_readyAt (client : IpClient Ip) (now weight : ℕ) (config : DispatcherConfig Ip) :
    now ≤ client.readyAt now weight config := by
  have hblocked : now ≤ client.blockedUntil.elim now (max now) := by
    cases client.blockedUntil with
    | none => exact le_rfl
    | some deadline => exact le_max_left ..
  unfold IpClient.readyAt
  simp only
  split
  · exact hblocked.trans (le_max_left ..)
  · exact hblocked

/-- A refreshed pool is ready from its earliest time on. -/
theorem ready_iff_earliest {pool : PoolState Ip} {config : DispatcherConfig Ip}
    {now weight t ready : ℕ} (hweight : weight ≤ config.maxWeightPerWindow) (ht : now ≤ t)
    (hready : (pool.refresh now config.window).earliest config now weight = some ready) :
    (pool.refresh now config.window).Ready config weight t ↔ ready ≤ t := by
  obtain ⟨hmem, hleast⟩ := List.min?_eq_some_iff.mp hready
  have hclient : ∀ client ∈ (pool.refresh now config.window).clients,
      ((client.refresh t config.window).accepts weight config.maxWeightPerWindow ↔
        client.readyAt now weight config ≤ t) := by
    intro client hclient
    obtain ⟨old, -, rfl⟩ := List.mem_map.mp hclient
    refine IpClient.refresh_accepts_iff hweight ht fun hzero => ?_
    rw [hzero, IpClient.refresh_usedWeight, if_pos (Nat.zero_le _)]
  constructor
  · rintro ⟨client, hmem, haccepts⟩
    exact (hleast _ (List.mem_map_of_mem hmem)).trans ((hclient client hmem).mp haccepts)
  · intro hle
    obtain ⟨client, hin, rfl⟩ := List.mem_map.mp hmem
    exact ⟨client, hin, (hclient client hin).mpr hle⟩

/-- **The wait is exact.** After a refusal at `now`, requests for the same weight are refused as
    often as they are made before the wait is over, and granted when it is. Only a pool without IPs
    has no wait to give. -/
theorem retry_after_exact {pool : PoolState Ip} {config : DispatcherConfig Ip} {now weight : ℕ}
    (hweight : weight ≤ config.maxWeightPerWindow)
    (hrefused : ¬(pool.reserveClient config now weight).2.isOk) :
    ∃ retry, (pool.reserveClient config now weight).2 = .error (.noAvailableIp retry) ∧
      (retry = none ↔ pool.clients = []) ∧
      ∀ wait ∈ retry, ∀ times : List ℕ, times.Pairwise (· ≤ ·) →
        (∀ t ∈ times, now ≤ t ∧ t < now + wait) →
        let after := (pool.reserveClient config now weight).1.poll config weight times
        (∀ answer ∈ after.2, ¬answer.isOk) ∧
          (after.1.reserveClient config (now + wait) weight).2.isOk := by
  have hnot : ¬pool.Ready config weight now := fun h => hrefused (reserveClient_isOk.mpr h)
  refine ⟨_, reserveClient_retry hnot, ?_, ?_⟩
  · rw [Option.map_eq_none_iff, earliest, List.min?_eq_none_iff, List.map_eq_nil_iff]
    exact List.map_eq_nil_iff
  · intro wait hwait times hsorted htimes
    obtain ⟨ready, hready, rfl⟩ := Option.map_eq_some_iff.mp hwait
    have hle : now ≤ ready := by
      obtain ⟨client, -, rfl⟩ := List.mem_map.mp (List.min?_eq_some_iff.mp hready).1
      exact le_readyAt client now weight config
    rw [Nat.add_sub_cancel' hle] at htimes ⊢
    rw [reserveClient_refused hnot]
    have hiff : ∀ t, now ≤ t → ((pool.refresh now config.window).Ready config weight t ↔
        ready ≤ t) := fun t ht => ready_iff_earliest hweight ht hready
    obtain ⟨hanswers, hpool⟩ := poll_refused ready hsorted
      (fun t ht => (htimes t ht).2.le) fun t ht => by
        rw [hiff t (htimes t ht).1]
        exact Nat.not_le.mpr (htimes t ht).2
    exact ⟨hanswers, reserveClient_isOk.mpr (hpool.mpr ((hiff ready hle).mpr le_rfl))⟩

def twoIps : DispatcherConfig String where
  localIps := ["10.0.0.1", "10.0.0.2"]
  maxWeightPerWindow := 10

/-- One IP is used up, the other is blocked longer than its window. -/
def usedAndBlocked : PoolState String where
  clients := [
    { ip := "10.0.0.1", usedWeight := 8, windowStartedAt := 0 },
    { ip := "10.0.0.2", windowStartedAt := 0, blockedUntil := some (seconds 90) }]

/-- A second into the window the wait is the 59 seconds that are left of it: asking twice more is in
    vain, and then the first IP is free. -/
theorem retry_after_exact_used : ∃ retry,
    (usedAndBlocked.reserveClient twoIps (seconds 1) 3).2 = .error (.noAvailableIp retry) ∧
      (retry = none ↔ usedAndBlocked.clients = []) ∧
      ∀ wait ∈ retry, ∀ times : List ℕ, times.Pairwise (· ≤ ·) →
        (∀ t ∈ times, seconds 1 ≤ t ∧ t < seconds 1 + wait) →
        let after := (usedAndBlocked.reserveClient twoIps (seconds 1) 3).1.poll twoIps 3 times
        (∀ answer ∈ after.2, ¬answer.isOk) ∧
          (after.1.reserveClient twoIps (seconds 1 + wait) 3).2.isOk :=
  retry_after_exact (by decide) (by decide +kernel)

end PoolState
end CryptoNav.Dispatch
