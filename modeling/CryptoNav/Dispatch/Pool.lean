import Mathlib.Algebra.Order.BigOperators.Group.List
import CryptoNav.Lib.Runs
import CryptoNav.Lib.Sorting

/-!
# The source IP pool

`PoolState` of `rest_dispatcher.rs`: an IP is charged with the weight of the requests reserved
on it since its window started, and may be blocked until some time. Times are nanoseconds;
`Instant::duration_since` saturates at zero, as subtraction of naturals does. Weights are `u32`
and their addition saturates.

## How far an `Instant` goes

The seconds of an `Instant` are an `i64`, and `Instant + Duration` panics beyond it. A `Retry-After`
of 2^63 seconds is enough: `block_client` then panics before it has stored the block
(`blockClient`). The other sum of this kind, the end of a full window in the answer of a refusal, is
not bounded here: a window of that length makes the refused call panic where it is told to wait, and
the pool is the same either way.
-/

set_option autoImplicit false

namespace CryptoNav.Dispatch

open CryptoNav.Lib

def u32Max : ℕ := 2 ^ 32 - 1

def saturatingAdd (a b : ℕ) : ℕ := min (a + b) u32Max

def seconds (n : ℕ) : ℕ := n * 1000000000

/-- `Instant + Duration`, which panics when the seconds leave `i64`. -/
def instantAdd (time duration : ℕ) : Option ℕ :=
  if time + duration < seconds (2 ^ 63) then some (time + duration) else none

/-! ## Configuration, errors -/

structure DispatcherConfig (Ip : Type) where
  localIps : List Ip := []
  maxWeightPerWindow : ℕ := 1200
  window : ℕ := seconds 60
  cooldown429 : ℕ := seconds 60
  backoff418 : ℕ := seconds 120
  maxRateLimitRetries : ℕ := 1
  observedWeightHeader : Option String := none

inductive DispatchError (Ip : Type) where
  | invalidConfig (message : String)
  | weightExceedsLimit (weight limit : ℕ)
  | noAvailableIp (retryAfter : Option ℕ)
  | request (localIp : Ip)
  | rateLimited (localIp : Ip) (status : ℕ) (retryAfter : ℕ)
  deriving DecidableEq

def DispatcherConfig.validate {Ip : Type} (config : DispatcherConfig Ip) :
    Except (DispatchError Ip) Unit :=
  if config.localIps.isEmpty then .error (.invalidConfig "at least one local IP is required")
  else if config.maxWeightPerWindow = 0 then
    .error (.invalidConfig "max_weight_per_window must be greater than zero")
  else if config.window = 0 then .error (.invalidConfig "window must be greater than zero")
  else .ok ()

/-! ## Headers -/

abbrev Headers := List (String × String)

def Headers.get (headers : Headers) (name : String) : Option String :=
  (headers.find? (·.1 = name)).map (·.2)

/-- `str::parse` of an unsigned number below `bound`. -/
def parseUnsigned (bound : ℕ) (s : List Char) : Option ℕ :=
  let digits := match s with
    | '+' :: cs => cs
    | cs => cs
  let value := digits.foldlM (fun n c =>
    if '0' ≤ c ∧ c ≤ '9' then some (10 * n + (c.toNat - '0'.toNat)) else none) 0
  if digits.isEmpty then none else value.filter (· < bound)

def trim (s : List Char) : List Char :=
  ((s.dropWhile Char.isWhitespace).reverse.dropWhile Char.isWhitespace).reverse

def retryAfter (headers : Headers) : Option ℕ :=
  ((headers.get "retry-after").bind fun value => parseUnsigned (2 ^ 64) (trim value.toList)).map
    seconds

/-! ## One IP -/

structure IpClient (Ip : Type) where
  ip : Ip
  usedWeight : ℕ := 0
  windowStartedAt : ℕ
  blockedUntil : Option ℕ := none
  deriving DecidableEq

namespace IpClient

variable {Ip : Type}

def refresh (client : IpClient Ip) (now window : ℕ) : IpClient Ip :=
  let client := if window ≤ now - client.windowStartedAt then
    { client with usedWeight := 0, windowStartedAt := now } else client
  if client.blockedUntil.any (· ≤ now) then { client with blockedUntil := none } else client

/-- The filter of `reserve_client`. -/
def accepts (client : IpClient Ip) (weight limit : ℕ) : Bool :=
  client.blockedUntil.isNone && decide (saturatingAdd client.usedWeight weight ≤ limit)

/-- When a refused IP could take the request. -/
def readyAt (client : IpClient Ip) (now weight : ℕ) (config : DispatcherConfig Ip) : ℕ :=
  let ready := client.blockedUntil.elim now (max now)
  if config.maxWeightPerWindow < saturatingAdd client.usedWeight weight then
    max ready (client.windowStartedAt + config.window)
  else ready

def charge (client : IpClient Ip) (weight : ℕ) : IpClient Ip :=
  { client with usedWeight := saturatingAdd client.usedWeight weight }

/-- What a refresh does to the window. -/
theorem refresh_window (client : IpClient Ip) (now window : ℕ) :
    (window ≤ now - client.windowStartedAt ∧ (client.refresh now window).usedWeight = 0 ∧
        (client.refresh now window).windowStartedAt = now) ∨
      now < client.windowStartedAt + window ∧
        (client.refresh now window).usedWeight = client.usedWeight ∧
        (client.refresh now window).windowStartedAt = client.windowStartedAt := by
  unfold refresh
  by_cases h : window ≤ now - client.windowStartedAt
  · refine .inl ⟨h, ?_⟩
    simp only [if_pos h]
    split
    · exact ⟨rfl, rfl⟩
    · exact ⟨rfl, rfl⟩
  · refine .inr ⟨by omega, ?_⟩
    simp only [if_neg h]
    split
    · exact ⟨rfl, rfl⟩
    · exact ⟨rfl, rfl⟩

/-- What it does to the block: a block is lifted when its time has come. -/
theorem refresh_blocked (client : IpClient Ip) (now window : ℕ) :
    (client.refresh now window).blockedUntil = client.blockedUntil.filter (now < ·) := by
  unfold refresh
  have hsame : ∀ c : IpClient Ip, (if c.blockedUntil.any (· ≤ now) then
      { c with blockedUntil := none } else c).blockedUntil = c.blockedUntil.filter (now < ·) := by
    intro c
    cases h : c.blockedUntil with
    | none => simp [h]
    | some until_ =>
      by_cases hle : until_ ≤ now
      · simp [hle, Option.filter_some]
      · simp [h, hle, Option.filter_some]
  rw [hsame]
  split
  · rfl
  · rfl

@[simp] theorem refresh_ip (client : IpClient Ip) (now window : ℕ) :
    (client.refresh now window).ip = client.ip := by
  unfold refresh
  simp only
  split
  · split
    · rfl
    · rfl
  · split
    · rfl
    · rfl

end IpClient

/-! ## The pool -/

theorem modify_get {α : Type} (l : List α) (target index : ℕ) (f : α → α) :
    (l.modify target f)[index]? = if target = index then l[index]?.map f else l[index]? := by
  by_cases h : target = index
  · rw [if_pos h, h]
    exact List.getElem?_modify_eq ..
  · rw [if_neg h]
    exact List.getElem?_modify_ne _ _ h

structure PoolState (Ip : Type) where
  clients : List (IpClient Ip)
  nextTieBreak : ℕ := 0

namespace PoolState

variable {Ip : Type}

/-- The pool of a new dispatcher; `now` is what each client's clock reading gave. -/
def new (config : DispatcherConfig Ip) (now : ℕ → ℕ) : PoolState Ip where
  clients := config.localIps.mapIdx fun index ip => { ip, windowStartedAt := now index }

def refresh (pool : PoolState Ip) (now window : ℕ) : PoolState Ip :=
  { pool with clients := pool.clients.map (·.refresh now window) }

def usedAt (pool : PoolState Ip) (index : ℕ) : ℕ :=
  (pool.clients[index]?).elim 0 IpClient.usedWeight

def acceptsAt (pool : PoolState Ip) (weight limit index : ℕ) : Bool :=
  (pool.clients[index]?).any (·.accepts weight limit)

/-- The indices in the order in which they are tried. -/
def rotation (pool : PoolState Ip) : List ℕ :=
  (List.range pool.clients.length).map fun offset =>
    (pool.nextTieBreak % pool.clients.length + offset) % pool.clients.length

/-- `filter(..).min_by_key(..)`: the first of the least used. -/
def select (pool : PoolState Ip) (weight limit : ℕ) : Option ℕ :=
  (sortByKey pool.usedAt (pool.rotation.filter (pool.acceptsAt weight limit))).head?

/-- The body of `reserve_client`, under the lock; `now` was read before. -/
def reserveClient (pool : PoolState Ip) (config : DispatcherConfig Ip) (now weight : ℕ) :
    PoolState Ip × Except (DispatchError Ip) ℕ :=
  let pool := pool.refresh now config.window
  match pool.select weight config.maxWeightPerWindow with
  | none =>
    let ready := (pool.clients.map (·.readyAt now weight config)).min?
    (pool, .error (.noAvailableIp (ready.map (· - now))))
  | some index =>
    ({ clients := pool.clients.modify index (·.charge weight)
       nextTieBreak := (index + 1) % pool.clients.length }, .ok index)

/-- The body of `block_client`, or `none` when it panics. -/
def blockClient (pool : PoolState Ip) (index now duration : ℕ) : Option (PoolState Ip) :=
  (instantAdd now duration).map fun deadline =>
    { pool with clients := pool.clients.modify index fun client =>
        { client with blockedUntil := some deadline } }

/-- `update_observed_weight`. -/
def updateObservedWeight (pool : PoolState Ip) (config : DispatcherConfig Ip) (index : ℕ)
    (headers : Headers) : PoolState Ip :=
  let observed := config.observedWeightHeader.bind fun name =>
    (headers.get name).bind fun value => parseUnsigned (2 ^ 32) value.toList
  match observed with
  | none => pool
  | some observed => { pool with clients := pool.clients.modify index fun client =>
      { client with usedWeight := max client.usedWeight observed } }

/-! ### What selection finds -/

theorem mem_rotation {pool : PoolState Ip} {index : ℕ} :
    index ∈ pool.rotation ↔ index < pool.clients.length := by
  unfold rotation
  rw [List.mem_map]
  constructor
  · rintro ⟨offset, hoffset, rfl⟩
    have := List.mem_range.mp hoffset
    exact Nat.mod_lt _ (by omega)
  · intro hindex
    -- The offset that leads from the start to the index, round the end if it must.
    generalize hn : pool.clients.length = n at hindex
    have hstart : pool.nextTieBreak % n < n := Nat.mod_lt _ (by omega)
    generalize pool.nextTieBreak % n = start at hstart ⊢
    by_cases hle : start ≤ index
    · refine ⟨index - start, List.mem_range.mpr (by omega), ?_⟩
      rw [Nat.add_sub_cancel' hle, Nat.mod_eq_of_lt hindex]
    · refine ⟨n - start + index, List.mem_range.mpr (by omega), ?_⟩
      rw [show start + (n - start + index) = n + index by omega, Nat.add_mod_left,
        Nat.mod_eq_of_lt hindex]

/-- The selected IP accepts the request and is least used among those that do. -/
theorem select_some {pool : PoolState Ip} {weight limit index : ℕ}
    (h : pool.select weight limit = some index) : ∃ client, pool.clients[index]? = some client ∧
      client.accepts weight limit ∧ ∀ other ∈ pool.clients, other.accepts weight limit →
        client.usedWeight ≤ other.usedWeight := by
  have hbest := best_head? pool.usedAt (pool.rotation.filter (pool.acceptsAt weight limit))
  unfold select at h
  rw [h] at hbest
  obtain ⟨hmem, hleast⟩ := hbest
  obtain ⟨-, haccepts⟩ := List.mem_filter.mp hmem
  obtain ⟨client, hclient, haccepts⟩ : ∃ client, pool.clients[index]? = some client ∧
      client.accepts weight limit := (Option.any_eq_true _ _).mp haccepts
  refine ⟨client, hclient, haccepts, fun other hother hok => ?_⟩
  obtain ⟨j, hj, rfl⟩ := List.getElem_of_mem hother
  have hget : pool.clients[j]? = some pool.clients[j] := List.getElem?_eq_getElem hj
  have hused : pool.usedAt index ≤ pool.usedAt j :=
    hleast j (List.mem_filter.mpr ⟨mem_rotation.mpr hj, by
      unfold acceptsAt
      rw [hget]
      exact hok⟩)
  unfold usedAt at hused
  rw [hclient, hget] at hused
  exact hused

theorem select_none {pool : PoolState Ip} {weight limit : ℕ}
    (h : pool.select weight limit = none) {client : IpClient Ip} (hmem : client ∈ pool.clients) :
    ¬client.accepts weight limit := by
  intro hok
  have hbest := best_head? pool.usedAt (pool.rotation.filter (pool.acceptsAt weight limit))
  unfold select at h
  rw [h] at hbest
  replace hbest : pool.rotation.filter (pool.acceptsAt weight limit) = [] := hbest
  obtain ⟨j, hj, rfl⟩ := List.getElem_of_mem hmem
  refine List.filter_eq_nil_iff.mp hbest j (mem_rotation.mpr hj) ?_
  unfold acceptsAt
  rw [List.getElem?_eq_getElem hj]
  exact hok

/-- What a reservation does. -/
theorem reserveClient_cases (pool : PoolState Ip) (config : DispatcherConfig Ip)
    (now weight : ℕ) :
    (∃ index client, (pool.refresh now config.window).clients[index]? = some client ∧
        client.accepts weight config.maxWeightPerWindow ∧
        (∀ other ∈ (pool.refresh now config.window).clients,
          other.accepts weight config.maxWeightPerWindow →
            client.usedWeight ≤ other.usedWeight) ∧
        (pool.reserveClient config now weight).2 = .ok index ∧
        (pool.reserveClient config now weight).1.clients
          = (pool.refresh now config.window).clients.modify index (·.charge weight)) ∨
      (∃ retry, (pool.reserveClient config now weight).2 = .error (.noAvailableIp retry)) ∧
        (pool.reserveClient config now weight).1 = pool.refresh now config.window ∧
        ∀ client ∈ (pool.refresh now config.window).clients,
          ¬client.accepts weight config.maxWeightPerWindow := by
  unfold reserveClient
  simp only
  cases h : (pool.refresh now config.window).select weight config.maxWeightPerWindow with
  | none => exact .inr ⟨⟨_, rfl⟩, rfl, fun client hmem => select_none h hmem⟩
  | some index =>
    obtain ⟨client, hclient, haccepts, hleast⟩ := select_some h
    exact .inl ⟨index, client, hclient, haccepts, hleast, rfl, rfl⟩

end PoolState
end CryptoNav.Dispatch
