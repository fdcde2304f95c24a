import CryptoNav.Feeds.AccountRisk

/-!
# The listener of the account monitors

One thread goes through the feeds again and again: a feed without subscriber tries to open its
service when it is time to, one with a subscriber takes what has arrived until there is nothing more
or the connection fails. The feeds share the cache and do not disturb each other (`listen_alone`).
Of a feed by itself the cache says whether it has a subscriber and holds the newest reading that
arrived while it had one (`alone_inStep`); attempts to open and warnings keep their distance
(`listener_paced`).

What the thread meets is given from outside: the clock, whether a service can be opened, the
payloads its subscriber receives and when it fails (`Turn`). What happens between two payloads, the
sleep between two rounds and the node of the inter-process library are left out, and so is what the
log says apart from the warnings that are rationed. `Effect` is what is left of these: the attempts
to open, which are at least half a second apart, and the warnings.

The page is asked for at any time (`snapshots`); since the cache is behind one lock, what it shows
is the state between two steps of the thread. A snapshot calls a reading stale by when it was
received, while which reading is kept goes by the time of its source: a feed that sends only older
readings than the one kept becomes stale.
-/

set_option autoImplicit false

namespace CryptoNav.Feeds

open CryptoNav.Lib

def ipcReconnectIntervalMs : ℤ := 500
def ipcWarningIntervalMs : ℤ := 30000

/-! ## The cache -/

structure CacheState where
  connected : String → Option Bool
  readings : String → Option AccountRiskReading

namespace CacheState

def start (feeds : List AccountRiskFeed) : CacheState where
  connected slug := if slug ∈ feeds.map (·.strategySlug) then some false else none
  readings _ := none

def setConnected (state : CacheState) (strategySlug : String) (connected : Bool) : CacheState :=
  { state with connected := fun slug =>
      if slug = strategySlug then some connected else state.connected slug }

def update (state : CacheState) (strategySlug : String) (reading : AccountRiskReading)
    (nowMs : ℤ) : CacheState :=
  let reading := { reading with receivedAtMs := nowMs }
  if (state.readings strategySlug).any fun existing => reading.sourceTsMs < existing.sourceTsMs
  then state
  else { state with readings := fun slug =>
          if slug = strategySlug then some reading else state.readings slug }

end CacheState

/-! ## Snapshots -/

structure AccountRiskSnapshot where
  strategySlug : String
  exchange : String
  connected : Bool
  status : String
  riskLevel : Option String
  scope : Option String
  sourceTsMs : Option ℤ
  receivedAtMs : Option ℤ
  uniMmr : Option Float
  adjustedEquityUsd : Option Float
  actualEquityUsd : Option Float
  maintenanceMarginUsd : Option Float
  initialMarginUsd : Option Float
  borrowedUsd : Option Float
  notionalUsd : Option Float

/-- `i64::saturating_sub` -/
def saturatingSub (a b : ℤ) : ℤ := max (-2 ^ 63) (min (2 ^ 63 - 1) (a - b))

def riskLevel (reading : AccountRiskReading) : String :=
  if reading.maintenanceMarginUsd ≤ epsilon then "free_trade"
  else if 1.5 < reading.marginRatio then "free_trade"
  else if 1.2 < reading.marginRatio then "warning"
  else if 1.05 < reading.marginRatio then "reduce_only"
  else "liquidation"

def snapshotForFeed (feed : AccountRiskFeed) (connected : Bool)
    (reading : Option AccountRiskReading) (nowMs : ℤ) : AccountRiskSnapshot :=
  let stale := reading.any fun reading => staleAfterMs < saturatingSub nowMs reading.receivedAtMs
  { strategySlug := feed.strategySlug
    exchange := feed.exchange
    connected
    status := if !connected then "unavailable" else if reading.isNone then "waiting"
      else if stale then "stale" else "live"
    riskLevel := reading.map Feeds.riskLevel
    scope := reading.map (·.scope.asStr)
    sourceTsMs := reading.map (·.sourceTsMs)
    receivedAtMs := reading.map (·.receivedAtMs)
    uniMmr := reading.bind fun reading =>
      if epsilon < reading.maintenanceMarginUsd then some reading.marginRatio else none
    adjustedEquityUsd := reading.map (·.adjustedEquityUsd)
    actualEquityUsd := reading.map (·.actualEquityUsd)
    maintenanceMarginUsd := reading.map (·.maintenanceMarginUsd)
    initialMarginUsd := reading.map (·.initialMarginUsd)
    borrowedUsd := reading.map (·.borrowedUsd)
    notionalUsd := reading.map (·.notionalUsd) }

def snapshots (feeds : List AccountRiskFeed) (state : CacheState) (nowMs : ℤ) :
    List AccountRiskSnapshot :=
  (sortByKey (fun feed : AccountRiskFeed => toLex (feed.sortOrder, feed.strategySlug)) feeds).map
    fun feed => snapshotForFeed feed ((state.connected feed.strategySlug).getD false)
      (state.readings feed.strategySlug) nowMs

/-! ## A feed -/

structure IpcFeed where
  config : AccountRiskFeed
  subscribed : Bool
  nextOpenAttemptAt : ℤ
  lastWarningAt : Option ℤ

def IpcFeed.new (config : AccountRiskFeed) (now : ℤ) : IpcFeed :=
  { config, subscribed := false, nextOpenAttemptAt := now, lastWarningAt := none }

/-- What a feed meets in one turn: when it asks for the time, whether its service can be opened and
when that has failed, what its subscriber receives and when, and the time at which it fails. -/
structure Turn where
  now : ℤ
  opens : Bool
  failedAt : ℤ
  messages : List (List UInt8 × ℤ)
  lostAt : Option ℤ

/-- What a feed does to the outside. -/
inductive Effect where
  | attempt (now : ℤ)
  | subscribed
  | warnUnavailable (now : ℤ)

namespace IpcFeed

def ensureSubscriber (feed : IpcFeed) (state : CacheState) (turn : Turn) :
    IpcFeed × CacheState × List Effect :=
  if feed.subscribed || turn.now < feed.nextOpenAttemptAt then (feed, state, [])
  else if turn.opens then
    ({ feed with subscribed := true, lastWarningAt := none },
      state.setConnected feed.config.strategySlug true, [.attempt turn.now, .subscribed])
  else
    let state := state.setConnected feed.config.strategySlug false
    let nextOpenAttemptAt := turn.failedAt + ipcReconnectIntervalMs
    if feed.lastWarningAt.all fun last => ipcWarningIntervalMs ≤ turn.failedAt - last then
      ({ feed with nextOpenAttemptAt, lastWarningAt := some turn.failedAt }, state,
        [.attempt turn.now, .warnUnavailable turn.failedAt])
    else ({ feed with nextOpenAttemptAt }, state, [.attempt turn.now])

/-- A message of another type, and one that cannot be decoded, leaves the cache as it is. -/
def take (feed : IpcFeed) (state : CacheState) (message : List UInt8 × ℤ) : CacheState :=
  match decodeAccountRisk message.1 with
  | .ok (some reading) => state.update feed.config.strategySlug reading message.2
  | .ok none => state
  | .error _ => state

def drain (feed : IpcFeed) (state : CacheState) (turn : Turn) : IpcFeed × CacheState :=
  if !feed.subscribed then (feed, state)
  else
    let state := turn.messages.foldl feed.take state
    match turn.lostAt with
    | none => (feed, state)
    | some lostAt =>
      ({ feed with subscribed := false, nextOpenAttemptAt := lostAt + ipcReconnectIntervalMs },
        state.setConnected feed.config.strategySlug false)

def turn (feed : IpcFeed) (state : CacheState) (turn : Turn) : IpcFeed × CacheState × List Effect :=
  let (feed, state, effects) := feed.ensureSubscriber state turn
  let (feed, state) := feed.drain state turn
  (feed, state, effects)

end IpcFeed

/-! ## All feeds -/

/-- One round of `run_ipc_listener`; `turns` says what each feed meets. -/
def listenRound (turns : String → Turn) :
    List IpcFeed → CacheState → List IpcFeed × CacheState × List (String × Effect)
  | [], state => ([], state, [])
  | feed :: feeds, state =>
    let slug := feed.config.strategySlug
    let (feed, state, effects) := feed.turn state (turns slug)
    let (feeds, state, rest) := listenRound turns feeds state
    (feed :: feeds, state, effects.map (slug, ·) ++ rest)

def listen (feeds : List IpcFeed) (state : CacheState) :
    List (String → Turn) → List IpcFeed × CacheState × List (String × Effect)
  | [] => (feeds, state, [])
  | turns :: rounds =>
    let (feeds, state, effects) := listenRound turns feeds state
    let (feeds, state, rest) := listen feeds state rounds
    (feeds, state, effects ++ rest)

/-- The turns of one feed by itself. -/
def alone (feed : IpcFeed) (state : CacheState) : List Turn → IpcFeed × CacheState × List Effect
  | [] => (feed, state, [])
  | turn :: turns =>
    let (feed, state, effects) := feed.turn state turn
    let (feed, state, rest) := alone feed state turns
    (feed, state, effects ++ rest)

/-! ## The feeds do not disturb each other -/

/-- The cache holds the same of a strategy. Whatever it holds of others is left out. -/
def Agree (slug : String) (state state' : CacheState) : Prop :=
  state.connected slug = state'.connected slug ∧ state.readings slug = state'.readings slug

theorem agree_setConnected {slug : String} {state state' : CacheState} (h : Agree slug state state')
    (strategySlug : String) (connected : Bool) :
    Agree slug (state.setConnected strategySlug connected)
      (state'.setConnected strategySlug connected) := by
  refine ⟨?_, h.2⟩
  simp only [CacheState.setConnected, h.1]

theorem agree_setConnected_of_ne {slug strategySlug : String} (h : slug ≠ strategySlug)
    (state : CacheState) (connected : Bool) :
    Agree slug (state.setConnected strategySlug connected) state :=
  ⟨if_neg h, rfl⟩

theorem agree_update {slug : String} {state state' : CacheState} (h : Agree slug state state')
    (reading : AccountRiskReading) (nowMs : ℤ) :
    Agree slug (state.update slug reading nowMs) (state'.update slug reading nowMs) := by
  simp only [CacheState.update, h.2]
  split
  · exact h
  · exact ⟨h.1, by simp only [if_true]⟩

theorem agree_update_of_ne {slug strategySlug : String} (h : slug ≠ strategySlug)
    (state : CacheState) (reading : AccountRiskReading) (nowMs : ℤ) :
    Agree slug (state.update strategySlug reading nowMs) state := by
  simp only [CacheState.update]
  split
  · exact ⟨rfl, rfl⟩
  · exact ⟨rfl, if_neg h⟩

theorem Agree.trans {slug : String} {a b c : CacheState} (h : Agree slug a b) (h' : Agree slug b c) :
    Agree slug a c := ⟨h.1.trans h'.1, h.2.trans h'.2⟩

theorem Agree.symm {slug : String} {a b : CacheState} (h : Agree slug a b) : Agree slug b a :=
  ⟨h.1.symm, h.2.symm⟩

theorem Agree.refl (slug : String) (a : CacheState) : Agree slug a a := ⟨rfl, rfl⟩

section
variable {feed : IpcFeed} {state state' : CacheState}

theorem take_agree (h : Agree feed.config.strategySlug state state')
    (messages : List (List UInt8 × ℤ)) :
    Agree feed.config.strategySlug (messages.foldl feed.take state)
      (messages.foldl feed.take state') := by
  induction messages generalizing state state' with
  | nil => exact h
  | cons message messages ih =>
    apply ih
    unfold IpcFeed.take
    split
    · exact agree_update h ..
    · exact h
    · exact h

theorem take_agree_of_ne {slug : String} (h : slug ≠ feed.config.strategySlug)
    (messages : List (List UInt8 × ℤ)) : Agree slug (messages.foldl feed.take state) state := by
  induction messages generalizing state with
  | nil => exact .refl ..
  | cons message messages ih =>
    refine ih.trans ?_
    unfold IpcFeed.take
    split
    · exact agree_update_of_ne h ..
    · exact .refl ..
    · exact .refl ..

theorem ensureSubscriber_config (feed : IpcFeed) (state : CacheState) (turn : Turn) :
    (feed.ensureSubscriber state turn).1.config = feed.config := by
  unfold IpcFeed.ensureSubscriber
  split
  · rfl
  · split
    · rfl
    · dsimp only
      split <;> rfl

/-- What a feed becomes and does does not depend on the cache, and what the cache holds of it
depends on what it held of it. -/
theorem ensureSubscriber_agree (h : Agree feed.config.strategySlug state state') (turn : Turn) :
    (feed.ensureSubscriber state turn).1 = (feed.ensureSubscriber state' turn).1 ∧
    Agree feed.config.strategySlug (feed.ensureSubscriber state turn).2.1
      (feed.ensureSubscriber state' turn).2.1 ∧
    (feed.ensureSubscriber state turn).2.2 = (feed.ensureSubscriber state' turn).2.2 := by
  unfold IpcFeed.ensureSubscriber
  split
  · exact ⟨rfl, h, rfl⟩
  · split
    · exact ⟨rfl, agree_setConnected h .., rfl⟩
    · dsimp only
      split <;> exact ⟨rfl, agree_setConnected h .., rfl⟩

theorem drain_agree (h : Agree feed.config.strategySlug state state') (turn : Turn) :
    (feed.drain state turn).1 = (feed.drain state' turn).1 ∧
    Agree feed.config.strategySlug (feed.drain state turn).2 (feed.drain state' turn).2 := by
  unfold IpcFeed.drain
  split
  · exact ⟨rfl, h⟩
  · dsimp only
    split
    · exact ⟨rfl, take_agree h _⟩
    · exact ⟨rfl, agree_setConnected (take_agree h _) ..⟩

theorem drain_config (feed : IpcFeed) (state : CacheState) (turn : Turn) :
    (feed.drain state turn).1.config = feed.config := by
  unfold IpcFeed.drain
  split
  · rfl
  · dsimp only
    split <;> rfl

theorem turn_config (feed : IpcFeed) (state : CacheState) (turn : Turn) :
    (feed.turn state turn).1.config = feed.config := by
  simp only [IpcFeed.turn, drain_config, ensureSubscriber_config]

theorem turn_agree (h : Agree feed.config.strategySlug state state') (turn : Turn) :
    (feed.turn state turn).1 = (feed.turn state' turn).1 ∧
    Agree feed.config.strategySlug (feed.turn state turn).2.1 (feed.turn state' turn).2.1 ∧
    (feed.turn state turn).2.2 = (feed.turn state' turn).2.2 := by
  obtain ⟨hfeed, hagree, heffects⟩ := ensureSubscriber_agree h turn
  simp only [IpcFeed.turn]
  rw [← hfeed]
  rw [← ensureSubscriber_config feed state turn] at hagree ⊢
  obtain ⟨hfeed', hagree'⟩ := drain_agree hagree turn
  exact ⟨hfeed', hagree', heffects⟩

theorem turn_agree_of_ne {slug : String} (h : slug ≠ feed.config.strategySlug) (turn : Turn) :
    Agree slug (feed.turn state turn).2.1 state := by
  have hensure : Agree slug (feed.ensureSubscriber state turn).2.1 state := by
    unfold IpcFeed.ensureSubscriber
    split
    · exact .refl ..
    · split
      · exact agree_setConnected_of_ne h ..
      · dsimp only
        split <;> exact agree_setConnected_of_ne h ..
  have hdrain : ∀ (feed' : IpcFeed) (state' : CacheState), feed'.config = feed.config →
      Agree slug (feed'.drain state' turn).2 state' := by
    intro feed' state' hconfig
    rw [← hconfig] at h
    unfold IpcFeed.drain
    split
    · exact .refl ..
    · dsimp only
      split
      · exact take_agree_of_ne h _
      · exact (agree_setConnected_of_ne h ..).trans (take_agree_of_ne h _)
  exact (hdrain _ _ (ensureSubscriber_config feed state turn)).trans hensure

theorem alone_config (feed : IpcFeed) (state : CacheState) (turns : List Turn) :
    (alone feed state turns).1.config = feed.config := by
  induction turns generalizing feed state with
  | nil => rfl
  | cons turn turns ih => exact (ih _ _).trans (turn_config feed state turn)

theorem alone_agree (turns : List Turn) {slug : String} (hslug : feed.config.strategySlug = slug)
    (h : Agree slug state state') :
    (alone feed state turns).1 = (alone feed state' turns).1 ∧
    Agree slug (alone feed state turns).2.1 (alone feed state' turns).2.1 ∧
    (alone feed state turns).2.2 = (alone feed state' turns).2.2 := by
  induction turns generalizing feed state state' with
  | nil => exact ⟨rfl, h, rfl⟩
  | cons turn turns ih =>
    subst hslug
    obtain ⟨hfeed, hagree, heffects⟩ := turn_agree h turn
    obtain ⟨hfeed', hagree', heffects'⟩ :=
      ih (congrArg AccountRiskFeed.strategySlug (turn_config feed state turn)) hagree
    simp only [alone]
    rw [← hfeed, heffects, heffects']
    exact ⟨hfeed', hagree', rfl⟩

end

/-- The effects of one feed. -/
def effectsOf (slug : String) (effects : List (String × Effect)) : List Effect :=
  effects.filterMap fun effect => if effect.1 = slug then some effect.2 else none

theorem effectsOf_append (slug : String) (l l' : List (String × Effect)) :
    effectsOf slug (l ++ l') = effectsOf slug l ++ effectsOf slug l' := List.filterMap_append

theorem effectsOf_own (slug : String) (effects : List Effect) :
    effectsOf slug (effects.map (slug, ·)) = effects := by
  simp [effectsOf, List.filterMap_map]

theorem effectsOf_other {slug slug' : String} (h : slug' ≠ slug) (effects : List Effect) :
    effectsOf slug (effects.map (slug', ·)) = [] := by
  simp [effectsOf, List.filterMap_map, h]

def slugs (feeds : List IpcFeed) : List String := feeds.map (·.config.strategySlug)

theorem listenRound_slugs (turns : String → Turn) (feeds : List IpcFeed) (state : CacheState) :
    slugs (listenRound turns feeds state).1 = slugs feeds := by
  induction feeds generalizing state with
  | nil => rfl
  | cons feed feeds ih =>
    simp only [listenRound, slugs, List.map_cons, turn_config, List.cons.injEq, true_and]
    exact ih _

theorem listenRound_of_not_mem {slug : String} {feeds : List IpcFeed} (turns : String → Turn)
    (state : CacheState) (h : slug ∉ slugs feeds) :
    Agree slug (listenRound turns feeds state).2.1 state ∧
      effectsOf slug (listenRound turns feeds state).2.2 = [] := by
  induction feeds generalizing state with
  | nil => exact ⟨.refl .., rfl⟩
  | cons feed feeds ih =>
    obtain ⟨hne, hrest⟩ := not_or.mp (mt List.mem_cons.mpr h)
    obtain ⟨hagree, heffects⟩ := ih (feed.turn state (turns feed.config.strategySlug)).2.1 hrest
    simp only [listenRound]
    refine ⟨hagree.trans (turn_agree_of_ne hne _), ?_⟩
    rw [effectsOf_append, effectsOf_other (Ne.symm hne), heffects, List.append_nil]

/-- A round gives each feed its turn and nothing else. -/
theorem listenRound_turn {feeds : List IpcFeed} (turns : String → Turn) (state : CacheState)
    (hnodup : (slugs feeds).Nodup) {feed : IpcFeed} (hfeed : feed ∈ feeds) :
    let own := feed.turn state (turns feed.config.strategySlug)
    own.1 ∈ (listenRound turns feeds state).1 ∧
      Agree feed.config.strategySlug (listenRound turns feeds state).2.1 own.2.1 ∧
      effectsOf feed.config.strategySlug (listenRound turns feeds state).2.2 = own.2.2 := by
  induction feeds generalizing state with
  | nil => cases hfeed
  | cons first feeds ih =>
    obtain ⟨hfirst, hrest⟩ := List.nodup_cons.mp hnodup
    simp only [listenRound]
    rcases List.mem_cons.mp hfeed with rfl | hmem
    · obtain ⟨hagree, heffects⟩ := listenRound_of_not_mem turns
        (feed.turn state (turns feed.config.strategySlug)).2.1 hfirst
      refine ⟨List.mem_cons_self, hagree, ?_⟩
      rw [effectsOf_append, effectsOf_own, heffects, List.append_nil]
    · have hne : feed.config.strategySlug ≠ first.config.strategySlug := fun heq =>
        hfirst (List.mem_map.mpr ⟨feed, hmem, heq⟩)
      have hstate : Agree feed.config.strategySlug
          (first.turn state (turns first.config.strategySlug)).2.1 state := turn_agree_of_ne hne _
      obtain ⟨hown, hagree, heffects⟩ :=
        ih (first.turn state (turns first.config.strategySlug)).2.1 hrest hmem
      obtain ⟨hsame, hsame', hsame''⟩ := turn_agree hstate (turns feed.config.strategySlug)
      refine ⟨List.mem_cons_of_mem _ (hsame ▸ hown), hagree.trans hsame', ?_⟩
      rw [effectsOf_append, effectsOf_other (Ne.symm hne), heffects, List.nil_append, hsame'']

/-- **The feeds do not disturb each other**: whatever the others meet, each one becomes, does and
leaves in the cache what it would by itself. -/
theorem listen_alone {feeds : List IpcFeed} (rounds : List (String → Turn)) (state : CacheState)
    (hnodup : (slugs feeds).Nodup) {feed : IpcFeed} (hfeed : feed ∈ feeds) :
    let own := alone feed state (rounds.map (· feed.config.strategySlug))
    own.1 ∈ (listen feeds state rounds).1 ∧
      Agree feed.config.strategySlug (listen feeds state rounds).2.1 own.2.1 ∧
      effectsOf feed.config.strategySlug (listen feeds state rounds).2.2 = own.2.2 := by
  induction rounds generalizing feeds state feed with
  | nil => exact ⟨hfeed, .refl .., rfl⟩
  | cons turns rounds ih =>
    obtain ⟨hown, hagree, heffects⟩ := listenRound_turn turns state hnodup hfeed
    have hconfig := turn_config feed state (turns feed.config.strategySlug)
    have hrest := ih (listenRound turns feeds state).2.1
      (listenRound_slugs turns feeds state ▸ hnodup) hown
    simp only [hconfig] at hrest
    obtain ⟨hown', hagree', heffects'⟩ := hrest
    obtain ⟨hsame, hsame', hsame''⟩ := alone_agree (rounds.map (· feed.config.strategySlug))
      (congrArg AccountRiskFeed.strategySlug hconfig) hagree
    simp only [listen, List.map_cons, alone]
    refine ⟨hsame ▸ hown', hagree'.trans hsame', ?_⟩
    rw [effectsOf_append, heffects, heffects', hsame'']

/-! ## What the cache says of a feed -/

/-- The reading that a message brings. -/
def arrived (message : List UInt8 × ℤ) : Option AccountRiskReading :=
  match decodeAccountRisk message.1 with
  | .ok (some reading) => some { reading with receivedAtMs := message.2 }
  | _ => none

/-- The readings that arrive at a feed while it has a subscriber. -/
def heard (feed : IpcFeed) (state : CacheState) : List Turn → List AccountRiskReading
  | [] => []
  | turn :: turns =>
    (if (feed.ensureSubscriber state turn).1.subscribed then turn.messages.filterMap arrived
      else []) ++ heard (feed.turn state turn).1 (feed.turn state turn).2.1 turns

theorem take_readings (feed : IpcFeed) (messages : List (List UInt8 × ℤ)) (state : CacheState) :
    (messages.foldl feed.take state).connected = state.connected ∧
    (messages.foldl feed.take state).readings feed.config.strategySlug =
      (messages.filterMap arrived).foldl (keepNewest AccountRiskReading.sourceTsMs)
        (state.readings feed.config.strategySlug) := by
  induction messages generalizing state with
  | nil => exact ⟨rfl, rfl⟩
  | cons message messages ih =>
    obtain ⟨hconnected, hreadings⟩ := ih (feed.take state message)
    rw [List.foldl_cons, hconnected, hreadings]
    unfold IpcFeed.take
    split
    · rename_i reading hdecode
      have harrived : arrived message = some { reading with receivedAtMs := message.2 } := by
        rw [arrived, hdecode]
      rw [List.filterMap_cons_some harrived, List.foldl_cons]
      simp only [CacheState.update, keepNewest]
      split <;> simp [*]
    · rename_i hdecode
      rw [List.filterMap_cons_none (by rw [arrived, hdecode])]
      exact ⟨rfl, rfl⟩
    · rename_i hdecode
      rw [List.filterMap_cons_none (by rw [arrived, hdecode])]
      exact ⟨rfl, rfl⟩

/-- Opening keeps the cache in step with the subscriber and brings no reading. -/
theorem ensureSubscriber_inStep {feed : IpcFeed} {state : CacheState} (turn : Turn)
    (h : state.connected feed.config.strategySlug = some feed.subscribed) :
    (feed.ensureSubscriber state turn).2.1.connected feed.config.strategySlug =
      some (feed.ensureSubscriber state turn).1.subscribed ∧
    (feed.ensureSubscriber state turn).2.1.readings = state.readings := by
  unfold IpcFeed.ensureSubscriber
  split
  · exact ⟨h, rfl⟩
  · rename_i hopen
    obtain ⟨hsubscribed, -⟩ := not_or.mp (mt (Bool.or_eq_true _ _).mpr hopen)
    rw [Bool.not_eq_true] at hsubscribed
    split
    · exact ⟨if_pos rfl, rfl⟩
    · dsimp only
      split <;> exact ⟨by simp [CacheState.setConnected, hsubscribed], rfl⟩

theorem drain_inStep {feed : IpcFeed} {state : CacheState} (turn : Turn) {slug : String}
    (hslug : feed.config.strategySlug = slug) (h : state.connected slug = some feed.subscribed) :
    (feed.drain state turn).2.connected slug = some (feed.drain state turn).1.subscribed ∧
    (feed.drain state turn).2.readings slug =
      (if feed.subscribed then turn.messages.filterMap arrived else []).foldl
        (keepNewest AccountRiskReading.sourceTsMs) (state.readings slug) := by
  subst hslug
  obtain ⟨hconnected, hreadings⟩ := take_readings feed turn.messages state
  by_cases hsubscribed : feed.subscribed = true
  · rw [if_pos hsubscribed, ← hreadings, IpcFeed.drain, if_neg (by simp [hsubscribed])]
    dsimp only
    split
    · exact ⟨by rw [hconnected, h], rfl⟩
    · exact ⟨if_pos rfl, rfl⟩
  · rw [if_neg hsubscribed, IpcFeed.drain, if_pos (by simpa using hsubscribed)]
    exact ⟨h, rfl⟩

/-- **The cache keeps step with a feed**: it says whether there is a subscriber, and holds the
newest reading that arrived while there was one. -/
theorem alone_inStep (feed : IpcFeed) (state : CacheState) (turns : List Turn) {slug : String}
    (hslug : feed.config.strategySlug = slug) (h : state.connected slug = some feed.subscribed) :
    (alone feed state turns).2.1.connected slug = some (alone feed state turns).1.subscribed ∧
    (alone feed state turns).2.1.readings slug = (heard feed state turns).foldl
      (keepNewest AccountRiskReading.sourceTsMs) (state.readings slug) := by
  induction turns generalizing feed state with
  | nil => exact ⟨h, rfl⟩
  | cons turn turns ih =>
    subst hslug
    obtain ⟨hopen, hsame⟩ := ensureSubscriber_inStep turn h
    obtain ⟨hdrain, hreadings⟩ := drain_inStep turn
      (congrArg AccountRiskFeed.strategySlug (ensureSubscriber_config feed state turn)) hopen
    obtain ⟨hconnected, hrest⟩ :=
      ih _ _ (congrArg AccountRiskFeed.strategySlug (turn_config feed state turn)) hdrain
    refine ⟨hconnected, hrest.trans ?_⟩
    rw [hsame] at hreadings
    rw [heard, List.foldl_append, ← hreadings]
    rfl

/-! ## Distances -/

/-- The times of a feed's turns do not run backwards. -/
def InTime : ℤ → List Turn → Prop
  | _, [] => True
  | t, turn :: turns => t ≤ turn.now ∧ turn.now ≤ turn.failedAt ∧
      (∀ lostAt ∈ turn.lostAt, turn.failedAt ≤ lostAt) ∧
      InTime (turn.lostAt.getD turn.failedAt) turns

def attempts (effects : List Effect) : List ℤ :=
  effects.filterMap fun
    | .attempt now => some now
    | _ => none

/-- A warning comes at least the interval after the last one since there was a subscriber. -/
def WarnsPaced : Option ℤ → List Effect → Prop
  | _, [] => True
  | last, .attempt _ :: effects => WarnsPaced last effects
  | _, .subscribed :: effects => WarnsPaced none effects
  | last, .warnUnavailable now :: effects =>
    (∀ t ∈ last, t + ipcWarningIntervalMs ≤ now) ∧ WarnsPaced (some now) effects

/-- No attempt comes before this. -/
def IpcFeed.earliest (feed : IpcFeed) (t : ℤ) : ℤ :=
  if feed.subscribed then t + ipcReconnectIntervalMs else feed.nextOpenAttemptAt

/-- After a turn, with a subscriber at its beginning or without. -/
theorem drain_earliest (feed : IpcFeed) (state : CacheState) {turn : Turn}
    (hlost : ∀ lostAt ∈ turn.lostAt, turn.failedAt ≤ lostAt) :
    let next := (feed.drain state turn).1.earliest (turn.lostAt.getD turn.failedAt)
    (feed.subscribed = true → turn.failedAt + ipcReconnectIntervalMs ≤ next) ∧
      (feed.subscribed = false → next = feed.nextOpenAttemptAt) ∧
      (feed.drain state turn).1.lastWarningAt = feed.lastWarningAt := by
  unfold IpcFeed.drain
  cases hsubscribed : feed.subscribed with
  | false =>
    refine ⟨fun h => (nomatch h), fun _ => ?_, rfl⟩
    simp [IpcFeed.earliest, hsubscribed]
  | true =>
    cases hlostAt : turn.lostAt with
    | none => simp [IpcFeed.earliest, hsubscribed]
    | some lostAt =>
      have := hlost lostAt hlostAt
      simp [IpcFeed.earliest, this]

/-- What a turn attempts, and when the next attempt can be. -/
theorem turn_attempts (feed : IpcFeed) (state : CacheState) {turn : Turn} {t : ℤ}
    (ht : t ≤ turn.now) (hnow : turn.now ≤ turn.failedAt)
    (hlost : ∀ lostAt ∈ turn.lostAt, turn.failedAt ≤ lostAt) :
    let next := (feed.turn state turn).1.earliest (turn.lostAt.getD turn.failedAt)
    feed.earliest t ≤ next ∧ (attempts (feed.turn state turn).2.2 = [] ∨
      attempts (feed.turn state turn).2.2 = [turn.now] ∧ feed.earliest t ≤ turn.now ∧
        turn.now + ipcReconnectIntervalMs ≤ next) := by
  have hinterval : 0 ≤ ipcReconnectIntervalMs := by decide
  obtain ⟨hwith, hwithout, -⟩ := drain_earliest (feed.ensureSubscriber state turn).1
    (feed.ensureSubscriber state turn).2.1 hlost
  simp only [IpcFeed.turn]
  revert hwith hwithout
  unfold IpcFeed.ensureSubscriber
  split
  case isTrue hidle =>
    intro hwith hwithout
    refine ⟨?_, .inl rfl⟩
    cases hsubscribed : feed.subscribed with
    | true =>
      rw [IpcFeed.earliest, if_pos hsubscribed]
      linarith [hwith hsubscribed]
    | false => rw [hwithout hsubscribed, IpcFeed.earliest, if_neg (by simp [hsubscribed])]
  case isFalse hopen =>
    rw [Bool.or_eq_true, not_or, decide_eq_true_eq, not_lt, Bool.not_eq_true] at hopen
    have hearliest : feed.earliest t ≤ turn.now := by
      rw [IpcFeed.earliest, if_neg (by simp [hopen.1])]
      exact hopen.2
    -- Whether the service was opened or not, the next attempt is an interval later.
    split
    · intro hwith _
      have hnext := hwith rfl
      exact ⟨by linarith, .inr ⟨rfl, hearliest, by linarith⟩⟩
    · dsimp only
      split
      · intro _ hwithout
        have hnext := hwithout hopen.1
        dsimp only at hnext ⊢
        rw [hnext]
        exact ⟨by linarith, .inr ⟨rfl, hearliest, by linarith⟩⟩
      · intro _ hwithout
        have hnext := hwithout hopen.1
        dsimp only at hnext ⊢
        rw [hnext]
        exact ⟨by linarith, .inr ⟨rfl, hearliest, by linarith⟩⟩

theorem attempts_append (effects effects' : List Effect) :
    attempts (effects ++ effects') = attempts effects ++ attempts effects' := List.filterMap_append

theorem alone_attempts (feed : IpcFeed) (state : CacheState) {turns : List Turn} {t : ℤ}
    (h : InTime t turns) :
    (∀ a ∈ attempts (alone feed state turns).2.2, feed.earliest t ≤ a) ∧
      (attempts (alone feed state turns).2.2).Pairwise fun a b => a + ipcReconnectIntervalMs ≤ b := by
  induction turns generalizing feed state t with
  | nil => exact ⟨fun a ha => absurd ha (by simp [alone, attempts]), List.Pairwise.nil⟩
  | cons turn turns ih =>
    obtain ⟨ht, hnow, hlost, hrest⟩ := h
    obtain ⟨hafter, hspaced⟩ := ih (feed.turn state turn).1
      (feed.turn state turn).2.1 hrest
    obtain ⟨hnext, hattempts⟩ := turn_attempts feed state ht hnow hlost
    simp only [alone]
    rw [attempts_append]
    rcases hattempts with hnone | ⟨hone, hearliest, hgap⟩
    · rw [hnone, List.nil_append]
      exact ⟨fun a ha => hnext.trans (hafter a ha), hspaced⟩
    · rw [hone, List.singleton_append]
      refine ⟨fun a ha => ?_, List.pairwise_cons.mpr ⟨fun b hb => hgap.trans (hafter b hb), hspaced⟩⟩
      rcases List.mem_cons.mp ha with rfl | ha
      · exact hearliest
      · exact hnext.trans (hafter a ha)

/-- A turn warns when it may, and remembers it. -/
theorem turn_warnings {feed : IpcFeed} (state : CacheState) (turn : Turn) {effects : List Effect}
    (h : WarnsPaced (feed.turn state turn).1.lastWarningAt effects) :
    WarnsPaced feed.lastWarningAt ((feed.turn state turn).2.2 ++ effects) := by
  have hdrain : ∀ (feed : IpcFeed) (state : CacheState),
      (feed.drain state turn).1.lastWarningAt = feed.lastWarningAt := by
    intro feed state
    unfold IpcFeed.drain
    split
    · rfl
    · dsimp only
      split <;> rfl
  simp only [IpcFeed.turn, hdrain] at h ⊢
  revert h
  unfold IpcFeed.ensureSubscriber
  split
  · exact id
  · split
    · exact id
    · dsimp only
      split
      · rename_i hlast
        refine fun h => ⟨fun t ht => ?_, h⟩
        rw [Option.mem_def.mp ht, Option.all_some, decide_eq_true_eq] at hlast
        linarith
      · exact id

theorem alone_warnings (feed : IpcFeed) (state : CacheState) (turns : List Turn) :
    WarnsPaced feed.lastWarningAt (alone feed state turns).2.2 := by
  induction turns generalizing feed state with
  | nil => trivial
  | cons turn turns ih => exact turn_warnings state turn (ih ..)

/-! ## The listener -/

/-- The listener as `start` sets it up, after some rounds. -/
def listener (configs : List AccountRiskFeed) (now : ℤ) (rounds : List (String → Turn)) :
    List IpcFeed × CacheState × List (String × Effect) :=
  listen (configs.map (IpcFeed.new · now)) (.start configs) rounds

section
variable {configs : List AccountRiskFeed} {config : AccountRiskFeed}

theorem slugs_new (configs : List AccountRiskFeed) (now : ℤ) :
    slugs (configs.map (IpcFeed.new · now)) = configs.map (·.strategySlug) := by
  simp [slugs, IpcFeed.new]

theorem start_connected (h : config ∈ configs) :
    (CacheState.start configs).connected config.strategySlug = some false :=
  if_pos (List.mem_map_of_mem h)

/-- **What is shown of an account**: whether its feed has a subscriber, and the newest reading that
arrived while it had one, whatever happened to the other feeds. -/
theorem snapshot_of_feed (hslugs : (configs.map (·.strategySlug)).Nodup) (hconfig : config ∈ configs)
    (now : ℤ) (rounds : List (String → Turn)) (nowMs : ℤ) :
    ∃ feed ∈ (listener configs now rounds).1, feed.config.strategySlug = config.strategySlug ∧
      ∃ reading, snapshotForFeed config feed.subscribed reading nowMs ∈
          snapshots configs (listener configs now rounds).2.1 nowMs ∧
        ∀ r, reading = some r ↔ Newest AccountRiskReading.sourceTsMs
          (heard (.new config now) (.start configs) (rounds.map (· config.strategySlug))) r := by
  have hfeed : IpcFeed.new config now ∈ configs.map (IpcFeed.new · now) :=
    List.mem_map_of_mem hconfig
  obtain ⟨hown, ⟨hflag, hheld⟩, -⟩ := listen_alone rounds
    (.start configs) (slugs_new configs now ▸ hslugs) hfeed
  obtain ⟨hconnected, hreading⟩ := alone_inStep (.new config now) (.start configs)
    (rounds.map (· config.strategySlug)) rfl (start_connected hconfig)
  have hshown := hflag.trans hconnected
  refine ⟨_, hown, congrArg AccountRiskFeed.strategySlug (alone_config ..),
    (listener configs now rounds).2.1.readings config.strategySlug, ?_, fun r => ?_⟩
  · refine List.mem_map.mpr ⟨config, (sortByKey_perm _ configs).mem_iff.mpr hconfig, ?_⟩
    have hget : ((listener configs now rounds).2.1.connected config.strategySlug).getD false =
        (alone (.new config now) (.start configs)
          (rounds.map (· config.strategySlug))).1.subscribed :=
      congrArg (Option.getD · false) hshown
    rw [hget]
    rfl
  · rw [← foldl_keepNewest_iff]
    exact iff_of_eq (congrArg (· = some r) (hheld.trans hreading))

/-- An event with these amounts, all of them available. -/
def marginEvent (sourceTsMs : ℤ) : List UInt8 :=
  accountRiskEvent 1 (accountRiskBody sourceTsMs
    [0x40C3880000000000, 0x40C3880000000000, 0x4059000000000000, 0x4069000000000000,
      0x4000000000000000, 0, 0x408F400000000000] [])

def marginReading (sourceTsMs receivedAtMs : ℤ) : AccountRiskReading where
  sourceTsMs := sourceTsMs
  scope := .binanceUnified
  adjustedEquityUsd := 10000
  actualEquityUsd := 10000
  maintenanceMarginUsd := 100
  initialMarginUsd := 200
  marginRatio := 2
  borrowedUsd := 0
  notionalUsd := 1000
  receivedAtMs := receivedAtMs

def twoAccounts : List AccountRiskFeed :=
  [⟨"alpha", "binance", "alpha/account_pubs/binance_pm", 1⟩,
    ⟨"beta", "gate", "beta/account_pubs/gate_pm", 2⟩]

/-- What the service of the one account sends: an event, one that was sent before it, and one that
cannot be decoded. -/
def alphaMessages : List (List UInt8 × ℤ) :=
  [(marginEvent 1700000000000, 1700000000300), (marginEvent 1699999999000, 1700000000301),
    ([1, 2, 3], 1700000000302)]

/-- The service of the one account opens, sends and fails again; that of the other opens only in the
second round, in which that of the first does too. -/
def twoRounds : List (String → Turn) :=
  [fun slug => ⟨5, slug = "alpha", 6, alphaMessages, if slug = "alpha" then some 7 else none⟩,
    fun _ => ⟨507, true, 507, [], none⟩]

theorem snapshot_of_alpha :
    ∃ feed ∈ (listener twoAccounts 0 twoRounds).1, feed.config.strategySlug = "alpha" ∧
      snapshotForFeed (twoAccounts.get ⟨0, by decide⟩) feed.subscribed
          (some (marginReading 1700000000000 1700000000300)) 1700000000400 ∈
        snapshots twoAccounts (listener twoAccounts 0 twoRounds).2.1 1700000000400 := by
  obtain ⟨feed, hfeed, hslug, reading, hshown, hnewest⟩ :=
    @snapshot_of_feed twoAccounts (twoAccounts.get ⟨0, by decide⟩) (by decide) List.mem_cons_self
      0 twoRounds 1700000000400
  have hheard : heard (.new (twoAccounts.get ⟨0, by decide⟩) 0) (.start twoAccounts)
      (twoRounds.map (· "alpha")) =
        [marginReading 1700000000000 1700000000300, marginReading 1699999999000 1700000000301] :=
    rfl
  have hreading : reading = some (marginReading 1700000000000 1700000000300) := by
    refine (hnewest _).mpr ⟨[], [marginReading 1699999999000 1700000000301], hheard, ?_, ?_⟩
    · simp
    · simp [marginReading]
  exact ⟨feed, hfeed, hslug, hreading ▸ hshown⟩

/-- **Attempts and warnings keep their distance**: a service is tried at most every half second, and
that it cannot be opened is said at most every thirty seconds, unless it could be in between. -/
theorem listener_paced (hslugs : (configs.map (·.strategySlug)).Nodup) (hconfig : config ∈ configs)
    {now : ℤ} {rounds : List (String → Turn)}
    (htime : InTime now (rounds.map (· config.strategySlug))) :
    let effects := effectsOf config.strategySlug (listener configs now rounds).2.2
    (attempts effects).Pairwise (fun a b => a + ipcReconnectIntervalMs ≤ b) ∧
      WarnsPaced none effects := by
  have hfeed : IpcFeed.new config now ∈ configs.map (IpcFeed.new · now) :=
    List.mem_map_of_mem hconfig
  obtain ⟨-, -, heffects⟩ := listen_alone rounds
    (.start configs) (slugs_new configs now ▸ hslugs) hfeed
  have hattempts := alone_attempts (.new config now) (.start configs) htime
  have hwarnings := alone_warnings (.new config now) (.start configs)
    (rounds.map (· config.strategySlug))
  exact ⟨heffects ▸ hattempts.2, heffects ▸ hwarnings⟩

theorem alpha_paced :
    (attempts (effectsOf "alpha" (listener twoAccounts 0 twoRounds).2.2)).Pairwise
        (fun a b => a + ipcReconnectIntervalMs ≤ b) ∧
      WarnsPaced none (effectsOf "alpha" (listener twoAccounts 0 twoRounds).2.2) :=
  @listener_paced twoAccounts ⟨"alpha", "binance", "alpha/account_pubs/binance_pm", 1⟩
    (by decide) List.mem_cons_self _ _
    ⟨by decide, by decide, by simp, by decide, by decide, by simp, trivial⟩

end

end CryptoNav.Feeds
