import CryptoNav.Auth.Store
import CryptoNav.Lib.Sorting

/-!
# The position-limit overview

`list_fr_position_limits` filters the FR strategies by the grants of its user and asks the monitor
for an overview of what is left; the monitor answers from its cache when that is fresh, whoever
asks. What a task finds out about one environment comes from the network and is a parameter, as is
the rewriting of a URL; the order in which the tasks finish is part of the request.

Time is the monotonic clock of the server in nanoseconds, and the age of a cached overview a
saturating difference. One lock guards the cache and is held while an overview is collected, so
requests are taken one after another, in the order in which they get the lock. The status of an
environment is in `Limits.Guard`; here it is only passed on.
-/

set_option autoImplicit false

namespace CryptoNav.Limits

open CryptoNav.Lib CryptoNav.Auth

/-! ## Strategies and grants -/

structure StrategyEnv where
  slug : String
  host : String
  envPath : String
  configUrl : String
  exchange : String
  enabled : Bool

structure Database where
  strategyEnvs : Table StrategyEnv.slug
  /-- `nav_user_strategy_grants` -/
  grants : List (ℕ × String)

def visibleSlugs (db : Database) (user : AuthUser) : Option (List String) :=
  if user.isAdmin then none
  else some ((db.grants.filter fun grant => grant.1 = user.userId &&
    (db.strategyEnvs.get grant.2).any (·.enabled)).map (·.2))

def slugVisible (visible : Option (List String)) (slug : String) : Bool :=
  visible.all (·.contains slug)

def frSlugs : List String :=
  ["binance_fr_arb03", "binance_fr_arb04", "gate_fr_arb01", "gate_fr_arb02"]

/-- The enabled FR strategies, in the order of the query. -/
def frStrategies (db : Database) : List StrategyEnv :=
  sortByKey (fun row => frSlugs.idxOf row.slug)
    (db.strategyEnvs.rows.filter fun row => row.enabled && frSlugs.contains row.slug)

/-- Those that the user may see. -/
def visibleStrategies (db : Database) (user : AuthUser) : List StrategyEnv :=
  (frStrategies db).filter (slugVisible (visibleSlugs db user) ·.slug)

structure FrLimitSource where
  strategySlug : String
  host : String
  envPath : String
  exchange : String
  snapshotUrl : String
  sortOrder : ℕ

/-- `rewrite` parses an absolute URL and replaces its path. -/
def snapshotSourceUrl (rewrite : String → Except String String) (host configUrl : String) :
    Except String String :=
  if configUrl.startsWith "http://" || configUrl.startsWith "https://" then rewrite configUrl
  else if host = "local" ∧ configUrl.startsWith "/" then
    rewrite ("http://127.0.0.1:4191" ++ configUrl)
  else .error s!"snapshot config URL is not absolute for host {host}"

def limitSource (rewrite : String → Except String String) (strategy : StrategyEnv)
    (sortOrder : ℕ) : Except String FrLimitSource :=
  (snapshotSourceUrl rewrite strategy.host strategy.configUrl).map fun snapshotUrl =>
    { strategySlug := strategy.slug, host := strategy.host, envPath := strategy.envPath,
      exchange := strategy.exchange, snapshotUrl, sortOrder }

def limitSources (rewrite : String → Except String String) (strategies : List StrategyEnv) :
    Except String (List FrLimitSource) :=
  strategies.zipIdx.mapM fun (strategy, sortOrder) => limitSource rewrite strategy sortOrder

/-! ## The monitor -/

structure FrLimitEnvironment (Report : Type) where
  strategySlug : String
  exchange : String
  report : Report
  sortOrder : ℕ

structure FrPositionLimitOverview (Report : Type) where
  generatedAt : ℕ
  environments : List (FrLimitEnvironment Report)

/-- `askedBy` is not part of the program: the strategies that the request which filled the cache
    could see. -/
structure CachedOverview (Report : Type) where
  storedAt : ℕ
  overview : FrPositionLimitOverview Report
  askedBy : List String

/-- 20 seconds, in nanoseconds. -/
def cacheTtl : ℕ := 20 * 1000000000

variable {Report : Type}

def fetchEnvironment (fetch : FrLimitSource → Report) (source : FrLimitSource) :
    FrLimitEnvironment Report :=
  { strategySlug := source.strategySlug, exchange := source.exchange, report := fetch source,
    sortOrder := source.sortOrder }

/-- A fresh cached overview. -/
def fresh (cache : Option (CachedOverview Report)) (now : ℕ) : Option (CachedOverview Report) :=
  cache.filter fun cached => now - cached.storedAt < cacheTtl

/-- The overview that a miss computes at `done`; the tasks end in the order `arrival`. -/
def collect (fetch : FrLimitSource → Report) (sources arrival : List FrLimitSource) (done : ℕ) :
    CachedOverview Report where
  storedAt := done
  overview :=
    { generatedAt := done
      environments := sortByKey FrLimitEnvironment.sortOrder
        (arrival.map (fetchEnvironment fetch)) }
  askedBy := sources.map FrLimitSource.strategySlug

/-! ## Requests -/

/-- What a user was answered, and what the user could see then. -/
structure Answer where
  user : AuthUser
  visible : List String
  environments : List String
  deriving DecidableEq

structure Server (Report : Type) where
  db : Database
  clock : ℕ
  cache : Option (CachedOverview Report) := none
  answers : List Answer := []

inductive Action (Report : Type) where
  | tick (duration : ℕ)
  /-- Strategies or grants are edited. -/
  | edit (db : Database)
  /-- `list_fr_position_limits`. A task's findings, the order in which the tasks end, and how long
      they take. -/
  | list (user : AuthUser) (fetch : FrLimitSource → Report)
      (arrival : List FrLimitSource → List FrLimitSource) (duration : ℕ)

/-- The sources end in some order. -/
def Action.Fair : Action Report → Prop
  | .list _ _ arrival _ => ∀ sources, (arrival sources).Perm sources
  | _ => True

def overview (s : Server Report) (fetch : FrLimitSource → Report)
    (sources arrival : List FrLimitSource) (duration : ℕ) : CachedOverview Report × Server Report :=
  match fresh s.cache s.clock with
  | some cached => (cached, s)
  | none =>
    let done := s.clock + duration
    let cached := collect fetch sources arrival done
    (cached, { s with clock := done, cache := some cached })

def step (rewrite : String → Except String String) (s : Server Report) :
    Action Report → Except String (Server Report)
  | .tick duration => .ok { s with clock := s.clock + duration }
  | .edit db => .ok { s with db }
  | .list user fetch arrival duration =>
    let strategies := visibleStrategies s.db user
    match limitSources rewrite strategies with
    | .error _ => .ok s
    | .ok sources =>
      let (cached, s) := overview s fetch sources (arrival sources) duration
      .ok { s with answers := s.answers ++ [
        { user, visible := strategies.map StrategyEnv.slug
          environments := cached.overview.environments.map FrLimitEnvironment.strategySlug }] }

/-! ## What a miss collects -/

theorem limitSource_ok {rewrite : String → Except String String} {strategy : StrategyEnv}
    {sortOrder : ℕ} {source : FrLimitSource}
    (h : limitSource rewrite strategy sortOrder = .ok source) :
    source.strategySlug = strategy.slug ∧ source.sortOrder = sortOrder := by
  obtain ⟨snapshotUrl, -, rfl⟩ := map_eq_ok.mp h
  exact ⟨rfl, rfl⟩

theorem limitSources_ok {rewrite : String → Except String String} {strategies : List StrategyEnv}
    {sources : List FrLimitSource} (h : limitSources rewrite strategies = .ok sources) :
    sources.map FrLimitSource.strategySlug = strategies.map StrategyEnv.slug ∧
      sources.Pairwise fun a b => a.sortOrder < b.sortOrder := by
  -- The sort orders of the rest start later than that of the head.
  suffices hgo : ∀ n sources, (strategies.zipIdx n).mapM (fun (strategy, sortOrder) =>
      limitSource rewrite strategy sortOrder) = .ok sources →
      sources.map FrLimitSource.strategySlug = strategies.map StrategyEnv.slug ∧
        (sources.Pairwise fun a b => a.sortOrder < b.sortOrder) ∧
        ∀ source ∈ sources, n ≤ source.sortOrder by
    obtain ⟨hslugs, hsorted, -⟩ := hgo 0 sources h
    exact ⟨hslugs, hsorted⟩
  clear h sources
  induction strategies with
  | nil =>
    intro n sources h
    cases h
    exact ⟨rfl, .nil, nofun⟩
  | cons strategy strategies ih =>
    intro n sources h
    rw [List.zipIdx_cons, List.mapM_cons] at h
    obtain ⟨source, hsource, h⟩ := bind_eq_ok.mp h
    obtain ⟨rest, hrest, h⟩ := bind_eq_ok.mp h
    cases h
    obtain ⟨hslug, horder⟩ := limitSource_ok hsource
    obtain ⟨hslugs, hsorted, hle⟩ := ih (n + 1) rest hrest
    refine ⟨?_, List.pairwise_cons.mpr ⟨fun b hb => ?_, hsorted⟩, fun b hb => ?_⟩
    · rw [List.map_cons, List.map_cons, hslug, hslugs]
    · have := hle b hb
      omega
    · rcases List.mem_cons.mp hb with rfl | hb
      · exact horder.ge
      · exact (Nat.le_succ n).trans (hle b hb)

/-- Whatever the order in which the tasks end, the environments stand in the order of the sources. -/
theorem collect_environments {fetch : FrLimitSource → Report} {sources arrival : List FrLimitSource}
    (hperm : arrival.Perm sources) (hsorted : sources.Pairwise fun a b => a.sortOrder < b.sortOrder)
    (done : ℕ) : (collect fetch sources arrival done).overview.environments
      = sources.map (fetchEnvironment fetch) := by
  have hsources : (sources.map (fetchEnvironment fetch)).Pairwise
      fun a b => a.sortOrder < b.sortOrder := List.pairwise_map.mpr hsorted
  have harrival := hperm.map (fetchEnvironment fetch)
  have hnodup : ((arrival.map (fetchEnvironment fetch)).map FrLimitEnvironment.sortOrder).Nodup :=
    (harrival.map _).nodup_iff.mpr (List.pairwise_map.mpr (hsources.imp fun h => ne_of_lt h))
  refine eq_of_strictly_sorted FrLimitEnvironment.sortOrder (sortByKey_strict hnodup) hsources
    fun environment => ?_
  exact mem_sortByKey.trans harrival.mem_iff

/-! ## Who asked first -/

/-- A user whose sources are found gets no cached overview that was collected for others. -/
def SeesCache (rewrite : String → Except String String) (s : Server Report) (user : AuthUser) :
    Prop :=
  (limitSources rewrite (visibleStrategies s.db user)).isOk →
    ∀ cached ∈ fresh s.cache s.clock,
      cached.askedBy = (visibleStrategies s.db user).map StrategyEnv.slug

/-- A request that is answered from the cache sees the strategies that the one which filled it
    saw. -/
def SameView (rewrite : String → Except String String) (s : Server Report) : Action Report → Prop
  | .list user _ _ _ => SeesCache rewrite s user
  | _ => True

def Answer.Exact (answer : Answer) : Prop := answer.environments = answer.visible

/-- The cache shows the strategies that its filler saw. Whoever asks later gets the same list,
    whatever his own grants are. -/
def Coherent (s : Server Report) : Prop :=
  ∀ cached ∈ s.cache, cached.overview.environments.map FrLimitEnvironment.strategySlug
    = cached.askedBy

/-- An overview keeps the cache coherent, and shows its own sources just when no cached overview of
    others is fresh. -/
theorem Coherent.overview {s : Server Report} (h : Coherent s) (fetch : FrLimitSource → Report)
    {sources arrival : List FrLimitSource} (hperm : arrival.Perm sources)
    (hsorted : sources.Pairwise fun a b => a.sortOrder < b.sortOrder) (duration : ℕ) :
    Coherent (overview s fetch sources arrival duration).2 ∧
      (overview s fetch sources arrival duration).2.answers = s.answers ∧
      ((overview s fetch sources arrival duration).1.overview.environments.map
          FrLimitEnvironment.strategySlug = sources.map FrLimitSource.strategySlug ↔
        ∀ cached ∈ fresh s.cache s.clock,
          cached.askedBy = sources.map FrLimitSource.strategySlug) := by
  unfold Limits.overview
  cases hfresh : fresh s.cache s.clock with
  | some cached =>
    have hcached := h cached (Option.mem_filter_iff.mp hfresh).1
    refine ⟨h, rfl, ?_⟩
    simp only [hcached]
    constructor
    · intro heq cached' hmem
      cases hmem
      exact heq
    · intro hview
      exact hview cached rfl
  | none =>
    have hcollect : (collect fetch sources arrival
        (s.clock + duration)).overview.environments.map FrLimitEnvironment.strategySlug
          = sources.map FrLimitSource.strategySlug := by
      rw [collect_environments hperm hsorted, List.map_map]
      rfl
    refine ⟨fun cached hcached => ?_, rfl, fun _ _ => nofun, fun _ => hcollect⟩
    cases hcached
    exact hcollect

/-- **The step lemma.** The answer to a request is exact just when the request is not answered from
    a cache that was filled for another view. -/
theorem Coherent.step {rewrite : String → Except String String} {s s' : Server Report}
    {a : Action Report} (h : Coherent s) (hfair : a.Fair) (hstep : step rewrite s a = .ok s') :
    Coherent s' ∧ ((∀ answer ∈ s'.answers, answer.Exact) ↔
      (∀ answer ∈ s.answers, answer.Exact) ∧ SameView rewrite s a) := by
  cases a with
  | tick duration =>
    cases hstep
    exact ⟨h, (and_iff_left trivial).symm⟩
  | edit db =>
    cases hstep
    exact ⟨h, (and_iff_left trivial).symm⟩
  | list user fetch arrival duration =>
    change Coherent s' ∧ (_ ↔ _ ∧ SeesCache rewrite s user)
    unfold SeesCache
    simp only [Limits.step] at hstep
    split at hstep
    · rename_i error hsources
      cases hstep
      rw [hsources]
      exact ⟨h, (and_iff_left nofun).symm⟩
    · rename_i sources hsources
      cases hstep
      obtain ⟨hslugs, hsorted⟩ := limitSources_ok hsources
      obtain ⟨hcoherent, hanswers, hiff⟩ :=
        h.overview fetch (hfair sources) hsorted duration
      refine ⟨hcoherent, ?_⟩
      rw [hsources, ← hslugs]
      simp only [hanswers, List.forall_mem_append, List.forall_mem_singleton, Answer.Exact]
      exact and_congr_right fun _ => hiff.trans ⟨fun hview _ => hview, fun hview => hview rfl⟩

/-- **Grants are respected** by every answer of a run just when no request is answered from a cache
    that was filled, less than 20 seconds ago, for a user with another view. -/
theorem grants_respected_iff {rewrite : String → Except String String} {db : Database} {clock : ℕ}
    {actions : List (Action Report)} (hfair : ∀ a ∈ actions, a.Fair) {s : Server Report}
    (hrun : actions.foldlM (step rewrite) { db, clock } = .ok s) :
    (∀ answer ∈ s.answers, answer.Exact) ↔
      Throughout (step rewrite) (SameView rewrite) { db, clock } actions := by
  have hiff := throughout_iff (P := SameView rewrite) (Q := Coherent)
    (R := fun s => ∀ answer ∈ s.answers, answer.Exact)
    (fun a ha _ _ h hstep => h.step (hfair a ha) hstep) (s := { db, clock })
    (fun _ hcached => by cases hcached) hrun
  exact hiff.trans (and_iff_right nofun)

/-! ## An administrator asks first -/

def frEnv (slug exchange : String) : StrategyEnv :=
  { slug, host := "local", envPath := "/etc/" ++ slug, configUrl := "/" ++ slug ++ "/config",
    exchange, enabled := true }

/-- Two FR strategies; user 2 has a grant for one of them. -/
def sample : Database where
  strategyEnvs := .putAll .empty [frEnv "binance_fr_arb03" "binance", frEnv "gate_fr_arb01" "gate"]
  grants := [(2, "gate_fr_arb01")]

def ann : AuthUser := { userId := 1, username := "ann", role := .admin }

def ben : AuthUser := { userId := 2, username := "ben", role := .user }

/-- Ann and, `pause` later, Ben ask for the overview. -/
def annThenBen (pause : ℕ) : List (Action Unit) :=
  [.list ann (fun _ => ()) id 0, .tick pause, .list ben (fun _ => ()) id 0]

instance (a : Answer) : Decidable a.Exact :=
  inferInstanceAs (Decidable (a.environments = a.visible))

/-- A second later Ben gets both of Ann's environments. -/
theorem cache_ignores_grants :
    (∀ a ∈ annThenBen 1000000000, a.Fair) ∧
    Yields ((annThenBen 1000000000).foldlM (step .ok) { db := sample, clock := 0 })
      fun s => ¬∀ answer ∈ s.answers, answer.Exact := by
  refine ⟨?_, by decide +kernel⟩
  simp [annThenBen, Action.Fair]

/-- After the 20 seconds he gets his own. -/
theorem grants_respected_later :
    Throughout (step .ok) (SameView .ok) { db := sample, clock := 0 }
      (annThenBen (21 * 1000000000)) := by
  have hfair : ∀ a ∈ annThenBen (21 * 1000000000), a.Fair := by
    simp [annThenBen, Action.Fair]
  have hruns : Yields ((annThenBen (21 * 1000000000)).foldlM (step .ok) { db := sample, clock := 0 })
      fun s => ∀ answer ∈ s.answers, answer.Exact := by
    decide +kernel
  obtain ⟨s, hrun, hexact⟩ := hruns
  exact (grants_respected_iff hfair hrun).mp hexact

end CryptoNav.Limits
