import CryptoNav.Lib.Runs
import Mathlib.Algebra.Order.Group.Int
import Mathlib.Logic.Function.Basic

/-!
# The account overview

One loop refreshes the rows of the overview, account after account: it copies the account out of the
cache, asks the database and the account's host, and writes the whole account back. The history of an
account is reconstructed by a task of its own, one at a time, which on success puts its result into
the cached account in place. So a result that is published while the loop holds a copy is overwritten
when the copy is written back; otherwise it stays until a later one replaces it
(`published_history_kept`).

The steps are those between which the other side can act. What the database, the hosts and the
reconstruction answer, and the clock, are inputs.

The lock of the cache is left out, since every step here is within one hold of it, and so are
the log lines. How a history is reconstructed is in `Drawdown`; here it is a value that is
published or is not, and a time it belongs to.
-/

set_option autoImplicit false

namespace CryptoNav.Overview

open CryptoNav.Lib

def dayMs : ℤ := 86400000

def fresh : ℤ := 90000

/-- The start of a day in Beijing. -/
def day (ts : ℤ) : ℤ := (ts + 8 * 3600000) / dayMs * dayMs - 8 * 3600000

structure StrategyRecord where
  slug : String
  aliasName : Option String := none
  exchange : String
  strategyKind : String

/-- The fields that the loop writes. -/
structure Row where
  sourceId : String
  account : String := ""
  venue : String := ""
  accountKind : String := ""
  equity : Option Float := none
  longPosition : Option Float := none
  shortPosition : Option Float := none
  positionUnpricedAssets : List String := []
  margin : Option Float := none
  dateMs : Option ℤ := none
  queriedAtMs : ℤ := 0
  collectionStatus : String := ""

/-- `History` is what the replay makes of the account's records. -/
structure Reconstruction (History : Type) where
  atMs : ℤ
  equity : Option Float
  start : ℤ
  history : History
  deriving DecidableEq

structure Account (History : Type) where
  row : Row
  reconstruction : Option (Reconstruction History) := none
  monitorReconstruction : Option (Reconstruction History) := none
  exposureAt : Option ℤ := none
  historyAttemptAt : ℤ := 0
  historyError : Option String := none

structure RiskFact where
  ts : ℤ
  equity : Float
  margin : Option Float

def RiskFact.valid (risk : RiskFact) (time : ℤ) : Bool :=
  decide (0 ≤ time - risk.ts) && decide (time - risk.ts ≤ fresh) && risk.equity.isFinite &&
    risk.margin.all fun margin => margin.isFinite && margin ≥ 0

/-- What the account monitor knows of a strategy. -/
structure RiskSnapshot where
  status : String
  sourceTsMs : Option ℤ
  actualEquityUsd : Option Float
  initialMarginUsd : Option Float

def RiskSnapshot.fact (snapshot : RiskSnapshot) : Option RiskFact := do
  let ts ← snapshot.sourceTsMs
  let equity ← snapshot.actualEquityUsd
  return { ts, equity, margin := snapshot.initialMarginUsd }

structure Exposure where
  ts : ℤ
  long : Option Float
  short : Option Float
  unpricedAssets : List String

/-- The host's snapshot, where it could be fetched: its exposure, if that is valid, and the risk. -/
structure HostSnapshot where
  exposure : Option Exposure
  risk : Option RiskFact

/-- A reconstruction under way. It holds the permit of the history gate to its end. -/
structure Task where
  slug : String
  equity : Option Float
  atMs : ℤ
  published : Bool := false
  deriving DecidableEq

/-- Where the refresh loop is: between two cycles, before an account of the cycle, or waiting for
    the answers about one. -/
inductive Loop (History : Type) where
  | idle
  | cycle (slugs : List String) (snapshots : String → Option RiskSnapshot)
      (strategies : List StrategyRecord)
  | waiting (slugs : List String) (snapshots : String → Option RiskSnapshot)
      (strategy : StrategyRecord) (account : Account History) (time : ℤ)
      (strategies : List StrategyRecord)

/-- `gate` is the task that holds the permit. -/
structure FrOverview (History : Type) where
  accounts : String → Option (Account History) := fun _ => none
  loaded : Bool := false
  gate : Option Task := none
  loop : Loop History := .idle

inductive Event (History : Type) where
  /-- The list of strategies is there, and the risks known. -/
  | begin (strategies : List StrategyRecord) (snapshots : String → Option RiskSnapshot)
  /-- The next account is copied. -/
  | copy (time : ℤ)
  /-- The query for the account's url fails, and with it the cycle. -/
  | fail
  /-- The answers about the account are there. -/
  | writeBack (host : Option HostSnapshot)
  /-- All accounts are done. -/
  | retain
  /-- The task has a result, or an error. -/
  | publish (result : Option (ℤ × History))
  /-- The task is over. -/
  | release

namespace Account

variable {History : Type}

def new (slug : String) : Account History := { row := { sourceId := slug } }

/-- What the loop knows without asking. -/
def copied (account : Account History) (strategy : StrategyRecord) (time : ℤ) : Account History :=
  { account with
    row := { account.row with
      account := strategy.aliasName.getD strategy.slug
      venue := strategy.exchange
      accountKind := if strategy.strategyKind = "market_making" then "mm" else "fr"
      queriedAtMs := time } }

def withExposure (account : Account History) (exposure : Option Exposure) : Account History :=
  match exposure with
  | some exposure => { account with
      row := { account.row with
        longPosition := exposure.long
        shortPosition := exposure.short
        positionUnpricedAssets := exposure.unpricedAssets }
      exposureAt := some exposure.ts }
  | none => { account with
      row := { account.row with
        longPosition := none
        shortPosition := none
        positionUnpricedAssets := [] }
      exposureAt := none }

def withRisk (account : Account History) (risk : Option RiskFact) : Account History :=
  match risk with
  | some risk => { account with
      row := { account.row with
        equity := some risk.equity
        dateMs := some risk.ts
        margin := risk.margin } }
  | none => account

/-- The host's risk counts where it is valid and newer than the account monitor's. -/
def newerRisk (risk hostRisk : Option RiskFact) : Option RiskFact :=
  match hostRisk with
  | some hostRisk => if risk.all fun old => hostRisk.ts > old.ts then some hostRisk else risk
  | none => risk

def isLive (account : Account History) (risk : Option RiskFact) (time : ℤ) : Bool :=
  risk.isSome && account.row.dateMs.any fun ts => 0 ≤ time - ts && time - ts ≤ fresh

/-- The account with the answers about it, and whether it is live. -/
def observed (account : Account History) (snapshot : Option RiskSnapshot) (time : ℤ)
    (host : Option HostSnapshot) : Account History × Bool :=
  let risk := ((snapshot.filter (·.status = "live")).bind RiskSnapshot.fact).filter (·.valid time)
  let (account, risk) := match host with
    | some host =>
      (account.withExposure host.exposure, newerRisk risk (host.risk.filter (·.valid time)))
    | none => (account, risk)
  let account := account.withRisk risk
  let live := account.isLive risk time
  ({ account with
      row := { account.row with
        collectionStatus :=
          if live then "live" else if account.row.equity.isSome then "stale" else "unavailable" } },
    live)

/-- An attempt to reconstruct the history is due. -/
def isDue (account : Account History) (time : ℤ) : Bool :=
  decide (time - account.historyAttemptAt ≥ 300000) &&
    account.monitorReconstruction.all fun r =>
      decide (time - r.atMs ≥ 300000) || decide (day r.atMs ≠ day time)

/-- What a reconstruction is anchored at. -/
def anchor (account : Account History) (live : Bool) (time : ℤ) : Option Float × ℤ :=
  if live then (account.row.equity, account.row.dateMs.getD 0) else (none, time)

def published (account : Account History) (value : Reconstruction History) : Account History :=
  { account with
    reconstruction := if value.equity.isSome then some value else account.reconstruction
    monitorReconstruction := some value
    historyError := none }

end Account

namespace FrOverview

variable {History : Type}

/-- The account is written back; where an attempt is due and the gate is open, a task is spawned. -/
def writeBack (hub : FrOverview History) (strategy : StrategyRecord) (account : Account History)
    (live : Bool) (time : ℤ) : FrOverview History :=
  let spawns := account.isDue time && hub.gate.isNone
  let account := { account with
    historyAttemptAt := if spawns then time else account.historyAttemptAt }
  let (equity, atMs) := account.anchor live time
  { hub with
    accounts := Function.update hub.accounts strategy.slug (some account)
    gate := if spawns then some { slug := strategy.slug, equity, atMs } else hub.gate }

/-- The outcome of a task goes into the cached account, if there is one. -/
def publish (hub : FrOverview History) (task : Task) (result : Option (ℤ × History)) :
    FrOverview History :=
  let outcome (account : Account History) : Account History :=
    match result with
    | some (start, history) =>
      account.published { atMs := task.atMs, equity := task.equity, start, history }
    | none => { account with historyError := some "NAV 历史重算暂不可用，后台会重试" }
  { hub with
    accounts := Function.update hub.accounts task.slug ((hub.accounts task.slug).map outcome)
    gate := some { task with published := true } }

/-- One step of the loop or of the task; not every step is possible in every state. -/
def step (hub : FrOverview History) : Event History → Except Unit (FrOverview History)
  | .begin strategies snapshots =>
    match hub.loop with
    | .idle => .ok { hub with
        loop := .cycle (strategies.map StrategyRecord.slug) snapshots strategies }
    | _ => .error ()
  | .copy time =>
    match hub.loop with
    | .cycle slugs snapshots (strategy :: strategies) =>
      let account := ((hub.accounts strategy.slug).getD (.new strategy.slug)).copied strategy time
      .ok { hub with loop := .waiting slugs snapshots strategy account time strategies }
    | _ => .error ()
  | .fail =>
    match hub.loop with
    | .waiting .. => .ok { hub with loop := .idle }
    | _ => .error ()
  | .writeBack host =>
    match hub.loop with
    | .waiting slugs snapshots strategy account time strategies =>
      let (account, live) := account.observed (snapshots strategy.slug) time host
      .ok { hub.writeBack strategy account live time with
        loop := .cycle slugs snapshots strategies }
    | _ => .error ()
  | .retain =>
    match hub.loop with
    | .cycle slugs _ [] => .ok { hub with
        accounts := fun slug => (hub.accounts slug).filter fun _ => slug ∈ slugs
        loaded := true
        loop := .idle }
    | _ => .error ()
  | .publish result =>
    match hub.gate with
    | some task => if task.published then .error () else .ok (hub.publish task result)
    | none => .error ()
  | .release =>
    match hub.gate with
    | some _ => .ok { hub with gate := none }
    | none => .error ()

/-! ## What a published reconstruction is promised -/

/-- The account is in the list of the running cycle, if there is one. An account that is not in the
    list is dropped at the end of the cycle. -/
def Includes (hub : FrOverview History) (slug : String) : Prop :=
  match hub.loop with
  | .idle => True
  | .cycle slugs _ _ => slug ∈ slugs
  | .waiting slugs _ _ _ _ _ => slug ∈ slugs

instance (hub : FrOverview History) (slug : String) : Decidable (hub.Includes slug) :=
  match h : hub.loop with
  | .idle => isTrue (by rw [Includes, h]; trivial)
  | .cycle slugs _ _ => decidable_of_iff (slug ∈ slugs) (by rw [Includes, h])
  | .waiting slugs _ _ _ _ _ => decidable_of_iff (slug ∈ slugs) (by rw [Includes, h])

/-- The account has reconstructions as new as `value`. Newer ones have replaced it where they are
    not the same. -/
def Kept (hub : FrOverview History) (slug : String) (value : Reconstruction History) : Prop :=
  ∃ account, hub.accounts slug = some account ∧
    (∃ r ∈ account.monitorReconstruction, value.atMs ≤ r.atMs) ∧
    (value.equity.isSome → ∃ r ∈ account.reconstruction, value.atMs ≤ r.atMs)

/-- The step puts `value` into the cached account. Where the cache has no such account any more, the
    result of a task is thrown away. -/
def Stores (hub : FrOverview History) (slug : String) (event : Event History)
    (value : Reconstruction History) : Prop :=
  ∃ task, hub.gate = some task ∧ task.slug = slug ∧ (hub.accounts slug).isSome ∧
    event = .publish (some (value.start, value.history)) ∧
    value.atMs = task.atMs ∧ value.equity = task.equity

/-- Nothing has been published for an account since it was copied. The copy then has what the cache
    has, as far as the task writes it. -/
def Current (hub : FrOverview History) (slug : String) (account : Account History) : Prop :=
  account.monitorReconstruction = (hub.accounts slug).bind Account.monitorReconstruction ∧
    account.reconstruction = (hub.accounts slug).bind Account.reconstruction

/-- What the loop writes back is current; and if the account has no record of the attempt that made
    its reconstruction, because it was dropped in between, the next attempt is not anchored before
    that reconstruction. -/
def WritesCurrent (hub : FrOverview History) (host : Option HostSnapshot) : Loop History → Prop
  | .waiting _ snapshots strategy account time _ =>
    hub.Current strategy.slug account ∧
      let observed := account.observed (snapshots strategy.slug) time host
      observed.1.isDue time → hub.gate = none → ∀ r ∈ account.monitorReconstruction,
        account.historyAttemptAt < r.atMs → r.atMs ≤ (observed.1.anchor observed.2 time).2
  | _ => True

/-- An account is written back only if nothing has been published for it since it was copied. -/
def Undisturbed (hub : FrOverview History) : Event History → Prop
  | .writeBack host => hub.WritesCurrent host hub.loop
  | _ => True

instance [DecidableEq History] (hub : FrOverview History) (host : Option HostSnapshot) :
    DecidablePred (hub.WritesCurrent host)
  | .waiting _ snapshots strategy account time _ =>
    inferInstanceAs (Decidable ((_ = _ ∧ _ = _) ∧
      ((account.observed (snapshots strategy.slug) time host).1.isDue time → hub.gate = none →
        ∀ r ∈ account.monitorReconstruction, account.historyAttemptAt < r.atMs →
          r.atMs ≤ ((account.observed (snapshots strategy.slug) time host).1.anchor
            (account.observed (snapshots strategy.slug) time host).2 time).2)))
  | .idle => isTrue trivial
  | .cycle _ _ _ => isTrue trivial

instance [DecidableEq History] (hub : FrOverview History) : DecidablePred hub.Undisturbed
  | .writeBack host => inferInstanceAs (Decidable (hub.WritesCurrent host hub.loop))
  | .begin _ _ | .copy _ | .fail | .retain | .publish _ | .release => isTrue trivial

end FrOverview

/-- A cycle that begins has the account in its list. -/
def Event.Includes {History : Type} (slug : String) : Event History → Prop
  | .begin strategies _ => slug ∈ strategies.map StrategyRecord.slug
  | _ => True

/-! ## The answers leave the reconstructions alone -/

namespace Account

variable {History : Type} (account : Account History)

theorem observed_fields (snapshot : Option RiskSnapshot) (time : ℤ) (host : Option HostSnapshot) :
    (account.observed snapshot time host).1.monitorReconstruction = account.monitorReconstruction ∧
      (account.observed snapshot time host).1.reconstruction = account.reconstruction ∧
      (account.observed snapshot time host).1.historyAttemptAt = account.historyAttemptAt := by
  have hrisk : ∀ (a : Account History) risk,
      (a.withRisk risk).monitorReconstruction = a.monitorReconstruction ∧
        (a.withRisk risk).reconstruction = a.reconstruction ∧
        (a.withRisk risk).historyAttemptAt = a.historyAttemptAt := by
    intro a risk
    cases risk with
    | none => exact ⟨rfl, rfl, rfl⟩
    | some risk => exact ⟨rfl, rfl, rfl⟩
  cases host with
  | none => exact hrisk _ _
  | some host =>
    obtain ⟨exposure, risk⟩ := host
    cases exposure with
    | none => exact hrisk _ _
    | some exposure => exact hrisk _ _

/-- An attempt is anchored at most ninety seconds back. -/
theorem le_anchor_observed (snapshot : Option RiskSnapshot) (time : ℤ)
    (host : Option HostSnapshot) :
    time - fresh ≤ ((account.observed snapshot time host).1.anchor
      (account.observed snapshot time host).2 time).2 := by
  have hanchor : ∀ (a : Account History) risk status, time - fresh ≤
      (({ a with row := { a.row with collectionStatus := status } } : Account History).anchor
        (a.isLive risk time) time).2 := by
    intro a risk status
    unfold anchor
    cases hlive : a.isLive risk time with
    | false =>
      unfold fresh
      exact Int.sub_le_self _ (by decide)
    | true =>
      simp only [isLive, Bool.and_eq_true, Option.any_eq_true] at hlive
      obtain ⟨-, ts, hts, hwithin⟩ := hlive
      simp only [decide_eq_true_eq] at hwithin
      simp only [hts, if_true, Option.getD_some]
      omega
  cases host with
  | none => exact hanchor _ _ _
  | some host => exact hanchor _ _ _

end Account

namespace FrOverview

variable {History : Type}

/-- What a running task will publish is newer than what is there. One task runs at a time and is
    anchored at the time it was spawned. -/
structure Ordered (hub : FrOverview History) : Prop where
  monitored : ∀ slug account, hub.accounts slug = some account → ∀ r ∈ account.reconstruction,
    ∃ m ∈ account.monitorReconstruction, r.atMs ≤ m.atMs
  pending : ∀ task, hub.gate = some task → task.published = false →
    ∀ account, hub.accounts task.slug = some account → ∀ m ∈ account.monitorReconstruction,
      m.atMs ≤ task.atMs

theorem ordered_new : Ordered ({} : FrOverview History) :=
  ⟨fun _ _ h => (by cases h), fun _ h => (by cases h)⟩

/-- Fewer accounts, or none of them touched. -/
theorem Ordered.mono {hub hub' : FrOverview History} (h : hub.Ordered)
    (haccounts : ∀ slug account, hub'.accounts slug = some account →
      hub.accounts slug = some account)
    (hgate : ∀ task, hub'.gate = some task → hub.gate = some task) : hub'.Ordered :=
  ⟨fun slug account haccount => h.monitored slug account (haccounts slug account haccount),
    fun task htask hpublished account haccount =>
      h.pending task (hgate task htask) hpublished account (haccounts _ account haccount)⟩

theorem writeBack_self (hub : FrOverview History) (strategy : StrategyRecord)
    (account : Account History) (live : Bool) (time : ℤ) :
    ∃ written, (hub.writeBack strategy account live time).accounts strategy.slug = some written ∧
      written.monitorReconstruction = account.monitorReconstruction ∧
      written.reconstruction = account.reconstruction :=
  ⟨_, Function.update_self _ _ _, rfl, rfl⟩

theorem writeBack_of_ne {hub : FrOverview History} {strategy : StrategyRecord} {slug : String}
    (h : slug ≠ strategy.slug) (account : Account History) (live : Bool) (time : ℤ) :
    (hub.writeBack strategy account live time).accounts slug = hub.accounts slug :=
  Function.update_of_ne h _ _

/-- A task is spawned where an attempt is due and none is running. -/
theorem writeBack_gate {hub : FrOverview History} {strategy : StrategyRecord}
    {account : Account History} {live : Bool} {time : ℤ} {task : Task}
    (h : (hub.writeBack strategy account live time).gate = some task) : hub.gate = some task ∨
      (account.isDue time ∧ hub.gate = none ∧ task.slug = strategy.slug ∧
        task.atMs = (account.anchor live time).2) := by
  simp only [writeBack] at h
  split at h
  · rename_i hspawns
    cases h
    simp only [Bool.and_eq_true, Option.isNone_iff_eq_none] at hspawns
    exact .inr ⟨hspawns.1, hspawns.2, rfl, rfl⟩
  · exact .inl h

theorem publish_self {hub : FrOverview History} {task : Task} {account : Account History}
    (h : hub.accounts task.slug = some account) (result : Option (ℤ × History)) :
    ∃ written, (hub.publish task result).accounts task.slug = some written ∧
      ((written.monitorReconstruction = account.monitorReconstruction ∧
        written.reconstruction = account.reconstruction) ∨
      ∃ value : Reconstruction History, value.atMs = task.atMs ∧ value.equity = task.equity ∧
        written.monitorReconstruction = some value ∧
        written.reconstruction =
          if value.equity.isSome then some value else account.reconstruction) := by
  unfold publish
  simp only [Function.update_self, h, Option.map_some]
  cases result with
  | none => exact ⟨_, rfl, .inl ⟨rfl, rfl⟩⟩
  | some result => exact ⟨_, rfl, .inr ⟨_, rfl, rfl, rfl, rfl⟩⟩

theorem publish_of_ne {hub : FrOverview History} {task : Task} {slug : String}
    (h : slug ≠ task.slug) (result : Option (ℤ × History)) :
    (hub.publish task result).accounts slug = hub.accounts slug :=
  Function.update_of_ne h _ _

/-- Every step leaves the accounts and the task as they are, but for one account or but for those
    that are dropped. -/
theorem step_cases {hub hub' : FrOverview History} {event : Event History}
    (h : hub.step event = .ok hub') :
    (hub'.accounts = hub.accounts ∧ (∀ task, hub'.gate = some task → hub.gate = some task)) ∨
    (∃ slugs snapshots, hub.loop = .cycle slugs snapshots [] ∧ hub'.gate = hub.gate ∧
      hub'.accounts = fun slug => (hub.accounts slug).filter fun _ => slug ∈ slugs) ∨
    (∃ host slugs snapshots strategy account time strategies, event = .writeBack host ∧
      hub.loop = .waiting slugs snapshots strategy account time strategies ∧
      ∃ observed live, account.observed (snapshots strategy.slug) time host = (observed, live) ∧
        hub' = { hub.writeBack strategy observed live time with
          loop := .cycle slugs snapshots strategies }) ∨
    (∃ task result, event = .publish result ∧ hub.gate = some task ∧ task.published = false ∧
      hub' = hub.publish task result) := by
  cases event with
  | «begin» strategies snapshots =>
    simp only [step] at h
    split at h
    · cases h
      exact .inl ⟨rfl, fun _ => id⟩
    · cases h
  | copy time =>
    simp only [step] at h
    split at h
    · cases h
      exact .inl ⟨rfl, fun _ => id⟩
    · cases h
  | fail =>
    simp only [step] at h
    split at h
    · cases h
      exact .inl ⟨rfl, fun _ => id⟩
    · cases h
  | writeBack host =>
    simp only [step] at h
    split at h
    · rename_i slugs snapshots strategy account time strategies hloop
      cases h
      exact .inr (.inr (.inl ⟨host, slugs, snapshots, strategy, account, time, strategies, rfl,
        hloop, _, _, rfl, rfl⟩))
    · cases h
  | retain =>
    simp only [step] at h
    split at h
    · rename_i slugs snapshots hloop
      cases h
      exact .inr (.inl ⟨slugs, snapshots, hloop, rfl, rfl⟩)
    · cases h
  | publish result =>
    simp only [step] at h
    split at h
    · rename_i task htask
      split at h
      · cases h
      · rename_i hpublished
        cases h
        exact .inr (.inr (.inr ⟨task, result, rfl, htask, Bool.not_eq_true _ ▸ hpublished, rfl⟩))
    · cases h
  | release =>
    simp only [step] at h
    split at h
    · cases h
      exact .inl ⟨rfl, fun _ htask => by cases htask⟩
    · cases h

/-- An attempt that is due is anchored after the one before it. -/
theorem le_anchor_of_isDue {account observed : Account History} {snapshot : Option RiskSnapshot}
    {time t : ℤ} {host : Option HostSnapshot} {live : Bool}
    (hobserved : account.observed snapshot time host = (observed, live))
    (hdue : observed.isDue time) (ht : t ≤ account.historyAttemptAt) :
    t ≤ (observed.anchor live time).2 := by
  have hanchor := account.le_anchor_observed snapshot time host
  have hattempt := (account.observed_fields snapshot time host).2.2
  rw [hobserved] at hanchor hattempt
  dsimp only at hanchor hattempt
  simp only [Account.isDue, Bool.and_eq_true, decide_eq_true_eq] at hdue
  unfold fresh at hanchor
  omega

/-- What is written back, where the copy is current, are the reconstructions of the cache. -/
theorem Current.written {hub : FrOverview History} {strategy : StrategyRecord}
    {account observed : Account History} {snapshot : Option RiskSnapshot} {time : ℤ}
    {host : Option HostSnapshot} {live : Bool} (hcurrent : hub.Current strategy.slug account)
    (hobserved : account.observed snapshot time host = (observed, live)) :
    ∃ written,
      (hub.writeBack strategy observed live time).accounts strategy.slug = some written ∧
      written.monitorReconstruction
        = (hub.accounts strategy.slug).bind Account.monitorReconstruction ∧
      written.reconstruction = (hub.accounts strategy.slug).bind Account.reconstruction := by
  obtain ⟨written, hwritten, hmonitor, hreconstruction⟩ :=
    hub.writeBack_self strategy observed live time
  obtain ⟨hmonitor', hreconstruction', -⟩ := account.observed_fields snapshot time host
  rw [hobserved] at hmonitor' hreconstruction'
  exact ⟨written, hwritten, (hmonitor.trans hmonitor').trans hcurrent.1,
    (hreconstruction.trans hreconstruction').trans hcurrent.2⟩

theorem Ordered.writeBack {hub : FrOverview History} {strategy : StrategyRecord}
    {account observed : Account History} {snapshot : Option RiskSnapshot} {time : ℤ}
    {host : Option HostSnapshot} {live : Bool} (hordered : hub.Ordered)
    (hcurrent : hub.Current strategy.slug account)
    (hobserved : account.observed snapshot time host = (observed, live))
    (hanchored : observed.isDue time → hub.gate = none → ∀ r ∈ account.monitorReconstruction,
      account.historyAttemptAt < r.atMs → r.atMs ≤ (observed.anchor live time).2) :
    (hub.writeBack strategy observed live time).Ordered := by
  obtain ⟨written, hwritten, hmonitor, hreconstruction⟩ := hcurrent.written hobserved
  constructor
  · intro slug cached hcached r hr
    by_cases hslug : slug = strategy.slug
    · cases hslug
      cases hwritten.symm.trans hcached
      rw [hreconstruction] at hr
      obtain ⟨before, hbefore, hr⟩ := Option.bind_eq_some_iff.mp hr
      rw [hmonitor, hbefore]
      exact hordered.monitored _ before hbefore r hr
    · rw [writeBack_of_ne hslug] at hcached
      exact hordered.monitored slug cached hcached r hr
  · intro task htask hpublished cached hcached m hm
    rcases writeBack_gate htask with hgate | ⟨hdue, hnone, hslug, hat⟩
    · by_cases hslug : task.slug = strategy.slug
      · rw [hslug] at hcached
        cases hwritten.symm.trans hcached
        rw [hmonitor, ← hslug] at hm
        obtain ⟨before, hbefore, hm⟩ := Option.bind_eq_some_iff.mp hm
        exact hordered.pending task hgate hpublished before hbefore m hm
      · rw [writeBack_of_ne hslug] at hcached
        exact hordered.pending task hgate hpublished cached hcached m hm
    · rw [hslug] at hcached
      cases hwritten.symm.trans hcached
      rw [hmonitor, ← hcurrent.1] at hm
      rw [hat]
      -- The attempt is recorded after the reconstruction, unless the account was dropped since.
      by_cases hattempt : account.historyAttemptAt < m.atMs
      · exact hanchored hdue hnone m hm hattempt
      · exact le_anchor_of_isDue hobserved hdue (not_lt.mp hattempt)

theorem Ordered.publish {hub : FrOverview History} {task : Task} (hordered : hub.Ordered)
    (htask : hub.gate = some task) (hpublished : task.published = false)
    (result : Option (ℤ × History)) : (hub.publish task result).Ordered := by
  constructor
  · intro slug cached hcached r hr
    by_cases hslug : slug = task.slug
    · cases hslug
      cases hbefore : hub.accounts task.slug with
      | none =>
        simp [FrOverview.publish, hbefore] at hcached
      | some before =>
        obtain ⟨written, hwritten, ⟨hmonitor, hreconstruction⟩ |
          ⟨value, hat, -, hmonitor, hreconstruction⟩⟩ := publish_self hbefore result
        · cases hwritten.symm.trans hcached
          rw [hmonitor]
          exact hordered.monitored _ before hbefore r (hreconstruction ▸ hr)
        · cases hwritten.symm.trans hcached
          refine ⟨value, hmonitor, ?_⟩
          rw [hreconstruction] at hr
          split at hr
          · cases hr
            exact le_rfl
          · obtain ⟨m, hm, hle⟩ := hordered.monitored _ before hbefore r hr
            exact hle.trans (hat ▸ hordered.pending task htask hpublished before hbefore m hm)
    · rw [publish_of_ne hslug] at hcached
      exact hordered.monitored slug cached hcached r hr
  · intro running hrunning hnot
    cases hrunning
    cases hnot

/-- A step that is undisturbed keeps the order. -/
theorem Ordered.step {hub hub' : FrOverview History} {event : Event History} (hordered : hub.Ordered)
    (hundisturbed : hub.Undisturbed event) (h : hub.step event = .ok hub') : hub'.Ordered := by
  rcases step_cases h with ⟨haccounts, hgate⟩ | ⟨slugs, snapshots, hloop, hgate, haccounts⟩ |
    ⟨host, slugs, snapshots, strategy, account, time, strategies, rfl, hloop, observed, live,
      hobserved, rfl⟩ | ⟨task, result, rfl, htask, hpublished, rfl⟩
  · exact hordered.mono (fun slug account haccount => haccounts ▸ haccount) hgate
  · refine hordered.mono (fun slug account haccount => ?_) fun task htask => hgate ▸ htask
    rw [haccounts] at haccount
    exact (Option.filter_eq_some_iff.mp haccount).1
  · simp only [Undisturbed, hloop, WritesCurrent, hobserved] at hundisturbed
    have hwritten := hordered.writeBack hundisturbed.1 hobserved hundisturbed.2
    exact ⟨hwritten.monitored, hwritten.pending⟩
  · exact hordered.publish htask hpublished result

/-- What is kept stays, while the account is enabled. -/
theorem Kept.step {hub hub' : FrOverview History} {event : Event History} {slug : String}
    {value : Reconstruction History} (hkept : hub.Kept slug value) (hordered : hub.Ordered)
    (hincludes : hub.Includes slug) (hundisturbed : hub.Undisturbed event)
    (h : hub.step event = .ok hub') : hub'.Kept slug value := by
  obtain ⟨before, hbefore, ⟨m, hm, hmle⟩, hequity⟩ := hkept
  rcases step_cases h with ⟨haccounts, -⟩ | ⟨slugs, snapshots, hloop, -, haccounts⟩ |
    ⟨host, slugs, snapshots, strategy, account, time, strategies, rfl, hloop, observed, live,
      hobserved, rfl⟩ | ⟨task, result, rfl, htask, hpublished, rfl⟩
  · exact ⟨before, haccounts ▸ hbefore, ⟨m, hm, hmle⟩, hequity⟩
  · refine ⟨before, ?_, ⟨m, hm, hmle⟩, hequity⟩
    simp only [Includes, hloop] at hincludes
    rw [haccounts]
    exact Option.filter_eq_some_iff.mpr ⟨hbefore, decide_eq_true hincludes⟩
  · simp only [Undisturbed, hloop, WritesCurrent, hobserved] at hundisturbed
    by_cases hslug : slug = strategy.slug
    · cases hslug
      obtain ⟨written, hwritten, hmonitor, hreconstruction⟩ :=
        Current.written hundisturbed.1 hobserved
      rw [hbefore] at hmonitor hreconstruction
      exact ⟨written, hwritten, ⟨m, hmonitor.trans hm, hmle⟩, fun hsome =>
        (hequity hsome).imp fun r hr => ⟨hreconstruction.trans hr.1, hr.2⟩⟩
    · exact ⟨before, (writeBack_of_ne hslug observed live time).trans hbefore, ⟨m, hm, hmle⟩, hequity⟩
  · by_cases hslug : slug = task.slug
    · cases hslug
      have hpending := hordered.pending task htask hpublished before hbefore m hm
      obtain ⟨written, hwritten, ⟨hmonitor, hreconstruction⟩ |
        ⟨value', hat, -, hmonitor, hreconstruction⟩⟩ := publish_self hbefore result
      · exact ⟨written, hwritten, ⟨m, hmonitor.trans hm, hmle⟩, fun hsome =>
          (hequity hsome).imp fun r hr => ⟨hreconstruction.trans hr.1, hr.2⟩⟩
      · have hnew : value.atMs ≤ value'.atMs := hat ▸ hmle.trans hpending
        refine ⟨written, hwritten, ⟨value', hmonitor, hnew⟩, fun hsome => ?_⟩
        rw [hreconstruction]
        split
        · exact ⟨value', rfl, hnew⟩
        · exact hequity hsome
    · exact ⟨before, (publish_of_ne hslug _).trans hbefore, ⟨m, hm, hmle⟩, hequity⟩

/-- A step that stores a reconstruction keeps it. -/
theorem Stores.kept {hub hub' : FrOverview History} {event : Event History} {slug : String}
    {value : Reconstruction History} (hstores : hub.Stores slug event value)
    (h : hub.step event = .ok hub') : hub'.Kept slug value := by
  obtain ⟨task, htask, rfl, hsome, rfl, hat, hequity⟩ := hstores
  obtain ⟨before, hbefore⟩ := Option.isSome_iff_exists.mp hsome
  simp only [FrOverview.step, htask] at h
  split at h
  · cases h
  · cases h
    refine ⟨before.published ⟨task.atMs, task.equity, value.start, value.history⟩, ?_,
      ⟨_, rfl, hat.le⟩, fun hsome => ⟨_, if_pos (hequity ▸ hsome), hat.le⟩⟩
    simp only [publish, Function.update_self, hbefore, Option.map_some]

theorem includes_step {hub hub' : FrOverview History} {event : Event History} {slug : String}
    (hincludes : hub.Includes slug) (hevent : event.Includes slug)
    (h : hub.step event = .ok hub') : hub'.Includes slug := by
  unfold Includes at hincludes
  cases event with
  | «begin» strategies snapshots =>
    simp only [FrOverview.step] at h
    split at h
    · cases h
      exact hevent
    · cases h
  | copy time =>
    simp only [FrOverview.step] at h
    split at h
    · rename_i hloop
      cases h
      rwa [hloop] at hincludes
    · cases h
  | fail =>
    simp only [FrOverview.step] at h
    split at h
    · cases h
      trivial
    · cases h
  | writeBack host =>
    simp only [FrOverview.step] at h
    split at h
    · rename_i hloop
      cases h
      rwa [hloop] at hincludes
    · cases h
  | retain =>
    simp only [FrOverview.step] at h
    split at h
    · cases h
      trivial
    · cases h
  | publish result =>
    simp only [FrOverview.step] at h
    split at h
    · split at h
      · cases h
      · cases h
        exact hincludes
    · cases h
  | release =>
    simp only [FrOverview.step] at h
    split at h
    · cases h
      exact hincludes
    · cases h

/-- **Nothing published is lost**: if a run of the loop and its tasks never writes back an account
    for which something was published since it was copied, then a reconstruction that was stored for
    an account stays, or gives way to a newer one, as long as the account is enabled. -/
theorem published_history_kept {past later : List (Event History)} {event : Event History}
    {hub hub' : FrOverview History} {slug : String} {value : Reconstruction History}
    (hpast : past.foldlM step {} = .ok hub) (hrun : (event :: later).foldlM step hub = .ok hub')
    (hundisturbed : Throughout step Undisturbed {} (past ++ event :: later))
    (hstores : hub.Stores slug event value) (hincludes : hub.Includes slug)
    (henabled : ∀ event ∈ later, event.Includes slug) : hub'.Kept slug value := by
  obtain ⟨hbefore, hfrom⟩ := (throughout_append hpast).mp hundisturbed
  have hordered : hub.Ordered :=
    run_throughout (fun _ _ _ hordered hundisturbed => hordered.step hundisturbed) ordered_new
      hbefore hpast
  obtain ⟨stored, hstored, hlater⟩ := run_cons.mp hrun
  have hafter := (hfrom.2 stored hstored).and
    (throughout_of_forall (P := fun _ event => event.Includes slug)
      (fun event hevent _ => henabled event hevent) stored)
  refine (run_throughout (Q := fun hub => hub.Kept slug value ∧ hub.Ordered ∧ hub.Includes slug)
    (fun event s t h hevent hstep => ?_) ⟨hstores.kept hstored, hordered.step hfrom.1 hstored, ?_⟩
    hafter hlater).1
  · obtain ⟨hkept, hordered, hincludes⟩ := h
    exact ⟨hkept.step hordered hincludes hevent.1 hstep, hordered.step hevent.1 hstep,
      includes_step hincludes hevent.2 hstep⟩
  · have hpublish : event.Includes slug := by
      obtain ⟨_, _, _, _, rfl, -⟩ := hstores
      trivial
    exact includes_step hincludes hpublish hstored

end FrOverview

/-! ## A result published between copy and write-back -/

def binanceFr : StrategyRecord where
  slug := "binance_fr_arb01"
  exchange := "binance"
  strategyKind := "funding_rate"

def asked (time : ℤ) : List (Event Unit) := [.begin [binanceFr] fun _ => none, .copy time]

def answered : List (Event Unit) := [.writeBack none, .retain]

def binanceHistory : Reconstruction Unit where
  atMs := 1786233600000
  equity := none
  start := 1786147200000
  history := ()

/-- The task of the first cycle is done while the second waits for the host. -/
theorem published_history_lost : ∃ hub hub' : FrOverview Unit,
    (asked 1786233600000 ++ answered ++ asked 1786233615000).foldlM FrOverview.step {} = .ok hub ∧
    (.publish (some (1786147200000, ())) :: answered).foldlM FrOverview.step hub = .ok hub' ∧
    hub.Stores "binance_fr_arb01" (.publish (some (1786147200000, ()))) binanceHistory ∧
    hub.Includes "binance_fr_arb01" ∧
    (∀ event ∈ answered, event.Includes "binance_fr_arb01") ∧
    ¬hub'.Kept "binance_fr_arb01" binanceHistory := by
  obtain ⟨hub, hpast, hgate, hsome, hincludes, hub', hrun, hlost⟩ :
      Yields ((asked 1786233600000 ++ answered ++ asked 1786233615000).foldlM FrOverview.step {})
        fun hub => hub.gate = some
            { slug := "binance_fr_arb01", equity := none, atMs := 1786233600000 } ∧
          (hub.accounts "binance_fr_arb01").isSome ∧ hub.Includes "binance_fr_arb01" ∧
          Yields ((.publish (some (1786147200000, ())) :: answered).foldlM FrOverview.step hub)
            fun hub' => (hub'.accounts "binance_fr_arb01").map Account.monitorReconstruction
              = some none := by
    decide +kernel
  refine ⟨hub, hub', hpast, hrun, ⟨_, hgate, rfl, hsome, rfl, rfl, rfl⟩, hincludes, ?_, ?_⟩
  · intro event hevent
    simp only [answered, List.mem_cons, List.not_mem_nil, or_false] at hevent
    rcases hevent with rfl | rfl
    · trivial
    · trivial
  · rintro ⟨account, haccount, ⟨r, hr, -⟩, -⟩
    rw [haccount, Option.map_some] at hlost
    cases hr.symm.trans (Option.some.inj hlost)

/-- The task is done between the two cycles. -/
theorem published_history_stays : ∃ hub hub' : FrOverview Unit,
    (asked 1786233600000 ++ answered).foldlM FrOverview.step {} = .ok hub ∧
    (.publish (some (1786147200000, ())) :: (.release :: asked 1786233615000 ++ answered)).foldlM
      FrOverview.step hub = .ok hub' ∧
    hub'.Kept "binance_fr_arb01" binanceHistory := by
  obtain ⟨hub, hpast, hgate, hsome, hincludes, hub', hrun, -⟩ :
      Yields ((asked 1786233600000 ++ answered).foldlM FrOverview.step {})
        fun hub => hub.gate = some
            { slug := "binance_fr_arb01", equity := none, atMs := 1786233600000 } ∧
          (hub.accounts "binance_fr_arb01").isSome ∧ hub.Includes "binance_fr_arb01" ∧
          Yields ((.publish (some (1786147200000, ())) ::
            (.release :: asked 1786233615000 ++ answered)).foldlM FrOverview.step hub)
            fun _ => True := by
    decide +kernel
  refine ⟨hub, hub', hpast, hrun, FrOverview.published_history_kept hpast hrun ?_
    ⟨_, hgate, rfl, hsome, rfl, rfl, rfl⟩ hincludes ?_⟩
  · decide +kernel
  · intro event hevent
    simp only [asked, answered, List.cons_append, List.nil_append, List.mem_cons, List.not_mem_nil,
      or_false] at hevent
    rcases hevent with rfl | rfl | rfl | rfl | rfl
    · trivial
    · exact List.mem_cons_self
    · trivial
    · trivial
    · trivial

end CryptoNav.Overview
