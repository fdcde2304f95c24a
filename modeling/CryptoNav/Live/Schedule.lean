import Mathlib
import CryptoNav.History.Watermark
import CryptoNav.Lib.Runs

/-!
# The schedule of the live history loops

Every strategy has a loop of its own, which wakes up once in an interval at a minute of its own: the
strategies of an exchange are numbered, and the number is the minute. The loops read the clock
whenever they are done with a cycle, so nothing else keeps them apart (`slots_apart`).

Cycles may take as long as they like, and a loop that is late takes the next slot that is not
past. A strategy whose number does not fit into the interval is not started at all, which is
what keeps the slots of the others apart (`started`). What a cycle does is elsewhere, and that
the clock may be set back between two readings is left out.
-/

set_option autoImplicit false

namespace CryptoNav.Live

open CryptoNav.Lib
open CryptoNav.History (i64Min i64Max)

/-- What the query of `load_strategies` reads of a row of `strategy_envs`. -/
structure StrategyEnv where
  slug : String
  exchange : String
  accountMode : String
  strategyKind : String
  host : String
  sortOrder : ℤ
  enabled : Bool
  deriving DecidableEq

def liveSlugs : List String :=
  ["binance-intra-arb01", "binance_mm_alpha", "binance_exec_trade01", "binance_exec_trade02",
    "bybit_mm_alpha", "okex_mm_alpha", "bybit-intra-arb01", "bybit-intra-arb02", "bybit_fr_arb01",
    "bitget_fr_arb01", "bitget_fr_arb02", "bitget_fr_arb03", "gate_fr_arb01", "gate_fr_arb02",
    "gate_fr_arb03", "gate_fr_arb04"]

namespace StrategyEnv

def isLive (env : StrategyEnv) : Bool :=
  env.enabled &&
    ((env.host = "local" && env.exchange = "binance" && env.strategyKind = "funding_rate") ||
      (env.host = "local" && env.accountMode = "rapidx") || liveSlugs.contains env.slug)

/-- `ORDER BY s.sort_order, s.slug` -/
def order (env : StrategyEnv) : ℤ ×ₗ String := toLex (env.sortOrder, env.slug)

end StrategyEnv

/-- `ROW_NUMBER() OVER (PARTITION BY s.exchange ORDER BY s.sort_order, s.slug) - 1`: no two rows have
the same slug, so it is the number of rows before. -/
def scheduleOffsetMinutes (envs : List StrategyEnv) (env : StrategyEnv) : ℕ :=
  envs.countP fun other => other.isLive && decide (other.exchange = env.exchange ∧ other.order < env.order)

/-- The strategies whose loops `run` starts. -/
def started (envs : List StrategyEnv) (intervalMinutes : ℕ) : List StrategyEnv :=
  envs.filter fun env => env.isLive && decide (scheduleOffsetMinutes envs env < intervalMinutes)

def fitsI64 (value : ℤ) (context : String) : Except String ℤ :=
  if i64Min ≤ value ∧ value ≤ i64Max then .ok value else .error context

/-- The delay until the next slot and its time. `nowMs` is the time since the epoch; before it the
clock has none. -/
def delayUntilNextSlot (nowMs : Option ℕ) (intervalMs : ℕ) (offsetMinutes : ℤ) :
    Except String (ℤ × ℤ) :=
  match nowMs with
  | none => .error "system clock is before Unix epoch"
  | some nowMs => do
    let nowMs ← fitsI64 nowMs "system clock milliseconds overflow i64"
    let intervalMs ← fitsI64 intervalMs "sync interval milliseconds overflow i64"
    let offsetMs ← fitsI64 (offsetMinutes * 60000) "schedule offset milliseconds overflow"
    let elapsed := (nowMs - offsetMs) % intervalMs
    let delayMs := intervalMs - elapsed
    let nextSyncAtMs ← fitsI64 (nowMs + delayMs) "next sync timestamp overflow"
    pure (delayMs, nextSyncAtMs)

/-! ## Slots -/

theorem fitsI64_eq_ok {value result : ℤ} {context : String}
    (h : fitsI64 value context = .ok result) : result = value := by
  rw [fitsI64] at h
  split at h
  · exact (Except.ok.inj h).symm
  · cases h

/-- The next slot is the first time after now that is at the offset in its interval. -/
theorem nextSlot {nowMs : Option ℕ} {intervalMinutes : ℕ} {offset delayMs nextMs : ℤ}
    (hinterval : 0 < intervalMinutes)
    (h : delayUntilNextSlot nowMs (intervalMinutes * 60000) offset = .ok (delayMs, nextMs)) :
    ∃ now : ℕ, nowMs = some now ∧ nextMs = now + delayMs ∧ 0 < delayMs ∧
      delayMs ≤ intervalMinutes * 60000 ∧
      (intervalMinutes * 60000 : ℤ) ∣ nextMs - offset * 60000 := by
  cases nowMs with
  | none => cases h
  | some now =>
    obtain ⟨now', hnow, h⟩ := bind_eq_ok.mp h
    obtain ⟨interval, hinterval', h⟩ := bind_eq_ok.mp h
    obtain ⟨offsetMs, hoffset, h⟩ := bind_eq_ok.mp h
    obtain ⟨next, hnext, h⟩ := bind_eq_ok.mp h
    cases pure_eq_ok.mp h
    have hnow := fitsI64_eq_ok hnow
    have hinterval' := fitsI64_eq_ok hinterval'
    have hoffset := fitsI64_eq_ok hoffset
    have hnext := fitsI64_eq_ok hnext
    push_cast at hinterval'
    subst hnow hinterval' hoffset hnext
    have hpos : (0 : ℤ) < intervalMinutes * 60000 := by omega
    have hnonneg := Int.emod_nonneg ((now : ℤ) - offset * 60000) hpos.ne'
    have hlt := Int.emod_lt_of_pos ((now : ℤ) - offset * 60000) hpos
    refine ⟨now, rfl, rfl, by omega, by omega, ?_⟩
    have hdiv : (intervalMinutes * 60000 : ℤ) ∣ now - offset * 60000 -
        (now - offset * 60000) % (intervalMinutes * 60000) := Int.dvd_self_sub_emod
    have hsum := hdiv.add (dvd_refl (intervalMinutes * 60000 : ℤ))
    have heq : (now : ℤ) + (intervalMinutes * 60000 - (now - offset * 60000) %
        (intervalMinutes * 60000)) - offset * 60000 = now - offset * 60000 -
        (now - offset * 60000) % (intervalMinutes * 60000) + intervalMinutes * 60000 := by omega
    rwa [heq]

/-! ## Offsets -/

theorem scheduleOffsetMinutes_lt {envs : List StrategyEnv} {a b : StrategyEnv} (ha : a ∈ envs)
    (hlive : a.isLive = true) (hexchange : a.exchange = b.exchange) (h : a.order < b.order) :
    scheduleOffsetMinutes envs a < scheduleOffsetMinutes envs b := by
  obtain ⟨l, l', rfl⟩ := List.append_of_mem ha
  have hmono : ∀ l : List StrategyEnv,
      l.countP (fun other => other.isLive && decide (other.exchange = a.exchange ∧
        other.order < a.order)) ≤
      l.countP (fun other => other.isLive && decide (other.exchange = b.exchange ∧
        other.order < b.order)) := by
    refine fun l => List.countP_mono_left fun other _ hother => ?_
    simp only [Bool.and_eq_true, decide_eq_true_eq] at hother ⊢
    exact ⟨hother.1, hother.2.1.trans hexchange, hother.2.2.trans h⟩
  -- `a` itself is before `b` and not before `a`
  simp only [scheduleOffsetMinutes, List.countP_append, List.countP_cons, hlive, hexchange, h,
    lt_irrefl]
  have hbefore := hmono l
  have hafter := hmono l'
  rw [hexchange] at hbefore hafter
  simp only [and_true, and_false, decide_true, decide_false, Bool.true_and, if_true,
    Bool.false_eq_true, if_false]
  omega

theorem scheduleOffsetMinutes_ne {envs : List StrategyEnv}
    (hslugs : (envs.map StrategyEnv.slug).Nodup) {a b : StrategyEnv} (ha : a ∈ envs) (hb : b ∈ envs)
    (halive : a.isLive = true) (hblive : b.isLive = true) (hexchange : a.exchange = b.exchange)
    (hne : a ≠ b) : scheduleOffsetMinutes envs a ≠ scheduleOffsetMinutes envs b := by
  have horder : a.order ≠ b.order := fun heq => by
    have hslug : a.slug = b.slug := congrArg (fun k => (ofLex k).2) heq
    exact hne (List.inj_on_of_nodup_map hslugs ha hb hslug)
  rcases lt_or_gt_of_ne horder with hlt | hgt
  · exact (scheduleOffsetMinutes_lt ha halive hexchange hlt).ne
  · exact (scheduleOffsetMinutes_lt hb hblive hexchange.symm hgt).ne'

/-- **Strategies of one exchange never start together.** Whenever two of their loops read the clock,
the slots they get are at least a minute apart; each is after the time read and at most an interval
away. -/
theorem slots_apart (envs : List StrategyEnv) (hslugs : (envs.map StrategyEnv.slug).Nodup)
    (intervalMinutes : ℕ) (a b : StrategyEnv) (ha : a ∈ started envs intervalMinutes)
    (hb : b ∈ started envs intervalMinutes) (hexchange : a.exchange = b.exchange) (hne : a ≠ b)
    {nowA nowB : ℕ} {delayA delayB nextA nextB : ℤ}
    (hA : delayUntilNextSlot (some nowA) (intervalMinutes * 60000)
      (scheduleOffsetMinutes envs a) = .ok (delayA, nextA))
    (hB : delayUntilNextSlot (some nowB) (intervalMinutes * 60000)
      (scheduleOffsetMinutes envs b) = .ok (delayB, nextB)) :
    60000 ≤ |nextA - nextB| ∧ (nowA < nextA ∧ nextA ≤ nowA + intervalMinutes * 60000) ∧
      (nowB < nextB ∧ nextB ≤ nowB + intervalMinutes * 60000) := by
  obtain ⟨ha, hastarted⟩ := List.mem_filter.mp ha
  obtain ⟨hb, hbstarted⟩ := List.mem_filter.mp hb
  simp only [Bool.and_eq_true, decide_eq_true_eq] at hastarted hbstarted
  have hoffsets := scheduleOffsetMinutes_ne hslugs ha hb hastarted.1 hbstarted.1 hexchange hne
  obtain ⟨_, hnowA, rfl, hposA, hleA, hdivA⟩ := nextSlot (by omega) hA
  obtain ⟨_, hnowB, rfl, hposB, hleB, hdivB⟩ := nextSlot (by omega) hB
  cases hnowA
  cases hnowB
  refine ⟨?_, ⟨by omega, by omega⟩, ⟨by omega, by omega⟩⟩
  -- The slots differ by the offsets, up to intervals, and these by less than an interval.
  obtain ⟨i, hi⟩ := hdivA
  obtain ⟨j, hj⟩ := hdivB
  have hdiff : (nowA + delayA) - (nowB + delayB) = 60000 * (intervalMinutes * (i - j) +
      ((scheduleOffsetMinutes envs a : ℤ) - scheduleOffsetMinutes envs b)) := by linarith
  have hminutes : (intervalMinutes : ℤ) * (i - j) +
      ((scheduleOffsetMinutes envs a : ℤ) - scheduleOffsetMinutes envs b) ≠ 0 := by
    intro hzero
    have hdvd : (intervalMinutes : ℤ) ∣
        (scheduleOffsetMinutes envs a : ℤ) - scheduleOffsetMinutes envs b :=
      ⟨j - i, by linarith⟩
    have hlt : |(scheduleOffsetMinutes envs a : ℤ) - scheduleOffsetMinutes envs b| <
        intervalMinutes := abs_sub_lt_iff.mpr ⟨by omega, by omega⟩
    have heq := Int.eq_zero_of_abs_lt_dvd hdvd hlt
    omega
  rw [hdiff, abs_mul, abs_of_pos (by norm_num)]
  have hone := Int.one_le_abs hminutes
  linarith

def sampleEnv (slug : String) (sortOrder : ℤ) : StrategyEnv :=
  { slug, exchange := "binance", accountMode := "unified", strategyKind := "cta", host := "remote"
    sortOrder, enabled := true }

/-- Two strategies whose loops read the clock at the same time. -/
theorem slots_apart_of_sample :
    60000 ≤ |(1800000 : ℤ) - 1860000| ∧
      (((1000000 : ℕ) : ℤ) < 1800000 ∧ (1800000 : ℤ) ≤ (1000000 : ℕ) + (15 : ℕ) * 60000) ∧
      (((1000000 : ℕ) : ℤ) < 1860000 ∧ (1860000 : ℤ) ≤ (1000000 : ℕ) + (15 : ℕ) * 60000) := by
  let a := sampleEnv "binance_exec_trade01" 1
  let b := sampleEnv "binance_exec_trade02" 2
  have hA : delayUntilNextSlot (some 1000000) (15 * 60000) (scheduleOffsetMinutes [a, b] a) =
      .ok (800000, 1800000) := by decide +kernel
  have hB : delayUntilNextSlot (some 1000000) (15 * 60000) (scheduleOffsetMinutes [a, b] b) =
      .ok (860000, 1860000) := by decide +kernel
  exact slots_apart [a, b] (by decide) 15 a b (by decide +kernel) (by decide +kernel) rfl
    (by decide) hA hB

end CryptoNav.Live
