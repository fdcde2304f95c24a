import CryptoNav.Lib.Binary64
import CryptoNav.Lib.Sorting
import CryptoNav.Lib.Table
import CryptoNav.Live.Symbols
import Mathlib.Data.Prod.Lex

/-!
# The pre-trade guard

What a task of the position-limit monitor makes of the answers it collected: a row for every symbol
held, whose position is compared with the exchange's limit less the pending orders of the side that
could still add to it, and the status of the environment. A limit that the pending orders use up
leaves no cap to compare with; its row is unavailable and the status does not see it.

Quantities and limits are `f64`, computed with and compared as such, because what is shown
depends on infinities and NaN as well: the theorems use of the arithmetic only that it is
monotone, which `Lib.Binary64` proves. The message of a failed environment is left out.
-/

set_option autoImplicit false

namespace CryptoNav.Limits

open CryptoNav.Lib

def alertThresholdRatio : Float := 0.90

def positionDisplayMinUsd : Float := 1.0

abbrev BTreeMap (α : Type) : Type := Table (Prod.fst : String × α → String)

def BTreeMap.find {α : Type} (m : BTreeMap α) (symbol : String) : Option α :=
  (m.get symbol).map Prod.snd

/-! ## Parameters -/

structure GuardParams where
  pendingBuy : ℤ := 0
  pendingSell : ℤ := 0
  defaultAmountU : Float := 100.0
  amountUOverrides : List (String × Float) := []

namespace GuardParams

def amountU (params : GuardParams) (symbol : String) : Float :=
  (params.amountUOverrides.lookup symbol).getD params.defaultAmountU

def pendingForPosition (params : GuardParams) (positionNotional : Float) : ℤ :=
  max (if positionNotional < 0 then params.pendingBuy
    else if 0 < positionNotional then params.pendingSell
    else max params.pendingBuy params.pendingSell) 0

end GuardParams

/-! ## One row -/

structure GuardMetrics where
  buffer : Float
  cap : Float
  remaining : Float
  usageRatio : Float
  amountU : Float
  pending : ℤ

def guardMetrics (exchangeLimit positionNotional : Float) (symbol : String)
    (params : GuardParams) : Except String GuardMetrics :=
  if ¬(exchangeLimit.isFinite ∧ 0 < exchangeLimit) then .error "exchange position limit is invalid"
  else
    let amountU := params.amountU symbol
    if ¬(amountU.isFinite ∧ 0 < amountU) then .error "pre-trade amount_u is invalid"
    else
      let pending := params.pendingForPosition positionNotional
      let buffer := Float.ofInt pending * amountU
      let cap := exchangeLimit - buffer
      if ¬(cap.isFinite ∧ 0 < cap) then .error "pre-trade guard cap is not positive"
      else
        let absoluteNotional := positionNotional.abs
        .ok { buffer, cap, remaining := cap - absoluteNotional,
              usageRatio := absoluteNotional / cap, amountU, pending }

structure SnapshotPosition where
  asset : String := ""
  openUsdt : Option Float := none
  futuresUsdt : Option Float := none

structure FrLimitRow where
  symbol : String
  asset : String
  status : String
  side : String
  trackedInSnapshot : Bool
  positionSource : String
  positionNotionalUsdt : Float
  snapshotOpenUsdt : Option Float
  snapshotFuturesUsdt : Option Float
  snapshotRestDeltaUsdt : Option Float
  exchangeLimitUsdt : Option Float
  guardBufferUsdt : Option Float
  guardCapUsdt : Option Float
  remainingUsdt : Option Float
  usageRatio : Option Float
  nearLimit : Bool
  amountU : Option Float
  pendingLimitOrders : Option ℤ
  leverage : Option Float
  symbolConfigLimitUsdt : Option Float
  positionRiskLimitUsdt : Option Float
  bracketLimitUsdt : Option Float
  error : Option String

def assetFromSymbol (symbol : String) : String :=
  ((Live.stripSuffix Live.usdt symbol.toList).map String.ofList).getD symbol

def gateContract (symbol : String) : String := assetFromSymbol symbol ++ "_USDT"

/-- `f64::EPSILON` -/
def epsilon : Float := Float.ofScientific 2220446049250313 true 31

def positionSide (notional : Float) : String :=
  if notional < -epsilon then "short" else if epsilon < notional then "long" else "flat"

def positionNotional (snapshot : Option SnapshotPosition) (exchangeNotional : Option Float) :
    Float :=
  (exchangeNotional.or (snapshot.bind SnapshotPosition.futuresUsdt)).getD 0

/-- The metrics of a row, or why it has none. -/
def rowMetrics (normalizedSymbol : String) (snapshot : Option SnapshotPosition)
    (exchangeNotional exchangeLimit : Option Float) (params : GuardParams) :
    Except String GuardMetrics :=
  match exchangeLimit with
  | some limit =>
    guardMetrics limit (positionNotional snapshot exchangeNotional) normalizedSymbol params
  | none => .error "exchange position-limit row is missing"

def nearLimit (metrics : Except String GuardMetrics) : Bool :=
  metrics.toOption.any fun metrics => alertThresholdRatio ≤ metrics.usageRatio

def buildRow (displaySymbol normalizedSymbol : String) (snapshot : Option SnapshotPosition)
    (exchangeNotional exchangeLimit leverage symbolConfigLimit positionRiskLimit
      bracketLimit : Option Float) (params : GuardParams) : FrLimitRow :=
  let snapshotFutures := snapshot.bind SnapshotPosition.futuresUsdt
  let notional := positionNotional snapshot exchangeNotional
  let result := rowMetrics normalizedSymbol snapshot exchangeNotional exchangeLimit params
  let metrics := result.toOption
  { symbol := displaySymbol
    asset := ((snapshot.map SnapshotPosition.asset).filter (· ≠ "")).getD
      (assetFromSymbol normalizedSymbol)
    status := if nearLimit result then "warning"
      else if metrics.isNone then "unavailable" else "healthy"
    side := positionSide notional
    trackedInSnapshot := snapshot.isSome
    positionSource := if exchangeNotional.isSome then "exchange" else "snapshot"
    positionNotionalUsdt := notional
    snapshotOpenUsdt := snapshot.bind SnapshotPosition.openUsdt
    snapshotFuturesUsdt := snapshotFutures
    snapshotRestDeltaUsdt := exchangeNotional.bind fun exchange =>
      snapshotFutures.map fun snapshot => exchange - snapshot
    exchangeLimitUsdt := exchangeLimit
    guardBufferUsdt := metrics.map GuardMetrics.buffer
    guardCapUsdt := metrics.map GuardMetrics.cap
    remainingUsdt := metrics.map GuardMetrics.remaining
    usageRatio := metrics.map GuardMetrics.usageRatio
    nearLimit := nearLimit result
    amountU := metrics.map GuardMetrics.amountU
    pendingLimitOrders := metrics.map GuardMetrics.pending
    leverage
    symbolConfigLimitUsdt := symbolConfigLimit
    positionRiskLimitUsdt := positionRiskLimit
    bracketLimitUsdt := bracketLimit
    error := match result with
      | .ok _ => none
      | .error error => some error }

/-! ## The environment -/

structure FrLimitSourceCounts where
  snapshotRows : ℕ := 0
  exchangeLimitRows : ℕ := 0
  exchangePositionRows : ℕ := 0
  displayedRows : ℕ := 0
  nearLimitRows : ℕ := 0
  symbolConfigRows : Option ℕ := none
  positionRiskRows : Option ℕ := none
  leverageBracketRows : Option ℕ := none

structure BinanceLimit where
  symbol : String := ""
  symbolConfigLimit : Option Float := none
  positionRiskLimit : Option Float := none
  bracketLimit : Option Float := none
  leverage : Option Float := none
  currentNotional : Option Float := none

def positive (value : Option Float) : Option Float :=
  value.filter fun value => value.isFinite && decide (0 < value)

def BinanceLimit.effectiveLimit (limit : BinanceLimit) : Option Float :=
  let cap := (positive limit.symbolConfigLimit).or (positive limit.positionRiskLimit)
  match positive limit.bracketLimit with
  | some bracket => some (cap.elim bracket fun current => min current bracket)
  | none => cap

structure BinanceData where
  limits : BTreeMap BinanceLimit
  symbolConfigRows : ℕ
  positionRiskRows : ℕ
  leverageBracketRows : ℕ
  warnings : List String

structure GateLimit where
  contract : String
  riskLimit : Float
  currentNotional : Float
  crossLeverageLimit : Option Float

structure GateData where
  limits : BTreeMap GateLimit

inductive ExchangeData where
  | binance (data : BinanceData)
  | gate (data : GateData)

/-- `f64::max`, which takes the other number where one is none. -/
def maxNumber (a b : Float) : Float := if a.isNaN then b else if b.isNaN then a else max a b

def relevant (position : SnapshotPosition) : Bool :=
  positionDisplayMinUsd ≤
    maxNumber (position.openUsdt.getD 0).abs (position.futuresUsdt.getD 0).abs

def relevantSnapshotSymbols (snapshot : BTreeMap SnapshotPosition) : List String :=
  (snapshot.rows.filter fun entry => relevant entry.2).map Prod.fst

/-- Whether the exchange reports a position that is worth a row. -/
def held (notional : Option Float) : Bool :=
  notional.any fun value => positionDisplayMinUsd ≤ value.abs

def heldSymbols {α : Type} (notional : α → Option Float) (limits : BTreeMap α) : List String :=
  (limits.rows.filter fun entry => held (notional entry.2)).map Prod.fst

/-- The symbols of the rows, each once, in their order. -/
def displayedSymbols {α : Type} (notional : α → Option Float) (limits : BTreeMap α)
    (snapshot : BTreeMap SnapshotPosition) : List String :=
  ((Table.empty : Table (id : String → String)).putAll
    (relevantSnapshotSymbols snapshot ++ heldSymbols notional limits)).rows

def binanceRow (data : BinanceData) (snapshot : BTreeMap SnapshotPosition) (params : GuardParams)
    (symbol : String) : FrLimitRow :=
  let record := data.limits.find symbol
  buildRow (((record.map BinanceLimit.symbol).filter (· ≠ "")).getD symbol) symbol
    (snapshot.find symbol) (record.bind BinanceLimit.currentNotional)
    (record.bind BinanceLimit.effectiveLimit) (record.bind BinanceLimit.leverage)
    (record.bind BinanceLimit.symbolConfigLimit) (record.bind BinanceLimit.positionRiskLimit)
    (record.bind BinanceLimit.bracketLimit) params

def buildBinanceRows (data : BinanceData) (snapshot : BTreeMap SnapshotPosition)
    (params : GuardParams) : List FrLimitRow × FrLimitSourceCounts :=
  ((displayedSymbols BinanceLimit.currentNotional data.limits snapshot).map
      (binanceRow data snapshot params),
    { exchangeLimitRows := data.limits.rows.countP fun entry => entry.2.effectiveLimit.isSome
      exchangePositionRows := data.limits.rows.countP fun entry => held entry.2.currentNotional
      symbolConfigRows := some data.symbolConfigRows
      positionRiskRows := some data.positionRiskRows
      leverageBracketRows := some data.leverageBracketRows })

def gateRow (data : GateData) (snapshot : BTreeMap SnapshotPosition) (params : GuardParams)
    (symbol : String) : FrLimitRow :=
  let record := data.limits.find symbol
  buildRow ((record.map GateLimit.contract).getD (gateContract symbol)) symbol
    (snapshot.find symbol) (record.map GateLimit.currentNotional)
    (record.map GateLimit.riskLimit) (record.bind GateLimit.crossLeverageLimit) none none none
    params

def buildGateRows (data : GateData) (snapshot : BTreeMap SnapshotPosition)
    (params : GuardParams) : List FrLimitRow × FrLimitSourceCounts :=
  ((displayedSymbols (some ∘ GateLimit.currentNotional) data.limits snapshot).map
      (gateRow data snapshot params),
    { exchangeLimitRows := data.limits.rows.length
      exchangePositionRows := data.limits.rows.countP fun entry =>
        held (some entry.2.currentNotional) })

/-- The bits of a number, in the order of `f64::total_cmp`. -/
def totalOrder (x : Float) : ℤ :=
  let bits : ℤ := x.toBits.toNat
  if bits < 2 ^ 63 then bits else 2 ^ 63 - 1 - bits

def sortRows (rows : List FrLimitRow) : List FrLimitRow :=
  sortByKey (fun row => toLex (!row.nearLimit, toLex (-totalOrder (row.usageRatio.getD (-1)),
    toLex (-totalOrder row.positionNotionalUsdt.abs, row.symbol)))) rows

def environmentStatus (nearLimitRows : ℕ) (warnings : List String) : String :=
  if nearLimitRows > 0 ∨ warnings ≠ [] then "warning" else "healthy"

structure Findings where
  status : String
  sourceCounts : FrLimitSourceCounts
  rows : List FrLimitRow
  warnings : List String

/-- What `fetch_environment` reports once the exchange has answered; `warnings` are those of the
    snapshot and of the parameters. -/
def findings (exchangeData : ExchangeData) (snapshot : BTreeMap SnapshotPosition)
    (params : GuardParams) (warnings : List String) : Findings :=
  let (rows, counts, exchangeWarnings) := match exchangeData with
    | .binance data =>
      ((buildBinanceRows data snapshot params).1, (buildBinanceRows data snapshot params).2,
        data.warnings)
    | .gate data =>
      ((buildGateRows data snapshot params).1, (buildGateRows data snapshot params).2, [])
  let warnings := warnings ++ exchangeWarnings
  let rows := sortRows rows
  let nearLimitRows := rows.countP (·.nearLimit)
  { status := environmentStatus nearLimitRows warnings
    sourceCounts := { counts with
      snapshotRows := snapshot.rows.length, displayedRows := rows.length, nearLimitRows }
    rows
    warnings }

/-! ## A tighter limit or a greater position -/

theorem mem_keys_filter {β : Type} (m : BTreeMap β) (p : β → Bool) (symbol : String) :
    symbol ∈ (m.rows.filter fun entry => p entry.2).map Prod.fst ↔
      ∃ b, m.find symbol = some b ∧ p b = true := by
  constructor
  · intro h
    obtain ⟨⟨key, b⟩, hb, rfl⟩ := List.mem_map.mp h
    obtain ⟨hmem, hp⟩ := List.mem_filter.mp hb
    exact ⟨b, by rw [BTreeMap.find, Table.mem_rows.mp hmem]; rfl, hp⟩
  · rintro ⟨b, hb, hp⟩
    obtain ⟨⟨key, b'⟩, hget, rfl⟩ := Option.map_eq_some_iff.mp hb
    have hkey : key = symbol := Table.key_of_get hget
    subst hkey
    exact List.mem_map.mpr ⟨_, List.mem_filter.mpr ⟨Table.mem_rows.mpr hget, hp⟩, rfl⟩

theorem mem_displayedSymbols {α : Type} {notional : α → Option Float} {limits : BTreeMap α}
    {snapshot : BTreeMap SnapshotPosition} {symbol : String} :
    symbol ∈ displayedSymbols notional limits snapshot ↔
      (∃ position, snapshot.find symbol = some position ∧ relevant position = true) ∨
        ∃ record, limits.find symbol = some record ∧ held (notional record) = true := by
  have hrows : symbol ∈ displayedSymbols notional limits snapshot ↔
      symbol ∈ relevantSnapshotSymbols snapshot ++ heldSymbols notional limits := by
    rw [displayedSymbols, Table.mem_rows]
    have h := Table.isSome_get_putAll (Table.empty : Table (id : String → String))
      (relevantSnapshotSymbols snapshot ++ heldSymbols notional limits) symbol
    simp only [List.map_id, Table.empty, Table.get, List.find?_nil, Option.isSome_none,
      Bool.false_eq_true, or_false] at h
    rw [← h]
    constructor
    · intro hget
      exact Option.isSome_iff_exists.mpr ⟨_, hget⟩
    · intro hsome
      obtain ⟨a, ha⟩ := Option.isSome_iff_exists.mp hsome
      obtain rfl : a = symbol := Table.key_of_get ha
      exact ha
  rw [hrows, List.mem_append]
  exact or_congr (mem_keys_filter snapshot relevant symbol)
    (mem_keys_filter limits (fun record => held (notional record)) symbol)

/-- The cap that the pending orders leave of a limit. -/
def guardCap (params : GuardParams) (symbol : String) (notional limit : Float) : Float :=
  limit - Float.ofInt (params.pendingForPosition notional) * params.amountU symbol

/-- A position of the same sign that is at least as great. The sign decides which of the two limits
    and which pending orders count. -/
structure Grown (notional notional' : Float) : Prop where
  magnitude : notional.abs ≤ notional'.abs
  short : notional < 0 ↔ notional' < 0
  long : 0 < notional ↔ 0 < notional'

theorem Grown.pending {notional notional' : Float} (h : Grown notional notional')
    (params : GuardParams) :
    params.pendingForPosition notional = params.pendingForPosition notional' := by
  simp only [GuardParams.pendingForPosition, h.short, h.long]

theorem guardMetrics_eq_ok {limit notional : Float} {symbol : String} {params : GuardParams}
    {metrics : GuardMetrics} (h : guardMetrics limit notional symbol params = .ok metrics) :
    limit.isFinite = true ∧ (params.amountU symbol).isFinite = true ∧ 0 < params.amountU symbol ∧
      (guardCap params symbol notional limit).isFinite = true ∧
      0 < guardCap params symbol notional limit ∧
      metrics.usageRatio = notional.abs / guardCap params symbol notional limit := by
  simp only [guardMetrics] at h
  split at h
  · cases h
  · rename_i hlimit
    split at h
    · cases h
    · rename_i hamount
      split at h
      · cases h
      · rename_i hcap
        obtain ⟨hfinite, -⟩ := not_not.mp hlimit
        obtain ⟨hamountFinite, hamountPos⟩ := not_not.mp hamount
        obtain ⟨hcapFinite, hcapPos⟩ := not_not.mp hcap
        obtain rfl := Except.ok.inj h
        exact ⟨hfinite, hamountFinite, hamountPos, hcapFinite, hcapPos, rfl⟩

/-- Where limit and amount are valid, the cap alone decides. -/
theorem guardMetrics_of_valid {limit notional : Float} {symbol : String} {params : GuardParams}
    (hlimit : limit.isFinite = true ∧ 0 < limit)
    (hamount : (params.amountU symbol).isFinite = true ∧ 0 < params.amountU symbol) :
    ((guardCap params symbol notional limit).isFinite = true ∧
        0 < guardCap params symbol notional limit →
      ∃ metrics, guardMetrics limit notional symbol params = .ok metrics ∧
        metrics.usageRatio = notional.abs / guardCap params symbol notional limit) ∧
    (¬0 < guardCap params symbol notional limit →
      guardMetrics limit notional symbol params =
        .error "pre-trade guard cap is not positive") := by
  simp only [guardMetrics, if_neg (not_not.mpr hlimit), if_neg (not_not.mpr hamount)]
  constructor
  · intro hcap
    exact ⟨_, if_neg (not_not.mpr hcap), rfl⟩
  · intro hcap
    exact if_pos fun h => hcap h.2

/-- The alert of a row stays on while the tighter limit leaves a cap, and a limit that leaves none
    makes the row unavailable. -/
theorem alert_of_tighter {params : GuardParams} {symbol : String}
    {limit limit' notional notional' : Float}
    (hnear : nearLimit (guardMetrics limit notional symbol params) = true)
    (h0 : 0 < limit') (hlimit : limit' ≤ limit) (hgrown : Grown notional notional') :
    (0 < guardCap params symbol notional' limit' →
      nearLimit (guardMetrics limit' notional' symbol params) = true) ∧
    (¬0 < guardCap params symbol notional' limit' →
      guardMetrics limit' notional' symbol params =
        .error "pre-trade guard cap is not positive") := by
  obtain ⟨metrics, hok, halert⟩ : ∃ metrics, guardMetrics limit notional symbol params =
      .ok metrics ∧ alertThresholdRatio ≤ metrics.usageRatio := by
    rcases hm : guardMetrics limit notional symbol params with _ | metrics
    · rw [hm] at hnear
      cases hnear
    · rw [hm] at hnear
      exact ⟨metrics, rfl, of_decide_eq_true hnear⟩
  obtain ⟨hfinite, hamountFinite, hamountPos, hcapFinite, hcapPos, hratio⟩ :=
    guardMetrics_eq_ok hok
  have hfinite' := isFinite_of_pos_le h0 hlimit hfinite
  have hcap : guardCap params symbol notional' limit' ≤ guardCap params symbol notional limit := by
    simp only [guardCap, hgrown.pending params] at hcapFinite ⊢
    exact sub_le_sub_float hfinite' hfinite (isFinite_of_sub hfinite hcapFinite) hlimit
  obtain ⟨hpos, hnone⟩ := @guardMetrics_of_valid limit' notional' symbol params ⟨hfinite', h0⟩
    ⟨hamountFinite, hamountPos⟩
  refine ⟨fun hcapPos' => ?_, hnone⟩
  obtain ⟨metrics', hok', hratio'⟩ := hpos ⟨isFinite_of_pos_le hcapPos' hcap hcapFinite, hcapPos'⟩
  have husage : metrics.usageRatio ≤ metrics'.usageRatio := by
    rw [hratio, hratio']
    exact div_le_div_float (abs_nonneg_float hgrown.magnitude) hgrown.magnitude hcapPos'
      hcapFinite hcap
  rw [hok']
  exact decide_eq_true (le_trans_float halert husage)

/-! ## A tighter environment -/

/-- What the exchange reports of a symbol's position. -/
def ExchangeData.notional (data : ExchangeData) (symbol : String) : Option Float :=
  match data with
  | .binance data => (data.limits.find symbol).bind BinanceLimit.currentNotional
  | .gate data => (data.limits.find symbol).map GateLimit.currentNotional

/-- The limit that the exchange sets for a symbol. -/
def ExchangeData.limit (data : ExchangeData) (symbol : String) : Option Float :=
  match data with
  | .binance data => (data.limits.find symbol).bind BinanceLimit.effectiveLimit
  | .gate data => (data.limits.find symbol).map GateLimit.riskLimit

def ExchangeData.warnings : ExchangeData → List String
  | .binance data => data.warnings
  | .gate _ => []

/-- The symbols that get a row: those of which the snapshot has a position that matters, and those
    of which the exchange says that something is held. -/
def ExchangeData.displayed (data : ExchangeData) (snapshot : BTreeMap SnapshotPosition)
    (symbol : String) : Prop :=
  (∃ position, snapshot.find symbol = some position ∧ relevant position = true) ∨
    held (data.notional symbol) = true

/-- Whether the row of a symbol raises the alert. It does so from nine tenths of the cap on. -/
def ExchangeData.alerts (data : ExchangeData) (snapshot : BTreeMap SnapshotPosition)
    (params : GuardParams) (symbol : String) : Prop :=
  nearLimit (rowMetrics symbol (snapshot.find symbol) (data.notional symbol) (data.limit symbol)
    params) = true

theorem held_bind {α : Type} {notional : α → Option Float} {record : Option α} :
    (∃ r, record = some r ∧ held (notional r) = true) ↔ held (record.bind notional) = true := by
  cases record <;> simp [held]

theorem environmentStatus_eq_warning (rows : List FrLimitRow) (warnings : List String) :
    environmentStatus ((sortRows rows).countP (·.nearLimit)) warnings = "warning" ↔
      warnings ≠ [] ∨ ∃ row ∈ rows, row.nearLimit = true := by
  have hcount : (sortRows rows).countP (·.nearLimit) > 0 ↔ ∃ row ∈ rows, row.nearLimit = true := by
    rw [gt_iff_lt, List.countP_pos_iff]
    simp only [sortRows, mem_sortByKey]
  rw [or_comm, ← hcount, environmentStatus]
  split
  · rename_i h
    exact iff_of_true rfl h
  · rename_i h
    exact iff_of_false (by decide) h

/-- The status is a warning exactly when something was warned of or a displayed symbol alerts. -/
theorem findings_status (data : ExchangeData) (snapshot : BTreeMap SnapshotPosition)
    (params : GuardParams) (warnings : List String) :
    (findings data snapshot params warnings).status = "warning" ↔
      warnings ++ data.warnings ≠ [] ∨
        ∃ symbol, data.displayed snapshot symbol ∧ data.alerts snapshot params symbol := by
  rcases data with data | data
  · refine (environmentStatus_eq_warning (buildBinanceRows data snapshot params).1
      (warnings ++ data.warnings)).trans (or_congr_right ⟨?_, ?_⟩)
    · rintro ⟨row, hrow, hnear⟩
      obtain ⟨symbol, hsymbol, rfl⟩ := List.mem_map.mp hrow
      exact ⟨symbol, (mem_displayedSymbols.mp hsymbol).imp_right held_bind.mp, hnear⟩
    · rintro ⟨symbol, hshown, hnear⟩
      exact ⟨_, List.mem_map_of_mem (mem_displayedSymbols.mpr (hshown.imp_right held_bind.mpr)),
        hnear⟩
  · have hmap : ∀ symbol, (data.limits.find symbol).bind (some ∘ GateLimit.currentNotional) =
        (data.limits.find symbol).map GateLimit.currentNotional := fun symbol =>
      (Option.map_eq_bind ..).symm
    refine (environmentStatus_eq_warning (buildGateRows data snapshot params).1
      (warnings ++ [])).trans (or_congr_right ⟨?_, ?_⟩)
    · rintro ⟨row, hrow, hnear⟩
      obtain ⟨symbol, hsymbol, rfl⟩ := List.mem_map.mp hrow
      refine ⟨symbol, (mem_displayedSymbols.mp hsymbol).imp_right fun h => ?_, hnear⟩
      rw [held_bind, hmap] at h
      exact h
    · rintro ⟨symbol, hshown, hnear⟩
      refine ⟨_, List.mem_map_of_mem (mem_displayedSymbols.mpr (hshown.imp_right fun h => ?_)),
        hnear⟩
      rw [held_bind, hmap]
      exact h

/-- A limit that is as low and still positive. -/
def Lowered (limit limit' : Float) : Prop := 0 < limit' ∧ limit' ≤ limit

structure SnapshotPosition.Grown (position position' : SnapshotPosition) : Prop where
  openUsdt : Option.Rel Limits.Grown position.openUsdt position'.openUsdt
  futuresUsdt : Option.Rel Limits.Grown position.futuresUsdt position'.futuresUsdt

/-- The same environment with tighter limits and greater positions. -/
structure Tighter (data data' : ExchangeData) (snapshot snapshot' : BTreeMap SnapshotPosition) :
    Prop where
  limits : ∀ symbol, Option.Rel Lowered (data.limit symbol) (data'.limit symbol)
  notionals : ∀ symbol, Option.Rel Grown (data.notional symbol) (data'.notional symbol)
  positions : ∀ symbol,
    Option.Rel SnapshotPosition.Grown (snapshot.find symbol) (snapshot'.find symbol)
  warnings : data.warnings ≠ [] → data'.warnings ≠ []

theorem grown_zero : Grown 0 0 :=
  { magnitude := by decide, short := Iff.rfl, long := Iff.rfl }

theorem Grown.getD {a b : Option Float} (h : Option.Rel Grown a b) :
    Grown (a.getD 0) (b.getD 0) := by
  cases h with
  | some h => exact h
  | none => exact grown_zero

theorem SnapshotPosition.Grown.bind {a b : Option SnapshotPosition}
    {field : SnapshotPosition → Option Float}
    (hfield : ∀ {p q : SnapshotPosition}, p.Grown q → Option.Rel Limits.Grown (field p) (field q))
    (h : Option.Rel SnapshotPosition.Grown a b) :
    Option.Rel Limits.Grown (a.bind field) (b.bind field) := by
  cases h with
  | some h => exact hfield h
  | none => exact .none

theorem Grown.or {a a' b b' : Option Float} (ha : Option.Rel Grown a a')
    (hb : Option.Rel Grown b b') : Option.Rel Grown (a.or b) (a'.or b') := by
  cases ha with
  | some h => exact .some h
  | none => exact hb

theorem le_maxNumber {a b c : Float} : c ≤ maxNumber a b ↔ c ≤ a ∨ c ≤ b := by
  simp only [maxNumber]
  split
  · rename_i ha
    exact ⟨.inr, Or.rec (fun h => absurd h (not_le_of_isNaN ha)) id⟩
  · rename_i ha
    split
    · rename_i hb
      exact ⟨.inl, Or.rec id fun h => absurd h (not_le_of_isNaN hb)⟩
    · rename_i hb
      change c ≤ (if a ≤ b then b else a) ↔ _
      split
      · rename_i hab
        exact ⟨.inr, Or.rec (fun h => le_trans_float h hab) id⟩
      · rename_i hab
        have hba := (le_total_float ha hb).resolve_left hab
        exact ⟨.inl, Or.rec id fun h => le_trans_float h hba⟩

theorem relevant_of_grown {position position' : SnapshotPosition} (h : position.Grown position')
    (hr : relevant position = true) : relevant position' = true := by
  have hr := le_maxNumber.mp (of_decide_eq_true hr)
  refine decide_eq_true (le_maxNumber.mpr ?_)
  exact hr.imp (fun ha => le_trans_float ha (Grown.getD h.openUsdt).magnitude)
    (fun hb => le_trans_float hb (Grown.getD h.futuresUsdt).magnitude)

theorem held_of_grown {notional notional' : Option Float} (h : Option.Rel Grown notional notional')
    (hheld : held notional = true) : held notional' = true := by
  cases h with
  | some h => exact decide_eq_true (le_trans_float (of_decide_eq_true hheld) h.magnitude)
  | none => exact hheld

theorem Tighter.displayed {data data' : ExchangeData}
    {snapshot snapshot' : BTreeMap SnapshotPosition} (h : Tighter data data' snapshot snapshot')
    {symbol : String} (hshown : data.displayed snapshot symbol) :
    data'.displayed snapshot' symbol := by
  rcases hshown with ⟨position, hfind, hr⟩ | hheld
  · have hrel := h.positions symbol
    rw [hfind] at hrel
    rcases hfind' : snapshot'.find symbol with _ | position'
    · rw [hfind'] at hrel
      cases hrel
    · rw [hfind'] at hrel
      cases hrel with
      | some hgrown => exact .inl ⟨position', hfind', relevant_of_grown hgrown hr⟩
  · exact .inr (held_of_grown (h.notionals symbol) hheld)

theorem Tighter.positionNotional {data data' : ExchangeData}
    {snapshot snapshot' : BTreeMap SnapshotPosition} (h : Tighter data data' snapshot snapshot')
    (symbol : String) :
    Grown (positionNotional (snapshot.find symbol) (data.notional symbol))
      (positionNotional (snapshot'.find symbol) (data'.notional symbol)) :=
  Grown.getD (Grown.or (h.notionals symbol)
    (SnapshotPosition.Grown.bind (fun hp => hp.futuresUsdt) (h.positions symbol)))

theorem Tighter.alerts {data data' : ExchangeData} {snapshot snapshot' : BTreeMap SnapshotPosition}
    (h : Tighter data data' snapshot snapshot') {params : GuardParams} {symbol : String}
    (hcap : ∀ limit', data'.limit symbol = some limit' → 0 < guardCap params symbol
      (Limits.positionNotional (snapshot'.find symbol) (data'.notional symbol)) limit')
    (halerts : data.alerts snapshot params symbol) : data'.alerts snapshot' params symbol := by
  have hlimits := h.limits symbol
  simp only [ExchangeData.alerts, rowMetrics] at halerts ⊢
  rcases hl : data.limit symbol with _ | limit
  · rw [hl] at halerts
    cases halerts
  · rw [hl] at hlimits halerts
    rcases hl' : data'.limit symbol with _ | limit'
    · rw [hl'] at hlimits
      cases hlimits
    · rw [hl'] at hlimits
      cases hlimits with
      | some hlowered =>
        exact (alert_of_tighter halerts hlowered.1 hlowered.2 (h.positionNotional symbol)).1
          (hcap limit' hl')

/-- The limit of a symbol leaves a cap above the orders pending against its position. Without one
    there is nothing to compare the position with. -/
def ExchangeData.CapLeft (data : ExchangeData) (snapshot : BTreeMap SnapshotPosition)
    (params : GuardParams) (symbol : String) : Prop :=
  ∃ limit, data.limit symbol = some limit ∧ 0 < guardCap params symbol
    (Limits.positionNotional (snapshot.find symbol) (data.notional symbol)) limit

theorem ExchangeData.capLeft_of_alerts {data : ExchangeData} {snapshot : BTreeMap SnapshotPosition}
    {params : GuardParams} {symbol : String} (h : data.alerts snapshot params symbol) :
    data.CapLeft snapshot params symbol := by
  simp only [ExchangeData.alerts, rowMetrics] at h
  rcases hl : data.limit symbol with _ | limit
  · rw [hl] at h
    cases h
  · refine ⟨limit, hl, ?_⟩
    rw [hl] at h
    rcases hm : guardMetrics limit
        (Limits.positionNotional (snapshot.find symbol) (data.notional symbol)) symbol params
      with _ | metrics
    · simp only [hm] at h
      cases h
    · exact (guardMetrics_eq_ok hm).2.2.2.2.1

/-- Of a symbol that alerts, the tighter environment is told exactly while a cap is left. -/
theorem Tighter.alerts_iff {data data' : ExchangeData}
    {snapshot snapshot' : BTreeMap SnapshotPosition} (h : Tighter data data' snapshot snapshot')
    {params : GuardParams} {symbol : String} (halerts : data.alerts snapshot params symbol) :
    data'.alerts snapshot' params symbol ↔ data'.CapLeft snapshot' params symbol := by
  refine ⟨ExchangeData.capLeft_of_alerts, fun ⟨limit, hlimit, hcap⟩ => h.alerts ?_ halerts⟩
  intro limit' hlimit'
  obtain rfl := Option.some_injective _ (hlimit.symm.trans hlimit')
  exact hcap

/-- The tighter environment alerts exactly when it is warned of something, when a symbol that
    alerted before keeps a cap, or when another begins to alert. -/
theorem Tighter.status_iff {data data' : ExchangeData}
    {snapshot snapshot' : BTreeMap SnapshotPosition} (h : Tighter data data' snapshot snapshot')
    (params : GuardParams) (warnings' : List String) :
    (findings data' snapshot' params warnings').status = "warning" ↔
      warnings' ++ data'.warnings ≠ [] ∨
      (∃ symbol, data.displayed snapshot symbol ∧ data.alerts snapshot params symbol ∧
        data'.CapLeft snapshot' params symbol) ∨
      ∃ symbol, ¬(data.displayed snapshot symbol ∧ data.alerts snapshot params symbol) ∧
        data'.displayed snapshot' symbol ∧ data'.alerts snapshot' params symbol := by
  rw [findings_status]
  refine or_congr_right ⟨?_, ?_⟩
  · rintro ⟨symbol, hshown', halerts'⟩
    by_cases hbefore : data.displayed snapshot symbol ∧ data.alerts snapshot params symbol
    · exact .inl ⟨symbol, hbefore.1, hbefore.2, (h.alerts_iff hbefore.2).mp halerts'⟩
    · exact .inr ⟨symbol, hbefore, hshown', halerts'⟩
  · rintro (⟨symbol, hshown, halerts, hcap⟩ | ⟨symbol, -, hshown', halerts'⟩)
    · exact ⟨symbol, h.displayed hshown, (h.alerts_iff halerts).mpr hcap⟩
    · exact ⟨symbol, hshown', halerts'⟩

/-- Lowering a limit or growing a position never ends an alert while the limit stays above the
    pending orders: neither that of a row nor that of an environment. Below them the row is
    unavailable, and an environment in which no alerting symbol stays above them is a warning only
    for what it is warned of or for a symbol that begins to alert. -/
theorem alert_stays_while_cap_positive (params : GuardParams) :
    (∀ (displaySymbol displaySymbol' symbol : String) (snapshot snapshot' : Option SnapshotPosition)
      (exchangeNotional exchangeNotional' : Option Float) (limit limit' : Float)
      (leverage leverage' symbolConfigLimit symbolConfigLimit' positionRiskLimit
        positionRiskLimit' bracketLimit bracketLimit' : Option Float),
      (buildRow displaySymbol symbol snapshot exchangeNotional (some limit) leverage
        symbolConfigLimit positionRiskLimit bracketLimit params).nearLimit = true →
      0 < limit' → limit' ≤ limit →
      Grown (positionNotional snapshot exchangeNotional)
        (positionNotional snapshot' exchangeNotional') →
      let row := buildRow displaySymbol' symbol snapshot' exchangeNotional' (some limit') leverage'
        symbolConfigLimit' positionRiskLimit' bracketLimit' params
      let cap := guardCap params symbol (positionNotional snapshot' exchangeNotional') limit'
      (0 < cap → row.nearLimit = true) ∧
        (¬0 < cap → row.nearLimit = false ∧ row.status = "unavailable" ∧
          row.error = some "pre-trade guard cap is not positive")) ∧
    (∀ (data data' : ExchangeData) (snapshot snapshot' : BTreeMap SnapshotPosition)
      (warnings warnings' : List String),
      (findings data snapshot params warnings).status = "warning" →
      Tighter data data' snapshot snapshot' → (warnings ≠ [] → warnings' ≠ []) →
      (∀ symbol limit', data.displayed snapshot symbol → data.alerts snapshot params symbol →
        data'.limit symbol = some limit' → 0 < guardCap params symbol
          (positionNotional (snapshot'.find symbol) (data'.notional symbol)) limit') →
      (findings data' snapshot' params warnings').status = "warning") ∧
    (∀ (data data' : ExchangeData) (snapshot snapshot' : BTreeMap SnapshotPosition)
      (warnings' : List String), Tighter data data' snapshot snapshot' →
      ((findings data' snapshot' params warnings').status = "warning" ↔
        warnings' ++ data'.warnings ≠ [] ∨
        (∃ symbol, data.displayed snapshot symbol ∧ data.alerts snapshot params symbol ∧
          data'.CapLeft snapshot' params symbol) ∨
        ∃ symbol, ¬(data.displayed snapshot symbol ∧ data.alerts snapshot params symbol) ∧
          data'.displayed snapshot' symbol ∧ data'.alerts snapshot' params symbol)) := by
  refine ⟨?_, ?_, fun _ _ _ _ warnings' htighter => htighter.status_iff params warnings'⟩
  · intro displaySymbol displaySymbol' symbol snapshot snapshot' exchangeNotional
      exchangeNotional' limit limit' _ _ _ _ _ _ _ _ hnear h0 hle hgrown row cap
    obtain ⟨hpos, hnone⟩ := alert_of_tighter hnear h0 hle hgrown
    refine ⟨hpos, fun hcap => ?_⟩
    have hmetrics : rowMetrics symbol snapshot' exchangeNotional' (some limit') params =
        .error "pre-trade guard cap is not positive" := hnone hcap
    simp only [row, buildRow, hmetrics]
    exact ⟨rfl, rfl, trivial⟩
  · intro data data' snapshot snapshot' warnings warnings' hwarning htighter hwarnings hcaps
    rw [findings_status] at hwarning ⊢
    rcases hwarning with hwarned | ⟨symbol, hshown, halerts⟩
    · refine .inl fun hnil => ?_
      obtain ⟨hnil, hnil'⟩ := List.append_eq_nil_iff.mp hnil
      exact hwarned (List.append_eq_nil_iff.mpr
        ⟨not_imp_not.mp hwarnings hnil, not_imp_not.mp htighter.warnings hnil'⟩)
    · exact .inr ⟨symbol, htighter.displayed hshown, htighter.alerts
        (fun limit' hl' => hcaps symbol limit' hshown halerts hl') halerts⟩

/-- One long position of 800 USD and two pending orders of 100 USD. -/
def oneLong (limit : Float) : ExchangeData :=
  .gate { limits := Table.empty.put ("BTCUSDT",
    { contract := "BTC_USDT", riskLimit := limit, currentNotional := 800,
      crossLeverageLimit := none }) }

def twoOrders : GuardParams := { pendingSell := 2 }

/-- At a limit of 1000 the position alerts; at 200 nothing does. -/
theorem alert_ends_at_buffer :
    (buildRow "BTC_USDT" "BTCUSDT" none (some 800) (some 1000) none none none none
      twoOrders).nearLimit = true ∧
    (buildRow "BTC_USDT" "BTCUSDT" none (some 800) (some 200) none none none none
      twoOrders).nearLimit = false ∧
    (0 : Float) < 200 ∧ (200 : Float) ≤ 1000 ∧
    (findings (oneLong 1000) .empty twoOrders []).status = "warning" ∧
    (findings (oneLong 200) .empty twoOrders []).status = "healthy" := by
  decide +kernel

theorem oneLong_tighter {limit limit' : Float} (h0 : 0 < limit') (h : limit' ≤ limit) :
    Tighter (oneLong limit) (oneLong limit') .empty .empty := by
  have hfind : ∀ (limit : Float) (symbol : String),
      ((Table.empty : BTreeMap GateLimit).put ("BTCUSDT",
        { contract := "BTC_USDT", riskLimit := limit, currentNotional := 800,
          crossLeverageLimit := none })).get symbol =
        if symbol = "BTCUSDT" then some ("BTCUSDT",
          { contract := "BTC_USDT", riskLimit := limit, currentNotional := 800,
            crossLeverageLimit := none })
        else none := fun limit symbol => Table.get_put _ _ _
  have hsame : Grown 800 800 :=
    { magnitude := by decide +kernel, short := Iff.rfl, long := Iff.rfl }
  refine { limits := fun symbol => ?_, notionals := fun symbol => ?_,
           positions := fun _ => .none, warnings := id }
  · simp only [oneLong, ExchangeData.limit, BTreeMap.find, hfind]
    split
    · exact .some ⟨h0, h⟩
    · exact .none
  · simp only [oneLong, ExchangeData.notional, BTreeMap.find, hfind]
    split
    · exact .some hsame
    · exact .none

/-- At a limit of 900 the position and its environment still alert. -/
theorem alert_stays_at_900 :
    (buildRow "BTC_USDT" "BTCUSDT" none (some 850) (some 900) none none none none
      twoOrders).nearLimit = true ∧
    (findings (oneLong 900) .empty twoOrders []).status = "warning" := by
  obtain ⟨hrow, henvironment, -⟩ := alert_stays_while_cap_positive twoOrders
  constructor
  · exact (hrow "BTC_USDT" "BTC_USDT" "BTCUSDT" none none (some 800) (some 850) 1000 900 none none
      none none none none none none (by decide +kernel) (by decide +kernel) (by decide +kernel)
      { magnitude := by decide +kernel, short := by decide +kernel, long := by decide +kernel }).1
      (by decide +kernel)
  · refine henvironment (oneLong 1000) (oneLong 900) .empty .empty [] [] (by decide +kernel)
      (oneLong_tighter (by decide +kernel) (by decide +kernel)) id ?_
    rintro symbol limit' (⟨position, hfind, -⟩ | hheld) - hlimit
    · cases hfind
    · have hsymbol : symbol = "BTCUSDT" := by
        by_contra hne
        have hnone : (oneLong 1000).notional symbol = none := by
          simp only [oneLong, ExchangeData.notional, BTreeMap.find]
          rw [Table.get_put_of_ne _ hne]
          rfl
        rw [hnone] at hheld
        cases hheld
      subst hsymbol
      have hvalue : (oneLong 900).limit "BTCUSDT" = some 900 := by decide +kernel
      obtain rfl := Option.some_injective _ (hvalue.symm.trans hlimit)
      decide +kernel

end CryptoNav.Limits
