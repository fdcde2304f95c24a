import CryptoNav.Lib.Table
import CryptoNav.Exchange.Okx
import CryptoNav.FeeRates.Rates

/-!
# Syncing and showing fee rates

`sync_fee_rates` asks the exchange of a strategy for the rates of each of its markets and stores them
in one transaction, all with the time at which the transaction began; the page of the rates shows
the rows with the latest such time. What the page shows after any number of syncs, failed ones among
them, is what the last one that stored anything was given, with every market of the strategy in it
(`page_of_syncs`).

A sync can fail in what it does before it asks, at any request, at a row that the table refuses, and
in the statements and the commit of its transaction; whichever it is, the table stays as it was. Two
syncs of one strategy do not overlap here: the time of a sync is that of its transaction, and the
later one begins after the earlier. How the symbols are found, the requests themselves and the other
strategies, which have tables of their own, are left out.
-/

set_option autoImplicit false

namespace CryptoNav.FeeRates

open CryptoNav.Lib
open CryptoNav.Exchange (ExchangeError dataArray)
open CryptoNav.Exchange.Bybit (resultList)

/-! ## What an exchange is asked -/

inductive GateFeeMarket where
  | spot
  | usdtFutures

def GateFeeMarket.storageValue : GateFeeMarket → String
  | spot => "spot"
  | usdtFutures => "usdt_futures"

def bybitStorageValue : Exchange.Bybit.Category → String
  | .spot => "spot"
  | .linear => "linear"
  | .inverse => "inverse"
  | .option => "option"

def bitgetStorageValue : Exchange.Bitget.ProductCategory → String
  | .spot => "spot"
  | .margin => "margin"
  | .usdtFutures => "usdt_futures"
  | .coinFutures => "coin_futures"
  | .usdcFutures => "usdc_futures"

def okxStorageValue : Exchange.Okx.InstrumentType → String
  | .spot => "spot"
  | .margin => "margin"
  | .swap => "swap"
  | .futures => "futures"

inductive FeeRequest where
  | binanceSpot (symbol : String)
  | binance (symbol : String)
  | bybit (category : Exchange.Bybit.Category)
  | gate (market : GateFeeMarket) (instrument : String)
  | bitget (category : Exchange.Bitget.ProductCategory) (symbol : String)
  | okx (instrumentType : Exchange.Okx.InstrumentType) (instrument : String)

/-- The market that the rates of an answer are stored under. -/
def FeeRequest.market : FeeRequest → String
  | binanceSpot _ => "spot"
  | binance _ => "usdt_futures"
  | bybit category => bybitStorageValue category
  | gate market _ => market.storageValue
  | bitget category _ => bitgetStorageValue category
  | okx instrumentType _ => okxStorageValue instrumentType

/-- What the exchange answers in one sync (the bodies of the `raw_fee_rates`), and when. -/
structure Answers where
  raw : FeeRequest → Except ExchangeError Json
  nowMs : FeeRequest → ℤ

/-- The `fee_rates` of the clients; `accountMode` is that of a Binance client. -/
def feeRates (accountMode : String) (answers : Answers) (request : FeeRequest) :
    Except ExchangeError (List TradingFeeRate) := do
  let value ← answers.raw request
  match request with
  | .binanceSpot _ => normalizeBinanceSpot value accountMode (answers.nowMs request)
  | .binance _ => normalizeBinance value accountMode (answers.nowMs request)
  | .bybit category =>
    let rows ← resultList value "fee rate"
    normalizeBybit rows (bybitStorageValue category) none (answers.nowMs request)
  | .gate market instrument =>
    normalizeGate value market.storageValue instrument (answers.nowMs request)
  | .bitget category _ =>
    match value.get "data" with
    | some (.array rows) => normalizeBitget rows (bitgetStorageValue category) (answers.nowMs request)
    | _ => .error (invalid "bitget" "all-fee-rate response is missing data array")
  | .okx instrumentType instrument =>
    let rows ← dataArray "okx" value
    normalizeOkx rows (okxStorageValue instrumentType) (some instrument) (answers.nowMs request)

/-! ## The plan of a sync -/

structure Strategy where
  schema : String
  exchange : String
  accountMode : String
  strategyKind : String

def Strategy.includesSpot (strategy : Strategy) : Bool :=
  !(strategy.strategyKind = "market_making" || strategy.strategyKind = "cta")

/-- `gate_instrument` and `okx_instrument`, with what stands between the two assets. -/
def instrument (exchange separator symbol : String) : Except String String :=
  if "USDT".toList.isSuffixOf symbol.toList && symbol.length ≠ 4 then
    .ok (.ofList (symbol.toList.dropLast.dropLast.dropLast.dropLast ++ separator.toList ++
      "USDT".toList))
  else .error s!"invalid {exchange} USDT symbol: {symbol}"

def gateInstrument : String → Except String String := instrument "Gate" "_"

def okxInstrument : String → Except String String := instrument "OKX" "-"

/-- What is done for both markets of a strategy, or for the one it has. -/
def Strategy.perMarket {α : Type*} (strategy : Strategy) (spot futures : α) : List α :=
  if strategy.includesSpot then [spot, futures] else [futures]

/-- The requests of each market, a spot or margin one first where the strategy has it. -/
def plan (strategy : Strategy) (symbols : List String) :
    Except String (List (String × List FeeRequest)) :=
  let markets := strategy.perMarket
  match strategy.exchange with
  | "binance" =>
    if strategy.accountMode = "portfolio_margin" ∨ strategy.accountMode = "usdm_futures" then
      .ok (markets ("spot", symbols.map .binanceSpot) ("usdt_futures", symbols.map .binance))
    else
      let mode := strategy.accountMode
      .error s!"unsupported Binance account mode: {mode}"
  | "bybit" => .ok (markets ("spot", [.bybit .spot]) ("linear", [.bybit .linear]))
  | "gate" => do
    let instruments ← symbols.mapM gateInstrument
    return markets ("spot", instruments.map (.gate .spot))
      ("usdt_futures", instruments.map (.gate .usdtFutures))
  | "bitget" =>
    .ok (markets ("margin", symbols.map (.bitget .margin))
      ("usdt_futures", symbols.map (.bitget .usdtFutures)))
  | "okx" | "okex" => do
    let instruments ← symbols.mapM okxInstrument
    return markets ("margin", instruments.map (.okx .margin)) ("swap", instruments.map (.okx .swap))
  | value => .error s!"unsupported exchange: {value}"

/-- The rates of a market and how many of its requests succeeded. An error of Bybit ends the sync,
the symbols of the others are skipped. -/
def syncMarket (strategy : Strategy) (answers : Answers) (market : String × List FeeRequest) :
    Except String (String × ℕ × List TradingFeeRate) :=
  let ask := feeRates strategy.accountMode answers
  if strategy.exchange = "bybit" then
    match market.2.mapM ask with
    | .error _ =>
      let name := market.1
      .error s!"query Bybit {name} fee rates"
    | .ok rows => .ok (market.1, if rows.flatten.isEmpty then 0 else 1, rows.flatten)
  else
    let rows := market.2.filterMap fun request => (ask request).toOption
    .ok (market.1, rows.length, rows.flatten)

/-- The rates that `sync_strategy` stores, of the symbols it found. -/
def syncStrategy (strategy : Strategy) (symbols : List String) (answers : Answers) :
    Except String (List TradingFeeRate) := do
  let markets ← plan strategy symbols
  let synced ← markets.mapM (syncMarket strategy answers)
  let emptyMarkets := (synced.filter (·.2.1 = 0)).map (·.1)
  let rates := synced.flatMap (·.2.2)
  if emptyMarkets.isEmpty then
    if rates.isEmpty then .error "exchange returned no fee rates" else .ok rates
  else
    let names := ", ".intercalate (emptyMarkets.mergeSort (· ≤ ·))
    .error s!"no fee rates returned for market(s): {names}"

/-! ## The table -/

structure FeeRateRow where
  exchange : String
  accountMode : String
  market : String
  instrument : String
  makerRate : ℚ
  takerRate : ℚ
  feeTier : Option String
  /-- empty where the rate has no group -/
  feeGroup : String
  effectiveAtMs : ℤ
  raw : Json
  /-- in microseconds -/
  fetchedAt : ℤ

def FeeRateRow.key (row : FeeRateRow) : String ×ₗ String ×ₗ String ×ₗ String ×ₗ ℤ :=
  toLex (row.exchange, toLex (row.market, toLex (row.instrument,
    toLex (row.feeGroup, row.effectiveAtMs))))

abbrev FeeRateTable := Table FeeRateRow.key

/-- The row of a rate in a transaction that began at `now`, unless a column refuses it. -/
def feeRateRow (now : ℤ) (rate : TradingFeeRate) : Except String FeeRateRow :=
  match rateColumn rate.makerRate, rateColumn rate.takerRate with
  | some makerRate, some takerRate =>
    if 0 ≤ rate.effectiveAtMs then
      .ok { exchange := rate.exchange, accountMode := rate.accountMode, market := rate.market
            instrument := rate.instrument, makerRate, takerRate, feeTier := rate.feeTier
            feeGroup := rate.feeGroup.getD "", effectiveAtMs := rate.effectiveAtMs
            raw := rate.raw, fetchedAt := now }
    else .error "violates check constraint"
  | _, _ => .error "invalid numeric value"

/-- The name of a schema: a lower-case letter, then such letters, digits and underscores. -/
def validSchema (schema : String) : Bool :=
  match schema.toList with
  | [] => false
  | c :: rest => c.isLower && rest.all fun c => c.isLower || c.isDigit || c = '_'

/-- `store_trading_fee_rates`: one transaction, so that the table is as before when a row fails. -/
def storeTradingFeeRates (schema : String) (now : ℤ) (rates : List TradingFeeRate)
    (table : FeeRateTable) : Except String (FeeRateTable × ℕ) := do
  if validSchema schema then
    if rates.isEmpty then .ok (table, 0)
    else
      let rows ← rates.mapM (feeRateRow now)
      .ok (table.putAll rows, rows.length)
  else .error s!"invalid PostgreSQL schema name: {schema}"

/-! ## The page -/

structure FeeRateResponse where
  market : String
  instrument : String
  makerRate : ℚ
  takerRate : ℚ
  feeTier : Option String
  feeGroup : Option String
  effectiveAtMs : ℤ
  fetchedAtMs : ℤ

def FeeRateRow.response (row : FeeRateRow) : FeeRateResponse :=
  { market := row.market, instrument := row.instrument, makerRate := row.makerRate
    takerRate := row.takerRate, feeTier := row.feeTier
    feeGroup := if row.feeGroup = "" then none else some row.feeGroup
    effectiveAtMs := row.effectiveAtMs, fetchedAtMs := roundHalfAway (row.fetchedAt / 1000) }

/-- The rows of the latest sync. -/
def FeeRateTable.latest (table : FeeRateTable) : List FeeRateRow :=
  table.rows.filter fun row => some row.fetchedAt = (table.rows.map (·.fetchedAt)).max?

-- `order` is the order of the market, the instrument and the group in the database.
variable (order : FeeRateRow → FeeRateRow → Bool)

/-- `load_latest_fee_rates`; a table that does not exist has no rows. -/
def loadLatestFeeRates (schema : String) (table : Option FeeRateTable) :
    Except String (List FeeRateResponse) :=
  if validSchema schema then
    .ok ((table.elim [] fun table => (FeeRateTable.latest table).mergeSort order).map (·.response))
  else .error s!"invalid strategy schema: {schema}"

/-! ## Runs -/

/-- A run of the program for a strategy. What it does before it asks the exchange, down to finding
the symbols, may fail, and so may the database. -/
structure SyncRun where
  symbols : Except String (List String)
  answers : Answers
  /-- when its transaction begins, if it comes to that -/
  startedAt : ℤ
  /-- whether its statements and its commit go through -/
  commit : Except String Unit := .ok ()

/-- The rates a run has to store. -/
def SyncRun.rates (strategy : Strategy) (run : SyncRun) : Except String (List TradingFeeRate) := do
  syncStrategy strategy (← run.symbols) run.answers

/-- The rows of a run, if it comes to its commit. -/
def SyncRun.toStore (strategy : Strategy) (run : SyncRun) : Except String (List FeeRateRow) := do
  (← run.rates strategy).mapM (feeRateRow run.startedAt)

/-- The rows a run stores, if it succeeds. -/
def SyncRun.rows (strategy : Strategy) (run : SyncRun) : Option (List FeeRateRow) :=
  (do let rows ← run.toStore strategy; run.commit; pure rows : Except String _).toOption

/-- The table after a run; a transaction that does not commit leaves it as it was. -/
def SyncRun.after (strategy : Strategy) (table : FeeRateTable) (run : SyncRun) : FeeRateTable :=
  match (do
      let rates ← run.rates strategy
      let stored ← storeTradingFeeRates strategy.schema run.startedAt rates table
      run.commit
      pure stored : Except String (FeeRateTable × ℕ)) with
  | .ok (table, _) => table
  | .error _ => table

def afterSyncs (strategy : Strategy) (runs : List SyncRun) : FeeRateTable :=
  runs.foldl (SyncRun.after strategy) Table.empty

/-! ## The rates of an answer -/

def FeeRequest.isBitget : FeeRequest → Bool
  | bitget .. => true
  | _ => false

/-- Rates are those of the market asked for, and there are some, but for an answer of Bitget. -/
theorem feeRates_ok {accountMode : String} {answers : Answers} {request : FeeRequest}
    {rates : List TradingFeeRate} (h : feeRates accountMode answers request = .ok rates) :
    (∀ rate ∈ rates, rate.market = request.market) ∧ (request.isBitget = false → rates ≠ []) := by
  obtain ⟨value, -, h⟩ := bind_eq_ok.mp h
  cases request with
  | binanceSpot symbol =>
    simp only [normalizeBinanceSpot] at h
    split at h
    · cases h
    · obtain ⟨_, -, h⟩ := bind_eq_ok.mp h
      obtain ⟨_, -, h⟩ := bind_eq_ok.mp h
      obtain ⟨_, -, h⟩ := bind_eq_ok.mp h
      rw [← pure_eq_ok.mp h]
      simp [FeeRequest.market]
  | binance symbol =>
    obtain ⟨_, -, h⟩ := bind_eq_ok.mp h
    obtain ⟨_, -, h⟩ := bind_eq_ok.mp h
    obtain ⟨_, -, h⟩ := bind_eq_ok.mp h
    rw [← pure_eq_ok.mp h]
    simp [FeeRequest.market]
  | bybit category =>
    obtain ⟨rows, -, h⟩ := bind_eq_ok.mp h
    simp only [normalizeBybit] at h
    split at h
    · cases h
    · rename_i hne
      constructor
      · intro rate hrate
        obtain ⟨raw, -, h⟩ := mem_of_mapM h hrate
        obtain ⟨_, -, h⟩ := bind_eq_ok.mp h
        obtain ⟨_, -, h⟩ := bind_eq_ok.mp h
        rw [← pure_eq_ok.mp h]
        rfl
      · intro _ hnil
        have hlength := length_of_mapM h
        rw [hnil] at hlength
        exact hne (List.isEmpty_iff.mpr (List.length_eq_zero_iff.mp hlength.symm))
  | gate market instrument =>
    obtain ⟨_, -, h⟩ := bind_eq_ok.mp h
    obtain ⟨_, -, h⟩ := bind_eq_ok.mp h
    rw [← pure_eq_ok.mp h]
    simp [FeeRequest.market]
  | bitget category symbol =>
    refine ⟨fun rate hrate => ?_, fun hbitget => by cases hbitget⟩
    simp only at h
    split at h
    · obtain ⟨raw, -, h⟩ := mem_of_mapM h hrate
      obtain ⟨_, -, h⟩ := bind_eq_ok.mp h
      obtain ⟨_, -, h⟩ := bind_eq_ok.mp h
      obtain ⟨_, -, h⟩ := bind_eq_ok.mp h
      rw [← pure_eq_ok.mp h]
      rfl
    · cases h
  | okx instrumentType instrument =>
    obtain ⟨rows, -, h⟩ := bind_eq_ok.mp h
    obtain ⟨hne, hrates⟩ := normalizeOkx_eq h
    refine ⟨fun rate hrate => ?_, fun _ => hne⟩
    rw [hrates] at hrate
    obtain ⟨raw, -, hrate⟩ := List.mem_flatMap.mp hrate
    obtain ⟨quote, -, rfl⟩ := List.mem_map.mp hrate
    rfl

/-! ## The rates of a sync -/

/-- The markets that the rates of a strategy are asked for. -/
def Strategy.markets (strategy : Strategy) : List String :=
  match strategy.exchange with
  | "binance" | "gate" => strategy.perMarket "spot" "usdt_futures"
  | "bybit" => strategy.perMarket "spot" "linear"
  | "bitget" => strategy.perMarket "margin" "usdt_futures"
  | "okx" | "okex" => strategy.perMarket "margin" "swap"
  | _ => []

/-- A market with requests for it, none of them of Bitget unless that is the exchange. Bitget's
    requests are apart since their answers may be empty without being wrong. -/
def Planned (exchange : String) (market : String × List FeeRequest) : Prop :=
  ∀ request ∈ market.2, request.market = market.1 ∧ (exchange ≠ "bitget" → request.isBitget = false)

theorem perMarket_planned (strategy : Strategy) {exchange : String}
    {spot futures : String × List FeeRequest} (hspot : Planned exchange spot)
    (hfutures : Planned exchange futures) :
    (strategy.perMarket spot futures).map (·.1) = strategy.perMarket spot.1 futures.1 ∧
      ∀ market ∈ strategy.perMarket spot futures, Planned exchange market := by
  unfold Strategy.perMarket
  split
  · exact ⟨rfl, by simpa using ⟨hspot, hfutures⟩⟩
  · exact ⟨rfl, by simpa using hfutures⟩

theorem planned_map {α : Type} {exchange name : String} {l : List α} {f : α → FeeRequest}
    (h : ∀ a, (f a).market = name ∧ (exchange ≠ "bitget" → (f a).isBitget = false)) :
    Planned exchange (name, l.map f) := by
  intro request hrequest
  obtain ⟨a, -, rfl⟩ := List.mem_map.mp hrequest
  exact h a

theorem planned_singleton {exchange name : String} {request : FeeRequest}
    (hmarket : request.market = name) (hbitget : request.isBitget = false) :
    Planned exchange (name, [request]) := by
  intro request' hrequest
  cases List.mem_singleton.mp hrequest
  exact ⟨hmarket, fun _ => hbitget⟩

/-- The requests of a plan are for the market they stand under. -/
theorem plan_ok {strategy : Strategy} {symbols : List String}
    {markets : List (String × List FeeRequest)} (h : plan strategy symbols = .ok markets) :
    markets.map (·.1) = strategy.markets ∧
      ∀ market ∈ markets, Planned strategy.exchange market := by
  unfold plan at h
  unfold Strategy.markets
  split at h
  case h_1 hexchange =>
    split at h
    · cases h
      simp only [hexchange]
      apply perMarket_planned
      · exact planned_map fun _ => ⟨rfl, fun _ => rfl⟩
      · exact planned_map fun _ => ⟨rfl, fun _ => rfl⟩
    · cases h
  case h_2 hexchange =>
    cases h
    simp only [hexchange]
    exact perMarket_planned strategy (planned_singleton rfl rfl) (planned_singleton rfl rfl)
  case h_3 hexchange =>
    obtain ⟨instruments, -, h⟩ := bind_eq_ok.mp h
    rw [← pure_eq_ok.mp h]
    simp only [hexchange]
    apply perMarket_planned
    · exact planned_map fun _ => ⟨rfl, fun _ => rfl⟩
    · exact planned_map fun _ => ⟨rfl, fun _ => rfl⟩
  case h_4 hexchange =>
    cases h
    simp only [hexchange]
    apply perMarket_planned
    · exact planned_map fun _ => ⟨rfl, fun hne => absurd rfl hne⟩
    · exact planned_map fun _ => ⟨rfl, fun hne => absurd rfl hne⟩
  case h_5 hexchange =>
    obtain ⟨instruments, -, h⟩ := bind_eq_ok.mp h
    rw [← pure_eq_ok.mp h]
    simp only [hexchange]
    apply perMarket_planned
    · exact planned_map fun _ => ⟨rfl, fun _ => rfl⟩
    · exact planned_map fun _ => ⟨rfl, fun _ => rfl⟩
  case h_6 hexchange =>
    obtain ⟨instruments, -, h⟩ := bind_eq_ok.mp h
    rw [← pure_eq_ok.mp h]
    simp only [hexchange]
    apply perMarket_planned
    · exact planned_map fun _ => ⟨rfl, fun _ => rfl⟩
    · exact planned_map fun _ => ⟨rfl, fun _ => rfl⟩
  case h_7 => cases h

/-- A market that counts a success has rates, which are its own. -/
theorem syncMarket_ok {strategy : Strategy} {answers : Answers} {market : String × List FeeRequest}
    {synced : String × ℕ × List TradingFeeRate} (hplanned : Planned strategy.exchange market)
    (h : syncMarket strategy answers market = .ok synced) :
    synced.1 = market.1 ∧ (∀ rate ∈ synced.2.2, rate.market = market.1) ∧
      (strategy.exchange ≠ "bitget" → synced.2.1 ≠ 0 → synced.2.2 ≠ []) := by
  have hask : ∀ request ∈ market.2, ∀ rates,
      feeRates strategy.accountMode answers request = .ok rates →
      (∀ rate ∈ rates, rate.market = market.1) ∧ (strategy.exchange ≠ "bitget" → rates ≠ []) := by
    intro request hrequest rates hrates
    obtain ⟨hmarket, hbitget⟩ := hplanned request hrequest
    obtain ⟨hrate, hne⟩ := feeRates_ok hrates
    exact ⟨fun rate hmem => (hrate rate hmem).trans hmarket, fun hexchange => hne (hbitget hexchange)⟩
  simp only [syncMarket] at h
  split at h
  · split at h
    · cases h
    · rename_i rows hrows
      cases h
      refine ⟨rfl, ?_, ?_⟩
      · intro rate hrate
        obtain ⟨rates, hmem, hrate⟩ := List.mem_flatten.mp hrate
        obtain ⟨request, hrequest, hrates⟩ := mem_of_mapM hrows hmem
        exact (hask request hrequest rates hrates).1 rate hrate
      · intro _ hsome hnil
        exact hsome (if_pos (List.isEmpty_iff.mpr hnil))
  · cases h
    have hanswered : ∀ rates ∈ market.2.filterMap fun request =>
        (feeRates strategy.accountMode answers request).toOption,
        (∀ rate ∈ rates, rate.market = market.1) ∧ (strategy.exchange ≠ "bitget" → rates ≠ []) := by
      intro rates hrates
      obtain ⟨request, hrequest, hanswer⟩ := List.mem_filterMap.mp hrates
      apply hask request hrequest
      cases hok : feeRates strategy.accountMode answers request with
      | error => rw [hok] at hanswer; cases hanswer
      | ok => rw [hok] at hanswer; exact congrArg Except.ok (Option.some.inj hanswer)
    refine ⟨rfl, ?_, ?_⟩
    · intro rate hrate
      obtain ⟨rates, hmem, hrate⟩ := List.mem_flatten.mp hrate
      exact (hanswered rates hmem).1 rate hrate
    · intro hexchange hsome hnil
      obtain ⟨rates, hmem⟩ := List.exists_mem_of_length_pos (Nat.pos_of_ne_zero hsome)
      exact (hanswered rates hmem).2 hexchange (List.flatten_eq_nil_iff.mp hnil rates hmem)

/-- A sync that has rates has some for every market of the strategy, but for one on Bitget. -/
theorem syncStrategy_ok {strategy : Strategy} {symbols : List String} {answers : Answers}
    {rates : List TradingFeeRate} (h : syncStrategy strategy symbols answers = .ok rates) :
    rates ≠ [] ∧ (strategy.exchange ≠ "bitget" →
      ∀ market ∈ strategy.markets, ∃ rate ∈ rates, rate.market = market) := by
  obtain ⟨markets, hplan, h⟩ := bind_eq_ok.mp h
  obtain ⟨synced, hsynced, h⟩ := bind_eq_ok.mp h
  obtain ⟨hnames, hplanned⟩ := plan_ok hplan
  dsimp only at h
  split at h
  · rename_i hempty
    split at h
    · cases h
    · rename_i hne
      cases h
      refine ⟨fun hnil => hne (List.isEmpty_iff.mpr hnil), ?_⟩
      intro hexchange name hname
      rw [← hnames] at hname
      obtain ⟨market, hmarket, rfl⟩ := List.mem_map.mp hname
      obtain ⟨one, hone, hsync⟩ := exists_of_mapM hsynced hmarket
      obtain ⟨hname, hmarkets, hrates⟩ := syncMarket_ok (hplanned market hmarket) hsync
      have hsome : one.2.1 ≠ 0 := by
        intro hzero
        rw [List.isEmpty_iff, List.map_eq_nil_iff, List.filter_eq_nil_iff] at hempty
        exact hempty one hone (decide_eq_true hzero)
      obtain ⟨rate, hrate⟩ := List.exists_mem_of_ne_nil _ (hrates hexchange hsome)
      exact ⟨rate, List.mem_flatMap.mpr ⟨one, hone, hrate⟩, hmarkets rate hrate⟩
  · cases h

/-! ## What a run leaves -/

theorem feeRateRow_ok {now : ℤ} {rate : TradingFeeRate} {row : FeeRateRow}
    (h : feeRateRow now rate = .ok row) : row.fetchedAt = now ∧ row.market = rate.market := by
  unfold feeRateRow at h
  split at h
  · split at h
    · cases h
      exact ⟨rfl, rfl⟩
    · cases h
  · cases h

theorem toStore_of_rows {strategy : Strategy} {run : SyncRun} {rows : List FeeRateRow}
    (h : run.rows strategy = some rows) : run.toStore strategy = .ok rows := by
  unfold SyncRun.rows at h
  cases hstore : run.toStore strategy with
  | error => rw [hstore] at h; cases h
  | ok stored =>
    cases hcommit : run.commit with
    | error => rw [hstore, hcommit] at h; cases h
    | ok =>
      rw [hstore, hcommit] at h
      exact congrArg Except.ok (Option.some.inj h)

/-- The rows of a run: there are some, all of its own time, and each market is among them. -/
theorem rows_ok {strategy : Strategy} {run : SyncRun} {rows : List FeeRateRow}
    (h : run.rows strategy = some rows) :
    rows ≠ [] ∧ (∀ row ∈ rows, row.fetchedAt = run.startedAt) ∧ (strategy.exchange ≠ "bitget" →
      ∀ market ∈ strategy.markets, ∃ row ∈ rows, row.market = market) := by
  obtain ⟨rates, hrates, hrows⟩ := bind_eq_ok.mp (toStore_of_rows h)
  obtain ⟨symbols, -, hsync⟩ := bind_eq_ok.mp hrates
  obtain ⟨hne, hmarkets⟩ := syncStrategy_ok hsync
  refine ⟨?_, ?_, ?_⟩
  · rintro rfl
    exact hne (List.length_eq_zero_iff.mp (length_of_mapM hrows).symm)
  · intro row hrow
    obtain ⟨rate, -, hrate⟩ := mem_of_mapM hrows hrow
    exact (feeRateRow_ok hrate).1
  · intro hexchange market hmarket
    obtain ⟨rate, hrate, rfl⟩ := hmarkets hexchange market hmarket
    obtain ⟨row, hrow, hstored⟩ := exists_of_mapM hrows hrate
    exact ⟨row, hrow, (feeRateRow_ok hstored).2⟩

theorem storeTradingFeeRates_eq {schema : String} (hschema : validSchema schema = true) {now : ℤ}
    {rates : List TradingFeeRate} (hne : rates ≠ []) (table : FeeRateTable) :
    storeTradingFeeRates schema now rates table =
      (rates.mapM (feeRateRow now)).map fun rows => (table.putAll rows, rows.length) := by
  rw [storeTradingFeeRates, if_pos hschema, if_neg (mt List.isEmpty_iff.mp hne)]
  cases rates.mapM (feeRateRow now) <;> rfl

/-- A run puts its rows, or leaves the table as it is. -/
theorem after_eq {strategy : Strategy} (hschema : validSchema strategy.schema = true)
    (table : FeeRateTable) (run : SyncRun) :
    run.after strategy table = table.putAll ((run.rows strategy).getD []) := by
  unfold SyncRun.after SyncRun.rows SyncRun.toStore
  cases hrates : run.rates strategy with
  | error => rfl
  | ok rates =>
    obtain ⟨symbols, -, hsync⟩ := bind_eq_ok.mp hrates
    have hstore := @storeTradingFeeRates_eq _ hschema run.startedAt _ (syncStrategy_ok hsync).1 table
    cases hrows : rates.mapM (feeRateRow run.startedAt) with
    | error error =>
      rw [hrows] at hstore
      simp only [Except.bind, bind, hstore, hrows]
      rfl
    | ok rows =>
      rw [hrows] at hstore
      cases hcommit : run.commit with
      | error error =>
        simp only [Except.bind, bind, hstore, hrows]
        rfl
      | ok =>
        simp only [Except.bind, bind, hstore, hrows]
        rfl

/-! ## What the page shows -/

/-- Rows later than all that are there are the latest. -/
theorem latest_putAll {table : FeeRateTable} {rows : List FeeRateRow} {now : ℤ} (hne : rows ≠ [])
    (hnow : ∀ row ∈ rows, row.fetchedAt = now) (hpast : ∀ row ∈ table.rows, row.fetchedAt < now) :
    FeeRateTable.latest (table.putAll rows) = ((Table.empty : FeeRateTable).putAll rows).rows := by
  have hmem : ∀ row, row ∈ (table.putAll rows).rows ∧ row.fetchedAt = now ↔
      row ∈ ((Table.empty : FeeRateTable).putAll rows).rows := by
    intro row
    rw [Table.mem_rows, Table.mem_rows, Table.get_putAll_or, Option.or_eq_some_iff]
    constructor
    · rintro ⟨hput | ⟨-, hold⟩, hfetched⟩
      · exact hput
      · exact absurd hfetched (hpast row (Table.mem_rows.mpr hold)).ne
    · intro hput
      refine ⟨.inl hput, ?_⟩
      rcases Table.mem_putAll (Table.mem_rows.mpr hput) with hrow | hrow
      · exact hnow row hrow
      · cases hrow
  have hmax : ((table.putAll rows).rows.map (·.fetchedAt)).max? = some now := by
    rw [List.max?_eq_some_iff]
    constructor
    · obtain ⟨row, hrow⟩ := List.exists_mem_of_ne_nil _ hne
      obtain ⟨last, hlast, hget⟩ := Table.exists_get_putAll (Table.empty : FeeRateTable)
        (List.mem_map_of_mem (f := FeeRateRow.key) hrow)
      have hin := (hmem last).mpr (Table.get_eq_some.mp hget).1
      exact List.mem_map.mpr ⟨last, hin.1, hin.2⟩
    · intro fetched hfetched
      obtain ⟨row, hrow, rfl⟩ := List.mem_map.mp hfetched
      rcases Table.mem_putAll hrow with hnew | hold
      · exact (hnow row hnew).le
      · exact (hpast row hold).le
  apply eq_of_strictly_sorted FeeRateRow.key
  · exact (table.putAll rows).sorted.filter _
  · exact ((Table.empty : FeeRateTable).putAll rows).sorted
  · intro row
    rw [FeeRateTable.latest, hmax, List.mem_filter, ← hmem row]
    simp

/-- The rows of the last run that stored any. -/
def lastRows (strategy : Strategy) (runs : List SyncRun) : List FeeRateRow :=
  (runs.filterMap (·.rows strategy)).getLast?.getD []

theorem lastRows_snoc (strategy : Strategy) (runs : List SyncRun) (run : SyncRun) :
    lastRows strategy (runs ++ [run]) = (run.rows strategy).getD (lastRows strategy runs) := by
  unfold lastRows
  rw [List.filterMap_append]
  cases hrows : run.rows strategy with
  | none => simp [hrows]
  | some rows => simp [hrows]

theorem latest_afterSyncs {strategy : Strategy} (hschema : validSchema strategy.schema = true)
    {runs : List SyncRun} (hstarts : runs.Pairwise fun a b => a.startedAt < b.startedAt) :
    (∀ row ∈ (afterSyncs strategy runs).rows, ∃ run ∈ runs, row.fetchedAt = run.startedAt) ∧
      FeeRateTable.latest (afterSyncs strategy runs) =
        ((Table.empty : FeeRateTable).putAll (lastRows strategy runs)).rows := by
  induction runs using List.reverseRecOn with
  | nil => exact ⟨fun row hrow => absurd hrow List.not_mem_nil, rfl⟩
  | append_singleton runs run ih =>
    obtain ⟨hruns, -, hlast⟩ := List.pairwise_append.mp hstarts
    obtain ⟨hfetched, hlatest⟩ := ih hruns
    have hstep : afterSyncs strategy (runs ++ [run]) =
        (afterSyncs strategy runs).putAll ((run.rows strategy).getD []) := by
      rw [afterSyncs, List.foldl_concat, after_eq hschema]
      rfl
    rw [hstep, lastRows_snoc]
    cases hrows : run.rows strategy with
    | none =>
      refine ⟨fun row hrow => ?_, hlatest⟩
      obtain ⟨run', hrun, heq⟩ := hfetched row hrow
      exact ⟨run', List.mem_append_left _ hrun, heq⟩
    | some rows =>
      obtain ⟨hne, hnow, -⟩ := rows_ok hrows
      refine ⟨fun row hrow => ?_, latest_putAll hne hnow fun row hrow => ?_⟩
      · rcases Table.mem_putAll hrow with hnew | hold
        · exact ⟨run, by simp, hnow row hnew⟩
        · obtain ⟨run', hrun, heq⟩ := hfetched row hold
          exact ⟨run', List.mem_append_left _ hrun, heq⟩
      · obtain ⟨run', hrun, heq⟩ := hfetched row hrow
        rw [heq]
        exact hlast run' hrun run (by simp)

/-- The rows are those of a run, if there was one that stored any. -/
theorem lastRows_cases (strategy : Strategy) (runs : List SyncRun) :
    lastRows strategy runs = [] ∧ (∀ run ∈ runs, run.rows strategy = none) ∨
      ∃ run ∈ runs, run.rows strategy = some (lastRows strategy runs) := by
  unfold lastRows
  cases hlast : (runs.filterMap (·.rows strategy)).getLast? with
  | none =>
    rw [List.getLast?_eq_none_iff, List.filterMap_eq_nil_iff] at hlast
    exact .inl ⟨rfl, hlast⟩
  | some rows =>
    obtain ⟨run, hrun, hrows⟩ := List.mem_filterMap.mp (List.mem_of_getLast? hlast)
    exact .inr ⟨run, hrun, hrows⟩

/-- Each row that is put is there, or a later one with its key. -/
theorem exists_mem_putAll {rows : List FeeRateRow} {row : FeeRateRow} (h : row ∈ rows) :
    ∃ kept ∈ ((Table.empty : FeeRateTable).putAll rows).rows, kept.key = row.key := by
  obtain ⟨kept, -, hget⟩ := Table.exists_get_putAll (Table.empty : FeeRateTable)
    (List.mem_map_of_mem (f := FeeRateRow.key) h)
  exact ⟨kept, Table.get_eq_some.mp hget⟩

theorem market_of_key {a b : FeeRateRow} (h : a.key = b.key) : a.market = b.market :=
  congrArg (fun key => (ofLex (ofLex key).2).1) h

/-- **The page shows the last sync.** After any runs, one after another, of which any may fail, the
page has the rows of the last one that stored any and no others, and nothing before there was one;
these rows cover every market of the strategy, unless the exchange is Bitget, where an empty answer
counts as a success. -/
theorem page_of_syncs {strategy : Strategy} (hschema : validSchema strategy.schema = true)
    {runs : List SyncRun} (hstarts : runs.Pairwise fun a b => a.startedAt < b.startedAt) :
    ∃ page, loadLatestFeeRates order strategy.schema (some (afterSyncs strategy runs)) = .ok page ∧
      page.Perm (((Table.empty : FeeRateTable).putAll (lastRows strategy runs)).rows.map
        (·.response)) ∧
      (page = [] ↔ ∀ run ∈ runs, run.rows strategy = none) ∧
      (page ≠ [] → strategy.exchange ≠ "bitget" →
        ∀ market ∈ strategy.markets, ∃ shown ∈ page, shown.market = market) := by
  obtain ⟨-, hlatest⟩ := latest_afterSyncs hschema hstarts
  have hload : loadLatestFeeRates order strategy.schema (some (afterSyncs strategy runs)) =
      .ok (((FeeRateTable.latest (afterSyncs strategy runs)).mergeSort order).map (·.response)) :=
    if_pos hschema
  have hperm := (List.mergeSort_perm (FeeRateTable.latest (afterSyncs strategy runs)) order).map
    (·.response)
  rw [hlatest] at hload hperm
  refine ⟨_, hload, hperm, ?_, ?_⟩
  · rw [← List.length_eq_zero_iff, hperm.length_eq, List.length_eq_zero_iff, List.map_eq_nil_iff]
    rcases lastRows_cases strategy runs with ⟨hnil, hnone⟩ | ⟨run, hrun, hrows⟩
    · rw [hnil]
      exact iff_of_true rfl hnone
    · obtain ⟨row, hrow⟩ := List.exists_mem_of_ne_nil _ (rows_ok hrows).1
      obtain ⟨kept, hkept, -⟩ := exists_mem_putAll hrow
      refine iff_of_false (List.ne_nil_of_mem hkept) fun hnone => ?_
      rw [hnone run hrun] at hrows
      cases hrows
  · intro hne hexchange market hmarket
    rcases lastRows_cases strategy runs with ⟨hnil, -⟩ | ⟨run, hrun, hrows⟩
    · rw [hnil] at hne hperm
      exact absurd hperm.eq_nil hne
    · obtain ⟨row, hrow, rfl⟩ := (rows_ok hrows).2.2 hexchange market hmarket
      obtain ⟨kept, hkept, hkey⟩ := exists_mem_putAll hrow
      exact ⟨kept.response, hperm.mem_iff.mpr (List.mem_map_of_mem hkept), market_of_key hkey⟩

def sampleStrategy : Strategy := ⟨"binance_mm_arb01", "binance", "usdm_futures", "market_making"⟩

/-- A run that the exchange answers, and a later one that it does not. -/
def sampleRuns : List SyncRun :=
  [{ symbols := .ok ["BTCUSDT"]
     answers :=
       { raw := fun _ => .ok (.object [("symbol", .string "BTCUSDT"),
           ("makerCommissionRate", .string "0.000100"), ("takerCommissionRate", .string "0.000300")])
         nowMs := fun _ => 1784623822499 }
     startedAt := 1784623823000000 },
   { symbols := .ok ["BTCUSDT"]
     answers := { raw := fun _ => .error (.dispatch "timed out"), nowMs := fun _ => 1784623922499 }
     startedAt := 1784623923000000 },
   { symbols := .ok ["BTCUSDT"]
     answers :=
       { raw := fun _ => .ok (.object [("symbol", .string "BTCUSDT"),
           ("makerCommissionRate", .string "0.000200"), ("takerCommissionRate", .string "0.000400")])
         nowMs := fun _ => 1784624022499 }
     startedAt := 1784624023000000
     commit := .error "connection closed" }]

theorem page_of_sample :
    ∃ page, loadLatestFeeRates (fun _ _ => true) sampleStrategy.schema
        (some (afterSyncs sampleStrategy sampleRuns)) = .ok page ∧
      page.Perm (((Table.empty : FeeRateTable).putAll (lastRows sampleStrategy sampleRuns)).rows.map
        (·.response)) ∧
      (page = [] ↔ ∀ run ∈ sampleRuns, run.rows sampleStrategy = none) ∧
      (page ≠ [] → sampleStrategy.exchange ≠ "bitget" →
        ∀ market ∈ sampleStrategy.markets, ∃ shown ∈ page, shown.market = market) :=
  page_of_syncs (fun _ _ => true) (by decide) (by simp [sampleRuns])

end CryptoNav.FeeRates
