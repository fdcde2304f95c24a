import Mathlib.Data.List.Pairwise
import CryptoNav.Lib.Distinct
import CryptoNav.History.Normalize

/-!
# Deduplication and the identity of a row

The clients remove repeated rows by the text of a few raw fields; the tables tell rows apart by
what the normalizer reads, the columns of their `ON CONFLICT` clause. Both are given here for every
feed: the fields that it is deduplicated by, and the raw fields that each column of its key is read
from (`conflictKey_columns`). RapidX's client goes by an id too, but in a way of its own, which is in
`Exchange.Ltp`. Whether the two tell the same rows apart is `Exchange.Identity`.

The fields are taken from the calls of `dedup`, the columns from the statements of the
tables, and the two lists are deliberately given side by side for every feed: a reader can hold
each line against the source, and everything after that is about lists of names. Rows that are
refused by the normalizer have no columns and are not considered here.
-/

set_option autoImplicit false

namespace CryptoNav.History.Raw

open CryptoNav.Lib

/-! ## Deduplication -/

/-- A row's fields as they are printed, joined with a bar; nothing stands for an absent one. -/
def dedupKey (fields : List String) (row : Json) : List Char :=
  joined '|' (fields.map fun field => optionText (row.get field))

def dedup (fields : List String) (rows : List Json) : List Json := keepFirst (dedupKey fields) [] rows

/-- Two rows agree in fields when each has the same value in both or is absent from both. Values are
    compared as JSON, so a number and its text are different. -/
def Agree (fields : List String) (r s : Json) : Prop := ∀ field ∈ fields, r.get field = s.get field

instance (fields : List String) (r s : Json) : Decidable (Agree fields r s) :=
  inferInstanceAs (Decidable (∀ field ∈ fields, r.get field = s.get field))

theorem dedupKey_eq {fields : List String} {r s : Json} :
    dedupKey fields r = dedupKey fields s ↔ Agree fields r s := by
  constructor
  · intro h
    unfold dedupKey at h
    rw [← Function.comp_def, ← Function.comp_def, ← List.map_map, ← List.map_map] at h
    have hmap := joined_inj (by decide) (by simp) h
    exact fun field hfield => List.map_inj_left.mp hmap field hfield
  · intro h
    unfold dedupKey
    rw [List.map_congr_left fun field hfield => by rw [h field hfield]]

/-- Clients that ask twice deduplicate each answer and then both together. -/
theorem dedup_append (fields : List String) (rows rows' : List Json) :
    dedup fields (dedup fields rows ++ dedup fields rows') = dedup fields (rows ++ rows') :=
  keepFirst_append _ _ _

/-! ## The feeds and their tables -/

/-- What the normalizers and the tables need from elsewhere: the upper case of a character, how the
database reads a `bigint` and the size of a Gate contract. -/
structure Outside where
  toUppercase : Char → List Char
  bigint : String → Option ℤ
  multipliers : String → Option Float

inductive TradeStorage where
  | liang
  | generic
  deriving DecidableEq

inductive CashStorage where
  | binance
  | text
  | generic
  deriving DecidableEq

structure Storage where
  trades : TradeStorage
  cash : CashStorage

/-- A client's list of one dataset, which has no repeated rows when it is returned. -/
inductive Feed where
  | trades (client : Client) (leg : Leg)
  | funding (client : Client)
  | interest (client : Client)
  | rebates
  | binanceLiquidations
  | gateLiquidations
  /-- Executions of both legs, and statements, of accounts in `rapidx` mode. -/
  | ltpTrades
  | ltpFunding
  | ltpInterest
  deriving DecidableEq

/-- The fields that each feed is deduplicated by. -/
def Feed.fields : Feed → List String
  | .trades .binance _ => ["symbol", "id"]
  | .trades .bybit _ => ["category", "symbol", "execId"]
  | .trades .gate .spot => ["currency_pair", "id"]
  | .trades .gate .derivative => ["contract", "trade_id"]
  | .trades .bitget _ => ["execId", "orderId", "symbol"]
  | .trades .okx _ => ["instType", "instId", "tradeId"]
  | .funding .binance => ["tranId"]
  | .funding .bybit => ["id"]
  | .funding .gate => ["id", "contract", "time", "change"]
  | .funding .bitget => ["id", "bizId", "type", "createdTime"]
  | .funding .okx => ["billId", "instId", "ts"]
  | .interest .binance => ["txId"]
  | .interest .bybit => ["id"]
  | .interest .gate => ["id", "currency", "time", "interest"]
  | .interest .bitget => ["id", "bizId", "type", "createdTime"]
  | .interest .okx => ["ccy", "ts", "interest"]
  | .rebates => ["id"]
  | .binanceLiquidations => ["orderId", "symbol"]
  | .gateLiquidations => ["order_id", "contract", "time"]
  | .ltpTrades => ["transactionId"]
  | .ltpFunding | .ltpInterest => ["statementId"]

inductive KeyPart where
  | text (s : String)
  | bigint (n : ℤ)
  deriving DecidableEq

def castBigint (outside : Outside) (text : String) : Result KeyPart :=
  match outside.bigint text with
  | some n => .ok (.bigint n)
  | none => .error s!"invalid input syntax for type bigint: {text}"

/-- The name of a strategy's exchange and the leg. -/
def liangKey (client : Client) (leg : Leg) : String :=
  client.name ++ (if leg = .spot then "spot" else "swap")

/-- The columns `(key,symbol,id)` or `(market,symbol,trade_id)` of a trade. -/
def tradeKey (outside : Outside) (storage : TradeStorage) (client : Client) (row : TradeRow) :
    Result (List KeyPart) :=
  match storage with
  | .liang => do
    let key := liangKey client row.leg
    let id ← (
      if client = .binance then castBigint outside row.tradeId else .ok (KeyPart.text row.tradeId))
    .ok [.text key, .text row.symbol, id]
  | .generic => .ok [.text row.market, .text row.symbol, .text row.tradeId]

/-- The column of a cash flow's id. -/
def cashKey (outside : Outside) (storage : CashStorage) (recordId : String) :
    Result (List KeyPart) :=
  match storage with
  | .binance => do .ok [← castBigint outside recordId]
  | .text | .generic => .ok [.text recordId]

/-- The columns `(symbol,order_id,event_time_ms)`. -/
def liquidationKey (row : LiquidationRow) : List KeyPart :=
  [.text row.symbol, .text row.orderId, .bigint row.eventTimeMs]

/-- The leg that `fetch_trades` takes an execution for. -/
def ltpLeg (raw : Json) : Result Leg :=
  match uppercase ((optionalText raw ["businessType"]).getD "") with
  | "SPOT" | "MARGIN" => .ok .spot
  | "PERP" => .ok .derivative
  | other => .error s!"unsupported LTP execution businessType {other}"

/-- The conflict key that a raw row is stored under. The exchange of an account in `rapidx` mode is
Binance. -/
def Feed.conflictKey (outside : Outside) (storage : Storage) (feed : Feed) (raw : Json) :
    Result (List KeyPart) :=
  match feed with
  | .trades client leg => do
    tradeKey outside storage.trades client
      (← normalizeTrade outside.toUppercase outside.multipliers client leg raw)
  | .funding client => do
    cashKey outside storage.cash
      (← normalizeCash outside.toUppercase client .funding raw).recordId
  | .interest client => do
    cashKey outside storage.cash
      (← normalizeCash outside.toUppercase client .interest raw).recordId
  | .rebates => do .ok [.text (← normalizeBinanceRebate raw).recordId]
  | .binanceLiquidations => do
    .ok (liquidationKey (← normalizeBinanceLiquidation outside.toUppercase raw))
  | .gateLiquidations => do
    .ok (liquidationKey (← normalizeGateLiquidation outside.toUppercase outside.multipliers raw))
  | .ltpTrades => do
    tradeKey outside storage.trades .binance
      (← normalizeLtpTrade outside.toUppercase (← ltpLeg raw) raw)
  | .ltpFunding => do
    cashKey outside storage.cash (← normalizeLtpCash outside.toUppercase .funding raw).recordId
  | .ltpInterest => do
    cashKey outside storage.cash (← normalizeLtpCash outside.toUppercase .interest raw).recordId

/-! ## What the columns are read from -/

def tradeMarket : Client → Leg → String
  | .binance, .spot | .bybit, .spot | .gate, .spot => "spot"
  | .bitget, .spot | .okx, .spot => "margin"
  | .binance, .derivative => "usdm_futures"
  | .bitget, .derivative => "usdt_futures"
  | .bybit, .derivative | .gate, .derivative | .okx, .derivative => "swap"

def tradeSymbol (toUppercase : Char → List Char) (client : Client) (leg : Leg) (raw : Json) :
    Option String :=
  match client, leg with
  | .binance, _ | .bybit, _ | .bitget, _ =>
    (optionalText raw ["symbol"]).map (normalizeSymbol toUppercase)
  | .gate, .spot => (optionalText raw ["currency_pair"]).map (normalizeSymbol toUppercase)
  | .gate, .derivative =>
    (optionalText raw ["contract"]).map fun contract =>
      normalizeSymbol toUppercase (uppercase contract)
  | .okx, leg => (optionalText raw ["instId"]).map (okxSymbol toUppercase leg)

def tradeIdFields : Client → Leg → List String
  | .binance, _ => ["id"]
  | .bybit, _ => ["execId"]
  | .gate, .spot => ["id"]
  | .gate, .derivative => ["trade_id"]
  | .bitget, _ => ["execId", "tradeId", "id"]
  | .okx, _ => ["tradeId"]

/-- The id that an interest row without one is given. -/
def madeUpIdOf (raw : Json) (asset amount : String) (times : List String) : Option String := do
  some (madeUpId (← optionalText raw [asset]) (← (timestampField raw times).toOption)
    (← optionalText raw [amount]))

def cashId (client : Client) (interest : Bool) (raw : Json) : Option String :=
  match client, interest with
  | .binance, false => optionalText raw ["tranId"]
  | .binance, true => optionalText raw ["txId"]
  | .bybit, _ => optionalText raw ["id"]
  | .gate, false => optionalText raw ["id"]
  | .gate, true =>
    (optionalText raw ["id"]).or
      (madeUpIdOf raw "currency" "interest" ["time_ms", "time", "create_time"])
  | .bitget, _ => optionalText raw ["id", "bizId"]
  | .okx, false => optionalText raw ["billId"]
  | .okx, true => (optionalText raw ["billId"]).or (madeUpIdOf raw "ccy" "interest" ["ts"])

def ltpSymbol (toUppercase : Char → List Char) (raw : Json) : Option String :=
  (optionalText raw ["sym"]).bind fun sym => (ltpSymbolText toUppercase sym).toOption

def ltpMarketOf (raw : Json) : Option (Leg × String) :=
  (optionalText raw ["businessType"]).bind fun business =>
    (ltpMarket (uppercase business)).toOption

/-- An id as the table has it. -/
def idColumn (outside : Outside) (numeric : Bool) (id : Option String) : Option KeyPart :=
  id.bind fun id => if numeric then (outside.bigint id).map .bigint else some (.text id)

def tradeColumns (outside : Outside) (storage : TradeStorage) (client : Client)
    (market : Option (Leg × String)) (symbol id : Option String) : List (Option KeyPart) :=
  match storage with
  | .liang => [market.map fun market => .text (liangKey client market.1), symbol.map .text,
      idColumn outside (client = .binance) id]
  | .generic => [market.map fun market => .text market.2, symbol.map .text, id.map .text]

/-- The columns of the conflict key, as they are read from the fields of a raw row. -/
def Feed.columns (outside : Outside) (storage : Storage) (feed : Feed) (raw : Json) :
    List (Option KeyPart) :=
  match feed with
  | .trades client leg =>
    tradeColumns outside storage.trades client (some (leg, tradeMarket client leg))
      (tradeSymbol outside.toUppercase client leg raw) (optionalText raw (tradeIdFields client leg))
  | .funding client => [idColumn outside (storage.cash = .binance) (cashId client false raw)]
  | .interest client => [idColumn outside (storage.cash = .binance) (cashId client true raw)]
  | .rebates => [(optionalText raw ["id"]).map .text]
  | .binanceLiquidations =>
    [(optionalText raw ["symbol"]).map fun symbol => .text (normalizeSymbol outside.toUppercase symbol),
      (optionalText raw ["orderId"]).map .text, (timestampField raw ["time"]).toOption.map .bigint]
  | .gateLiquidations =>
    [(optionalText raw ["contract"]).map fun contract =>
        .text (normalizeSymbol outside.toUppercase contract),
      (optionalText raw ["order_id"]).map .text, (timestampField raw ["time"]).toOption.map .bigint]
  | .ltpTrades =>
    tradeColumns outside storage.trades .binance (ltpMarketOf raw)
      (ltpSymbol outside.toUppercase raw) (optionalText raw ["transactionId"])
  | .ltpFunding | .ltpInterest =>
    [idColumn outside (storage.cash = .binance) (optionalText raw ["statementId"])]

/-! ### The normalizers read it -/

theorem normalizeTrade_ok {toUppercase : Char → List Char} {multipliers : String → Option Float}
    {client : Client} {leg : Leg} {raw : Json} {row : TradeRow}
    (h : normalizeTrade toUppercase multipliers client leg raw = .ok row) :
    row.leg = leg ∧ row.market = tradeMarket client leg ∧
      tradeSymbol toUppercase client leg raw = some row.symbol ∧
      optionalText raw (tradeIdFields client leg) = some row.tradeId := by
  cases client with
  | binance =>
    simp only [normalizeTrade, normalizeBinanceTrade, bind_eq_ok, textField_ok] at h
    obtain ⟨symbol, hsymbol, id, hid, _, -, _, -, _, -, _, -, _, -, h⟩ := h
    obtain ⟨hleg, hmarket, hrow, hrowId⟩ := makeTrade_ok h
    refine ⟨hleg, ?_, ?_, ?_⟩
    · cases leg <;> exact hmarket
    · rw [tradeSymbol, hsymbol, hrow]; rfl
    · rw [tradeIdFields, hid, hrowId]
  | bybit =>
    simp only [normalizeTrade, normalizeBybitTrade, bind_eq_ok, textField_ok] at h
    obtain ⟨symbol, hsymbol, id, hid, _, -, _, -, _, -, _, -, _, -, h⟩ := h
    obtain ⟨hleg, hmarket, hrow, hrowId⟩ := makeTrade_ok h
    refine ⟨hleg, ?_, ?_, ?_⟩
    · cases leg <;> exact hmarket
    · rw [tradeSymbol, hsymbol, hrow]; rfl
    · rw [tradeIdFields, hid, hrowId]
  | gate =>
    cases leg with
    | spot =>
      simp only [normalizeTrade, normalizeGateTrade, if_true, bind_eq_ok, textField_ok] at h
      obtain ⟨symbol, hsymbol, id, hid, _, -, _, -, _, -, _, -, h⟩ := h
      obtain ⟨hleg, hmarket, hrow, hrowId⟩ := makeTrade_ok h
      refine ⟨hleg, hmarket, ?_, ?_⟩
      · rw [tradeSymbol, hsymbol, hrow]; rfl
      · rw [tradeIdFields, hid, hrowId]
    | derivative =>
      simp only [normalizeTrade, normalizeGateTrade, reduceCtorEq, if_false, bind_eq_ok,
        textField_ok] at h
      obtain ⟨contract, hcontract, _, -, _, -, _, -, _, -, id, hid, _, -, _, -, h⟩ := h
      obtain ⟨hleg, hmarket, hrow, hrowId⟩ := makeTrade_ok h
      refine ⟨hleg, hmarket, ?_, ?_⟩
      · rw [tradeSymbol, hcontract, hrow]; rfl
      · rw [tradeIdFields, hid, hrowId]
  | bitget =>
    simp only [normalizeTrade, normalizeBitgetTrade, bind_eq_ok, textField_ok] at h
    obtain ⟨symbol, hsymbol, id, hid, _, -, _, -, _, -, _, -, h⟩ := h
    obtain ⟨hleg, hmarket, hrow, hrowId⟩ := makeTrade_ok h
    refine ⟨hleg, ?_, ?_, ?_⟩
    · cases leg <;> exact hmarket
    · rw [tradeSymbol, hsymbol, hrow]; rfl
    · rw [tradeIdFields, hid, hrowId]
  | okx =>
    simp only [normalizeTrade, normalizeOkxTrade, bind_eq_ok, textField_ok] at h
    obtain ⟨symbol, hsymbol, _, -, id, hid, _, -, _, -, _, -, _, -, h⟩ := h
    obtain ⟨hleg, hmarket, hrow, hrowId⟩ := makeTrade_ok h
    refine ⟨hleg, ?_, ?_, ?_⟩
    · cases leg <;> exact hmarket
    · rw [tradeSymbol, hsymbol, hrow]; rfl
    · rw [tradeIdFields, hid, hrowId]

theorem madeUpId_ok {raw : Json} {fields times : List String} {assetField amountField : String}
    {asset amount : String} {ts : ℤ} (hasset : optionalText raw [assetField] = some asset)
    (hts : timestampField raw times = .ok ts) (hamount : optionalText raw [amountField] = some amount) :
    (optionalText raw fields).or (madeUpIdOf raw assetField amountField times) =
      some ((optionalText raw fields).getD (madeUpId asset ts amount)) := by
  have hmade : madeUpIdOf raw assetField amountField times = some (madeUpId asset ts amount) := by
    unfold madeUpIdOf
    rw [hasset, hts, hamount]
    rfl
  rw [hmade]
  cases optionalText raw fields <;> rfl

theorem normalizeCash_ok {toUppercase : Char → List Char} {client : Client} (interest : Bool)
    {raw : Json} {row : CashRow}
    (h : normalizeCash toUppercase client (if interest then .interest else .funding) raw = .ok row) :
    cashId client interest raw = some row.recordId := by
  simp only [normalizeCash, bind_eq_ok] at h
  obtain ⟨fields, hfields, _, -, _, -, h⟩ := h
  cases h
  cases client with
  | binance =>
    cases interest with
    | false =>
      simp only [cashFields, Bool.false_eq_true, if_false, bind_eq_ok, textField_ok] at hfields
      obtain ⟨id, hid, _, -, _, -, _, -, hfields⟩ := hfields
      cases hfields
      exact hid
    | true =>
      simp only [cashFields, if_true, bind_eq_ok, textField_ok] at hfields
      obtain ⟨id, hid, _, -, _, -, _, -, hfields⟩ := hfields
      cases hfields
      exact hid
  | bybit =>
    cases interest with
    | false =>
      simp only [cashFields, Bool.false_eq_true, if_false, bind_eq_ok, textField_ok] at hfields
      obtain ⟨id, hid, _, -, _, -, _, -, hfields⟩ := hfields
      cases hfields
      exact hid
    | true =>
      simp only [cashFields, if_true, bind_eq_ok, textField_ok] at hfields
      obtain ⟨id, hid, _, -, _, -, _, -, hfields⟩ := hfields
      cases hfields
      exact hid
  | gate =>
    cases interest with
    | false =>
      simp only [cashFields, Bool.false_eq_true, if_false, bind_eq_ok, textField_ok] at hfields
      obtain ⟨id, hid, _, -, _, -, _, -, hfields⟩ := hfields
      cases hfields
      exact hid
    | true =>
      simp only [cashFields, if_true, bind_eq_ok, textField_ok] at hfields
      obtain ⟨asset, hasset, ts, hts, amount, hamount, _, -, hfields⟩ := hfields
      cases hfields
      exact madeUpId_ok hasset hts (numberField_ok hamount).1
  | bitget =>
    simp only [cashFields, bind_eq_ok, textField_ok] at hfields
    obtain ⟨_, -, _, -, id, hid, _, -, hfields⟩ := hfields
    cases hfields
    cases interest <;> exact hid
  | okx =>
    cases interest with
    | false =>
      simp only [cashFields, Bool.false_eq_true, if_false, bind_eq_ok, textField_ok] at hfields
      obtain ⟨id, hid, _, -, _, -, hfields⟩ := hfields
      cases hfields
      exact hid
    | true =>
      simp only [cashFields, if_true, bind_eq_ok, textField_ok] at hfields
      obtain ⟨asset, hasset, ts, hts, amount, hamount, hfields⟩ := hfields
      cases hfields
      exact madeUpId_ok hasset hts (numberField_ok hamount).1

theorem castBigint_ok {outside : Outside} {text : String} {part : KeyPart}
    (h : castBigint outside text = .ok part) :
    ∃ n, outside.bigint text = some n ∧ part = .bigint n := by
  unfold castBigint at h
  split at h
  case h_1 n hn => exact ⟨n, hn, (Except.ok.inj h).symm⟩
  case h_2 => cases h

theorem cashKey_ok {outside : Outside} {storage : CashStorage} {id : String} {key : List KeyPart}
    (h : cashKey outside storage id = .ok key) :
    [idColumn outside (storage = .binance) (some id)] = key.map some := by
  cases storage with
  | binance =>
    obtain ⟨part, hpart, h⟩ := bind_eq_ok.mp h
    obtain ⟨n, hn, rfl⟩ := castBigint_ok hpart
    cases h
    simp [idColumn, hn]
  | text =>
    cases h
    rfl
  | generic =>
    cases h
    rfl

theorem tradeKey_ok {outside : Outside} {storage : TradeStorage} {client : Client} {row : TradeRow}
    {key : List KeyPart} (h : tradeKey outside storage client row = .ok key) :
    tradeColumns outside storage client (some (row.leg, row.market)) (some row.symbol)
      (some row.tradeId) = key.map some := by
  cases storage with
  | liang =>
    obtain ⟨part, hpart, h⟩ := bind_eq_ok.mp h
    cases h
    by_cases hclient : client = .binance
    · rw [if_pos hclient] at hpart
      obtain ⟨n, hn, rfl⟩ := castBigint_ok hpart
      simp [tradeColumns, idColumn, hclient, hn]
    · rw [if_neg hclient] at hpart
      cases hpart
      simp [tradeColumns, idColumn, hclient]
  | generic =>
    cases h
    rfl

theorem normalizeLtpTrade_ok {toUppercase : Char → List Char} {leg : Leg} {raw : Json}
    {row : TradeRow} (h : normalizeLtpTrade toUppercase leg raw = .ok row) :
    ltpMarketOf raw = some (row.leg, row.market) ∧ ltpSymbol toUppercase raw = some row.symbol ∧
      optionalText raw ["transactionId"] = some row.tradeId := by
  simp only [normalizeLtpTrade, bind_eq_ok, textField_ok] at h
  obtain ⟨business, hbusiness, ⟨expected, market⟩, hmarket, _, hleg, sym, hsym, _, -, _, -, _, -, _,
    -, symbol, hsymbol, id, hid, _, -, _, -, _, -, _, -, _, -, h⟩ := h
  obtain ⟨hrowLeg, hrowMarket, hrowSymbol, hrowId⟩ := makeTrade_ok h
  have hexpected : leg = expected := by
    by_contra hne
    rw [bailIf, if_pos hne] at hleg
    cases hleg
  refine ⟨?_, ?_, ?_⟩
  · rw [ltpMarketOf, hbusiness, Option.bind_some, hmarket, hrowLeg, hrowMarket, hexpected]
    rfl
  · rw [ltpSymbol, hsym, Option.bind_some, hsymbol, hrowSymbol]
    rfl
  · rw [hid, hrowId]

theorem normalizeLtpCash_ok {toUppercase : Char → List Char} {dataset : Dataset} {raw : Json}
    {row : CashRow} (h : normalizeLtpCash toUppercase dataset raw = .ok row) :
    optionalText raw ["statementId"] = some row.recordId := by
  simp only [normalizeLtpCash, bind_eq_ok, textField_ok] at h
  obtain ⟨_, -, _, -, _, -, _, -, _, -, _, -, _, -, _, -, _, -, id, hid, _, -, h⟩ := h
  cases h
  exact hid

/-- **The normalizer stores a row under what is read from its fields**. -/
theorem conflictKey_columns {outside : Outside} {storage : Storage} {feed : Feed} {raw : Json}
    {key : List KeyPart} (h : feed.conflictKey outside storage raw = .ok key) :
    feed.columns outside storage raw = key.map some := by
  cases feed with
  | trades client leg =>
    obtain ⟨row, hrow, h⟩ := bind_eq_ok.mp h
    obtain ⟨hleg, hmarket, hsymbol, hid⟩ := normalizeTrade_ok hrow
    rw [Feed.columns, hsymbol, hid, ← hmarket, ← hleg]
    exact tradeKey_ok h
  | funding client =>
    obtain ⟨row, hrow, h⟩ := bind_eq_ok.mp h
    rw [Feed.columns, normalizeCash_ok false hrow]
    exact cashKey_ok h
  | interest client =>
    obtain ⟨row, hrow, h⟩ := bind_eq_ok.mp h
    rw [Feed.columns, normalizeCash_ok true hrow]
    exact cashKey_ok h
  | rebates =>
    obtain ⟨row, hrow, h⟩ := bind_eq_ok.mp h
    cases h
    simp only [normalizeBinanceRebate, bind_eq_ok, textField_ok] at hrow
    obtain ⟨id, hid, _, -, _, -, _, -, _, -, _, -, _, -, _, -, hrow⟩ := hrow
    cases hrow
    rw [Feed.columns, hid]
    rfl
  | binanceLiquidations =>
    obtain ⟨row, hrow, h⟩ := bind_eq_ok.mp h
    cases h
    simp only [normalizeBinanceLiquidation, bind_eq_ok, textField_ok] at hrow
    obtain ⟨id, hid, symbol, hsymbol, _, -, _, -, ts, hts, _, -, _, -, _, -, hrow⟩ := hrow
    cases hrow
    rw [Feed.columns, hid, hsymbol, hts]
    rfl
  | gateLiquidations =>
    obtain ⟨row, hrow, h⟩ := bind_eq_ok.mp h
    cases h
    simp only [normalizeGateLiquidation, bind_eq_ok, textField_ok] at hrow
    obtain ⟨contract, hcontract, id, hid, _, -, _, -, ts, hts, hrow⟩ := hrow
    cases hrow
    rw [Feed.columns, hid, hcontract, hts]
    rfl
  | ltpTrades =>
    obtain ⟨leg, -, h⟩ := bind_eq_ok.mp h
    obtain ⟨row, hrow, h⟩ := bind_eq_ok.mp h
    obtain ⟨hmarket, hsymbol, hid⟩ := normalizeLtpTrade_ok hrow
    rw [Feed.columns, hmarket, hsymbol, hid]
    exact tradeKey_ok h
  | ltpFunding =>
    obtain ⟨row, hrow, h⟩ := bind_eq_ok.mp h
    rw [Feed.columns, normalizeLtpCash_ok hrow]
    exact cashKey_ok h
  | ltpInterest =>
    obtain ⟨row, hrow, h⟩ := bind_eq_ok.mp h
    rw [Feed.columns, normalizeLtpCash_ok hrow]
    exact cashKey_ok h

/-! ## Rows of texts -/

def textRow (fields : List (String × String)) : Json :=
  .object (fields.map fun field => (field.1, .string field.2))

def plain : Outside where
  toUppercase c := [c.toUpper]
  bigint text := parseInt text.toList
  multipliers _ := some 1

end CryptoNav.History.Raw
