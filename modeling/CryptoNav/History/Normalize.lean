import CryptoNav.History.Watermark
import CryptoNav.History.Fields

/-!
# Normalizing raw rows

The rows of the exchange clients as `sync_history` turns them into table rows: trades, funding and
interest, Binance's rebates and the liquidations of Binance and Gate. Accounts in `rapidx` mode have
one more client, whose executions of both legs come in one list and whose statements are told apart
by their type; they are stored as Binance's are. A row that lacks a field, or has a number that does
not read, is refused, and with it the whole run.

The fields of liquidations and rebates that are copied to their column and checked by nothing are
left out.

Each normalizer is a sequence of reads, of which the first that fails gives the error, and its
order is the source's: which error a row with two faults gives is part of the model. Times that
are not positive are refused like numbers that do not parse. Only the branches for the modelled
exchanges are here, and a pair of exchange and dataset that the program refuses is refused with
its own message.
-/

set_option autoImplicit false

namespace CryptoNav.History.Raw

open CryptoNav.Lib

inductive Client where
  | binance
  | bybit
  | gate
  | bitget
  | okx
  deriving DecidableEq

def Client.name : Client → String
  | .binance => "binance"
  | .bybit => "bybit"
  | .gate => "gate"
  | .bitget => "bitget"
  | .okx => "okx"

def datasetName : Dataset → String
  | .trades => "trades"
  | .funding => "funding"
  | .interest => "interest"
  | .rebates => "rebates"
  | .liquidations => "liquidations"

variable (toUppercase : Char → List Char)

/-! ## Trades -/

structure TradeRow where
  leg : Leg
  market : String
  symbol : String
  tradeId : String
  orderId : String
  side : String
  role : String
  price : String
  quantity : String
  quoteQuantity : String
  feeAmount : String
  feeAsset : String
  realizedPnl : Option String
  eventTimeMs : ℤ

/-- `make_trade`: the checks that every trade passes. -/
def makeTrade (leg : Leg) (market symbol tradeId orderId side role price quantity : String)
    (quoteQuantity : Option String) (feeAmount feeAsset : String) (realizedPnl : Option String)
    (eventTimeMs : ℤ) : Result TradeRow := do
  bailIf (side ≠ "buy" ∧ side ≠ "sell") s!"invalid trade side for {symbol}/{tradeId}: {side}"
  let priceValue ← parseNumber price
  let quantityValue := (← parseNumber quantity).abs
  bailIf (priceValue ≤ 0 ∨ quantityValue ≤ 0 ∨ eventTimeMs ≤ 0)
    s!"invalid trade values for {symbol}/{tradeId}"
  let quoteQuantity := quoteQuantity.getD (decimalString (priceValue * quantityValue))
  let _ ← parseNumber quoteQuantity
  let _ ← parseNumber feeAmount
  let _ ← (realizedPnl.mapM parseNumber : Result (Option Float))
  .ok {
    leg, market, symbol, tradeId, orderId, side, role, price
    quantity := ← absoluteDecimal quantity
    quoteQuantity
    feeAmount := ← signedDecimal feeAmount
    feeAsset := uppercase feeAsset
    realizedPnl, eventTimeMs }

def normalizeBinanceTrade (leg : Leg) (raw : Json) : Result TradeRow := do
  let symbol := normalizeSymbol toUppercase (← textField raw ["symbol"])
  let tradeId ← textField raw ["id"]
  let side ← (
    if leg = .spot then .ok (if (boolField raw ["isBuyer"]).getD false then "buy" else "sell")
    else (textField raw ["side"]).map lowerSide)
  let role := if (boolField raw ["isMaker", "maker"]).getD false then "maker" else "taker"
  makeTrade leg (if leg = .spot then "spot" else "usdm_futures") symbol tradeId
    (← textField raw ["orderId"]) side role (← numberField raw ["price"]) (← numberField raw ["qty"])
    (optionalNumber raw ["quoteQty"]) ((numberField raw ["commission"]).toOption.getD "0")
    ((optionalText raw ["commissionAsset"]).getD "USDT") (optionalNumber raw ["realizedPnl"])
    (← timestampField raw ["time"])

def normalizeBybitTrade (leg : Leg) (raw : Json) : Result TradeRow := do
  let symbol := normalizeSymbol toUppercase (← textField raw ["symbol"])
  let role := if (boolField raw ["isMaker"]).getD false then "maker" else "taker"
  makeTrade leg (if leg = .spot then "spot" else "swap") symbol (← textField raw ["execId"])
    (← textField raw ["orderId"]) (lowerSide (← textField raw ["side"])) role
    (← numberField raw ["execPrice"]) (← numberField raw ["execQty"])
    (optionalNumber raw ["execValue"]) ((numberField raw ["execFee"]).toOption.getD "0")
    ((optionalText raw ["feeCurrency", "feeCcy"]).getD "USDT") (optionalNumber raw ["execPnl"])
    (← timestampField raw ["execTime"])

def gateRole (raw : Json) : String :=
  if (boolField raw ["is_maker"]).getD false ||
      (optionalText raw ["role"]).any (lowercase · = "maker") then "maker"
  else "taker"

/-- The size of one contract. -/
def gateMultiplier (multipliers : String → Option Float) (contract : String) : Result Float :=
  match multipliers contract with
  | some multiplier => .ok multiplier
  | none => .error s!"missing Gate multiplier for {contract}"

/-- Futures fills count contracts. -/
def normalizeGateTrade (multipliers : String → Option Float) (leg : Leg) (raw : Json) :
    Result TradeRow := do
  if leg = .spot then
    let pair ← textField raw ["currency_pair"]
    makeTrade leg "spot" (normalizeSymbol toUppercase pair) (← textField raw ["id"])
      ((optionalText raw ["order_id"]).getD "") (lowerSide (← textField raw ["side"]))
      (gateRole raw) (← numberField raw ["price"]) (← numberField raw ["amount"]) none
      ((numberField raw ["fee"]).toOption.getD "0")
      ((optionalText raw ["fee_currency"]).getD "USDT") none
      (← timestampField raw ["create_time_ms", "create_time"])
  else
    let contract := uppercase (← textField raw ["contract"])
    let size ← parseNumber (← numberField raw ["size"])
    bailIf (size == 0) "Gate futures trade has zero size"
    let multiplier ← gateMultiplier multipliers contract
    makeTrade leg "swap" (normalizeSymbol toUppercase contract) (← textField raw ["trade_id"])
      ((optionalText raw ["order_id"]).getD "") (if size > 0 then "buy" else "sell")
      (gateRole raw) (← numberField raw ["price"]) (decimalString (size.abs * multiplier)) none
      ((numberField raw ["fee"]).toOption.getD "0") "USDT" (optionalNumber raw ["pnl"])
      (← timestampField raw ["create_time_ms", "create_time"])

/-- The fee and its currency, from the first entry of `feeDetail` where it has them. -/
def bitgetFee (raw : Json) : String × String :=
  let detail := match raw.get "feeDetail" with
    | some (.array items) => items.head?
    | _ => none
  let amount := (detail.bind (optionalNumber · ["fee", "totalFee"])).or
    (optionalNumber raw ["fee", "execFee"])
  let asset := (detail.bind (optionalText · ["feeCoin"])).or
    (optionalText raw ["feeCoin", "feeCurrency", "feeCcy"])
  (amount.getD "0", asset.getD "USDT")

def normalizeBitgetTrade (leg : Leg) (raw : Json) : Result TradeRow := do
  let roleText := lowercase ((optionalText raw ["tradeRole", "execType", "tradeScope"]).getD "")
  let role := if roleText = "maker" ∨ roleText = "m" then "maker" else "taker"
  let (feeAmount, feeAsset) := bitgetFee raw
  makeTrade leg (if leg = .spot then "margin" else "usdt_futures")
    (normalizeSymbol toUppercase (← textField raw ["symbol"]))
    (← textField raw ["execId", "tradeId", "id"]) ((optionalText raw ["orderId"]).getD "")
    (lowerSide (← textField raw ["side"])) role
    (← numberField raw ["price", "fillPrice", "execPrice"])
    (← numberField raw ["size", "qty", "baseVolume", "execQty"])
    (optionalNumber raw ["quoteVolume", "amount", "execValue"]) feeAmount feeAsset
    (optionalNumber raw ["profit", "pnl", "realizedPnl", "execPnl"])
    (← timestampField raw ["createdTime", "cTime", "ts"])

/-- `trim_end_matches("-SWAP")`, which takes the suffix off as often as it is there. -/
def trimSwap (instrument : List Char) : List Char :=
  go instrument.length instrument
where
  go : ℕ → List Char → List Char
    | 0, text => text
    | n + 1, text =>
      if ['-', 'S', 'W', 'A', 'P'].isSuffixOf text then go n (text.take (text.length - 5)) else text

def okxSymbol (leg : Leg) (instrument : String) : String :=
  normalizeSymbol toUppercase
    (if leg = .derivative then .ofList (trimSwap instrument.toList) else instrument)

/-- OKX gives charges as negative numbers; the stored fee is a cost. -/
def normalizeOkxTrade (leg : Leg) (raw : Json) : Result TradeRow := do
  let execType := (optionalText raw ["execType"]).getD ""
  let instrument ← textField raw ["instId"]
  let feeAmount ← negateDecimal ((numberField raw ["fee"]).toOption.getD "0")
  makeTrade leg (if leg = .spot then "margin" else "swap") (okxSymbol toUppercase leg instrument)
    (← textField raw ["tradeId"]) ((optionalText raw ["ordId"]).getD "")
    (lowerSide (← textField raw ["side"])) (if lowercase execType = "m" then "maker" else "taker")
    (← numberField raw ["fillPx"]) (← numberField raw ["fillSz"]) none feeAmount
    ((optionalText raw ["feeCcy"]).getD "USDT") (optionalNumber raw ["fillPnl"])
    (← timestampField raw ["ts", "fillTime"])

def normalizeTrade (multipliers : String → Option Float) (client : Client) (leg : Leg)
    (raw : Json) : Result TradeRow :=
  match client with
  | .binance => normalizeBinanceTrade toUppercase leg raw
  | .bybit => normalizeBybitTrade toUppercase leg raw
  | .gate => normalizeGateTrade toUppercase multipliers leg raw
  | .bitget => normalizeBitgetTrade toUppercase leg raw
  | .okx => normalizeOkxTrade toUppercase leg raw

/-! ### RapidX -/

/-- The parts of a `sym`, which is `EXCHANGE_BUSINESSTYPE_BASE_QUOTE`. -/
def symParts (sym : String) : List String := (sym.toList.splitOn '_').map .ofList

def ltpSymbolText (sym : String) : Result String := do
  let parts := symParts sym
  bailIf (parts.length ≠ 4 ∨ parts.any (· = "")) s!"unexpected LTP sym format: {sym}"
  .ok (normalizeSymbol toUppercase (parts.getD 2 "" ++ parts.getD 3 ""))

/-- The leg of an execution and the market that it is stored with. -/
def ltpMarket (business : String) : Result (Leg × String) :=
  match business with
  | "SPOT" => .ok (.spot, "spot")
  | "MARGIN" => .ok (.spot, "margin")
  | "PERP" => .ok (.derivative, "usdm_futures")
  | other => .error s!"unsupported LTP businessType {other}"

def legName : Leg → String
  | .spot => "Spot"
  | .derivative => "Derivative"

/-- Fee and rebate are never negative; the stored fee is what is left of it. -/
def ltpFee (raw : Json) (fee feeCoin : String) : Result String := do
  let rebate := (optionalNumber raw ["rebate"]).getD "0"
  if (← parseNumber rebate) != 0 then
    let rebateCoin := (optionalText raw ["rebateCoin"]).getD feeCoin
    bailIf (lowercase rebateCoin ≠ lowercase feeCoin)
      s!"LTP fee/rebate currency mismatch: {feeCoin} vs {rebateCoin}"
    .ok (decimalString ((← parseNumber fee) - (← parseNumber rebate)))
  else .ok fee

def normalizeLtpTrade (leg : Leg) (raw : Json) : Result TradeRow := do
  let business := uppercase (← textField raw ["businessType"])
  let (expectedLeg, market) ← ltpMarket business
  let legText := legName leg
  bailIf (leg ≠ expectedLeg) s!"LTP businessType {business} does not match leg {legText}"
  let sym ← textField raw ["sym"]
  let exchangeType ← textField raw ["exchangeType"]
  let parts := symParts sym
  bailIf (parts.length ≠ 4 ∨ lowercase (parts.getD 0 "") ≠ lowercase exchangeType ∨
    lowercase (parts.getD 1 "") ≠ lowercase business)
    s!"LTP sym {sym} does not match {exchangeType}/{business}"
  let fee ← numberField raw ["fee"]
  let feeCoin := (optionalText raw ["feeCoin"]).getD "USDT"
  let feeAmount ← ltpFee raw fee feeCoin
  makeTrade leg market (← ltpSymbolText toUppercase sym) (← textField raw ["transactionId"])
    (← textField raw ["orderId"]) (lowerSide (← textField raw ["side"]))
    (lowerSide ((optionalText raw ["execType"]).getD "taker")) (← numberField raw ["price"])
    (← numberField raw ["quantity"]) none feeAmount feeCoin (optionalNumber raw ["rpnl"])
    (← timestampField raw ["createAt"])

/-! ## Funding and interest -/

structure CashRow where
  recordId : String
  symbol : Option String
  asset : String
  amount : String
  eventTimeMs : ℤ

/-- The id made up for an interest row that has none. -/
def madeUpId (asset : String) (ts : ℤ) (amount : String) : String := s!"{asset}:{ts}:{amount}"

/-- The contract of a Gate funding row, from its text where there is no field for it. -/
def gateContract (id : String) (raw : Json) : Result String :=
  match (optionalText raw ["contract"]).or (contractFromText (optionalText raw ["text"])) with
  | some contract => .ok contract
  | none => .error s!"Gate funding row {id} has no contract"

/-- The amount of a Bitget record, whose sign is in the record's type. -/
def bitgetAmount (recordType rawAmount : String) : Result String :=
  if ['_', 'O', 'U', 'T'].isSuffixOf recordType.toList then
    (absoluteDecimal rawAmount).map ("-" ++ ·)
  else if ['_', 'I', 'N'].isSuffixOf recordType.toList then absoluteDecimal rawAmount
  else .ok rawAmount

/-- What `normalize_cash` reads, before its checks. -/
def cashFields (client : Client) (dataset : Dataset) (raw : Json) : Result CashRow :=
  match client, dataset with
  | .binance, .funding => do
    .ok {
      recordId := ← textField raw ["tranId"]
      symbol := (optionalText raw ["symbol"]).map (normalizeSymbol toUppercase)
      asset := ← textField raw ["asset"]
      amount := ← numberField raw ["income"]
      eventTimeMs := ← timestampField raw ["time"] }
  | .binance, .interest => do
    .ok {
      recordId := ← textField raw ["txId"]
      symbol := none
      asset := ← textField raw ["asset"]
      amount := ← numberField raw ["interest"]
      eventTimeMs := ← timestampField raw ["interestAccuredTime"] }
  | .bybit, .funding => do
    .ok {
      recordId := ← textField raw ["id"]
      symbol := some (normalizeSymbol toUppercase (← textField raw ["symbol"]))
      asset := (optionalText raw ["currency"]).getD "USDT"
      amount := ← nonzeroNumber raw ["cashFlow", "change"]
      eventTimeMs := ← timestampField raw ["transactionTime"] }
  | .bybit, .interest => do
    .ok {
      recordId := ← textField raw ["id"]
      symbol := none
      asset := ← textField raw ["currency"]
      amount := ← nonzeroNumber raw ["cashFlow", "change"]
      eventTimeMs := ← timestampField raw ["transactionTime"] }
  | .gate, .funding => do
    let id ← textField raw ["id"]
    let contract ← gateContract id raw
    .ok {
      recordId := id
      symbol := some (normalizeSymbol toUppercase contract)
      asset := "USDT"
      amount := ← numberField raw ["change"]
      eventTimeMs := ← timestampField raw ["time_ms", "time"] }
  | .gate, .interest => do
    let asset ← textField raw ["currency"]
    let ts ← timestampField raw ["time_ms", "time", "create_time"]
    let amount ← numberField raw ["interest"]
    .ok {
      recordId := (optionalText raw ["id"]).getD (madeUpId asset ts amount)
      symbol := none
      asset
      -- the charge as a cash flow
      amount := decimalString (-(← parseNumber amount).abs)
      eventTimeMs := ts }
  | .bitget, _ => do
    let recordType := (optionalText raw ["type"]).getD ""
    let rawAmount ← nonzeroNumber raw ["amount", "change", "cashFlow"]
    let amount ← bitgetAmount recordType rawAmount
    .ok {
      recordId := ← textField raw ["id", "bizId"]
      symbol := (optionalText raw ["symbol"]).map (normalizeSymbol toUppercase)
      asset := (optionalText raw ["coin", "currency", "asset"]).getD "USDT"
      amount
      eventTimeMs := ← timestampField raw ["createdTime", "cTime", "ts"] }
  | .okx, .funding => do
    .ok {
      recordId := ← textField raw ["billId"]
      symbol := (optionalText raw ["instId"]).map (normalizeSymbol toUppercase)
      asset := (optionalText raw ["ccy"]).getD "USDT"
      amount := ← nonzeroNumber raw ["balChg", "pnl"]
      eventTimeMs := ← timestampField raw ["ts"] }
  | .okx, .interest => do
    let asset ← textField raw ["ccy"]
    let ts ← timestampField raw ["ts"]
    let amount ← numberField raw ["interest"]
    .ok {
      recordId := (optionalText raw ["billId"]).getD (madeUpId asset ts amount)
      symbol := none
      asset
      amount
      eventTimeMs := ts }
  | client, dataset =>
    let exchange := client.name
    let name := datasetName dataset
    .error s!"unsupported {exchange} {name} normalizer"

def normalizeCash (client : Client) (dataset : Dataset) (raw : Json) : Result CashRow := do
  let row ← cashFields toUppercase client dataset raw
  let _ ← parseNumber row.amount
  let name := datasetName dataset
  let exchange := client.name
  let recordId := row.recordId
  bailIf (row.eventTimeMs ≤ 0) s!"invalid {name} timestamp for {exchange}/{recordId}"
  .ok { row with asset := uppercase row.asset }

/-- The statement type that a dataset is asked for with. -/
def statementType : Dataset → Result String
  | .funding => .ok "FUNDING_FEE"
  | .interest => .ok "DEDUCT_INTEREST"
  | other =>
    let name := datasetName other
    .error s!"LTP statements do not support {name}"

/-- What an account is charged is a negative `deltaAmount`; as interest it is stored as a cost. -/
def ltpAmount (dataset : Dataset) (delta : String) : Result String :=
  if dataset = .interest then negateDecimal delta else signedDecimal delta

def normalizeLtpCash (dataset : Dataset) (raw : Json) : Result CashRow := do
  let found := uppercase (← textField raw ["statementType"])
  let expected ← statementType dataset
  let name := datasetName dataset
  bailIf (found ≠ expected) s!"unexpected LTP statementType {found} in {name} rows"
  let delta ← numberField raw ["deltaAmount"]
  let eventTimeMs ← timestampField raw ["createAt"]
  bailIf (eventTimeMs ≤ 0) s!"invalid LTP {name} timestamp"
  let symbol ← ((optionalText raw ["sym"]).mapM (ltpSymbolText toUppercase) :
    Result (Option String))
  let amount ← ltpAmount dataset delta
  let _ ← parseNumber amount
  .ok {
    recordId := ← textField raw ["statementId"]
    symbol
    asset := uppercase (← textField raw ["coin"])
    amount, eventTimeMs }

/-! ## Rebates and liquidations -/

structure RebateRow where
  recordId : String
  asset : String
  amount : String
  eventTimeMs : ℤ
  description : String
  direction : Option ℤ

/-- The direction has to be an `i16`. -/
def parseDirection (text : String) : Result ℤ :=
  match parseInt text.toList with
  | some n => if -2 ^ 15 ≤ n ∧ n < 2 ^ 15 then .ok n else .error "parse Binance rebate direction"
  | none => .error "parse Binance rebate direction"

def normalizeBinanceRebate (raw : Json) : Result RebateRow := do
  let recordId ← textField raw ["id"]
  let amount ← numberField raw ["amount"]
  let _ ← parseNumber amount
  let eventTimeMs ← timestampField raw ["divTime"]
  bailIf (eventTimeMs ≤ 0) s!"invalid rebate timestamp for Binance/{recordId}"
  let direction ← (optionalText raw ["direction"]).mapM parseDirection
  .ok {
    recordId
    asset := uppercase (← textField raw ["asset"])
    amount, eventTimeMs
    description := ← textField raw ["enInfo"]
    direction }

structure LiquidationRow where
  orderId : String
  symbol : String
  eventTimeMs : ℤ

def normalizeBinanceLiquidation (raw : Json) : Result LiquidationRow := do
  let orderId ← textField raw ["orderId"]
  let symbol := normalizeSymbol toUppercase (← textField raw ["symbol"])
  let _ ← numberField raw ["origQty"]
  let _ ← numberField raw ["executedQty"]
  let eventTimeMs ← timestampField raw ["time"]
  let _ ← ((optionalText raw ["updateTime"]).mapM fun _ => timestampField raw ["updateTime"] :
    Result (Option ℤ))
  let _ ← textField raw ["status"]
  let _ ← textField raw ["side"]
  .ok { orderId, symbol, eventTimeMs }

def normalizeGateLiquidation (multipliers : String → Option Float) (raw : Json) :
    Result LiquidationRow := do
  let contract ← textField raw ["contract"]
  let symbol := normalizeSymbol toUppercase contract
  let orderId ← textField raw ["order_id"]
  let _ ← numberField raw ["size"]
  let _ ← gateMultiplier multipliers (uppercase contract)
  let eventTimeMs ← timestampField raw ["time"]
  .ok { orderId, symbol, eventTimeMs }

/-! ## What identifies the rows -/

theorem makeTrade_ok {leg : Leg} {market symbol tradeId orderId side role price quantity : String}
    {quoteQuantity : Option String} {feeAmount feeAsset : String} {realizedPnl : Option String}
    {eventTimeMs : ℤ} {row : TradeRow}
    (h : makeTrade leg market symbol tradeId orderId side role price quantity quoteQuantity
      feeAmount feeAsset realizedPnl eventTimeMs = .ok row) :
    row.leg = leg ∧ row.market = market ∧ row.symbol = symbol ∧ row.tradeId = tradeId := by
  unfold makeTrade at h
  simp only [bind_eq_ok] at h
  obtain ⟨_, -, _, -, _, -, _, -, _, -, _, -, _, -, _, -, _, -, h⟩ := h
  cases h
  exact ⟨rfl, rfl, rfl, rfl⟩

end CryptoNav.History.Raw
