import CryptoNav.Export.Daily
import CryptoNav.History.Fields
import CryptoNav.Lib.Json
import Mathlib.Data.List.Sort

/-!
# Exporting history

`export_history` reads the trades, the funding and the interest of a strategy from the tables of its
schema, of which there are older and newer kinds, and writes them into daily files. A run may be of
one dataset or of all, and of a window of time. It stops at its first error, be it a table that
cannot be read or a file that cannot be written. Whatever runs there were, each at the database and
the disk of its moment, the file of a dataset and a date is as the last run that got to write it left
it: with the rows of that date, or with what was on the disk when writing it failed
(`file_of_runs`).

Numeric columns are of a type `Num` of which only the text, the value and what the queries compute
matter. Texts are compared by the collation of the database.
-/

set_option autoImplicit false

namespace CryptoNav.Export.History

open CryptoNav.Lib
open CryptoNav.History.Raw (lowercase uppercase)

inductive Dataset where
  | all
  | trades
  | funding
  | interest
  deriving DecidableEq

def Dataset.name : Dataset → String
  | all => "all"
  | trades => "trades"
  | funding => "funding"
  | interest => "interest"

inductive StrategyClass where
  | fr
  | intra
  | mm
  deriving DecidableEq

/-- The name of the variant. -/
def StrategyClass.debug : StrategyClass → String
  | fr => "Fr"
  | intra => "Intra"
  | mm => "Mm"

structure Strategy where
  slug : String
  schema : String
  exchange : String
  account : String
  kind : StrategyClass

def Strategy.supports (strategy : Strategy) : Dataset → Bool
  | .interest => strategy.kind ≠ .mm
  | _ => true

def selectedDatasets : Dataset → List Dataset
  | .all => [.trades, .funding, .interest]
  | value => [value]

def validateTimeRange (startMs endMs : Option ℤ) : Except String Unit :=
  if startMs.any (· < 0) || endMs.any (· < 0) then
    .error "start_ms and end_ms must be non-negative"
  else
    match startMs, endMs with
    | some start, some finish =>
      if start > finish then .error s!"start_ms {start} is later than end_ms {finish}" else .ok ()
    | _, _ => .ok ()

def validateTimestamp (timestamp : ℤ) (dataset id : String) : Except String Unit :=
  if minMillis ≤ timestamp ∧ timestamp ≤ maxMillis then .ok ()
  else .error s!"invalid {dataset} timestamp {timestamp} for record {id}"

def marketSid (market : String) : ℤ :=
  let market := lowercase market
  if market = "spot" || market = "margin" || "spot".toList.isSuffixOf market.toList then 1 else 0

def tradeKey (exchange : String) (sid : ℤ) : String :=
  (if exchange = "okex" then "okx" else exchange) ++ if sid = 1 then "spot" else "swap"

def stableAsset (asset : String) : Bool := asset = "USD" || asset = "USDC" || asset = "USDT"

def validIdentifier (value : String) : Bool :=
  match value.toList with
  | [] => false
  | c :: rest => c.isLower && rest.all fun c => c.isLower || c.isDigit || c = '_'

/-! ## Tables -/

/-- A numeric type of the database. -/
structure Numerics (Num : Type) where
  text : Num → String
  float : Num → Float
  mul : Num → Num → Num
  zero : Num

/-- Its texts are numbers. Which numbers they are is said by `float`, and nothing relates it to the
    queries. -/
def Numerics.Lawful {Num : Type} (num : Numerics Num) : Prop :=
  ∀ n, parseFloat (num.text n).toList = some (num.float n)

structure LiangTrade (Num : Type) where
  sid : ℤ
  key : String
  symbol : String
  id : Num
  orderId : Num
  side : String
  price : Num
  qty : Num
  amountu : Num
  fees : Num
  commissionAsset : String
  realizedPnl : Option Num
  ts : ℤ
  ttype : String
  positionSide : String

structure GenericTrade (Num : Type) where
  market : String
  symbol : String
  tradeId : String
  orderId : Option String
  side : Option String
  liquidityRole : Option String
  price : Num
  quantity : Num
  quoteQuantity : Option Num
  feeAmount : Option Num
  feeAsset : Option String
  realizedPnl : Option Num
  eventTimeMs : ℤ

structure BinanceFunding (Num : Type) where
  tranId : Num
  symbol : Option String
  income : String
  time : ℤ

structure BinanceInterest (Num : Type) where
  txId : Num
  asset : String
  interest : String
  interestAccuredTime : ℤ

structure TextFunding where
  id : String
  symbol : Option String
  funding : String
  transactionTime : ℤ

structure TextInterest where
  id : String
  currency : String
  interest : String
  transactionTime : ℤ

structure GenericCash (Num : Type) where
  recordId : String
  symbol : Option String
  asset : Option String
  amount : Num
  amountUsdt : Option Num
  eventTimeMs : ℤ
  raw : Option Json

inductive StoredTable (Num : Type) where
  | liangTrades (rows : List (LiangTrade Num))
  | genericTrades (rows : List (GenericTrade Num))
  | binanceFunding (rows : List (BinanceFunding Num))
  | binanceInterest (rows : List (BinanceInterest Num))
  | textFunding (rows : List TextFunding)
  | textInterest (rows : List TextInterest)
  | genericCash (rows : List (GenericCash Num))

def StoredTable.columns {Num : Type} : StoredTable Num → List String
  | liangTrades _ => ["sid", "key", "symbol", "id", "orderId", "side", "price", "qty", "amountu",
      "fees", "commissionAsset", "realizedPnl", "ts", "ttype", "positionSide"]
  | genericTrades _ => ["market", "symbol", "trade_id", "order_id", "side", "liquidity_role",
      "price", "quantity", "quote_quantity", "fee_amount", "fee_asset", "realized_pnl",
      "event_time_ms"]
  | binanceFunding _ => ["tranId", "symbol", "income", "time"]
  | binanceInterest _ => ["txId", "asset", "interest", "interestAccuredTime"]
  | textFunding _ => ["id", "symbol", "funding", "transactionTime"]
  | textInterest _ => ["id", "currency", "interest", "transactionTime"]
  | genericCash _ => ["record_id", "symbol", "asset", "amount", "amount_usdt", "event_time_ms", "raw"]

/-- The tables of a schema by their names. -/
abbrev Schema (Num : Type) := String → Option (StoredTable Num)

section
variable {Num : Type}

def tableExists (db : Schema Num) (table : String) : Bool := (db table).isSome

def columnExists (db : Schema Num) (table column : String) : Bool :=
  (db table).any fun stored => stored.columns.contains column

inductive TradeStorage where
  | liang
  | generic (table : String)

inductive CashStorage where
  | binance (table : String)
  | text (table : String)
  | generic (table : String)

def tradeStorage (db : Schema Num) (schema : String) : Except String TradeStorage :=
  if columnExists db "trades" "sid" then .ok .liang
  else
    match ["trades", "trade_fills"].find? (columnExists db · "event_time_ms") with
    | some table => .ok (.generic table)
    | none => .error s!"{schema} has no supported trade storage"

def genericFallback : Dataset → Except String String
  | .funding => .ok "funding_fees"
  | .interest => .ok "borrow_interest"
  | dataset => .error s!"cash storage requested for {dataset.name}"

/-- The storage of a table under the dataset's own name, if it is of a known kind. -/
def primaryStorage (db : Schema Num) (dataset : Dataset) : Option CashStorage :=
  let primary := dataset.name
  let binanceId := if dataset = .funding then "tranId" else "txId"
  if columnExists db primary "event_time_ms" then some (.generic primary)
  else if columnExists db primary binanceId then some (.binance primary)
  else if columnExists db primary "id" then some (.text primary)
  else none

def cashStorage (db : Schema Num) (schema : String) (dataset : Dataset) :
    Except String CashStorage := do
  let fallback ← genericFallback dataset
  match if tableExists db dataset.name then primaryStorage db dataset else none with
  | some storage => return storage
  | none =>
    if columnExists db fallback "event_time_ms" then return .generic fallback
    else .error s!"{schema} has no supported {dataset.name} storage"

end

/-! ## Queries -/

/-- `WHERE` of a time column. -/
def timeFilter (startMs endMs : Option ℤ) (ts : ℤ) : Bool :=
  startMs.all (· ≤ ts) && endMs.all (ts ≤ ·)

def compareTexts (collate : String → String → Ordering) : List String → List String → Ordering
  | a :: as, b :: bs => (collate a b).then (compareTexts collate as bs)
  | _, _ => .eq

/-- `ORDER BY` a time and texts. -/
def orderBy {α : Type} (collate : String → String → Ordering) (rank : α → ℤ × List String)
    (rows : List α) : List α :=
  rows.insertionSort fun a b => ((compare (rank a).1 (rank b).1).then
    (compareTexts collate (rank a).2 (rank b).2)).isLE

structure TradeCsvRow where
  sid : ℤ
  key : String
  symbol : String
  id : String
  orderId : String
  side : String
  price : String
  qty : String
  amountu : String
  fees : String
  commissionAsset : String
  realizedPnl : Option String
  ts : ℤ
  ttype : String
  positionSide : String

section
variable {Num : Type} (num : Numerics Num) (collate : String → String → Ordering)

def liangTradeRow (row : LiangTrade Num) : TradeCsvRow where
  sid := row.sid
  key := row.key
  symbol := row.symbol
  id := num.text row.id
  orderId := num.text row.orderId
  side := row.side
  price := num.text row.price
  qty := num.text row.qty
  amountu := num.text row.amountu
  fees := num.text row.fees
  commissionAsset := row.commissionAsset
  realizedPnl := row.realizedPnl.map num.text
  ts := row.ts
  ttype := row.ttype
  positionSide := row.positionSide

def genericTradeRow (exchange : String) (row : GenericTrade Num) : TradeCsvRow :=
  let sid := marketSid row.market
  { sid
    key := tradeKey exchange sid
    symbol := row.symbol
    id := row.tradeId
    orderId := row.orderId.getD ""
    side := row.side.getD ""
    price := num.text row.price
    qty := num.text row.quantity
    amountu := num.text (row.quoteQuantity.getD (num.mul row.price row.quantity))
    fees := num.text (row.feeAmount.getD num.zero)
    commissionAsset := row.feeAsset.getD "USDT"
    realizedPnl := row.realizedPnl.map num.text
    ts := row.eventTimeMs
    ttype := row.liquidityRole.getD ""
    positionSide := "BOTH" }

def validTrade (row : TradeCsvRow) : Except String TradeCsvRow :=
  (validateTimestamp row.ts "trade" row.id).map fun _ => row

def loadTradeRows (db : Schema Num) (strategy : Strategy) (storage : TradeStorage)
    (startMs endMs : Option ℤ) : Except String (List TradeCsvRow) :=
  match storage with
  | .liang =>
    match db "trades" with
    | some (.liangTrades rows) =>
      let found := orderBy collate (fun row => (row.ts, [row.key, row.symbol, num.text row.id]))
        (rows.filter fun row => timeFilter startMs endMs row.ts)
      (found.map (liangTradeRow num)).mapM validTrade
    | _ => .error s!"load Liang trades from {strategy.schema}.trades"
  | .generic table =>
    if !validIdentifier table then .error s!"invalid trade table name: {table}"
    else
      match db table with
      | some (.genericTrades rows) =>
        let found := orderBy collate
          (fun row => (row.eventTimeMs, [row.market, row.symbol, row.tradeId]))
          (rows.filter fun row => timeFilter startMs endMs row.eventTimeMs)
        (found.map (genericTradeRow num strategy.exchange)).mapM validTrade
      | _ => .error s!"load generic trades from {strategy.schema}.{table}"

structure CashRow where
  recordId : String
  symbol : Option String
  asset : String
  amount : String
  amountUsdt : Option String
  eventTimeMs : ℤ
  raw : String

/-- The rows of a cash table as the query of its kind returns them. -/
def cashQuery (dataset : Dataset) (storage : CashStorage) (db : Schema Num) :
    Option (List CashRow) :=
  match storage with
  | .binance table =>
    match dataset, db table with
    | .funding, some (.binanceFunding rows) => some <| rows.map fun row =>
        ⟨num.text row.tranId, row.symbol, "USDT", row.income, none, row.time, ""⟩
    | .interest, some (.binanceInterest rows) => some <| rows.map fun row =>
        ⟨num.text row.txId, none, row.asset, row.interest, none, row.interestAccuredTime, ""⟩
    | _, _ => none
  | .text table =>
    match dataset, db table with
    | .funding, some (.textFunding rows) => some <| rows.map fun row =>
        ⟨row.id, row.symbol, "USDT", row.funding, none, row.transactionTime, ""⟩
    | .interest, some (.textInterest rows) => some <| rows.map fun row =>
        ⟨row.id, none, row.currency, row.interest, none, row.transactionTime, ""⟩
    | _, _ => none
  | .generic table =>
    match db table with
    | some (.genericCash rows) => some <| rows.map fun row =>
        ⟨row.recordId, row.symbol, row.asset.getD "", num.text row.amount,
          row.amountUsdt.map num.text, row.eventTimeMs,
          (row.raw.map fun value => String.ofList value.text).getD ""⟩
    | _ => none

def CashStorage.table : CashStorage → String
  | binance table | text table | generic table => table

def cashAsset (dataset : Dataset) (asset : String) : String :=
  if dataset = .funding ∧ asset = "" then "USDT" else uppercase asset

def validCash (dataset : Dataset) (row : CashRow) : Except String CashRow :=
  (validateTimestamp row.eventTimeMs dataset.name row.recordId).map fun _ =>
    { row with asset := cashAsset dataset row.asset }

def loadCashRows (db : Schema Num) (schema : String) (dataset : Dataset) (storage : CashStorage)
    (startMs endMs : Option ℤ) : Except String (List CashRow) :=
  if !validIdentifier schema || !validIdentifier storage.table then
    .error "unsafe cash storage identifier"
  else
    match cashQuery num dataset storage db with
    | none => .error s!"load {dataset.name} rows from {schema}.{storage.table}"
    | some rows =>
      (orderBy collate (fun row => (row.eventTimeMs, [row.recordId]))
        (rows.filter fun row => timeFilter startMs endMs row.eventTimeMs)).mapM (validCash dataset)

end

/-! ## Records -/

def TradeCsvRow.header : Csv.Record :=
  ["sid", "key", "symbol", "id", "orderId", "side", "price", "qty", "amountu", "fees",
    "commissionAsset", "realizedPnl", "ts", "ttype", "positionSide"].map String.toList

def TradeCsvRow.record (row : TradeCsvRow) : Csv.Record :=
  [toString row.sid, row.key, row.symbol, row.id, row.orderId, row.side, row.price, row.qty,
    row.amountu, row.fees, row.commissionAsset, row.realizedPnl.getD "", toString row.ts, row.ttype,
    row.positionSide].map String.toList

def cashHeader : Csv.Record :=
  ["exchange", "account", "symbol", "asset", "amount", "amountu", "type", "record_id", "ts",
    "dt_utc", "dt_bj", "raw"].map String.toList

/-- The date and the time of day to the second, some seconds east of UTC. -/
def dateTimeText (ms offset : ℤ) : List Char :=
  let seconds := ms / 1000 + offset
  let ofDay := (seconds % 86400).toNat
  dateText (date (seconds / 86400)) ++ 'T' :: padded 2 (ofDay / 3600) ++
    ':' :: padded 2 (ofDay / 60 % 60) ++ ':' :: padded 2 (ofDay % 60)

def CashRow.amountu (row : CashRow) : String :=
  (row.amountUsdt.or (if stableAsset row.asset then some row.amount else none)).getD ""

def CashRow.record (strategy : Strategy) (dataset : Dataset) (row : CashRow) : Csv.Record :=
  [strategy.exchange, strategy.account, row.symbol.getD "", row.asset, row.amount, row.amountu,
    if dataset = .funding then "FUNDING_FEE" else "INTEREST", row.recordId,
    toString row.eventTimeMs].map String.toList ++
  [dateTimeText row.eventTimeMs 0 ++ "+00:00".toList, dateTimeText row.eventTimeMs 28800,
    row.raw.toList]

/-! ## Runs -/

structure Args where
  dataset : Dataset
  startMs : Option ℤ
  endMs : Option ℤ

section
variable {Num : Type} (num : Numerics Num) (collate : String → String → Ordering)
  (csv : CsvFormat) (strategy : Strategy)

/-- The rows with their times, each as its record. -/
def tradeWrite (rows : List TradeCsvRow) : DailyWrite :=
  ⟨"trade", "trades", TradeCsvRow.header, rows.map fun row => (row.ts, row.record)⟩

def cashWrite (dataset : Dataset) (rows : List CashRow) : DailyWrite :=
  ⟨dataset.name, dataset.name, cashHeader,
    rows.map fun row => (row.eventTimeMs, row.record strategy dataset)⟩

def writeTradeCsv (disk : Disk) (files : Files) (rows : List TradeCsvRow) :
    Files × Except String ℕ :=
  (tradeWrite rows).write csv disk files

def writeCashCsv (disk : Disk) (dataset : Dataset) (files : Files) (rows : List CashRow) :
    Files × Except String ℕ :=
  (cashWrite strategy dataset rows).write csv disk files

def loadTrades (db : Schema Num) (args : Args) : Except String (List TradeCsvRow) := do
  let storage ← tradeStorage db strategy.schema
  loadTradeRows num collate db strategy storage args.startMs args.endMs

def loadCash (db : Schema Num) (dataset : Dataset) (args : Args) : Except String (List CashRow) := do
  let storage ← cashStorage db strategy.schema dataset
  loadCashRows num collate db strategy.schema dataset storage args.startMs args.endMs

/-- The files, how many rows there are and how many files were written. -/
def exportDataset (db : Schema Num) (disk : Disk) (args : Args) (dataset : Dataset)
    (files : Files) : Files × Except String (ℕ × ℕ) :=
  match dataset with
  | .trades =>
    match loadTrades num collate strategy db args with
    | .error message => (files, .error message)
    | .ok rows =>
      let (files, written) := writeTradeCsv csv disk files rows
      (files, written.map (rows.length, ·))
  | dataset =>
    match loadCash num collate strategy db dataset args with
    | .error message => (files, .error message)
    | .ok rows =>
      let (files, written) := writeCashCsv csv strategy disk dataset files rows
      (files, written.map (rows.length, ·))

/-- The datasets one after another up to the first error. -/
def exportDatasets (db : Schema Num) (disk : Disk) (args : Args) :
    List Dataset → Files → Files × Except String Unit
  | [], files => (files, .ok ())
  | dataset :: rest, files =>
    if !strategy.supports dataset then
      if args.dataset = dataset then
        (files, .error (s!"{strategy.exchange} {strategy.kind.debug} does not support the " ++
          s!"{dataset.name} dataset"))
      else exportDatasets db disk args rest files
    else
      match exportDataset num collate csv strategy db disk args dataset files with
      | (files, .error _) => (files, .error s!"export {strategy.slug} {dataset.name}")
      | (files, .ok _) => exportDatasets db disk args rest files

def exportHistory (db : Schema Num) (disk : Disk) (args : Args) (files : Files) :
    Files × Except String Unit :=
  match validateTimeRange args.startMs args.endMs with
  | .error error => (files, .error error)
  | .ok () =>
    exportDatasets num collate csv strategy db disk args (selectedDatasets args.dataset) files

/-- A run, with the database and the disk as they are by then. -/
structure Run (Num : Type) where
  db : Schema Num
  disk : Disk
  args : Args

def afterRuns (files : Files) (runs : List (Run Num)) : Files :=
  runs.foldl
    (fun files run => (exportHistory num collate csv strategy run.db run.disk run.args files).1)
    files

end

/-! ## What runs write -/

theorem dated_of_validate {ts : ℤ} {dataset id : String}
    (h : validateTimestamp ts dataset id = .ok ()) : (utcDate ts).isSome := by
  unfold validateTimestamp at h
  split at h
  · next hrange =>
    rw [utcDate, if_pos hrange]
    rfl
  · cases h

theorem validTrade_eq_ok {row row' : TradeCsvRow} (h : validTrade row = .ok row') :
    row' = row ∧ (utcDate row.ts).isSome := by
  obtain ⟨⟨⟩, hvalid, rfl⟩ := map_eq_ok.mp h
  exact ⟨rfl, dated_of_validate hvalid⟩

theorem validCash_eq_ok {dataset : Dataset} {row row' : CashRow}
    (h : validCash dataset row = .ok row') : (utcDate row'.eventTimeMs).isSome := by
  obtain ⟨⟨⟩, hvalid, rfl⟩ := map_eq_ok.mp h
  exact dated_of_validate hvalid

theorem orderBy_perm {α : Type} (collate : String → String → Ordering) (rank : α → ℤ × List String)
    (rows : List α) : (orderBy collate rank rows).Perm rows := List.perm_insertionSort ..

section
variable {Num : Type} {num : Numerics Num} {collate : String → String → Ordering}
  {db : Schema Num} {strategy : Strategy}

/-- The trades of a schema, those of each kind taken as something. -/
def storedAs {β : Type} (liang : LiangTrade Num → β) (generic : GenericTrade Num → β)
    (db : Schema Num) : List β :=
  match db "trades" with
  | some (.liangTrades rows) => rows.map liang
  | some (.genericTrades rows) => rows.map generic
  | _ =>
    match db "trade_fills" with
    | some (.genericTrades rows) => rows.map generic
    | _ => []

def storedTrades (num : Numerics Num) (db : Schema Num) (exchange : String) : List TradeCsvRow :=
  storedAs (liangTradeRow num) (genericTradeRow num exchange) db

/-- Found, ordered and validated rows are the stored ones of the window. -/
theorem found_perm {α : Type} {stored : List α} {timestamp : α → ℤ} {rank : α → ℤ × List String}
    {toRow : α → TradeCsvRow} (hts : ∀ a, (toRow a).ts = timestamp a) {startMs endMs : Option ℤ}
    {rows : List TradeCsvRow}
    (h : ((orderBy collate rank (stored.filter fun a => timeFilter startMs endMs (timestamp a))).map
      toRow).mapM validTrade = .ok rows) :
    rows.Perm ((stored.map toRow).filter fun row => timeFilter startMs endMs row.ts) ∧
      ∀ row ∈ rows, (utcDate row.ts).isSome := by
  constructor
  · rw [eq_map_of_mapM (g := id) (fun a b hab => (validTrade_eq_ok hab).1) h, List.map_id,
      List.filter_map]
    refine ((orderBy_perm ..).map toRow).trans (.of_eq ?_)
    simp [Function.comp_def, hts]
  · intro row hrow
    obtain ⟨a, -, ha⟩ := mem_of_mapM h hrow
    obtain ⟨rfl, hdated⟩ := validTrade_eq_ok ha
    exact hdated

/-- The newer kind of trades is read from the table that is looked at first. -/
theorem storedTrades_generic {table : String} {stored : List (GenericTrade Num)}
    (hsid : ¬columnExists db "trades" "sid" = true)
    (hfind : ["trades", "trade_fills"].find? (columnExists db · "event_time_ms") = some table)
    (hstored : db table = some (.genericTrades stored)) :
    storedTrades num db strategy.exchange = stored.map (genericTradeRow num strategy.exchange) := by
  rw [List.find?_cons] at hfind
  split at hfind
  · cases hfind
    rw [storedTrades, storedAs, hstored]
  · next hnot =>
    rw [List.find?_singleton] at hfind
    split at hfind
    · cases hfind
      unfold storedTrades storedAs
      split
      · next rows hrows => simp [columnExists, hrows, StoredTable.columns] at hsid
      · next rows hrows => simp [columnExists, hrows, StoredTable.columns] at hnot
      · rw [hstored]
    · cases hfind

/-- **What is loaded** are the trades of the window, and each has a date. -/
theorem loadTrades_perm {args : Args} {rows : List TradeCsvRow}
    (h : loadTrades num collate strategy db args = .ok rows) :
    rows.Perm ((storedTrades num db strategy.exchange).filter fun row =>
        timeFilter args.startMs args.endMs row.ts) ∧
      ∀ row ∈ rows, (utcDate row.ts).isSome := by
  obtain ⟨storage, hstorage, h⟩ := bind_eq_ok.mp h
  unfold tradeStorage at hstorage
  split at hstorage
  case isTrue hsid =>
    cases hstorage
    simp only [loadTradeRows] at h
    split at h
    · next stored hstored =>
      rw [storedTrades, storedAs, hstored]
      exact found_perm (fun _ => rfl) h
    · cases h
  case isFalse hsid =>
    split at hstorage
    · next table hfind =>
      cases hstorage
      rw [loadTradeRows] at h
      by_cases hname : (!validIdentifier table) = true
      · rw [if_pos hname] at h
        cases h
      · rw [if_neg hname] at h
        split at h
        · next stored hstored =>
          rw [storedTrades_generic hsid hfind hstored]
          exact found_perm (fun _ => rfl) h
        · cases h
    · cases hstorage

theorem loadCash_dated {args : Args} {dataset : Dataset} {rows : List CashRow}
    (h : loadCash num collate strategy db dataset args = .ok rows) :
    ∀ row ∈ rows, (utcDate row.eventTimeMs).isSome := by
  obtain ⟨storage, -, h⟩ := bind_eq_ok.mp h
  unfold loadCashRows at h
  split at h
  · cases h
  · split at h
    · cases h
    · intro row hrow
      obtain ⟨a, -, ha⟩ := mem_of_mapM h hrow
      exact validCash_eq_ok ha

end

section
variable {Num : Type} (num : Numerics Num) (collate : String → String → Ordering)
  (csv : CsvFormat) (strategy : Strategy)

/-- What a dataset of a run has to write. -/
def datasetWrite (db : Schema Num) (args : Args) (dataset : Dataset) : Except String DailyWrite :=
  if dataset = .trades then (loadTrades num collate strategy db args).map tradeWrite
  else (loadCash num collate strategy db dataset args).map (cashWrite strategy dataset)

/-- What a run writes of some datasets: those it supports, up to the first error. -/
def datasetWrites (db : Schema Num) (disk : Disk) (args : Args) : List Dataset → List DailyWrite
  | [] => []
  | dataset :: rest =>
    if !strategy.supports dataset then
      if args.dataset = dataset then [] else datasetWrites db disk args rest
    else
      match datasetWrite num collate strategy db args dataset with
      | .error _ => []
      | .ok w => w :: if w.failing disk = [] then datasetWrites db disk args rest else []

/-- The writes of a run, each with the disk. -/
def writes (run : Run Num) : List (Disk × DailyWrite) :=
  if (validateTimeRange run.args.startMs run.args.endMs).isOk then
    (datasetWrites num collate strategy run.db run.disk run.args
      (selectedDatasets run.args.dataset)).map (run.disk, ·)
  else []

variable {num collate csv strategy}

theorem dataset_names (dataset : Dataset) : '_' ∉ dataset.name.toList := by
  cases dataset <;> decide

theorem datasetWrite_eq_ok {db : Schema Num} {args : Args} {dataset : Dataset} {w : DailyWrite}
    (h : datasetWrite num collate strategy db args dataset = .ok w) :
    w.dataset = dataset.name ∧ ∀ row ∈ w.rows, (utcDate row.1).isSome := by
  unfold datasetWrite at h
  split at h
  · next htrades =>
    obtain ⟨rows, hrows, rfl⟩ := map_eq_ok.mp h
    refine ⟨htrades ▸ rfl, fun row hrow => ?_⟩
    obtain ⟨trade, htrade, rfl⟩ := List.mem_map.mp hrow
    exact (loadTrades_perm hrows).2 trade htrade
  · obtain ⟨rows, hrows, rfl⟩ := map_eq_ok.mp h
    refine ⟨rfl, fun row hrow => ?_⟩
    obtain ⟨cash, hcash, rfl⟩ := List.mem_map.mp hrow
    exact loadCash_dated hrows cash hcash

/-- Exporting a dataset is its write, and fails where the rows cannot be loaded or written. -/
theorem exportDataset_eq (db : Schema Num) (disk : Disk) (args : Args) (dataset : Dataset)
    (files : Files) :
    exportDataset num collate csv strategy db disk args dataset files =
      match datasetWrite num collate strategy db args dataset with
      | .error message => (files, .error message)
      | .ok w => ((w.write csv disk files).1,
          (w.write csv disk files).2.map (w.rows.length, ·)) := by
  have hcash (dataset : Dataset) (rows : List CashRow) :
      (cashWrite strategy dataset rows).rows.length = rows.length := List.length_map _
  have htrades (rows : List TradeCsvRow) : (tradeWrite rows).rows.length = rows.length :=
    List.length_map _
  unfold exportDataset datasetWrite
  cases dataset with
  | trades =>
    simp only [if_true]
    cases loadTrades num collate strategy db args with
    | error message => rfl
    | ok rows => simp only [Except.map, htrades, writeTradeCsv]
  | all | funding | interest =>
    simp only [reduceCtorEq, if_false]
    cases loadCash num collate strategy db _ args with
    | error message => rfl
    | ok rows => simp only [Except.map, hcash, writeCashCsv]

/-- A run of the trades alone. -/
theorem exportHistory_trades {db : Schema Num} {disk : Disk} {startMs endMs : Option ℤ}
    {files files' : Files}
    (h : exportHistory num collate csv strategy db disk ⟨.trades, startMs, endMs⟩ files =
      (files', .ok ())) :
    ∃ rows n, loadTrades num collate strategy db ⟨.trades, startMs, endMs⟩ = .ok rows ∧
      (tradeWrite rows).write csv disk files = (files', .ok n) := by
  unfold exportHistory at h
  split at h
  · cases h
  · simp only [selectedDatasets, exportDatasets, Strategy.supports] at h
    rw [if_neg (by decide)] at h
    split at h
    · cases h
    · next written count hexport =>
      cases h
      unfold exportDataset at hexport
      simp only at hexport
      split at hexport
      · cases hexport
      · next rows hrows =>
        obtain ⟨hfiles, hwritten⟩ := Prod.mk.inj hexport
        obtain ⟨n, hn, -⟩ := map_eq_ok.mp hwritten
        exact ⟨rows, n, hrows, Prod.ext hfiles hn⟩

/-- The files that a run leaves are those of its writes. -/
theorem exportDatasets_files (db : Schema Num) (disk : Disk) (args : Args)
    (datasets : List Dataset) (files : Files) :
    (exportDatasets num collate csv strategy db disk args datasets files).1 =
      (datasetWrites num collate strategy db disk args datasets).foldl
        (fun files w => (w.write csv disk files).1) files := by
  induction datasets generalizing files with
  | nil => rfl
  | cons dataset rest ih =>
    simp only [datasetWrites, exportDatasets]
    split
    · split
      · rfl
      · exact ih files
    · rw [exportDataset_eq]
      cases hwrite : datasetWrite num collate strategy db args dataset with
      | error message => rfl
      | ok w =>
        have hok : (w.write csv disk files).2.isOk ↔ w.failing disk = [] :=
          DailyWrite.write_isOk (datasetWrite_eq_ok hwrite).2
        simp only
        cases hresult : (w.write csv disk files).2 with
        | error message =>
          rw [hresult] at hok
          rw [if_neg fun hnone => Bool.false_ne_true (hok.mpr hnone)]
          rfl
        | ok n =>
          rw [hresult] at hok
          rw [if_pos (hok.mp rfl)]
          exact ih _

theorem mem_datasetWrites {db : Schema Num} {disk : Disk} {args : Args} {datasets : List Dataset}
    {w : DailyWrite} (h : w ∈ datasetWrites num collate strategy db disk args datasets) :
    ∃ dataset, datasetWrite num collate strategy db args dataset = .ok w := by
  induction datasets with
  | nil => cases h
  | cons dataset rest ih =>
    simp only [datasetWrites] at h
    split at h
    · split at h
      · cases h
      · exact ih h
    · split at h
      · cases h
      · next first hfirst =>
        rcases List.mem_cons.mp h with rfl | h
        · exact ⟨dataset, hfirst⟩
        · split at h
          · exact ih h
          · cases h

theorem mem_writes {run : Run Num} {entry : Disk × DailyWrite}
    (h : entry ∈ writes num collate strategy run) :
    ∃ dataset, datasetWrite num collate strategy run.db run.args dataset = .ok entry.2 := by
  unfold writes at h
  split at h
  · obtain ⟨w, hw, rfl⟩ := List.mem_map.mp h
    exact mem_datasetWrites hw
  · cases h

theorem afterRuns_eq (files : Files) (runs : List (Run Num)) :
    afterRuns num collate csv strategy files runs =
      (runs.flatMap (writes num collate strategy)).foldl
        (fun files entry => (entry.2.write csv entry.1 files).1) files := by
  induction runs generalizing files with
  | nil => rfl
  | cons run runs ih =>
    rw [List.flatMap_cons, List.foldl_append, ← ih, afterRuns, List.foldl_cons, ← afterRuns]
    congr 1
    unfold exportHistory writes
    cases validateTimeRange run.args.startMs run.args.endMs with
    | error message => rfl
    | ok _ =>
      simp only [Except.isOk, Except.toBool, if_true, List.foldl_map]
      exact exportDatasets_files ..

/-- **The file of a date** is as the last run that got to it left it, whatever the other runs wrote
    or failed at, and as it was if there is no such run. A run that fails at an earlier date, or at
    another dataset that it takes first, has not got to it. -/
theorem file_of_runs (num : Numerics Num) (collate : String → String → Ordering) (csv : CsvFormat)
    (strategy : Strategy) (files : Files) (runs : List (Run Num)) (dataset : Dataset)
    (date : String) :
    (afterRuns num collate csv strategy files runs).get (fileName dataset.name date) =
      ((runs.flatMap (writes num collate strategy)).filterMap fun entry =>
        entry.2.leftFor csv entry.1 dataset.name date).getLast?.or
          (files.get (fileName dataset.name date)) := by
  have hmem : ∀ entry ∈ runs.flatMap (writes num collate strategy),
      ∃ db args dataset, datasetWrite num collate strategy db args dataset = .ok entry.2 := by
    intro entry hentry
    obtain ⟨run, -, hentry⟩ := List.mem_flatMap.mp hentry
    obtain ⟨dataset, hwrite⟩ := mem_writes hentry
    exact ⟨run.db, run.args, dataset, hwrite⟩
  rw [afterRuns_eq]
  refine DailyWrite.get_afterWrites files (fun entry hentry => ?_) (fun entry hentry => ?_)
    (dataset_names dataset) date
  · obtain ⟨db, args, dataset, hwrite⟩ := hmem entry hentry
    exact (datasetWrite_eq_ok hwrite).2
  · obtain ⟨db, args, dataset, hwrite⟩ := hmem entry hentry
    rw [(datasetWrite_eq_ok hwrite).1]
    exact dataset_names dataset

end

end CryptoNav.Export.History
