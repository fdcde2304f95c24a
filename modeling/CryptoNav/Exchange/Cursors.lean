import CryptoNav.Exchange.Okx
import CryptoNav.Exchange.Pager

/-!
# The lists that are read by cursor

Bybit's `paged_rows` and liquidation orders, Bitget's fills, liquidation orders and financial records,
and OKX's fills and bills, as instances of one loop. Only `paged_rows` refuses a cursor that it has
seen: Bybit's liquidation orders end there as if nothing followed, and the others look no further back
than to the cursor before. Away from repeated and from overlooked cursors each of them ends with the
last page of every chunk (`cursor_pages_read`); OKX's end, too, on a page that reaches back to before
the range (`past_page_not_last`).

Each list keeps the definitions of its own function, under the source's name and with its own
fields, limits and tests, and then one theorem about all seven; where a list does something that
no other does, that is a field of the loop. The answers are whatever a server returns. A server
whose cursors never repeat makes all of the conditions hold, and nothing in the clients makes it
one.
-/

set_option autoImplicit false

namespace CryptoNav.Exchange

open CryptoNav.Lib
open CryptoNav.History (i64Max)
open CryptoNav.History.Raw (TimeRange uppercase dedup valueI64 textRow)
open Okx (optionalParam)

/-- The text under a key. -/
def asStr (row : Json) (key : String) : Option String :=
  match row.get key with
  | some (.string text) => some text
  | _ => none

/-- The first of the keys that holds an integer. -/
def firstI64 (keys : List String) (row : Json) : Option ℤ := keys.findSome? (valueI64 row)

/-- `sort_by_key`, of the first key with a number and zero without one. -/
def sortByKeys (keys : List String) (rows : List Json) : List Json :=
  sortByKey (fun row => (firstI64 keys row).getD 0) rows

def timeParams (startName endName : String) (range : TimeRange) (limit : ℕ) : Params :=
  [(startName, toString range.startMs), (endName, toString range.endMs), ("limit", toString limit)]

/-- The `list` of a page, which may be missing. -/
def listOrEmpty (body : Json) : List Json :=
  match body.get "list" with
  | some (.array items) => items
  | _ => []

/-! ## Bybit -/

namespace Bybit

def exchange : String := "bybit"

def sevenDaysMs : ℤ := 7 * 24 * 60 * 60 * 1000

def pageLimit : ℕ := 50

/-- `private_get`, of the path, the parameters and the weight. -/
abbrev PrivateGet := String → Params → ℕ → Except ExchangeError Json

inductive Category where
  | spot
  | linear
  | inverse
  | option

def Category.apiValue : Category → String
  | spot => "spot"
  | linear => "linear"
  | inverse => "inverse"
  | option => "option"

def requireDerivatives (category : Category) (operation : String) : Except ExchangeError Unit :=
  match category with
  | .linear | .inverse => .ok ()
  | _ => .error (.invalidQuery s!"Bybit {operation} only supports linear or inverse")

/-- The `list` of a result, or what the error calls it. -/
def listOf (result : Option Json) (label : String) : Except ExchangeError (List Json) :=
  match result.bind (·.get "list") with
  | some (.array items) => .ok items
  | _ => .error (.invalidResponse exchange s!"{label} response is missing result.list")

def resultList (value : Json) (label : String) : Except ExchangeError (List Json) :=
  listOf (value.get "result") label

/-- A page that every row of is kept, with the cursor in the result. -/
def rowsAnswer (path : String) (value : Json) : Except ExchangeError Answer := do
  let page ← resultList value path
  pure { page, kept := page, holder := (value.get "result").getD .null, past := false }

/-- `BybitClient::paged_rows` -/
def pagedScan (privateGet : PrivateGet) (path : String) (baseParams : Params) (limit : ℕ) :
    Scan where
  fields := ["nextPageCursor"]
  limit := limit
  stopsShort := false
  guard := .seen
  repeated := some (.invalidResponse exchange s!"{path} pagination cursor did not advance")
  check := .ok
  span := some sevenDaysMs
  ask _ chunk cursor := do
    let value ← privateGet path
      (baseParams ++ timeParams "startTime" "endTime" chunk limit ++ optionalParam "cursor" cursor) 1
    rowsAnswer path value
  finish := id

def pagedRows (privateGet : PrivateGet) (path : String) (baseParams : Params) (range : TimeRange)
    (limit : ℕ) : Routine ExchangeError (List Json) :=
  (pagedScan privateGet path baseParams limit).rows range

def isLiquidationOrder (row : Json) : Bool :=
  asStr row "createType" = some "CreateByLiq" ||
    asStr row "createType" = some "CreateByTakeOver_PassThrough"

def orderTimeMs : Json → Option ℤ := firstI64 ["createdTime", "updatedTime"]

def orderAnswer (chunk : TimeRange) (value : Json) : Except ExchangeError Answer := do
  let result ← match value.get "result" with
    | some (.object fields) => pure (Json.object fields)
    | _ => .error (.invalidResponse exchange "order history response is missing result object")
  let page ← listOf (some result) "order history"
  let kept := page.filter fun row => isLiquidationOrder row && rowInRange orderTimeMs chunk row
  pure { page, kept, holder := result, past := false }

/-- `BybitClient::liquidation_orders` -/
def liquidationScan (privateGet : PrivateGet) (category : Category) (symbol : Option String) :
    Scan where
  fields := ["nextPageCursor"]
  limit := pageLimit
  stopsShort := false
  guard := .seen
  repeated := none
  check range := do
    requireDerivatives category "liquidation orders"
    newTimeRange range.startMs range.endMs
  span := some sevenDaysMs
  ask _ chunk cursor := do
    let params := [("category", category.apiValue)] ++
      timeParams "startTime" "endTime" chunk pageLimit ++
      optionalParam "symbol" (symbol.map uppercase) ++ optionalParam "cursor" cursor
    let value ← privateGet "/v5/order/history" params 1
    orderAnswer chunk value
  finish rows := sortByKeys ["createdTime", "updatedTime"]
    (dedup ["orderId", "symbol", "createType"] rows)

def liquidationOrders (privateGet : PrivateGet) (category : Category) (symbol : Option String)
    (range : TimeRange) : Routine ExchangeError (List Json) :=
  (liquidationScan privateGet category symbol).rows range

end Bybit

/-! ## Bitget -/

namespace Bitget

def exchange : String := "bitget"

def thirtyDaysMs : ℤ := 30 * 24 * 60 * 60 * 1000

def pageLimit : ℕ := 100

/-- `history_get`, of the path and the parameters. -/
abbrev HistoryGet := String → Params → Except ExchangeError Json

inductive ProductCategory where
  | spot
  | margin
  | usdtFutures
  | coinFutures
  | usdcFutures

def ProductCategory.bitgetValue : ProductCategory → String
  | spot => "SPOT"
  | margin => "MARGIN"
  | usdtFutures => "USDT-FUTURES"
  | coinFutures => "COIN-FUTURES"
  | usdcFutures => "USDC-FUTURES"

/-- A page of the list that an error calls `label`. -/
def listAnswer (label : String) (keeps : Json → Bool) (value : Json) :
    Except ExchangeError Answer := do
  let body ← match value.get "data" with
    | some (.object fields) => pure (Json.object fields)
    | _ => .error (.invalidResponse exchange s!"{label} response is missing data object")
  let page := listOrEmpty body
  pure { page, kept := page.filter keeps, holder := body, past := false }

def listParams (category : String) (chunk : TimeRange) (name : String)
    (value cursor : Option String) : Params :=
  [("category", category)] ++ timeParams "startTime" "endTime" chunk pageLimit ++
    optionalParam name value ++ optionalParam "cursor" cursor

/-- `BitgetClient::fills` -/
def fillsScan (historyGet : HistoryGet) (category : ProductCategory) (symbol : Option String) :
    Scan where
  fields := ["cursor", "nextCursor", "endId"]
  limit := pageLimit
  stopsShort := true
  guard := .previous
  repeated := none
  check := .ok
  span := some thirtyDaysMs
  ask _ chunk cursor := do
    let value ← historyGet "/api/v3/trade/fills"
      (listParams category.bitgetValue chunk "symbol" symbol cursor)
    listAnswer "fills" (fun _ => true) value
  finish rows := sortByKeys ["createdTime", "cTime", "ts"] (dedup ["execId", "orderId", "symbol"] rows)

def fills (historyGet : HistoryGet) (category : ProductCategory) (symbol : Option String)
    (range : TimeRange) : Routine ExchangeError (List Json) :=
  (fillsScan historyGet category symbol).rows range

def isLiquidationOrder (row : Json) : Bool :=
  asStr row "execType" = some "liquidation" ||
    (asStr row "delegateType").any fun text =>
      text = "liquidation" || "liquidation_take_over_".toList.isPrefixOf text.toList

def rowTimeMs : Json → Option ℤ := firstI64 ["updatedTime", "createdTime"]

/-- `BitgetClient::liquidation_orders`. The rows are those of the whole range, not of the chunk. -/
def liquidationScan (historyGet : HistoryGet) (category : ProductCategory)
    (symbol : Option String) : Scan where
  fields := ["cursor"]
  limit := pageLimit
  stopsShort := true
  guard := .previous
  repeated := none
  check range := newTimeRange range.startMs range.endMs
  span := some thirtyDaysMs
  ask range chunk cursor := do
    let value ← historyGet "/api/v3/trade/history-orders"
      (listParams category.bitgetValue chunk "symbol" symbol cursor)
    listAnswer "history-orders" (fun row => isLiquidationOrder row && rowInRange rowTimeMs range row)
      value
  finish rows := sortByKeys ["updatedTime", "createdTime"]
    (dedup ["orderId", "symbol", "updatedTime"] rows)

def liquidationOrders (historyGet : HistoryGet) (category : ProductCategory)
    (symbol : Option String) (range : TimeRange) : Routine ExchangeError (List Json) :=
  (liquidationScan historyGet category symbol).rows range

/-- `BitgetClient::financial_records_for_category` -/
def recordsScan (historyGet : HistoryGet) (category : String) (recordType : Option String) :
    Scan where
  fields := ["cursor", "nextCursor", "endId"]
  limit := pageLimit
  stopsShort := true
  guard := .previous
  repeated := none
  check := .ok
  span := some thirtyDaysMs
  ask _ chunk cursor := do
    let value ← historyGet "/api/v3/account/financial-records"
      (listParams category chunk "type" recordType cursor)
    listAnswer "financial-records" (fun _ => true) value
  finish rows := sortByKeys ["createdTime", "cTime", "ts"]
    (dedup ["id", "bizId", "type", "createdTime"] rows)

def financialRecords (historyGet : HistoryGet) (category : ProductCategory)
    (recordType : Option String) (range : TimeRange) : Routine ExchangeError (List Json) :=
  (recordsScan historyGet category.bitgetValue recordType).rows range

end Bitget

/-! ## OKX -/

namespace Okx

/-- A page with the cursor in its last row. -/
def pageAnswer (range : TimeRange) (value : Json) : Except ExchangeError Answer := do
  let page ← dataArray "okx" value
  match page.getLast? with
  -- An empty page is shorter than the limit.
  | none => pure { page, kept := [], holder := .null, past := false }
  | some last =>
    let lastTs := (valueI64 last "ts").getD 0
    let kept := page.filter (rowInRange (valueI64 · "ts") range)
    pure { page, kept, holder := last, past := decide (lastTs < range.startMs) }

/-- The loop over the pages after a bill, which is not cut into chunks. -/
def billScan (privateGet : PrivateGet) (path : String) (params : TimeRange → Params)
    (keys : List String) : Scan where
  fields := ["billId"]
  limit := pageLimit
  stopsShort := true
  guard := .previous
  repeated := none
  check := .ok
  span := none
  ask _ range cursor := do
    let value ← privateGet path (params range ++ optionalParam "after" cursor) 1
    pageAnswer range value
  finish rows := sortByKeys ["ts"] (dedup keys rows)

def fillsScan (privateGet : PrivateGet) (instrumentType : InstrumentType)
    (instrumentId : Option String) : Scan :=
  billScan privateGet "/api/v5/trade/fills-history"
    (fun range => [("instType", instrumentType.value)] ++ timeParams "begin" "end" range pageLimit ++
      optionalParam "instId" instrumentId)
    ["instType", "instId", "tradeId"]

/-- `OkxClient::fills` -/
def fills (privateGet : PrivateGet) (instrumentType : InstrumentType) (instrumentId : Option String)
    (range : TimeRange) : Routine ExchangeError (List Json) :=
  (fillsScan privateGet instrumentType instrumentId).rows range

def billsScan (privateGet : PrivateGet) (endpoint : String) (instrumentType : Option InstrumentType)
    (billType subType : Option String) : Scan :=
  billScan privateGet endpoint
    (fun range => timeParams "begin" "end" range pageLimit ++
      optionalParam "instType" (instrumentType.map (·.value)) ++ optionalParam "type" billType ++
      optionalParam "subType" subType)
    ["billId", "instId", "ts"]

/-- `OkxClient::bills` -/
def bills (privateGet : PrivateGet) (endpoint : String) (instrumentType : Option InstrumentType)
    (billType subType : Option String) (range : TimeRange) : Routine ExchangeError (List Json) :=
  (billsScan privateGet endpoint instrumentType billType subType).rows range

end Okx

/-! ## The seven lists -/

inductive CursorList where
  | bybitPagedRows (privateGet : Bybit.PrivateGet) (path : String) (baseParams : Params) (limit : ℕ)
  | bybitLiquidationOrders (privateGet : Bybit.PrivateGet) (category : Bybit.Category)
      (symbol : Option String)
  | bitgetFills (historyGet : Bitget.HistoryGet) (category : Bitget.ProductCategory)
      (symbol : Option String)
  | bitgetLiquidationOrders (historyGet : Bitget.HistoryGet) (category : Bitget.ProductCategory)
      (symbol : Option String)
  | bitgetFinancialRecords (historyGet : Bitget.HistoryGet) (category : Bitget.ProductCategory)
      (recordType : Option String)
  | okxFills (privateGet : Okx.PrivateGet) (instrumentType : Okx.InstrumentType)
      (instrumentId : Option String)
  | okxBills (privateGet : Okx.PrivateGet) (endpoint : String)
      (instrumentType : Option Okx.InstrumentType) (billType subType : Option String)

namespace CursorList

def scan : CursorList → Scan
  | bybitPagedRows privateGet path baseParams limit =>
    Bybit.pagedScan privateGet path baseParams limit
  | bybitLiquidationOrders privateGet category symbol =>
    Bybit.liquidationScan privateGet category symbol
  | bitgetFills historyGet category symbol => Bitget.fillsScan historyGet category symbol
  | bitgetLiquidationOrders historyGet category symbol =>
    Bitget.liquidationScan historyGet category symbol
  | bitgetFinancialRecords historyGet category recordType =>
    Bitget.recordsScan historyGet category.bitgetValue recordType
  | okxFills privateGet instrumentType instrumentId =>
    Okx.fillsScan privateGet instrumentType instrumentId
  | okxBills privateGet endpoint instrumentType billType subType =>
    Okx.billsScan privateGet endpoint instrumentType billType subType

def rows (list : CursorList) (range : TimeRange) : Routine ExchangeError (List Json) :=
  match list with
  | bybitPagedRows privateGet path baseParams limit =>
    Bybit.pagedRows privateGet path baseParams range limit
  | bybitLiquidationOrders privateGet category symbol =>
    Bybit.liquidationOrders privateGet category symbol range
  | bitgetFills historyGet category symbol => Bitget.fills historyGet category symbol range
  | bitgetLiquidationOrders historyGet category symbol =>
    Bitget.liquidationOrders historyGet category symbol range
  | bitgetFinancialRecords historyGet category recordType =>
    Bitget.financialRecords historyGet category recordType range
  | okxFills privateGet instrumentType instrumentId =>
    Okx.fills privateGet instrumentType instrumentId range
  | okxBills privateGet endpoint instrumentType billType subType =>
    Okx.bills privateGet endpoint instrumentType billType subType range

theorem rows_eq (list : CursorList) (range : TimeRange) :
    list.rows range = list.scan.rows range := by
  cases list <;> rfl

theorem span_pos (list : CursorList) : ∀ span ∈ list.scan.span, 0 < span := by
  intro span hspan
  cases list with
  | okxFills | okxBills => cases hspan
  | _ =>
    cases hspan
    decide

/-- The range is read as it is given. -/
theorem check_eq (list : CursorList) {range checked : TimeRange}
    (h : list.scan.check range = .ok checked) : checked = range := by
  cases list with
  | bybitLiquidationOrders privateGet category symbol =>
    obtain ⟨-, -, hnew⟩ := bind_eq_ok.mp h
    exact (valid_of_newTimeRange hnew).2
  | bitgetLiquidationOrders => exact (valid_of_newTimeRange h).2
  | _ =>
    cases h
    rfl

end CursorList

/-- **A list is read to the last page of every chunk, or to an error**, wherever the server has
    finitely many cursors and a loop that knows only its last one is not led back to an older one.
    -/
theorem cursor_pages_read (list : CursorList) {range : TimeRange}
    (hrange : list.scan.span = none ∨ range.endMs < i64Max ∨ range.endMs < range.startMs)
    (hfinite : ∀ chunk, list.scan.FinitelyMany (list.scan.ask range chunk))
    (hback : ∀ chunk, list.scan.Reaches range chunk →
      list.scan.NeverBack (list.scan.ask range chunk)) :
    (list.rows range).Ends ∧
      ∀ rows, (list.rows range).Gives (.ok rows) → list.scan.ReadAll range := by
  rw [list.rows_eq]
  exact Scan.rows_total
    (Scan.walks_total list.span_pos (fun _ => list.check_eq) hrange hfinite hback)

/-- Bitget's fills, first a full page and with its cursor a short one. -/
def twoPages : Bitget.HistoryGet := fun _ params =>
  let (count, cursor) := if params.any (·.1 = "cursor") then (1, "") else (100, "after")
  let page := List.replicate count (textRow [("execId", "7")])
  .ok (.object [("data", .object [("list", .array page), ("cursor", .string cursor)])])

theorem two_pages_read :
    ((CursorList.bitgetFills twoPages .spot none).rows ⟨0, 1000⟩).Ends ∧
      ∀ rows, ((CursorList.bitgetFills twoPages .spot none).rows ⟨0, 1000⟩).Gives (.ok rows) →
        (CursorList.bitgetFills twoPages .spot none).scan.ReadAll ⟨0, 1000⟩ := by
  have hshort : ∀ range chunk cursor answer,
      (CursorList.bitgetFills twoPages .spot none).scan.ask range chunk (some cursor) = .ok answer →
      nextCursor ["cursor", "nextCursor", "endId"] answer.holder = none := by
    rintro range chunk cursor answer ⟨⟩
    rfl
  refine cursor_pages_read _ (.inr (.inl (by decide))) (fun chunk => ⟨["after"], ?_⟩)
    fun chunk _ _ trail cursor htrail hnext hmem => ?_
  · rintro (_ | cursor) answer next hask hnext
    · cases hask
      cases hnext
      exact List.mem_singleton.mpr rfl
    · cases (hshort _ _ _ _ hask).symm.trans hnext
  · cases htrail with
    | nil => cases hmem
    | cons =>
      obtain ⟨answer, hask, -, hcursor⟩ := CursorLoop.exists_answer hnext
      cases (hshort _ _ _ _ hask).symm.trans hcursor

def oldBill : Json := textRow [("billId", "b"), ("ts", "1699999999999")]

/-- OKX's bills, always the same full page. -/
def oldPage : Okx.PrivateGet := fun _ _ _ => .ok (.object [("data", .array (List.replicate 100 oldBill))])

def oldBills : Scan := Okx.billsScan oldPage "/api/v5/account/bills" none none none

theorem oldBills_ask (range chunk : TimeRange) (cursor : Option String) :
    oldBills.ask range chunk cursor = .ok {
      page := List.replicate 100 oldBill
      kept := (List.replicate 100 oldBill).filter (rowInRange (valueI64 · "ts") chunk)
      holder := oldBill
      past := decide (1699999999999 < chunk.startMs) } := by
  rfl

/-- Where the page is from before the range, it is the last that is read, full and with a cursor. -/
theorem past_page_not_last :
    (∀ chunk, oldBills.FinitelyMany (oldBills.ask ⟨1700000000000, 1700000001000⟩ chunk)) ∧
    (∃ rows, (oldBills.rows ⟨1700000000000, 1700000001000⟩).Gives (.ok rows)) ∧
    ∃ walks, (oldBills.walks ⟨1700000000000, 1700000001000⟩).Gives (.ok walks) ∧
      ∃ walk ∈ walks, ¬oldBills.Last walk.last := by
  let range : TimeRange := ⟨1700000000000, 1700000001000⟩
  have hnext : oldBills.next (oldBills.ask range range) none = none := by
    rw [CursorLoop.next_eq (oldBills_ask range range none)]
    exact if_pos (Bool.or_eq_true_iff.mpr (.inr (by decide)))
  have hwalk := CursorLoop.walk_first (oldBills_ask range range none) hnext
  have hwalks := Scan.walks_single rfl rfl hwalk
  refine ⟨fun chunk => ⟨["b"], ?_⟩, ⟨_, (Routine.gives_bind_ok hwalks).mpr
    (Routine.gives_pure.mpr rfl)⟩, _, hwalks, _, List.mem_singleton.mpr rfl, ?_⟩
  · rintro cursor answer next hask hnext
    cases (oldBills_ask range chunk cursor).symm.trans hask
    cases hnext
    exact List.mem_singleton.mpr rfl
  · rintro (hshort | hcarries)
    · exact absurd hshort (by decide)
    · exact hcarries ⟨"billId", List.mem_singleton.mpr rfl, by decide⟩

/-- **A list whose loop knows its last cursor only never ends** where a chunk leads it back. -/
theorem led_back_never (list : CursorList) {range chunk : TimeRange}
    (hcheck : list.scan.check range = .ok range) (hreach : list.scan.Reaches range chunk)
    (hback : ¬list.scan.NeverBack (list.scan.ask range chunk)) : ¬(list.rows range).Ends := by
  rw [list.rows_eq]
  exact Scan.rows_never hcheck hreach (CursorLoop.walk_never hback)

end CryptoNav.Exchange
