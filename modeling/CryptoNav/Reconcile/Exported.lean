import CryptoNav.Exchange.Client
import CryptoNav.Export.History
import CryptoNav.Lib.Balance
import CryptoNav.Reconcile.Groups

/-!
# Reading the export back

`reconcile_rocksdb` has the trades of its window exported into a directory and groups what it reads
from the CSV files there. A directory is listed in an order of its own, so the rows arrive in another
order than they were written in, but they are the stored trades of the window: none is lost on the
way through the files, none comes twice, and what is read of each is what is stored
(`pgDirectory_of_export`).

The exporter is the one of `Export.History`, here run for one dataset into a directory that was
empty. The text of a number goes through the file unchanged and is parsed on the other side, so
no rounding is involved but that of the reader. A file that is left over from another run would
be read as well: the directory is a new one for each run, which is `WorkDirs`.
-/

set_option autoImplicit false

namespace CryptoNav.Reconcile

open CryptoNav.Lib
open CryptoNav.Export
open CryptoNav.Export.History

/-- `Path::extension` of a file name. -/
def extension (name : List Char) : Option (List Char) :=
  match rsplitOnce '.' name with
  | some (before, after) => if before = [] then none else some after
  | none => none

def isTradeCsv (name : String) : Bool :=
  extension name.toList = some "csv".toList && "trades_".toList.isPrefixOf name.toList

/-- The value of a column that the header names once. -/
def column (header record : Csv.Record) (name : String) : Option (List Char) :=
  match (header.zip record).filter (·.1 = name.toList) with
  | [(_, value)] => some value
  | _ => none

def pgTradeRow (header record : Csv.Record) : Option PgTradeRow := do
  let sid ← column header record "sid"
  let symbol ← column header record "symbol"
  let id ← column header record "id"
  let orderId ← column header record "orderId"
  let side ← column header record "side"
  let qty ← (column header record "qty").bind parseFloat
  let ts ← (column header record "ts").bind parseInt
  return { sid := .ofList sid, symbol := .ofList symbol, id := .ofList id
           orderId := .ofList orderId, side := .ofList side, qty, ts }

section
variable (csv : CsvFormat) (directory : String) (startMs endMs : ℤ)
  (symbols : Option (List String)) (exclusions : List (Market × String))

def pgRecord (path : String) (header : Csv.Record) (acc : Groups × List SeenTrade)
    (record : Csv.Record) : Except String (Groups × List SeenTrade) :=
  match pgTradeRow header record with
  | none => .error s!"read {path}"
  | some row => pgRow startMs endMs symbols exclusions acc row

def pgFile (acc : Groups × List SeenTrade) (file : File) :
    Except String (Groups × List SeenTrade) :=
  let path := directory ++ "/" ++ file.name
  match csv.read file.text with
  | none => .error s!"read {path}"
  | some [] => .ok acc
  | some (header :: records) =>
    records.foldlM (pgRecord startMs endMs symbols exclusions path header) acc

/-- The groups of a directory that is listed in some order. -/
def pgDirectory (listing : List File) : Except String Groups :=
  (listing.foldlM (fun acc file =>
    if isTradeCsv file.name then pgFile csv directory startMs endMs symbols exclusions acc file
    else .ok acc) (.empty, [])).map Prod.fst

end

/-! ## One record -/

section
variable {Num : Type} {num : Numerics Num}

def liangPgRow (num : Numerics Num) (row : LiangTrade Num) : PgTradeRow where
  sid := toString row.sid
  symbol := row.symbol
  id := num.text row.id
  orderId := num.text row.orderId
  side := row.side
  qty := num.float row.qty
  ts := row.ts

def genericPgRow (num : Numerics Num) (row : GenericTrade Num) : PgTradeRow where
  sid := toString (marketSid row.market)
  symbol := row.symbol
  id := row.tradeId
  orderId := row.orderId.getD ""
  side := row.side.getD ""
  qty := num.float row.quantity
  ts := row.eventTimeMs

/-- The trades of a schema, with the columns and values that are compared. -/
def storedPgRows (num : Numerics Num) (db : Schema Num) : List PgTradeRow :=
  storedAs (liangPgRow num) (genericPgRow num) db

/-- The seven columns of the fifteen. -/
theorem pgTradeRow_record (row : TradeCsvRow) :
    pgTradeRow TradeCsvRow.header row.record =
      (parseFloat row.qty.toList).bind fun qty => (parseInt (toString row.ts).toList).map fun ts =>
        ⟨toString row.sid, row.symbol, row.id, row.orderId, row.side, qty, ts⟩ := by
  have hsid : column TradeCsvRow.header row.record "sid" = some (toString row.sid).toList := rfl
  have hsymbol : column TradeCsvRow.header row.record "symbol" = some row.symbol.toList := rfl
  have hid : column TradeCsvRow.header row.record "id" = some row.id.toList := rfl
  have horder : column TradeCsvRow.header row.record "orderId" = some row.orderId.toList := rfl
  have hside : column TradeCsvRow.header row.record "side" = some row.side.toList := rfl
  have hqty : column TradeCsvRow.header row.record "qty" = some row.qty.toList := rfl
  have hts : column TradeCsvRow.header row.record "ts" = some (toString row.ts).toList := rfl
  simp only [pgTradeRow, hsid, hsymbol, hid, horder, hside, hqty, hts, Option.bind_eq_bind,
    Option.bind_some, String.ofList_toList, Option.map_eq_bind]
  rfl

theorem parseInt_dated {ts : ℤ} (h : (utcDate ts).isSome) :
    parseInt (toString ts).toList = some ts := by
  have hrange : minMillis ≤ ts ∧ ts ≤ maxMillis := by
    by_contra hnot
    rw [utcDate, if_neg hnot] at h
    cases h
  simp only [minMillis, maxMillis] at hrange
  apply Exchange.parseInt_toString
  · rw [History.i64Min]
    omega
  · rw [History.i64Max]
    omega

/-- **What is read of a stored trade.** -/
theorem pgTradeRow_liang (hnum : num.Lawful) (row : LiangTrade Num) (h : (utcDate row.ts).isSome) :
    pgTradeRow TradeCsvRow.header (liangTradeRow num row).record = some (liangPgRow num row) := by
  rw [pgTradeRow_record]
  simp only [liangTradeRow, hnum row.qty, parseInt_dated h]
  rfl

theorem pgTradeRow_generic (hnum : num.Lawful) (exchange : String) (row : GenericTrade Num)
    (h : (utcDate row.eventTimeMs).isSome) :
    pgTradeRow TradeCsvRow.header (genericTradeRow num exchange row).record =
      some (genericPgRow num row) := by
  rw [pgTradeRow_record]
  simp only [genericTradeRow, hnum row.quantity, parseInt_dated h]
  rfl

/-- Of the stored trades of a window, which all have dates, the rows that are read. -/
theorem readStored (hnum : num.Lawful) {db : Schema Num} {exchange : String}
    {startMs endMs : Option ℤ}
    (hdated : ∀ row ∈ (storedTrades num db exchange).filter (timeFilter startMs endMs ·.ts),
      (utcDate row.ts).isSome) :
    ((storedTrades num db exchange).filter (timeFilter startMs endMs ·.ts)).map
        (pgTradeRow TradeCsvRow.header ·.record) =
      ((storedPgRows num db).filter (timeFilter startMs endMs ·.ts)).map some := by
  have hread {α : Type} {f : α → TradeCsvRow} {g : α → PgTradeRow} {stored : List α}
      (hts : ∀ a, (g a).ts = (f a).ts)
      (hrow : ∀ a, (utcDate (f a).ts).isSome →
        pgTradeRow TradeCsvRow.header (f a).record = some (g a))
      (hdated : ∀ row ∈ (stored.map f).filter (timeFilter startMs endMs ·.ts),
        (utcDate row.ts).isSome) :
      ((stored.map f).filter (timeFilter startMs endMs ·.ts)).map
          (pgTradeRow TradeCsvRow.header ·.record) =
        ((stored.map g).filter (timeFilter startMs endMs ·.ts)).map some := by
    rw [List.filter_map, List.filter_map, List.map_map, List.map_map]
    have hsame : (fun row : PgTradeRow => timeFilter startMs endMs row.ts) ∘ g =
        (fun row : TradeCsvRow => timeFilter startMs endMs row.ts) ∘ f :=
      funext fun a => congrArg (timeFilter startMs endMs) (hts a)
    rw [hsame]
    refine List.map_congr_left fun a ha => hrow a (hdated (f a) ?_)
    rw [List.filter_map]
    exact List.mem_map_of_mem ha
  revert hdated
  unfold storedTrades storedPgRows storedAs
  split
  · exact hread (fun _ => rfl) (pgTradeRow_liang hnum)
  · exact hread (fun _ => rfl) (pgTradeRow_generic hnum exchange)
  · split
    · exact hread (fun _ => rfl) (pgTradeRow_generic hnum exchange)
    · exact fun _ => rfl

/-! ## The files -/

/-- The rows that a file holds, where each can be read. -/
def fileRows (csv : CsvFormat) (file : File) : List PgTradeRow :=
  match csv.read file.text with
  | some (header :: records) => records.filterMap (pgTradeRow header)
  | _ => []

/-- **Reading the file of a day**: the rows of the day are grouped one after another. -/
theorem pgFile_dayFile {csv : CsvFormat} (hcsv : csv.Lawful) {day : DayRows (ℤ × Csv.Record)}
    (hlength : ∀ row ∈ day.rows, row.2.length = TradeCsvRow.header.length)
    (hread : ∀ row ∈ day.rows, (pgTradeRow TradeCsvRow.header row.2).isSome) (directory : String)
    (startMs endMs : ℤ) (symbols : Option (List String)) (exclusions : List (Market × String))
    (acc : Groups × List SeenTrade) :
    let file := dayFile csv "trades" TradeCsvRow.header Prod.snd day
    fileRows csv file = day.rows.filterMap (pgTradeRow TradeCsvRow.header ·.2) ∧
      pgFile csv directory startMs endMs symbols exclusions acc file =
        (fileRows csv file).foldlM (pgRow startMs endMs symbols exclusions) acc := by
  have htext : csv.read (dayFile csv "trades" TradeCsvRow.header Prod.snd day).text =
      some (TradeCsvRow.header :: day.rows.map Prod.snd) := by
    refine hcsv _ _ ⟨'s', ['i', 'd'], _, rfl, by decide⟩ fun record hrecord => ?_
    obtain ⟨row, hrow, rfl⟩ := List.mem_map.mp hrecord
    exact hlength row hrow
  have hrows : fileRows csv (dayFile csv "trades" TradeCsvRow.header Prod.snd day) =
      day.rows.filterMap (pgTradeRow TradeCsvRow.header ·.2) := by
    rw [fileRows, htext]
    exact List.filterMap_map
  refine ⟨hrows, ?_⟩
  rw [hrows, pgFile, htext, List.foldlM_filterMap]
  refine Eq.trans List.foldlM_map (run_congr (fun row hrow acc => ?_) acc)
  obtain ⟨read, hread⟩ := Option.isSome_iff_exists.mp (hread row hrow)
  rw [pgRecord, hread]

theorem isTradeCsv_fileName (date : String) : isTradeCsv (fileName "trades" date) = true := by
  have hname : (fileName "trades" date).toList =
      ("trades_".toList ++ date.toList) ++ '.' :: "csv".toList := by
    simp [fileName]
  have hextension : extension (fileName "trades" date).toList = some "csv".toList := by
    rw [hname, extension, rsplitOnce_append (by decide)]
    exact if_neg (by simp)
  rw [isTradeCsv, hextension, decide_eq_true rfl, Bool.true_and, hname, List.append_assoc]
  exact List.isPrefixOf_iff_prefix.mpr (List.prefix_append ..)

/-- **What is grouped are the stored trades**: each of the window once, as it is stored, in some
    order. The order is that in which a directory is listed, and the sums of the groups are the only
    thing that is made of it. -/
theorem pgDirectory_of_export {csv : CsvFormat} (hcsv : csv.Lawful) (hnum : num.Lawful)
    {collate : String → String → Ordering} {strategy : Strategy} {db : Schema Num}
    {disk : Disk} {fromMs toMs : Option ℤ} {files files' : Files}
    (hexport : exportHistory num collate csv strategy db disk ⟨.trades, fromMs, toMs⟩ files =
      (files', .ok ()))
    (hfresh : ∀ file ∈ files.rows, isTradeCsv file.name = false) {listing : List File}
    (hlisting : listing.Perm files'.rows) (directory : String) (startMs endMs : ℤ)
    (symbols : Option (List String)) (exclusions : List (Market × String)) :
    ∃ rows, rows.Perm ((storedPgRows num db).filter (timeFilter fromMs toMs ·.ts)) ∧
      pgDirectory csv directory startMs endMs symbols exclusions listing =
        pgGroups rows startMs endMs symbols exclusions := by
  obtain ⟨trades, n, hload, hwrite⟩ := exportHistory_trades hexport
  obtain ⟨hperm, hdated⟩ := loadTrades_perm hload
  obtain ⟨daily, hdaily, rfl⟩ := writeDaily_ok hwrite
  have hstored := readStored hnum fun row hrow => hdated row (hperm.mem_iff.mpr hrow)
  have hread : ∀ row ∈ (tradeWrite trades).rows, row.2.length = TradeCsvRow.header.length ∧
      (pgTradeRow TradeCsvRow.header row.2).isSome := by
    intro row hrow
    obtain ⟨trade, htrade, rfl⟩ := List.mem_map.mp hrow
    have hmem : pgTradeRow TradeCsvRow.header trade.record ∈ (((storedTrades num db
        strategy.exchange).filter (timeFilter fromMs toMs ·.ts)).map
          (pgTradeRow TradeCsvRow.header ·.record)) :=
      List.mem_map_of_mem (hperm.mem_iff.mp htrade)
    rw [hstored] at hmem
    obtain ⟨read, -, hread⟩ := List.mem_map.mp hmem
    exact ⟨rfl, hread ▸ rfl⟩
  have hday : ∀ day ∈ daily.rows, ∀ row ∈ day.rows, row ∈ (tradeWrite trades).rows := by
    intro day hday row hrow
    rw [((mem_groupByDay hdaily).mp hday).2] at hrow
    exact List.mem_of_mem_filter hrow
  -- Of the files of the directory, those that are read are those that were written.
  have hwritten : (listing.filter (isTradeCsv ·.name)).Perm
      (daily.rows.map (dayFile csv "trades" TradeCsvRow.header Prod.snd)) := by
    have hdays : ∀ file ∈ daily.rows.map (dayFile csv "trades" TradeCsvRow.header Prod.snd),
        isTradeCsv file.name = true := by
      intro file hfile
      obtain ⟨day, -, rfl⟩ := List.mem_map.mp hfile
      exact isTradeCsv_fileName day.date
    have hadded := Table.putAll_perm (t := files) (dayFile_names (show '_' ∉ "trades".toList by decide) daily) fun file hfile =>
      Table.get_eq_none.mpr fun other hother hname => by
        have := hfresh other hother
        rw [hname, hdays file hfile] at this
        cases this
    refine (hlisting.trans hadded).filter _ |>.trans (.of_eq ?_)
    rw [List.filter_append, List.filter_eq_self.mpr hdays, List.filter_eq_nil_iff.mpr, List.append_nil]
    intro file hfile
    rw [hfresh file hfile]
    decide
  have hfile : ∀ day ∈ daily.rows, ∀ acc,
      let file := dayFile csv "trades" TradeCsvRow.header Prod.snd day
      fileRows csv file = day.rows.filterMap (pgTradeRow TradeCsvRow.header ·.2) ∧
        pgFile csv directory startMs endMs symbols exclusions acc file =
          (fileRows csv file).foldlM (pgRow startMs endMs symbols exclusions) acc :=
    fun day h acc => pgFile_dayFile hcsv (fun row hrow => (hread row (hday day h row hrow)).1)
      (fun row hrow => (hread row (hday day h row hrow)).2) directory startMs endMs symbols
      exclusions acc
  refine ⟨(listing.filter (isTradeCsv ·.name)).flatMap (fileRows csv), ?_, ?_⟩
  · have hfiles : ((daily.rows.map (dayFile csv "trades" TradeCsvRow.header Prod.snd)).flatMap
        (fileRows csv)) =
          (daily.rows.flatMap DayRows.rows).filterMap (pgTradeRow TradeCsvRow.header ·.2) := by
      rw [List.flatMap_map, List.filterMap_flatMap]
      exact List.flatMap_congr fun day h => (hfile day h (.empty, [])).1
    have hrows : ((storedTrades num db strategy.exchange).filter
        (timeFilter fromMs toMs ·.ts)).filterMap (pgTradeRow TradeCsvRow.header ·.record) =
          (storedPgRows num db).filter (timeFilter fromMs toMs ·.ts) := by
      have h := congrArg (List.filterMap id) hstored
      rw [List.filterMap_map, List.filterMap_map, Function.id_comp, Function.id_comp,
        List.filterMap_some] at h
      exact h
    refine (hwritten.flatMap_right _).trans (hfiles ▸ ?_)
    refine ((flatMap_groupByDay hdaily).filterMap _).trans ?_
    rw [tradeWrite, List.filterMap_map, ← hrows]
    exact hperm.filterMap _
  · rw [pgDirectory, pgGroups, run_flatMap]
    refine congrArg (Except.map Prod.fst) (Eq.trans List.foldlM_filter.symm
      (run_congr (fun file h acc => ?_) _))
    obtain ⟨day, hmem, rfl⟩ := List.mem_map.mp (hwritten.mem_iff.mp h)
    exact (hfile day hmem acc).2

end

/-! ## An export -/

/-- Two numbers. -/
def twoNumbers : Numerics Bool where
  text n := if n then "0.5" else "-12"
  float n := (parseFloat (if n then ['0', '.', '5'] else ['-', '1', '2'])).getD 0
  mul a b := a && b
  zero := false

theorem twoNumbers_lawful : twoNumbers.Lawful := by
  intro n
  cases n <;> rfl

/-- Trades around midnight, one of them after the window. -/
def twoDays : Schema Bool := fun table =>
  if table = "trades" then
    some (.genericTrades
      [⟨"spot", "BTCUSDT", "2", some "9", some "buy", none, true, true, none, none, none, none,
          1704067200000⟩,
        ⟨"swap", "BTC,USDT", "1", none, none, none, true, false, none, none, none, none,
          1704067199999⟩,
        ⟨"swap", "BTCUSDT", "3", none, none, none, true, false, none, none, none, none,
          1704067300001⟩])
  else none

def marketMaker : Strategy := ⟨"alpha", "alpha", "binance", "alpha", .mm⟩

def twoDayFiles : Files :=
  (exportHistory twoNumbers Ord.compare plainCsv marketMaker twoDays noFaults
    ⟨.trades, some 1704067100000, some 1704067300000⟩ .empty).1

theorem twoDays_read : ∃ rows : List PgTradeRow,
    rows.Perm ((storedPgRows twoNumbers twoDays).filter
      (timeFilter (some 1704067100000) (some 1704067300000) ·.ts)) ∧
      pgDirectory plainCsv "alpha" 1704067100000 1704067300000 none [] twoDayFiles.rows.reverse =
        pgGroups rows 1704067100000 1704067300000 none [] :=
  @pgDirectory_of_export _ twoNumbers plainCsv plainCsv_lawful twoNumbers_lawful Ord.compare
    marketMaker twoDays noFaults _ _ .empty twoDayFiles (Prod.ext rfl (by decide +kernel))
    (fun _ h => absurd h List.not_mem_nil) _ (List.reverse_perm _) "alpha" _ _ _ _

end CryptoNav.Reconcile
