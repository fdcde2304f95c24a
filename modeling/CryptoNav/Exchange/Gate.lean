import CryptoNav.Lib.Paging
import CryptoNav.Exchange.Client

/-!
# Gate's scans by seconds

`spot_trades`, `futures_trades`, `futures_account_book` and `liquidation_history` ask for chunks of
thirty days in whole seconds, page by page, and keep what lies in the range to the millisecond. The
counter of the pages saturates. Neighbouring chunks share a second, so that rows come twice and are
deduplicated in the end.

A page is asked for by its number, or by how many rows come before it, so what a chunk has must
stand still while it is read; the exchange is a list that does. The four functions share their
loop, and each keeps its own definition with its path, its fields and the key by which it
removes what came twice. The counter is a `u32` or a `usize`. A chunk would need a great many
rows to show it, and it is left in all the same, because the end of the loop depends on it.
-/

set_option autoImplicit false

namespace CryptoNav.Exchange.Gate

open CryptoNav.Lib
open CryptoNav.History (i64Max)
open CryptoNav.History.Raw (TimeRange inRange dedup dedupKey timestampMs textRow)

def exchange : String := "gate"

def thirtyDaysMs : ℤ := 30 * 24 * 60 * 60 * 1000

def u32Max : ℕ := 2 ^ 32 - 1

def usizeMax : ℕ := 2 ^ 64 - 1

/-- `private_get`, of the path, the parameters and the weight. -/
abbrev PrivateGet := String → Params → ℕ → Except ExchangeError Json

/-! ## The scans -/

/-- How a list is asked for: pages are numbered from one, or start at an offset. -/
inductive Paging where
  | page
  | offset

/-- What distinguishes the scans. -/
structure Scan where
  path : String
  /-- The parameters, of the two ends in seconds and the counter. -/
  params : ℤ → ℤ → ℕ → Params
  limit : ℕ
  paging : Paging
  /-- The greatest value of the counter. -/
  cap : ℕ
  fields : List String

namespace Scan

def start (scan : Scan) : ℕ :=
  match scan.paging with
  | .page => 1
  | .offset => 0

def step (scan : Scan) : ℕ :=
  match scan.paging with
  | .page => 1
  | .offset => scan.limit

/-- A turn of the `loop` over the pages of a chunk: the counter and the rows so far. -/
def turn (privateGet : PrivateGet) (scan : Scan) (range chunk : TimeRange) :
    ℕ × List Json → Routine ExchangeError ((ℕ × List Json) ⊕ List Json)
  | (counter, rows) => do
    let params := scan.params (chunk.startMs.tdiv 1000) (chunk.endMs.tdiv 1000) counter
    let value ← .ofExcept (privateGet scan.path params 1)
    let batch ← .ofExcept (rootArray exchange value)
    let rows := rows ++ rowsIn timestampMs batch range
    if batch.length < scan.limit then pure (.inr rows)
    else pure (.inl (min (counter + scan.step) scan.cap, rows))

def rows (privateGet : PrivateGet) (scan : Scan) (range : TimeRange) :
    Routine ExchangeError (List Json) := do
  let range ← .ofExcept (newTimeRange range.startMs range.endMs)
  let windows ← chunks range thirtyDaysMs
  let rows ← windows.foldlM (fun rows chunk =>
    Routine.loop (scan.turn privateGet range chunk) (scan.start, rows)) []
  pure (sortByKey (fun row => (timestampMs row).getD 0) (dedup scan.fields rows))

end Scan

def spotScan : Scan where
  path := "/spot/my_trades"
  params startS endS page := [("account", "unified"), ("from", toString startS),
    ("to", toString endS), ("limit", "100"), ("page", toString page)]
  limit := 100
  paging := .page
  cap := u32Max
  fields := ["currency_pair", "id"]

/-- `GateClient::spot_trades` -/
def spotTrades (privateGet : PrivateGet) : TimeRange → Routine ExchangeError (List Json) :=
  spotScan.rows privateGet

def futuresScan : Scan where
  path := "/futures/usdt/my_trades_timerange"
  params startS endS offset := [("from", toString startS), ("to", toString endS),
    ("limit", "1000"), ("offset", toString offset)]
  limit := 1000
  paging := .offset
  cap := u32Max
  fields := ["contract", "trade_id"]

/-- `GateClient::futures_trades` -/
def futuresTrades (privateGet : PrivateGet) : TimeRange → Routine ExchangeError (List Json) :=
  futuresScan.rows privateGet

inductive BookType where
  | funding
  | tradingFee
  | realizedPnl
  | depositWithdrawal

def BookType.value : BookType → String
  | funding => "fund"
  | tradingFee => "fee"
  | realizedPnl => "pnl"
  | depositWithdrawal => "dnw"

def bookScan (bookType : BookType) : Scan where
  path := "/futures/usdt/account_book"
  params startS endS offset := [("from", toString startS), ("to", toString endS),
    ("type", bookType.value), ("limit", "1000"), ("offset", toString offset)]
  limit := 1000
  paging := .offset
  cap := u32Max
  fields := ["id", "contract", "time", "change"]

/-- `GateClient::futures_account_book` -/
def futuresAccountBook (privateGet : PrivateGet) (range : TimeRange) (bookType : BookType) :
    Routine ExchangeError (List Json) :=
  (bookScan bookType).rows privateGet range

def liquidationScan (contract : Option String) : Scan where
  path := "/futures/usdt/liquidates"
  params startS endS offset := [("from", toString startS), ("to", toString endS),
    ("limit", "100"), ("offset", toString offset)] ++
    contract.elim [] fun contract => [("contract", contract)]
  limit := 100
  paging := .offset
  cap := usizeMax
  fields := ["order_id", "contract", "time"]

/-- `GateClient::liquidation_history` -/
def liquidationHistory (privateGet : PrivateGet) (contract : Option String) (range : TimeRange) :
    Routine ExchangeError (List Json) :=
  (liquidationScan contract).rows privateGet range

/-! ## The exchange -/

/-- Where the page of a counter starts in the list. -/
def Scan.position (scan : Scan) (counter : ℕ) : ℕ :=
  match scan.paging with
  | .page => (counter - 1) * scan.limit
  | .offset => counter

/-- The rows that are asked for with a chunk. -/
def asked (second : Json → ℤ) (served : List Json) (chunk : TimeRange) : List Json :=
  served.filter fun row =>
    chunk.startMs.tdiv 1000 ≤ second row ∧ second row ≤ chunk.endMs.tdiv 1000

/-- An exchange with a fixed list of rows, which answers with the slice that is asked for of those
    whose time in whole seconds lies between the two ends. -/
def Serves (privateGet : PrivateGet) (scan : Scan) (second : Json → ℤ) (served : List Json) : Prop :=
  ∀ (startS endS : ℤ) (counter : ℕ),
    privateGet scan.path (scan.params startS endS counter) 1 =
      .ok (.array (((served.filter fun row => startS ≤ second row ∧ second row ≤ endS).drop
        (scan.position counter)).take scan.limit))

/-- Every row of the range and no other, once for each value of the fields. Which of several rows of
    one key is returned is left open, and so is their order. -/
structure Complete (fields : List String) (served : List Json) (range : TimeRange)
    (rows : List Json) : Prop where
  only : ∀ row ∈ rows, row ∈ served ∧ rowInRange timestampMs range row
  once : (rows.map (dedupKey fields)).Nodup
  all : ∀ row ∈ served, rowInRange timestampMs range row →
    ∃ other ∈ rows, dedupKey fields other = dedupKey fields row

/-- No chunk has so many rows that the counter cannot reach the last page. The counter stops at its
    greatest value, and from then on the same page is asked for. -/
def Reachable (scan : Scan) (second : Json → ℤ) (served : List Json) (range : TimeRange) : Prop :=
  ∀ windows, (chunks range thirtyDaysMs).Gives (.ok windows) → ∀ chunk ∈ windows,
    (asked second served chunk).length < scan.position scan.cap + scan.limit

/-- A row of the range, or one with the same fields, lies in the whole seconds of the range. -/
def InSeconds (fields : List String) (second : Json → ℤ) (served : List Json) (range : TimeRange) :
    Prop :=
  ∀ row ∈ served, rowInRange timestampMs range row → ∃ other ∈ asked second served range,
    rowInRange timestampMs range other ∧ dedupKey fields other = dedupKey fields row

instance {fields : List String} {second : Json → ℤ} {served : List Json} {range : TimeRange} :
    Decidable (InSeconds fields second served range) :=
  inferInstanceAs (Decidable (∀ row ∈ served, _ → ∃ other ∈ asked second served range, _))

/-! ## The counter -/

namespace Scan

theorem position_start (scan : Scan) : scan.position scan.start = 0 := by
  unfold position start
  cases scan.paging with
  | page => exact Nat.zero_mul _
  | offset => rfl

theorem position_le (scan : Scan) {c d : ℕ} (h : c ≤ d) : scan.position c ≤ scan.position d := by
  unfold position
  cases scan.paging with
  | page => exact Nat.mul_le_mul_right _ (Nat.sub_le_sub_right h 1)
  | offset => exact h

/-- The next page leaves no gap. -/
theorem position_next (scan : Scan) (c : ℕ) :
    scan.position (min (c + scan.step) scan.cap) ≤ scan.position c + scan.limit := by
  refine (scan.position_le (min_le_left _ _)).trans ?_
  unfold position step
  cases scan.paging with
  | page =>
    cases c with
    | zero => simp
    | succ c => exact (Nat.succ_mul c scan.limit).le
  | offset => exact le_rfl

theorem step_pos {scan : Scan} (h : 0 < scan.limit) : 0 < scan.step := by
  unfold step
  cases scan.paging with
  | page => exact Nat.one_pos
  | offset => exact h

end Scan

/-! ## One chunk -/

section
variable {privateGet : PrivateGet} {scan : Scan} {second : Json → ℤ} {served : List Json}
  {range chunk : TimeRange}

def pageAt (scan : Scan) (window : List Json) (counter : ℕ) : List Json :=
  (window.drop (scan.position counter)).take scan.limit

theorem pageAt_length (scan : Scan) (window : List Json) (counter : ℕ) :
    (pageAt scan window counter).length =
      min scan.limit (window.length - scan.position counter) := by
  rw [pageAt, List.length_take, List.length_drop]

theorem Serves.turn_gives (h : Serves privateGet scan second served) (range chunk : TimeRange)
    (counter : ℕ) (rows : List Json) :
    (scan.turn privateGet range chunk (counter, rows)).Gives (.ok (
      let batch := pageAt scan (asked second served chunk) counter
      if batch.length < scan.limit then .inr (rows ++ rowsIn timestampMs batch range)
      else .inl (min (counter + scan.step) scan.cap, rows ++ rowsIn timestampMs batch range))) := by
  unfold Scan.turn
  simp only [h _ _ counter, Routine.ofExcept_ok_bind, rootArray_array]
  unfold pageAt asked
  split
  · exact Routine.gives_pure.mpr rfl
  · exact Routine.gives_pure.mpr rfl

/-- Rows are those from before and the first so many of a chunk. -/
def Read (range : TimeRange) (window before : List Json) (count : ℕ) (rows : List Json) : Prop :=
  ∀ row, row ∈ rows ↔
    row ∈ before ∨ row ∈ window.take count ∧ rowInRange timestampMs range row

theorem Read.page {window before rows : List Json} {count counter : ℕ}
    (h : Read range window before count rows) (hcount : scan.position counter ≤ count) :
    Read range window before (max count (scan.position counter + scan.limit))
      (rows ++ rowsIn timestampMs (pageAt scan window counter) range) := by
  intro row
  rw [List.mem_append, h row, rowsIn, List.mem_filter, ← mem_take_or_page hcount, pageAt]
  tauto

/-- **A chunk is read whole** if the counter reaches its last page. -/
theorem Serves.chunk_gives (h : Serves privateGet scan second served) (hlimit : 0 < scan.limit)
    (hstart : scan.start ≤ scan.cap) (before : List Json)
    (hreach : (asked second served chunk).length < scan.position scan.cap + scan.limit) :
    ∃ rows, (Routine.loop (scan.turn privateGet range chunk) (scan.start, before)).Gives (.ok rows) ∧
      Read range (asked second served chunk) before (asked second served chunk).length rows := by
  set window := asked second served chunk with hwindow
  let P : ℕ × List Json → Prop := fun s => s.1 ≤ scan.cap ∧
    ∃ count, scan.position s.1 ≤ count ∧ Read range window before count s.2
  let Q : Except ExchangeError (List Json) → Prop := fun r =>
    ∃ rows, r = .ok rows ∧ Read range window before window.length rows
  have hturn : ∀ s, P s → ∃ r, (scan.turn privateGet range chunk s).Gives r ∧
      Routine.Turns P Q (fun s => scan.cap - s.1) s r := by
    rintro ⟨counter, rows⟩ ⟨hcap, count, hcount, hread⟩
    refine ⟨_, h.turn_gives range chunk counter rows, ?_⟩
    rw [← hwindow]
    have hpage := hread.page hcount
    have hlength := pageAt_length scan window counter
    dsimp only
    split
    case isTrue hshort =>
      have hlast : window.length ≤ scan.position counter + scan.limit := by
        rw [hlength] at hshort
        omega
      refine ⟨_, rfl, fun row => (hpage row).trans ?_⟩
      rw [List.take_of_length_le (le_max_of_le_right hlast), List.take_length]
    case isFalse hfull =>
      -- A full page that starts where the counter ends would have too many rows behind it.
      have hlt : counter < scan.cap := by
        refine lt_of_le_of_ne hcap fun heq => ?_
        subst heq
        omega
      have hstep := Scan.step_pos hlimit
      refine ⟨⟨min_le_right _ _, _, ?_, hpage⟩, ?_⟩
      · exact (scan.position_next counter).trans (le_max_right _ _)
      · show scan.cap - min (counter + scan.step) scan.cap < scan.cap - counter
        omega
  have hinit : P (scan.start, before) :=
    ⟨hstart, 0, scan.position_start.le, fun row => by simp⟩
  obtain ⟨r, hr, rows, rfl, hrows⟩ := Routine.loop_total (fun s => scan.cap - s.1) hturn hinit
  exact ⟨rows, hr, hrows⟩

/-- **A chunk with too many rows is asked for the same page for ever.** -/
theorem Serves.chunk_never (h : Serves privateGet scan second served)
    (hstart : scan.start ≤ scan.cap) (before : List Json)
    (hfar : scan.position scan.cap + scan.limit ≤ (asked second served chunk).length) :
    ¬(Routine.loop (scan.turn privateGet range chunk) (scan.start, before)).Ends := by
  refine Routine.loop_never (P := fun s => s.1 ≤ scan.cap) ?_ hstart
  rintro ⟨counter, rows⟩ hcap
  have hturn := h.turn_gives range chunk counter rows
  have hlength := pageAt_length scan (asked second served chunk) counter
  have hposition := scan.position_le hcap
  dsimp only at hturn hposition
  rw [if_neg (by omega)] at hturn
  exact ⟨_, hturn, min_le_right _ _⟩

/-! ## All chunks -/

theorem mem_asked {row : Json} : row ∈ asked second served chunk ↔
    row ∈ served ∧ chunk.startMs.tdiv 1000 ≤ second row ∧ second row ≤ chunk.endMs.tdiv 1000 := by
  rw [asked, List.mem_filter, decide_eq_true_eq]

/-- Together the chunks ask for the seconds of the range. -/
theorem mem_asked_iff_of_tiles {windows : List TimeRange} (hvalid : Valid range)
    (htiles : Tiles range.endMs range.startMs windows) {row : Json} :
    (∃ chunk ∈ windows, row ∈ asked second served chunk) ↔ row ∈ asked second served range := by
  obtain ⟨hpos, hle⟩ := hvalid
  simp only [mem_asked]
  constructor
  · rintro ⟨chunk, hmem, hrow, hlo, hhi⟩
    obtain ⟨hs, hwindow, he⟩ := htiles.mem_bounds hmem
    refine ⟨hrow, (Int.tdiv_le_tdiv (by decide) hs).trans hlo, hhi.trans ?_⟩
    exact Int.tdiv_le_tdiv (by decide) he
  · rintro ⟨hrow, hlo, hhi⟩
    rw [Int.tdiv_eq_ediv_of_nonneg (by omega)] at hlo hhi
    -- A millisecond of the range in the second of the row.
    obtain ⟨chunk, hmem, hs, he⟩ := htiles.exists_window
      (t := max range.startMs (second row * 1000)) (le_max_left _ _) (by omega)
    obtain ⟨hstart, hwindow, -⟩ := htiles.mem_bounds hmem
    refine ⟨chunk, hmem, hrow, ?_⟩
    rw [Int.tdiv_eq_ediv_of_nonneg (by omega), Int.tdiv_eq_ediv_of_nonneg (by omega)]
    omega

/-- What a scan returns is made of the rows of the range in its whole seconds. -/
theorem Serves.rows_gives (h : Serves privateGet scan second served) (hlimit : 0 < scan.limit)
    (hstart : scan.start ≤ scan.cap) (hvalid : Valid range) (hend : range.endMs < i64Max)
    (hreach : Reachable scan second served range) : ∃ rows,
      (scan.rows privateGet range).Gives (.ok (sortByKey (fun row => (timestampMs row).getD 0)
        (dedup scan.fields rows))) ∧
      ∀ row, row ∈ rows ↔
        row ∈ asked second served range ∧ rowInRange timestampMs range row := by
  obtain ⟨windows, hwindows, htiles⟩ :=
    chunks_gives (show 0 < thirtyDaysMs by decide) (.inl hend)
  obtain ⟨r, hr, hmeets⟩ := Routine.foldlM_total (l := windows) (s := []) (Q := fun _ => False)
    (P := fun past rows => ∀ row, row ∈ rows ↔
      (∃ chunk ∈ past, row ∈ asked second served chunk) ∧ rowInRange timestampMs range row)
    (f := fun rows chunk => Routine.loop (scan.turn privateGet range chunk) (scan.start, rows))
    (fun past chunk rest hsplit rows hrows => by
      have hchunk : chunk ∈ windows := by rw [hsplit]; simp
      obtain ⟨rows', hloop, hread⟩ :=
        h.chunk_gives hlimit hstart rows (hreach windows hwindows chunk hchunk)
      refine ⟨_, hloop, fun row => ?_⟩
      rw [hread row, hrows row, List.take_length]
      simp only [List.mem_append, List.mem_singleton, or_and_right, exists_or, exists_eq_left])
    (fun row => by simp)
  match r, hr, hmeets with
  | .ok rows, hr, hrows =>
    refine ⟨rows, ?_, fun row => (hrows row).trans ?_⟩
    · rw [Scan.rows, newTimeRange_of_valid hvalid, Routine.ofExcept_ok_bind,
        Routine.gives_bind_ok hwindows, Routine.gives_bind_ok hr, Routine.gives_pure]
    · rw [mem_asked_iff_of_tiles hvalid htiles]

/-- These rows are all of the range exactly when the range's rows lie in its seconds. -/
theorem complete_iff {fields : List String} {rows : List Json}
    (hrows : ∀ row, row ∈ rows ↔
      row ∈ asked second served range ∧ rowInRange timestampMs range row) :
    Complete fields served range (sortByKey (fun row => (timestampMs row).getD 0)
      (dedup fields rows)) ↔ InSeconds fields second served range := by
  constructor
  · intro hcomplete row hrow hin
    obtain ⟨other, hother, hkey⟩ := hcomplete.all row hrow hin
    obtain ⟨hasked, hotherIn⟩ := (hrows other).mp
      ((keepFirst_sublist _ _ _).subset (mem_sortByKey.mp hother))
    exact ⟨other, hasked, hotherIn, hkey⟩
  · intro hseconds
    refine ⟨fun row hrow => ?_, ?_, fun row hrow hin => ?_⟩
    · obtain ⟨hasked, hin⟩ := (hrows row).mp
        ((keepFirst_sublist _ _ _).subset (mem_sortByKey.mp hrow))
      exact ⟨(mem_asked.mp hasked).1, hin⟩
    · exact ((sortByKey_perm _ _).map _).nodup_iff.mpr (keepFirst_nodup _ _ _)
    · obtain ⟨other, hasked, hotherIn, hkey⟩ := hseconds row hrow hin
      obtain ⟨kept, hkept, hkeptKey⟩ := exists_keepFirst (dedupKey fields)
        ((hrows other).mpr ⟨hasked, hotherIn⟩) (List.not_mem_nil (a := dedupKey fields other))
      exact ⟨kept, mem_sortByKey.mpr hkept, hkeptKey.trans hkey⟩

/-- A scan that returns was given a range, and reached the end of every chunk. -/
theorem Serves.reachable_of_gives (h : Serves privateGet scan second served)
    (hlimit : 0 < scan.limit) (hstart : scan.start ≤ scan.cap) {rows : List Json}
    (hgives : (scan.rows privateGet range).Gives (.ok rows)) :
    Valid range ∧ range.endMs < i64Max ∧ Reachable scan second served range := by
  unfold Scan.rows at hgives
  cases hnew : newTimeRange range.startMs range.endMs with
  | error e =>
    rw [hnew, Routine.ofExcept_error_bind, Routine.gives_ofExcept] at hgives
    cases hgives
  | ok range' =>
    obtain ⟨hvalid, heq⟩ := valid_of_newTimeRange hnew
    obtain rfl : range' = range := heq
    rw [hnew, Routine.ofExcept_ok_bind] at hgives
    refine ⟨hvalid, not_le.mp fun hend => ?_, fun windows hwindows chunk hchunk => ?_⟩
    · exact Routine.not_ends_bind (chunks_never (by decide) hend hvalid.2) _ ⟨_, hgives⟩
    · by_contra hfar
      rw [Routine.gives_bind_ok hwindows] at hgives
      refine Routine.not_ends_bind (Routine.not_ends_foldlM hchunk
        (fun before => h.chunk_never hstart before (not_lt.mp hfar)) ?_ _) _ ⟨_, hgives⟩
      intro before chunk e hfails
      by_cases hreach : (asked second served chunk).length < scan.position scan.cap + scan.limit
      · obtain ⟨rows, hok, -⟩ := h.chunk_gives hlimit hstart before hreach
        cases hok.unique hfails
      · exact h.chunk_never hstart before (not_lt.mp hreach) ⟨_, hfails⟩

end

/-! ## The four lists -/

inductive Listing where
  | spotTrades
  | futuresTrades
  | futuresAccountBook (bookType : BookType)
  | liquidationHistory (contract : Option String)

namespace Listing

def scan : Listing → Scan
  | spotTrades => spotScan
  | futuresTrades => futuresScan
  | futuresAccountBook bookType => bookScan bookType
  | liquidationHistory contract => liquidationScan contract

def rows (privateGet : PrivateGet) (listing : Listing) (range : TimeRange) :
    Routine ExchangeError (List Json) :=
  match listing with
  | spotTrades => Gate.spotTrades privateGet range
  | futuresTrades => Gate.futuresTrades privateGet range
  | futuresAccountBook bookType => Gate.futuresAccountBook privateGet range bookType
  | liquidationHistory contract => Gate.liquidationHistory privateGet contract range

theorem rows_eq (privateGet : PrivateGet) (listing : Listing) (range : TimeRange) :
    listing.rows privateGet range = listing.scan.rows privateGet range := by
  cases listing <;> rfl

theorem limit_pos (listing : Listing) : 0 < listing.scan.limit := by
  cases listing with
  | spotTrades => decide
  | futuresTrades => decide
  | futuresAccountBook bookType => exact (by decide : 0 < 1000)
  | liquidationHistory contract => exact (by decide : 0 < 100)

theorem start_le_cap (listing : Listing) : listing.scan.start ≤ listing.scan.cap := by
  cases listing with
  | spotTrades => decide
  | futuresTrades => decide
  | futuresAccountBook bookType => exact Nat.zero_le _
  | liquidationHistory contract => exact Nat.zero_le _

end Listing

/-- **A scan returns every row of the range and no other, once for each key,** exactly when the range
    is one that does not end at `i64::MAX`, no chunk has more rows than the counter reaches, and
    the rows of the range have their whole seconds in it. -/
theorem scan_complete_iff {privateGet : PrivateGet} {listing : Listing} {second : Json → ℤ}
    {served : List Json} (h : Serves privateGet listing.scan second served) (range : TimeRange) :
    (∃ rows, (listing.rows privateGet range).Gives (.ok rows) ∧
      Complete listing.scan.fields served range rows) ↔
    Valid range ∧ range.endMs < i64Max ∧ Reachable listing.scan second served range ∧
      InSeconds listing.scan.fields second served range := by
  rw [listing.rows_eq]
  constructor
  · rintro ⟨rows, hgives, hcomplete⟩
    obtain ⟨hvalid, hend, hreach⟩ :=
      h.reachable_of_gives listing.limit_pos listing.start_le_cap hgives
    obtain ⟨gathered, hgathered, hmem⟩ :=
      h.rows_gives listing.limit_pos listing.start_le_cap hvalid hend hreach
    cases hgives.unique hgathered
    exact ⟨hvalid, hend, hreach, (complete_iff hmem).mp hcomplete⟩
  · rintro ⟨hvalid, hend, hreach, hseconds⟩
    obtain ⟨gathered, hgathered, hmem⟩ :=
      h.rows_gives listing.limit_pos listing.start_le_cap hvalid hend hreach
    exact ⟨_, hgathered, (complete_iff hmem).mpr hseconds⟩

/-- Rows whose milliseconds are those of their second are in the seconds of every range. -/
theorem inSeconds_of_whole {fields : List String} {second : Json → ℤ} {served : List Json}
    {range : TimeRange} (hstart : 0 ≤ range.startMs)
    (h : ∀ row ∈ served, ∀ t ∈ timestampMs row, second row = t / 1000) :
    InSeconds fields second served range := by
  intro row hrow hin
  obtain ⟨t, ht, htin⟩ := (Option.any_eq_true _ _).mp hin
  have hsecond := h row hrow t ht
  simp only [inRange, Bool.and_eq_true, decide_eq_true_eq] at htin
  refine ⟨row, mem_asked.mpr ⟨hrow, ?_, ?_⟩, hin, rfl⟩
  · rw [Int.tdiv_eq_ediv_of_nonneg hstart, hsecond]
    exact Int.ediv_le_ediv (by decide) htin.1
  · rw [Int.tdiv_eq_ediv_of_nonneg (by omega), hsecond]
    exact Int.ediv_le_ediv (by decide) htin.2

/-- A list that the counter reaches the end of has no chunk that it does not. -/
theorem reachable_of_length {scan : Scan} {second : Json → ℤ} {served : List Json}
    {range : TimeRange} (h : served.length < scan.position scan.cap + scan.limit) :
    Reachable scan second served range :=
  fun _ _ _ _ => (List.length_filter_le _ _).trans_lt h

/-- An exchange that reads the parameters of `spot_trades`. -/
def spotServer (second : Json → ℤ) (served : List Json) : PrivateGet := fun _ params _ =>
  match params with
  | [_, (_, startS), (_, endS), _, (_, page)] =>
    .ok (.array (((served.filter fun row => readInt startS ≤ second row ∧ second row ≤ readInt endS).drop
      (((readInt page).toNat - 1) * 100)).take 100))
  | _ => .error (.http exchange 400 "")

theorem serves_spotServer (second : Json → ℤ) (served : List Json) :
    Serves (spotServer second served) Listing.spotTrades.scan second served := by
  intro startS endS page
  simp only [Listing.scan, spotScan, spotServer, readInt_toString, readInt_toString_nat,
    Int.toNat_natCast, Scan.position]

def spotRow (id createTimeMs : String) : Json :=
  textRow [("currency_pair", "BTC_USDT"), ("id", id), ("create_time_ms", createTimeMs)]

/-- The whole second of a row that gives milliseconds. -/
def wholeSecond (row : Json) : ℤ := ((timestampMs row).getD 0) / 1000

/-- Of three trades of one second two are in the range. -/
theorem second_split_by_range : ∃ rows,
    (spotTrades (spotServer wholeSecond [spotRow "7" "1700000000100", spotRow "8" "1700000000200",
      spotRow "9" "1700000000300"]) ⟨1700000000150, 1705000000000⟩).Gives (.ok rows) ∧
    Complete ["currency_pair", "id"] [spotRow "7" "1700000000100", spotRow "8" "1700000000200",
      spotRow "9" "1700000000300"] ⟨1700000000150, 1705000000000⟩ rows := by
  refine (scan_complete_iff (serves_spotServer _ _) _).mpr ⟨by decide, by decide,
    reachable_of_length (by decide), inSeconds_of_whole (by decide) fun row _ t ht => ?_⟩
  rw [wholeSecond, Option.mem_def.mp ht, Option.getD_some]

/-- A range that ends at `i64::MAX` is never scanned to its end, and a trade with a fraction of a
    millisecond is rounded into a second that the exchange does not have it in. -/
theorem scans_incomplete :
    ¬(spotTrades (spotServer wholeSecond []) ⟨1700000000000, i64Max⟩).Ends ∧
    ¬∃ rows, (spotTrades (spotServer (fun _ => 1700000000) [spotRow "7" "1700000000999.6"])
        ⟨1700000001000, 1700000002000⟩).Gives (.ok rows) ∧
      Complete ["currency_pair", "id"] [spotRow "7" "1700000000999.6"]
        ⟨1700000001000, 1700000002000⟩ rows := by
  constructor
  · unfold spotTrades Scan.rows
    have hvalid : Valid ⟨1700000000000, i64Max⟩ := by decide
    rw [newTimeRange_of_valid hvalid, Routine.ofExcept_ok_bind]
    exact Routine.not_ends_bind (chunks_never (by decide) (by decide) (by decide)) _
  · rintro ⟨rows, hgives, hcomplete⟩
    have hserves := serves_spotServer (fun _ => 1700000000) [spotRow "7" "1700000000999.6"]
    have hvalid : Valid ⟨1700000001000, 1700000002000⟩ := by decide
    obtain ⟨gathered, hgathered, hmem⟩ := hserves.rows_gives Listing.spotTrades.limit_pos
      Listing.spotTrades.start_le_cap hvalid (by decide) (reachable_of_length (by decide))
    cases hgives.unique hgathered
    have hseconds := (complete_iff hmem).mp hcomplete
    revert hseconds
    decide +kernel

end CryptoNav.Exchange.Gate
