import CryptoNav.Exchange.Client

/-!
# Scans with a timestamp for a cursor

OKX's accrued interest and its position history are asked for from the newest row back, each page
with the rows that are older than the last of the page before. Rows of one timestamp that do not
fit on a page are therefore never read: a scan is complete exactly when, counted from the newest row
that is not past the range, no group of equal timestamps reaches over a full page
(`timestamp_scans_iff`).

Ids are left out: the two lists have them, and the requests here do not use them. A page is of
rows strictly older than its cursor, which is what the exchange documents; nothing is assumed of
the order of rows with one timestamp, so a theorem about which of them are lost would be about
the server. The other lists of OKX are read by id and are in `Exchange.Cursors`.
-/

set_option autoImplicit false

namespace CryptoNav.Exchange.Okx

open CryptoNav.Lib
open CryptoNav.History (i64Min i64Max)
open CryptoNav.History.Raw (TimeRange dedup valueI64 textRow)

/-! ## The client -/

def pageLimit : ℕ := 100

/-- What a request answers after a cursor. -/
abbrev After := Option String → Except ExchangeError Json

/-- A turn of the loop over the pages: the cursor and the rows so far. -/
def timestampTurn (get : After) (lastTs : Json → Except ExchangeError ℤ) (time : Json → Option ℤ)
    (range : TimeRange) :
    Option String × List Json → Routine ExchangeError ((Option String × List Json) ⊕ List Json)
  | (after, rows) => do
    let value ← .ofExcept (get after)
    let page ← .ofExcept (dataArray "okx" value)
    match page.getLast? with
    | none => pure (.inr rows)
    | some last =>
      let lastTs ← .ofExcept (lastTs last)
      let rows := rows ++ page.filter (rowInRange time range)
      if page.length < pageLimit ∨ lastTs < range.startMs then pure (.inr rows)
      else
        let next := some (toString lastTs)
        if next = after then pure (.inr rows) else pure (.inl (next, rows))

/-- The rows of the range on the pages that are read, from the end of the range back. -/
def timestampScan (get : After) (lastTs : Json → Except ExchangeError ℤ) (time : Json → Option ℤ)
    (range : TimeRange) : Routine ExchangeError (List Json) :=
  Routine.loop (timestampTurn get lastTs time range)
    (some (toString (saturate (range.endMs + 1))), [])

/-- `private_get`, of the path, the parameters and the weight. -/
abbrev PrivateGet := String → Params → ℕ → Except ExchangeError Json

def optionalParam (name : String) (value : Option String) : Params := value.toList.map ((name, ·))

def interestParams (currency after : Option String) : Params :=
  [("type", "2"), ("limit", toString pageLimit)] ++ optionalParam "ccy" currency ++
    optionalParam "after" after

def interestTs (last : Json) : Except ExchangeError ℤ := .ok ((valueI64 last "ts").getD 0)

/-- The pages of `interest_accrued`. -/
def interestPages (privateGet : PrivateGet) (currency : Option String) (range : TimeRange) :
    Routine ExchangeError (List Json) :=
  timestampScan
    (fun after => privateGet "/api/v5/account/interest-accrued" (interestParams currency after) 1)
    interestTs (valueI64 · "ts") range

/-- `OkxClient::interest_accrued` -/
def interestAccrued (privateGet : PrivateGet) (currency : Option String) (range : TimeRange) :
    Routine ExchangeError (List Json) := do
  let rows ← interestPages privateGet currency range
  pure (sortByKey (fun row => (valueI64 row "ts").getD 0) (dedup ["ccy", "ts", "interest"] rows))

inductive InstrumentType where
  | spot
  | margin
  | swap
  | futures

def InstrumentType.value : InstrumentType → String
  | spot => "SPOT"
  | margin => "MARGIN"
  | swap => "SWAP"
  | futures => "FUTURES"

def positionParams (instrumentType : InstrumentType) (closeType : String)
    (instrumentId after : Option String) : Params :=
  [("instType", instrumentType.value), ("type", closeType), ("limit", toString pageLimit)] ++
    optionalParam "instId" instrumentId ++ optionalParam "after" after

def positionTs (last : Json) : Except ExchangeError ℤ :=
  match valueI64 last "uTime" with
  | some uTime => .ok uTime
  | none => .error (.invalidResponse "okx" "positions-history page has no numeric uTime")

/-- `OkxClient::position_history_by_close_type` -/
def positionHistoryByCloseType (privateGet : PrivateGet) (instrumentType : InstrumentType)
    (instrumentId : Option String) (closeType : String) (range : TimeRange) :
    Routine ExchangeError (List Json) :=
  timestampScan
    (fun after => privateGet "/api/v5/account/positions-history"
      (positionParams instrumentType closeType instrumentId after) 1)
    positionTs (valueI64 · "uTime") range

/-! ## The exchange -/

variable {get : After} {lastTs : Json → Except ExchangeError ℤ} {time : Json → Option ℤ}
  {history : List Json} {range : TimeRange}

/-- The timestamp of a row. -/
def stamp (time : Json → Option ℤ) (row : Json) : ℤ := (time row).getD 0

/-- An exchange that answers with the newest rows that are older than the cursor, newest first and
    those of one timestamp in any order, as many as fit on a page. -/
structure NewestFirst (get : After) (lastTs : Json → Except ExchangeError ℤ)
    (time : Json → Option ℤ) (history : List Json) : Prop where
  timed : ∀ row ∈ history, time row = some (stamp time row)
  lastTs : ∀ row ∈ history, lastTs row = .ok (stamp time row)
  answers : ∀ after : ℤ, ∃ (value : Json) (older : List Json), get (some (toString after)) = .ok value ∧
    value.get "data" = some (.array (older.take pageLimit)) ∧
    older.Perm (history.filter fun row => stamp time row < after) ∧
    older.Pairwise fun r s => stamp time s ≤ stamp time r

/-- How many rows up to the end of the range are no older than a timestamp. -/
def upTo (time : Json → Option ℤ) (history : List Json) (range : TimeRange) (t : ℤ) : ℕ :=
  (rowsIn time history { startMs := t, endMs := range.endMs }).length

/-- The rows of a timestamp begin before the end of a page and go on after it, if the pages before
    are full. -/
def Straddles (time : Json → Option ℤ) (history : List Json) (range : TimeRange) (t : ℤ) : Prop :=
  ∃ k, upTo time history range (t + 1) < pageLimit * k ∧ pageLimit * k < upTo time history range t

/-- All rows of the range are read, and each of them once. The order is left open, since pages are
    put together from the newest row back. -/
def Complete (time : Json → Option ℤ) (history : List Json) (range : TimeRange)
    (rows : List Json) : Prop :=
  rows.Perm (rowsIn time history range)

/-- The range has nothing at `i64::MAX`, which no cursor is past, and no group of equal timestamps in
    it straddles a page. -/
structure Unbroken (time : Json → Option ℤ) (history : List Json) (range : TimeRange) : Prop where
  last : rowsIn time history { startMs := max range.startMs i64Max, endMs := range.endMs } = []
  apart : ∀ t, range.startMs ≤ t → t ≤ range.endMs → ¬Straddles time history range t

/-! ## One page -/

/-- The page after a cursor and what is older than it. -/
structure Page (time : Json → Option ℤ) (history : List Json) (after : ℤ) (page rest : List Json) :
    Prop where
  perm : (page ++ rest).Perm (history.filter fun row => stamp time row < after)
  sorted : (page ++ rest).Pairwise fun r s => stamp time s ≤ stamp time r
  short : page.length < pageLimit → rest = []
  length_le : page.length ≤ pageLimit

namespace Page

variable {after : ℤ} {page rest : List Json}

theorem mem (h : Page time history after page rest) {row : Json} (hrow : row ∈ page ++ rest) :
    row ∈ history ∧ stamp time row < after := by
  obtain ⟨hmem, hlt⟩ := List.mem_filter.mp (h.perm.subset hrow)
  exact ⟨hmem, of_decide_eq_true hlt⟩

theorem mem_page (h : Page time history after page rest) {row : Json} (hrow : row ∈ page) :
    row ∈ history ∧ stamp time row < after := h.mem (List.mem_append_left _ hrow)

/-- The last row of the page is the oldest of it, and what follows is no newer. -/
theorem last_le (h : Page time history after page rest) {last : Json}
    (hlast : page.getLast? = some last) : (∀ row ∈ page, stamp time last ≤ stamp time row) ∧
      ∀ row ∈ rest, stamp time row ≤ stamp time last := by
  obtain ⟨front, rfl⟩ := List.getLast?_eq_some_iff.mp hlast
  obtain ⟨hpage, -, hrest⟩ := List.pairwise_append.mp h.sorted
  refine ⟨fun row hrow => ?_, fun row hrow => hrest last (by simp) row hrow⟩
  rcases List.mem_append.mp hrow with hfront | hlast
  · exact (List.pairwise_append.mp hpage).2.2 row hfront last (List.mem_singleton.mpr rfl)
  · rw [List.mem_singleton.mp hlast]

/-- The rows before the cursor that are no older than `t`. -/
theorem perm_rowsIn (h : Page time history after page rest)
    (htimed : ∀ row ∈ history, time row = some (stamp time row)) (t : ℤ) :
    ((page ++ rest).filter fun row => t ≤ stamp time row).Perm
      (rowsIn time history { startMs := t, endMs := after - 1 }) := by
  have hwindow : rowsIn time history { startMs := t, endMs := after - 1 } =
      (history.filter fun row => stamp time row < after).filter fun row => t ≤ stamp time row := by
    rw [List.filter_filter]
    refine List.filter_congr fun row hrow => ?_
    rw [Bool.eq_iff_iff, rowInRange_iff (htimed row hrow), ← Bool.decide_and, decide_eq_true_iff]
    show t ≤ _ ∧ _ ≤ after - 1 ↔ _
    omega
  rw [hwindow]
  exact h.perm.filter _

theorem upTo_eq (h : Page time history after page rest)
    (htimed : ∀ row ∈ history, time row = some (stamp time row)) (hafter : after ≤ range.endMs + 1)
    {t : ℤ} (ht : t ≤ after) : upTo time history range t =
      ((page ++ rest).filter fun row => t ≤ stamp time row).length + upTo time history range after := by
  have hsplit := @filter_split_perm time t (after - 1) range.endMs history (by omega) (by omega)
  rw [sub_add_cancel] at hsplit
  rw [upTo, ← hsplit.length_eq, List.length_append, (h.perm_rowsIn htimed t).length_eq]
  rfl

/-- What the range has on the page, where what is older than the page is older than `t`. -/
theorem perm_page (h : Page time history after page rest)
    (htimed : ∀ row ∈ history, time row = some (stamp time row)) {t : ℤ}
    (hpage : ∀ row ∈ page, rowInRange time range row = true ↔ t ≤ stamp time row)
    (hrest : ∀ row ∈ rest, stamp time row < t) :
    (page.filter (rowInRange time range)).Perm
      (rowsIn time history { startMs := t, endMs := after - 1 }) := by
  have hfilter := h.perm_rowsIn htimed t
  rw [List.filter_append, List.filter_eq_nil_iff.mpr fun row hrow hle =>
    (hrest row hrow).not_ge (of_decide_eq_true hle), List.append_nil] at hfilter
  rw [List.filter_congr fun row hrow => Bool.eq_iff_iff.mpr
    ((hpage row hrow).trans decide_eq_true_iff.symm)]
  exact hfilter

end Page

/-! ## The scan -/

/-- Nothing has been lost after `k` full pages. The cursor has come down to a timestamp of which all
    rows are there. -/
structure Whole (time : Json → Option ℤ) (history : List Json) (range : TimeRange) (after : ℤ) (k : ℕ)
    (rows : List Json) : Prop where
  after_le : after ≤ range.endMs + 1
  start_le : range.startMs ≤ after
  full : upTo time history range after = pageLimit * k
  rows : rows.Perm (rowsIn time history { startMs := after, endMs := range.endMs })
  apart : ∀ t, after ≤ t → t ≤ range.endMs → ¬Straddles time history range t

/-- Some rows of a timestamp that the cursor has passed are missing. -/
def Lost (time : Json → Option ℤ) (history : List Json) (range : TimeRange) (after : ℤ)
    (rows : List Json) : Prop :=
  ∃ t, range.startMs ≤ t ∧ t ≤ range.endMs ∧ after ≤ t ∧
    (rowsIn time rows { startMs := t, endMs := t }).length <
      (rowsIn time history { startMs := t, endMs := t }).length

/-- What is lost stays lost. -/
theorem Lost.page {after next : ℤ} {rows page rest : List Json}
    (h : Lost time history range after rows) (hpage : Page time history after page rest)
    (htimed : ∀ row ∈ history, time row = some (stamp time row)) (hnext : next ≤ after) :
    Lost time history range next (rows ++ page.filter (rowInRange time range)) := by
  obtain ⟨t, hstart, hend, hafter, hlt⟩ := h
  refine ⟨t, hstart, hend, hnext.trans hafter, ?_⟩
  have hnone : rowsIn time (page.filter (rowInRange time range)) { startMs := t, endMs := t } = [] := by
    refine List.filter_eq_nil_iff.mpr fun row hrow hin => ?_
    obtain ⟨hmem, hbefore⟩ := hpage.mem_page (List.mem_of_mem_filter hrow)
    have hat : t ≤ stamp time row := ((rowInRange_iff (htimed row hmem)).mp hin).1
    omega
  rw [rowsIn, List.filter_append]
  change (rowsIn time rows _ ++ rowsIn time _ _).length < _
  rw [hnone, List.append_nil]
  exact hlt

theorem Lost.not_complete {after : ℤ} {rows : List Json} (h : Lost time history range after rows) :
    ¬Complete time history range rows := by
  obtain ⟨t, hstart, hend, -, hlt⟩ := h
  intro hcomplete
  have hsame : rowsIn time (rowsIn time history range) { startMs := t, endMs := t } =
      rowsIn time history { startMs := t, endMs := t } := by
    rw [rowsIn, rowsIn, List.filter_filter]
    refine List.filter_congr fun row _ => ?_
    cases ht : time row with
    | none => simp [rowInRange, ht]
    | some u =>
      rw [Bool.eq_iff_iff, Bool.and_eq_true, rowInRange_iff ht, rowInRange_iff ht]
      show (t ≤ u ∧ u ≤ t) ∧ _ ↔ t ≤ u ∧ u ≤ t
      omega
  have hperm := (hcomplete.filter (rowInRange time { startMs := t, endMs := t })).length_eq
  rw [← rowsIn, ← rowsIn, hsame] at hperm
  omega

namespace Whole

variable {after : ℤ} {k : ℕ} {rows page rest : List Json}

/-- A timestamp before the cursor that is not the page's last does not straddle. -/
theorem not_straddles (h : Whole time history range after k rows)
    (hpage : Page time history after page rest)
    (htimed : ∀ row ∈ history, time row = some (stamp time row)) {t : ℤ} (ht : t < after)
    (hfew : ((page ++ rest).filter fun row => t ≤ stamp time row).length < pageLimit) :
    ¬Straddles time history range t := by
  rintro ⟨k', hbefore, hpast⟩
  rw [hpage.upTo_eq htimed h.after_le (by omega), h.full] at hbefore hpast
  unfold pageLimit at *
  omega

/-- Only rows of the page are newer than its last. -/
theorem few_newer (hpage : Page time history after page rest) {last : Json}
    (hlast : page.getLast? = some last) {t : ℤ} (ht : stamp time last < t) :
    ((page ++ rest).filter fun row => t ≤ stamp time row).length < pageLimit := by
  have hrest : rest.filter (fun row => t ≤ stamp time row) = [] :=
    List.filter_eq_nil_iff.mpr fun row hrow hle =>
      ((hpage.last_le hlast).2 row hrow).not_gt (ht.trans_le (of_decide_eq_true hle))
  rw [List.filter_append, hrest, List.append_nil]
  refine lt_of_lt_of_le ?_ hpage.length_le
  rw [List.length_filter_lt_length_iff_exists]
  exact ⟨last, List.mem_of_getLast? hlast, by simpa using ht⟩

/-- The rows with those of a page, where what is older than the page is older than `t`. -/
theorem rows_page (h : Whole time history range after k rows)
    (hpage : Page time history after page rest)
    (htimed : ∀ row ∈ history, time row = some (stamp time row)) {t : ℤ} (ht : t ≤ after)
    (hin : ∀ row ∈ page, rowInRange time range row = true ↔ t ≤ stamp time row)
    (hrest : ∀ row ∈ rest, stamp time row < t) :
    (rows ++ page.filter (rowInRange time range)).Perm
      (rowsIn time history { startMs := t, endMs := range.endMs }) := by
  have hsplit := @filter_split_perm time t (after - 1) range.endMs history (by omega)
    (by have := h.after_le; omega)
  rw [sub_add_cancel] at hsplit
  exact (List.perm_append_comm.trans
    ((hpage.perm_page htimed hin hrest).append h.rows)).trans hsplit

/-- Where nothing of the range is older than the page, the range is complete and unbroken. -/
theorem finish (h : Whole time history range after k rows)
    (hpage : Page time history after page rest)
    (htimed : ∀ row ∈ history, time row = some (stamp time row))
    (hrest : ∀ row ∈ rest, stamp time row < range.startMs)
    (hfew : ∀ t, range.startMs ≤ t →
      ((page ++ rest).filter fun row => t ≤ stamp time row).length < pageLimit) :
    Complete time history range (rows ++ page.filter (rowInRange time range)) ∧
      ∀ t, range.startMs ≤ t → t ≤ range.endMs → ¬Straddles time history range t := by
  refine ⟨h.rows_page hpage htimed h.start_le (fun row hrow => ?_) hrest, fun t hs ht => ?_⟩
  · obtain ⟨hmem, hlt⟩ := hpage.mem_page hrow
    have hle := h.after_le
    rw [rowInRange_iff (htimed row hmem)]
    omega
  · by_cases hafter : after ≤ t
    · exact h.apart t hafter ht
    · exact h.not_straddles hpage htimed (not_le.mp hafter) (hfew t hs)

/-- A full page whose last timestamp ends with it. -/
theorem next (h : Whole time history range after k rows)
    (hpage : Page time history after page rest)
    (htimed : ∀ row ∈ history, time row = some (stamp time row)) {last : Json}
    (hlast : page.getLast? = some last) (hfull : page.length = pageLimit)
    (hstart : range.startMs ≤ stamp time last)
    (hrest : ∀ row ∈ rest, stamp time row < stamp time last) :
    Whole time history range (stamp time last) (k + 1)
      (rows ++ page.filter (rowInRange time range)) := by
  obtain ⟨hmemLast, hlt⟩ := hpage.mem_page (List.mem_of_getLast? hlast)
  have hle := h.after_le
  have hall : ((page ++ rest).filter fun row => stamp time last ≤ stamp time row).length = pageLimit := by
    rw [List.filter_append, List.filter_eq_self.mpr fun row hrow =>
        decide_eq_true ((hpage.last_le hlast).1 row hrow),
      List.filter_eq_nil_iff.mpr fun row hrow hle =>
        (hrest row hrow).not_ge (of_decide_eq_true hle), List.append_nil, hfull]
  have hupTo : upTo time history range (stamp time last) = pageLimit * (k + 1) := by
    rw [hpage.upTo_eq htimed hle hlt.le, hall, h.full]
    unfold pageLimit
    omega
  refine ⟨by omega, hstart, hupTo, ?_, fun t hs ht => ?_⟩
  · refine h.rows_page hpage htimed hlt.le (fun row hrow => ?_) hrest
    obtain ⟨hmem, hbefore⟩ := hpage.mem_page hrow
    have hge := (hpage.last_le hlast).1 row hrow
    rw [rowInRange_iff (htimed row hmem)]
    omega
  · by_cases hafter : after ≤ t
    · exact h.apart t hafter ht
    · rcases hs.lt_or_eq with hgt | rfl
      · exact h.not_straddles hpage htimed (not_le.mp hafter) (few_newer hpage hlast hgt)
      · rintro ⟨k', hbefore, hpast⟩
        rw [hpage.upTo_eq htimed hle (Int.add_one_le_of_lt hlt), h.full] at hbefore
        rw [hupTo] at hpast
        unfold pageLimit at *
        omega

/-- A full page whose last timestamp goes on after it: the rest of its rows is lost. -/
theorem lost (h : Whole time history range after k rows)
    (hpage : Page time history after page rest)
    (htimed : ∀ row ∈ history, time row = some (stamp time row)) {last row : Json}
    (hlast : page.getLast? = some last) (hfull : page.length = pageLimit)
    (hstart : range.startMs ≤ stamp time last) (hrow : row ∈ rest)
    (hsame : stamp time row = stamp time last) :
    Straddles time history range (stamp time last) ∧
      Lost time history range (stamp time last) (rows ++ page.filter (rowInRange time range)) := by
  obtain ⟨hmemLast, hlt⟩ := hpage.mem_page (List.mem_of_getLast? hlast)
  have hle := h.after_le
  have hat : ∀ r ∈ history, rowInRange time { startMs := stamp time last, endMs := stamp time last } r
      = true ↔ stamp time r = stamp time last := by
    intro r hr
    rw [rowInRange_iff (htimed r hr)]
    show stamp time last ≤ stamp time r ∧ stamp time r ≤ stamp time last ↔ _
    omega
  refine ⟨⟨k + 1, ?_, ?_⟩, stamp time last, hstart, by omega, le_rfl, ?_⟩
  · have hfew := few_newer hpage hlast (Int.lt_succ (stamp time last))
    rw [hpage.upTo_eq htimed hle (Int.add_one_le_of_lt hlt), h.full]
    change _ < pageLimit at hfew
    unfold pageLimit at *
    omega
  · have hpageAll : page.filter (fun r => stamp time last ≤ stamp time r) = page :=
      List.filter_eq_self.mpr fun r hr => decide_eq_true ((hpage.last_le hlast).1 r hr)
    have hmore : 0 < (rest.filter fun r => stamp time last ≤ stamp time r).length :=
      List.length_pos_of_mem (List.mem_filter.mpr ⟨hrow, decide_eq_true hsame.ge⟩)
    rw [hpage.upTo_eq htimed hle hlt.le, h.full, List.filter_append, List.length_append, hpageAll,
      hfull]
    unfold pageLimit
    omega
  · -- Of the last timestamp only the rows on the page have been read.
    have hnone : rowsIn time rows { startMs := stamp time last, endMs := stamp time last } = [] := by
      refine List.filter_eq_nil_iff.mpr fun r hr hin => ?_
      obtain ⟨hmem, hwindow⟩ := List.mem_filter.mp (h.rows.subset hr)
      have hge : after ≤ stamp time r := ((rowInRange_iff (htimed r hmem)).mp hwindow).1
      have hsame := (hat r hmem).mp hin
      omega
    have holder : rowsIn time (history.filter fun r => stamp time r < after)
        { startMs := stamp time last, endMs := stamp time last } =
        rowsIn time history { startMs := stamp time last, endMs := stamp time last } := by
      rw [rowsIn, List.filter_filter]
      refine List.filter_congr fun r hr => ?_
      rw [Bool.eq_iff_iff, Bool.and_eq_true, hat r hr, decide_eq_true_iff]
      omega
    have hcount := (hpage.perm.filter
      (rowInRange time { startMs := stamp time last, endMs := stamp time last })).length_eq
    rw [← rowsIn, ← rowsIn, holder, rowsIn, List.filter_append, List.length_append] at hcount
    have hmore : 0 < (rest.filter
        (rowInRange time { startMs := stamp time last, endMs := stamp time last })).length :=
      List.length_pos_of_mem (List.mem_filter.mpr
        ⟨hrow, (hat row (hpage.mem (List.mem_append_right _ hrow)).1).mpr hsame⟩)
    have hread := ((List.filter_sublist (p := rowInRange time range) (l := page)).filter
      (rowInRange time { startMs := stamp time last, endMs := stamp time last })).length_le
    rw [rowsIn, List.filter_append, List.length_append, ← rowsIn, hnone, List.length_nil]
    omega

end Whole

/-! ## Every page -/

/-- The range is read as a whole, or something of it is lost already. Once something is lost, later
    pages do not bring it back. -/
def Scanned (time : Json → Option ℤ) (history : List Json) (range : TimeRange) (after : ℤ)
    (rows : List Json) : Prop :=
  (range.endMs < range.startMs ∧ rows = []) ∨
    (rowsIn time history { startMs := max range.startMs i64Max, endMs := range.endMs } = [] ∧
      ∃ k, Whole time history range after k rows) ∨
    (¬Unbroken time history range ∧ Lost time history range after rows)

def older (time : Json → Option ℤ) (history : List Json) (s : Option String × List Json) : ℕ :=
  s.1.elim 0 fun after => (history.filter fun row => stamp time row < readInt after).length

theorem NewestFirst.page (h : NewestFirst get lastTs time history) (after : ℤ) :
    ∃ value page rest, get (some (toString after)) = .ok value ∧
      dataArray "okx" value = .ok page ∧ Page time history after page rest := by
  obtain ⟨value, older, hget, hdata, hperm, hsorted⟩ := h.answers after
  refine ⟨value, older.take pageLimit, older.drop pageLimit, hget, ?_, ?_, ?_, ?_, ?_⟩
  · rw [dataArray, hdata]
  · rw [List.take_append_drop]
    exact hperm
  · rw [List.take_append_drop]
    exact hsorted
  · intro hshort
    rw [List.length_take] at hshort
    exact List.drop_of_length_le (by omega)
  · exact List.length_take_le _ _

/-- An empty range has no rows on any page. -/
theorem filter_inverted (hrange : range.endMs < range.startMs) (page : List Json) :
    page.filter (rowInRange time range) = [] := rowsIn_eq_nil hrange

theorem complete_inverted (hrange : range.endMs < range.startMs) :
    Complete time history range [] ↔ Unbroken time history range := by
  refine iff_of_true ?_ ⟨rowsIn_eq_nil (lt_max_of_lt_left hrange), fun t hs ht => by omega⟩
  rw [Complete, rowsIn_eq_nil hrange]

/-- **A turn** reads one page, and ends with the range complete exactly if it is unbroken. -/
theorem timestamp_turn (h : NewestFirst get lastTs time history) {s : Option String × List Json}
    (hs : ∃ after : ℤ, s.1 = some (toString after) ∧ Scanned time history range after s.2) :
    ∃ r, (timestampTurn get lastTs time range s).Gives r ∧
      Routine.Turns
        (fun s => ∃ after : ℤ, s.1 = some (toString after) ∧ Scanned time history range after s.2)
        (Routine.Meets (fun _ => False)
          (fun rows => Complete time history range rows ↔ Unbroken time history range))
        (older time history) s r := by
  obtain ⟨cursor, rows⟩ := s
  obtain ⟨after, hcursor, hscanned⟩ := hs
  obtain rfl : cursor = some (toString after) := hcursor
  obtain ⟨value, page, rest, hget, hdata, hpage⟩ := h.page after
  simp only [timestampTurn, hget, hdata, Routine.ofExcept_ok_bind]
  have hcomplete : ∀ {rows}, Complete time history range rows →
      rowsIn time history { startMs := max range.startMs i64Max, endMs := range.endMs } = [] →
      (∀ t, range.startMs ≤ t → t ≤ range.endMs → ¬Straddles time history range t) →
      (Complete time history range rows ↔ Unbroken time history range) :=
    fun hrows hlast hapart => iff_of_true hrows ⟨hlast, hapart⟩
  cases hlast : page.getLast? with
  | none =>
    refine ⟨_, Routine.gives_pure.mpr rfl, ?_⟩
    have hempty : page = [] := List.getLast?_eq_none_iff.mp hlast
    have hrest : rest = [] := hpage.short (by rw [hempty]; decide)
    rcases hscanned with ⟨hrange, hrows⟩ | ⟨hnone, k, hwhole⟩ | ⟨hbroken, hlost⟩
    · rw [show rows = [] from hrows]
      exact complete_inverted hrange
    · subst hempty hrest
      obtain ⟨hrows, hapart⟩ := hwhole.finish hpage h.timed (by simp)
        (fun _ _ => (by decide : 0 < pageLimit))
      rw [List.filter_nil, List.append_nil] at hrows
      exact hcomplete hrows hnone hapart
    · exact iff_of_false hlost.not_complete hbroken
  | some last =>
    obtain ⟨hmemLast, hlt⟩ := hpage.mem_page (List.mem_of_getLast? hlast)
    simp only [h.lastTs last hmemLast, Routine.ofExcept_ok_bind]
    split
    case isTrue hstop =>
      refine ⟨_, Routine.gives_pure.mpr rfl, ?_⟩
      rcases hscanned with ⟨hrange, hrows⟩ | ⟨hnone, k, hwhole⟩ | ⟨hbroken, hlost⟩
      · show Complete _ _ _ (rows ++ _) ↔ _
        rw [show rows = [] from hrows, filter_inverted hrange]
        exact complete_inverted hrange
      · have hrest : ∀ row ∈ rest, stamp time row < range.startMs := by
          intro row hrow
          rcases hstop with hshort | hpast
          · rw [hpage.short hshort] at hrow
            cases hrow
          · exact ((hpage.last_le hlast).2 row hrow).trans_lt hpast
        have hfew : ∀ t, range.startMs ≤ t →
            ((page ++ rest).filter fun row => t ≤ stamp time row).length < pageLimit := by
          intro t ht
          rcases hstop with hshort | hpast
          · rw [hpage.short hshort, List.append_nil]
            exact (List.length_filter_le _ _).trans_lt hshort
          · exact Whole.few_newer hpage hlast (hpast.trans_le ht)
        obtain ⟨hrows, hapart⟩ := hwhole.finish hpage h.timed hrest hfew
        exact hcomplete hrows hnone hapart
      · exact iff_of_false (hlost.page hpage h.timed le_rfl).not_complete hbroken
    case isFalse hgo =>
      obtain ⟨hfull, hstart⟩ := not_or.mp hgo
      have hfull : page.length = pageLimit := le_antisymm hpage.length_le (not_lt.mp hfull)
      have hnext : some (toString (stamp time last)) ≠ some (toString after) := fun heq =>
        hlt.ne (toString_injective (Option.some.inj heq))
      rw [if_neg hnext]
      refine ⟨_, Routine.gives_pure.mpr rfl, ⟨stamp time last, rfl, ?_⟩, ?_⟩
      · rcases hscanned with ⟨hrange, hrows⟩ | ⟨hnone, k, hwhole⟩ | ⟨hbroken, hlost⟩
        · refine .inl ⟨hrange, ?_⟩
          show rows ++ _ = []
          rw [show rows = [] from hrows, filter_inverted hrange, List.append_nil]
        · by_cases hsame : ∃ row ∈ rest, stamp time row = stamp time last
          · obtain ⟨row, hrow, hrowTs⟩ := hsame
            obtain ⟨hstraddles, hlost⟩ :=
              hwhole.lost hpage h.timed hlast hfull (not_lt.mp hstart) hrow hrowTs
            have hend : stamp time last ≤ range.endMs := by
              have := hwhole.after_le
              omega
            exact .inr (.inr ⟨fun hunbroken =>
              hunbroken.apart _ (not_lt.mp hstart) hend hstraddles, hlost⟩)
          · have hrest : ∀ row ∈ rest, stamp time row < stamp time last := fun row hrow =>
              lt_of_le_of_ne ((hpage.last_le hlast).2 row hrow) fun heq => hsame ⟨row, hrow, heq⟩
            exact .inr (.inl ⟨hnone, k + 1,
              hwhole.next hpage h.timed hlast hfull (not_lt.mp hstart) hrest⟩)
        · exact .inr (.inr ⟨hbroken, hlost.page hpage h.timed hlt.le⟩)
      · -- The last row of the page is not older than itself.
        have hfewer : (history.filter fun row => stamp time row < stamp time last) =
            (history.filter fun row => stamp time row < after).filter
              fun row => stamp time row < stamp time last := by
          rw [List.filter_filter]
          refine List.filter_congr fun row _ => ?_
          rw [← Bool.decide_and, decide_eq_decide]
          omega
        simp only [older, Option.elim_some, readInt_toString]
        rw [hfewer, List.length_filter_lt_length_iff_exists]
        exact ⟨last, List.mem_filter.mpr ⟨hmemLast, decide_eq_true hlt⟩, by simp⟩

/-- Both ends are `i64`. -/
def Fits (range : TimeRange) : Prop := i64Min ≤ range.startMs ∧ range.endMs ≤ i64Max

theorem scanned_start (hfits : Fits range) :
    Scanned time history range (saturate (range.endMs + 1)) [] := by
  by_cases hrange : range.endMs < range.startMs
  · exact .inl ⟨hrange, rfl⟩
  · by_cases hend : range.endMs < i64Max
    · have hcursor : saturate (range.endMs + 1) = range.endMs + 1 := by
        have := hfits.1
        unfold saturate i64Min i64Max at *
        omega
      have hnone : rowsIn time history { startMs := range.endMs + 1, endMs := range.endMs } = [] :=
        rowsIn_eq_nil (Int.lt_succ _)
      refine .inr (.inl ⟨rowsIn_eq_nil (lt_max_of_lt_right hend), 0, ?_⟩)
      rw [hcursor]
      refine ⟨le_rfl, by omega, ?_, ?_, fun t hs ht => by omega⟩
      · rw [upTo, hnone]
        rfl
      · rw [hnone]
    · -- No cursor is past the last millisecond.
      have hlast : range.endMs = i64Max := le_antisymm hfits.2 (not_lt.mp hend)
      have hcursor : saturate (range.endMs + 1) = i64Max := by
        rw [hlast]
        decide
      have hmax : max range.startMs i64Max = i64Max := max_eq_right (by omega)
      rw [hcursor]
      by_cases hnone : rowsIn time history { startMs := i64Max, endMs := range.endMs } = []
      · refine .inr (.inl ⟨by rw [hmax]; exact hnone, 0, by omega, by omega, ?_, by rw [hnone], ?_⟩)
        · rw [upTo, hnone]
          rfl
        · rintro t hs ht ⟨k, -, hpast⟩
          obtain rfl : t = i64Max := by omega
          rw [upTo, hnone] at hpast
          exact absurd hpast (Nat.not_lt_zero _)
      · refine .inr (.inr ⟨fun hunbroken => hnone (hmax ▸ hunbroken.last), i64Max, by omega,
          hlast.ge, le_rfl, ?_⟩)
        rw [← hlast] at hnone ⊢
        exact List.length_pos_iff.mpr hnone

/-- **A scan ends, with the range complete exactly if it is unbroken.** -/
theorem timestamp_scan (h : NewestFirst get lastTs time history) (hfits : Fits range) :
    (∃ rows, (timestampScan get lastTs time range).Gives (.ok rows) ∧
      Complete time history range rows) ↔ Unbroken time history range := by
  obtain ⟨r, hr, hmeets⟩ := Routine.loop_total (s := (some (toString (saturate (range.endMs + 1))), []))
    (older time history) (fun _ hs => timestamp_turn h hs) ⟨_, rfl, scanned_start hfits⟩
  match r, hr, hmeets with
  | .ok rows, hr, hiff =>
    have hunique : ∀ rows', (timestampScan get lastTs time range).Gives (.ok rows') ↔ rows = rows' := by
      intro rows'
      rw [timestampScan, Routine.gives_iff_eq hr, Except.ok.injEq]
    simp only [hunique, exists_eq_left']
    exact hiff

/-- **Accrued interest and position history are complete exactly where no group of equal timestamps
    straddles a page**, and nothing of the range is at `i64::MAX`. Both end in any case; what is
    missing is missing without an error. -/
theorem timestamp_scans_iff {privateGet : PrivateGet} {currency instrumentId : Option String}
    {instrumentType : InstrumentType} {closeType : String} {interest positions : List Json}
    (hinterest : NewestFirst (fun after => privateGet "/api/v5/account/interest-accrued"
      (interestParams currency after) 1) interestTs (valueI64 · "ts") interest)
    (hpositions : NewestFirst (fun after => privateGet "/api/v5/account/positions-history"
      (positionParams instrumentType closeType instrumentId after) 1) positionTs
      (valueI64 · "uTime") positions)
    (hfits : Fits range) :
    ((∃ rows, (interestPages privateGet currency range).Gives (.ok rows) ∧
        Complete (valueI64 · "ts") interest range rows) ↔
      Unbroken (valueI64 · "ts") interest range) ∧
    ((∃ rows, (positionHistoryByCloseType privateGet instrumentType instrumentId closeType
        range).Gives (.ok rows) ∧ Complete (valueI64 · "uTime") positions range rows) ↔
      Unbroken (valueI64 · "uTime") positions range) :=
  ⟨timestamp_scan hinterest hfits, timestamp_scan hpositions hfits⟩

/-- What fits on a page is not broken. -/
theorem unbroken_of_length_le (hfew : history.length ≤ pageLimit) (hend : range.endMs < i64Max) :
    Unbroken time history range := by
  refine ⟨rowsIn_eq_nil (lt_max_of_lt_right hend), ?_⟩
  rintro t - - ⟨k, hbefore, hpast⟩
  have hall : upTo time history range t ≤ history.length := List.length_filter_le _ _
  unfold pageLimit at *
  omega

/-! ## An hour of interest -/

/-- An exchange that reads its cursor, of rows that are listed newest first. -/
def okxServer (interest positions : List Json) : PrivateGet := fun path params _ =>
  let after := match params.getLast? with
    | some ("after", after) => readInt after
    | _ => i64Max
  let page := if path = "/api/v5/account/interest-accrued" then
      (interest.filter fun row => stamp (valueI64 · "ts") row < after).take pageLimit
    else (positions.filter fun row => stamp (valueI64 · "uTime") row < after).take pageLimit
  .ok (.object [("code", .string "0"), ("data", .array page)])

theorem newestFirst_interest (interest positions : List Json)
    (htimed : ∀ row ∈ interest, (valueI64 row "ts").isSome)
    (hsorted : interest.Pairwise fun r s => stamp (valueI64 · "ts") s ≤ stamp (valueI64 · "ts") r)
    (currency : Option String) :
    NewestFirst (fun after => okxServer interest positions "/api/v5/account/interest-accrued"
      (interestParams currency after) 1) interestTs (valueI64 · "ts") interest where
  timed row hrow := by
    obtain ⟨t, ht⟩ := Option.isSome_iff_exists.mp (htimed row hrow)
    rw [stamp, ht, Option.getD_some]
  lastTs row hrow := rfl
  answers after := by
    refine ⟨_, interest.filter fun row => stamp (valueI64 · "ts") row < after, rfl, ?_, .refl _,
      hsorted.filter _⟩
    simp only [interestParams, optionalParam, Option.toList_some, List.map_cons,
      List.map_nil, List.getLast?_concat, readInt_toString, if_true]
    rfl

theorem newestFirst_positions (interest positions : List Json)
    (htimed : ∀ row ∈ positions, (valueI64 row "uTime").isSome)
    (hsorted : positions.Pairwise fun r s =>
      stamp (valueI64 · "uTime") s ≤ stamp (valueI64 · "uTime") r)
    (instrumentType : InstrumentType) (closeType : String) (instrumentId : Option String) :
    NewestFirst (fun after => okxServer interest positions "/api/v5/account/positions-history"
      (positionParams instrumentType closeType instrumentId after) 1) positionTs
      (valueI64 · "uTime") positions where
  timed row hrow := by
    obtain ⟨t, ht⟩ := Option.isSome_iff_exists.mp (htimed row hrow)
    rw [stamp, ht, Option.getD_some]
  lastTs row hrow := by
    obtain ⟨t, ht⟩ := Option.isSome_iff_exists.mp (htimed row hrow)
    rw [positionTs, stamp, ht, Option.getD_some]
  answers after := by
    refine ⟨_, positions.filter fun row => stamp (valueI64 · "uTime") row < after, rfl, ?_, .refl _,
      hsorted.filter _⟩
    simp only [positionParams, optionalParam, Option.toList_some, List.map_cons,
      List.map_nil, List.getLast?_concat, readInt_toString]
    rw [if_neg (by decide)]
    rfl

def interestRow (ccy ts : String) : Json :=
  textRow [("ccy", ccy), ("ts", ts), ("interest", "0.1")]

/-- Two hours of interest on two currencies. -/
def twoHours : List Json :=
  [interestRow "BTC" "1700003600000", interestRow "USDT" "1700003600000",
    interestRow "BTC" "1700000000000", interestRow "USDT" "1700000000000"]

def onePosition : List Json := [textRow [("posId", "1"), ("uTime", "1700000000000")]]

theorem two_hours_read :
    (∃ rows, (interestPages (okxServer twoHours onePosition) none
        ⟨1700000000000, 1700003600000⟩).Gives (.ok rows) ∧
      Complete (valueI64 · "ts") twoHours ⟨1700000000000, 1700003600000⟩ rows) ∧
    ∃ rows, (positionHistoryByCloseType (okxServer twoHours onePosition) .swap none "3"
        ⟨1700000000000, 1700003600000⟩).Gives (.ok rows) ∧
      Complete (valueI64 · "uTime") onePosition ⟨1700000000000, 1700003600000⟩ rows := by
  have hscans := timestamp_scans_iff
    (newestFirst_interest twoHours onePosition (by decide +kernel) (by decide +kernel) none)
    (newestFirst_positions twoHours onePosition (by decide +kernel) (by decide +kernel) .swap "3" none)
    (⟨by decide, by decide⟩ : Fits ⟨1700000000000, 1700003600000⟩)
  exact ⟨hscans.1.mpr (unbroken_of_length_le (by decide) (by decide)),
    hscans.2.mpr (unbroken_of_length_le (by decide) (by decide))⟩

/-- An hour of interest on a hundred and one currencies. -/
def oneHour : List Json :=
  (List.range 101).map fun n => interestRow (toString n) "1700003600000"

/-- The last of a hundred and one currencies is not read. -/
theorem one_hour_not_read :
    NewestFirst (fun after => okxServer oneHour onePosition "/api/v5/account/interest-accrued"
      (interestParams none after) 1) interestTs (valueI64 · "ts") oneHour ∧
    ¬∃ rows, (interestPages (okxServer oneHour onePosition) none
        ⟨1700000000000, 1700007200000⟩).Gives (.ok rows) ∧
      Complete (valueI64 · "ts") oneHour ⟨1700000000000, 1700007200000⟩ rows := by
  have hserver := newestFirst_interest oneHour onePosition (by decide +kernel) (by decide +kernel) none
  refine ⟨hserver, fun hread => ?_⟩
  have hunbroken := (timestamp_scan hserver ⟨by decide, by decide⟩).mp hread
  refine hunbroken.apart 1700003600000 (by decide) (by decide) ⟨1, ?_⟩
  decide +kernel

end CryptoNav.Exchange.Okx
