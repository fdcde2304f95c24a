import CryptoNav.Exchange.Client
import CryptoNav.Lib.Paging

/-!
# Binance's trades

`BinanceClient::paged_trades`: a chunk is first asked for by its times and then, as long as the pages
are full, by the id after the last one, which the chunk does not bound. Trades in the order of their
ids are in that of their times, so that everything up to the last id is there; what is there twice,
at the greatest id an `i64` can hold, goes in the end (`paged_trades_complete_iff`).

What is assumed of the exchange (`Holds`) is that ids and times go the same way, and that a page
has the trades from an id on, or those of a window, up to its limit. The trades are one list
throughout: one that grows while it is read is left out. So are the log line of a scan and the
weight of a request, as neither changes what is asked next.
-/

set_option autoImplicit false

namespace CryptoNav.Exchange.Binance

open CryptoNav.Lib
open CryptoNav.History (i64Min i64Max)
open CryptoNav.History.Raw (TimeRange dedup valueI64 textRow)

def exchange : String := "binance"

def limit : ℕ := 1000

/-- `paced_history_get`, of the base, the path, the parameters and the weight. -/
abbrev HistoryGet := String → String → Params → ℕ → Except ExchangeError Json

def tradeParams (symbol : String) (chunk : TimeRange) (fromId : Option ℤ) : Params :=
  [("symbol", symbol), ("limit", toString limit)] ++
    match fromId with
    | some fromId => [("fromId", toString fromId)]
    | none => [("startTime", toString chunk.startMs), ("endTime", toString chunk.endMs)]

/-- `value_i64(row, "id").unwrap_or_default()` -/
def tradeId (row : Json) : ℤ := (valueI64 row "id").getD 0

/-- `value_i64(row, "time").unwrap_or_default()` -/
def tradeTime (row : Json) : ℤ := (valueI64 row "time").getD 0

variable (pacedHistoryGet : HistoryGet) (base path symbol : String) (weight : ℕ)

/-- A turn of the `loop` over the pages of a chunk: the cursor and the rows so far. -/
def tradeTurn (chunk : TimeRange) :
    Option ℤ × List Json → Routine ExchangeError ((Option ℤ × List Json) ⊕ List Json)
  | (fromId, allRows) => do
    let value ← .ofExcept (pacedHistoryGet base path (tradeParams symbol chunk fromId) weight)
    let page ← .ofExcept (rootArray exchange value)
    let page := sortByKey tradeId page
    match page.getLast? with
    | none => pure (.inr allRows)
    | some last =>
      match valueI64 last "id" with
      | none => .ofExcept (.error (.invalidResponse exchange s!"{path} page has no numeric id"))
      | some lastId =>
        let allRows := allRows ++ page.filter (rowInRange (valueI64 · "time") chunk)
        if page.length < limit ∨ chunk.endMs < tradeTime last then pure (.inr allRows)
        else pure (.inl (some (saturate (lastId + 1)), allRows))

/-- `BinanceClient::paged_trades` -/
def pagedTrades (range : TimeRange) (chunkSpanMs : ℤ) : Routine ExchangeError (List Json) := do
  let windows ← chunks range chunkSpanMs
  let allRows ← windows.foldlM (fun allRows chunk =>
    Routine.loop (tradeTurn pacedHistoryGet base path symbol weight chunk) (none, allRows)) []
  pure (sortByKey tradeTime (dedup ["symbol", "id"] allRows))

/-! ## The exchange -/

/-- An exchange that holds the trades of a symbol, whose times do not decrease with their ids. A page
    may list its trades in any order. -/
structure Holds (trades : List Json) : Prop where
  numeric : ∀ row ∈ trades, (valueI64 row "id").isSome ∧ (valueI64 row "time").isSome
  ids : trades.Pairwise fun r s => tradeId r < tradeId s
  times : trades.Pairwise fun r s => tradeTime r ≤ tradeTime s
  window : ∀ chunk, ∃ page,
    pacedHistoryGet base path (tradeParams symbol chunk none) weight = .ok (.array page) ∧
      page.Perm ((trades.filter (rowInRange (valueI64 · "time") chunk)).take limit)
  fromId : ∀ chunk id, ∃ page,
    pacedHistoryGet base path (tradeParams symbol chunk (some id)) weight = .ok (.array page) ∧
      page.Perm ((trades.filter fun row => id ≤ tradeId row).take limit)

variable {pacedHistoryGet base path symbol weight} {trades : List Json}

namespace Holds

theorem id_eq (h : Holds pacedHistoryGet base path symbol weight trades) {row : Json}
    (hrow : row ∈ trades) : valueI64 row "id" = some (tradeId row) := by
  obtain ⟨id, hid⟩ := Option.isSome_iff_exists.mp (h.numeric row hrow).1
  rw [tradeId, hid, Option.getD_some]

theorem time_eq (h : Holds pacedHistoryGet base path symbol weight trades) {row : Json}
    (hrow : row ∈ trades) : valueI64 row "time" = some (tradeTime row) := by
  obtain ⟨time, htime⟩ := Option.isSome_iff_exists.mp (h.numeric row hrow).2
  rw [tradeTime, htime, Option.getD_some]

theorem id_le (h : Holds pacedHistoryGet base path symbol weight trades) {row : Json}
    (hrow : row ∈ trades) : tradeId row ≤ i64Max := (valueI64_fits (h.id_eq hrow)).2

/-- The cursor after a trade. -/
theorem next_id (h : Holds pacedHistoryGet base path symbol weight trades) {row : Json}
    (hrow : row ∈ trades) : saturate (tradeId row + 1) = tradeId row + 1 ∨
      saturate (tradeId row + 1) = tradeId row ∧ tradeId row = i64Max := by
  obtain ⟨hge, hle⟩ := valueI64_fits (h.id_eq hrow)
  unfold saturate i64Min i64Max at *
  omega

theorem mem_range (h : Holds pacedHistoryGet base path symbol weight trades) {row : Json}
    (hrow : row ∈ trades) {window : TimeRange} : rowInRange (valueI64 · "time") window row = true ↔
      window.startMs ≤ tradeTime row ∧ tradeTime row ≤ window.endMs :=
  rowInRange_iff (h.time_eq hrow)

/-- Trades with smaller ids are no later. -/
theorem time_le_of_id_lt (h : Holds pacedHistoryGet base path symbol weight trades) {r s : Json}
    (hr : r ∈ trades) (hs : s ∈ trades) (hlt : tradeId r < tradeId s) :
    tradeTime r ≤ tradeTime s := by
  let R : Json → Json → Prop := fun r s =>
    (tradeId r < tradeId s → tradeTime r ≤ tradeTime s) ∧
      (tradeId s < tradeId r → tradeTime s ≤ tradeTime r)
  have hsymm : Std.Symm R := ⟨fun _ _ hR => ⟨hR.2, hR.1⟩⟩
  have hpairwise : trades.Pairwise R := (h.ids.and h.times).imp fun {a b} hab =>
    ⟨fun _ => hab.2, fun hba => absurd hab.1 hba.not_gt⟩
  exact (hpairwise.forall_of_forall (fun _ _ => ⟨fun _ => le_rfl, fun _ => le_rfl⟩) hr hs).1 hlt

theorem sorted (h : Holds pacedHistoryGet base path symbol weight trades) :
    trades.Pairwise fun r s => tradeId r ≤ tradeId s := h.ids.imp le_of_lt

end Holds

/-! ## One chunk -/

/-- What the loop makes of a sorted page. -/
def afterPage (chunk : TimeRange) (allRows page : List Json) :
    (Option ℤ × List Json) ⊕ List Json :=
  match page.getLast? with
  | none => .inr allRows
  | some last =>
    let allRows := allRows ++ page.filter (rowInRange (valueI64 · "time") chunk)
    if page.length < limit ∨ chunk.endMs < tradeTime last then .inr allRows
    else .inl (some (saturate (tradeId last + 1)), allRows)

theorem Holds.turn_gives (h : Holds pacedHistoryGet base path symbol weight trades)
    {chunk : TimeRange} {fromId : Option ℤ} {allRows page sorted : List Json}
    (hsub : sorted.Sublist trades) (hperm : page.Perm sorted)
    (hget : pacedHistoryGet base path (tradeParams symbol chunk fromId) weight
      = .ok (.array page)) :
    (tradeTurn pacedHistoryGet base path symbol weight chunk (fromId, allRows)).Gives
      (.ok (afterPage chunk allRows sorted)) := by
  have hsort : sortByKey tradeId page = sorted := sortByKey_eq_of_perm hperm (h.ids.sublist hsub)
  simp only [tradeTurn, hget, Routine.ofExcept_ok_bind, rootArray_array, hsort, afterPage]
  cases hlast : sorted.getLast? with
  | none => exact Routine.gives_pure.mpr rfl
  | some last =>
    have hmem : last ∈ trades := hsub.subset (List.mem_of_getLast? hlast)
    simp only [h.id_eq hmem]
    split
    · exact Routine.gives_pure.mpr rfl
    · exact Routine.gives_pure.mpr rfl

/-- What the loop over a chunk keeps, from the rows it began with: everything up to some id is there,
    and the cursor is the next one. Only after the greatest id there is none. -/
def Collected (trades rows : List Json) (chunk : TimeRange) : Option ℤ × List Json → Prop
  | (none, allRows) => allRows = rows
  | (some fromId, allRows) => ∃ id, (fromId = id + 1 ∨ fromId = id ∧ id = i64Max) ∧
      dedup ["symbol", "id"] allRows = dedup ["symbol", "id"] (rows ++
        (trades.filter fun row => tradeId row ≤ id).filter (rowInRange (valueI64 · "time") chunk))

/-- The trades that are still to be asked for. -/
def remaining (trades : List Json) : Option ℤ × List Json → ℕ
  | (none, _) => trades.length + 1
  | (some fromId, _) => (trades.filter fun row => fromId ≤ tradeId row).length

/-- The rows of the chunk are added, but for repetitions. -/
def Added (trades rows : List Json) (chunk : TimeRange) (allRows : List Json) : Prop :=
  dedup ["symbol", "id"] allRows =
    dedup ["symbol", "id"] (rows ++ trades.filter (rowInRange (valueI64 · "time") chunk))

namespace Holds

/-- The first page of a chunk. -/
theorem first_turn (h : Holds pacedHistoryGet base path symbol weight trades) {chunk : TimeRange}
    {rows : List Json} : Routine.Turns (ε := ExchangeError) (Collected trades rows chunk)
      (Routine.Meets (fun _ => False) (Added trades rows chunk)) (remaining trades) (none, rows)
      (.ok (afterPage chunk rows
        ((trades.filter (rowInRange (valueI64 · "time") chunk)).take limit))) := by
  generalize hinside : trades.filter (rowInRange (valueI64 · "time") chunk) = inside
  have hmem : ∀ row ∈ inside, row ∈ trades ∧ rowInRange (valueI64 · "time") chunk row = true :=
    fun row hrow => List.mem_filter.mp (hinside ▸ hrow)
  have hkept : (inside.take limit).filter (rowInRange (valueI64 · "time") chunk)
      = inside.take limit :=
    List.filter_eq_self.mpr fun row hrow => (hmem row (List.mem_of_mem_take hrow)).2
  have hids : inside.Pairwise fun r s => tradeId r < tradeId s := hinside ▸ h.ids.filter _
  unfold afterPage
  cases hlast : (inside.take limit).getLast? with
  | none =>
    have hempty : inside = [] := by
      have htake := List.getLast?_eq_none_iff.mp hlast
      rcases List.take_eq_nil_iff.mp htake with hzero | hempty
      · exact absurd hzero (by decide)
      · exact hempty
    show dedup _ rows = dedup _ (rows ++ _)
    rw [hinside, hempty, List.append_nil]
  | some last =>
    obtain ⟨hlastTrade, hlastIn⟩ := hmem last (List.mem_of_mem_take (List.mem_of_getLast? hlast))
    have hlate : ¬chunk.endMs < tradeTime last := not_lt.mpr ((h.mem_range hlastTrade).mp hlastIn).2
    simp only [hkept, hlate, or_false]
    split
    case isTrue hshort =>
      have hall : inside.take limit = inside :=
        List.take_of_length_le (by rw [List.length_take] at hshort; omega)
      show dedup _ _ = dedup _ _
      rw [hall, hinside]
    case isFalse hfull =>
      refine ⟨⟨tradeId last, h.next_id hlastTrade, ?_⟩, ?_⟩
      · rw [List.filter_comm, hinside, filter_le_last hids hlast]
      · exact Nat.lt_succ_of_le (List.length_filter_le _ _)

/-- Everything up to an id and then the page after it is everything up to the page's last id. -/
theorem filter_page (h : Holds pacedHistoryGet base path symbol weight trades) {id : ℤ}
    {last : Json} (hlast :
      ((trades.filter fun row => id + 1 ≤ tradeId row).take limit).getLast? = some last) :
    trades.filter (fun row => tradeId row ≤ tradeId last) =
      trades.filter (fun row => tradeId row ≤ id) ++
        (trades.filter fun row => id + 1 ≤ tradeId row).take limit := by
  have hmem := List.mem_filter.mp (List.mem_of_mem_take (List.mem_of_getLast? hlast))
  have hid : id + 1 ≤ tradeId last := of_decide_eq_true hmem.2
  rw [← filter_lt_append (h.sorted.filter fun row => tradeId row ≤ tradeId last) (id + 1),
    List.filter_comm (fun row => decide (id + 1 ≤ tradeId row)),
    filter_le_last (h.ids.filter _) hlast, List.filter_filter]
  congr 1
  refine List.filter_congr fun row _ => ?_
  rw [← Bool.decide_and, decide_eq_decide]
  omega

/-- After the last trade that is in time there are none. -/
theorem filter_past (h : Holds pacedHistoryGet base path symbol weight trades) {chunk : TimeRange}
    {last : Json} (hlast : last ∈ trades) (hlate : chunk.endMs < tradeTime last) :
    trades.filter (rowInRange (valueI64 · "time") chunk) =
      (trades.filter fun row => tradeId row ≤ tradeId last).filter
        (rowInRange (valueI64 · "time") chunk) := by
  rw [List.filter_filter]
  refine List.filter_congr fun row hrow => ?_
  rw [Bool.eq_iff_iff, Bool.and_eq_true, decide_eq_true_iff]
  refine ⟨fun hin => ⟨hin, not_lt.mp fun hlt => ?_⟩, And.left⟩
  have hafter := h.time_le_of_id_lt hlast hrow hlt
  have hbefore := ((h.mem_range hrow).mp hin).2
  omega

/-- A full page leaves fewer trades to be asked for. -/
theorem remaining_lt (h : Holds pacedHistoryGet base path symbol weight trades) {id : ℤ}
    {last : Json} {allRows allRows' : List Json} (hlast :
      ((trades.filter fun row => id ≤ tradeId row).take limit).getLast? = some last)
    (hfull : limit ≤ ((trades.filter fun row => id ≤ tradeId row).take limit).length) :
    remaining trades (some (saturate (tradeId last + 1)), allRows) <
      remaining trades (some id, allRows') := by
  obtain ⟨front, hfront⟩ := List.getLast?_eq_some_iff.mp hlast
  have hids : (front ++ [last]).Pairwise fun r s => tradeId r < tradeId s :=
    hfront ▸ (h.ids.filter _).sublist (List.take_sublist _ _)
  have hlastTrade : last ∈ trades :=
    (List.mem_filter.mp (List.mem_of_mem_take (List.mem_of_getLast? hlast))).1
  -- The first of the page comes before the cursor.
  cases front with
  | nil =>
    rw [hfront] at hfull
    have hfull : 1000 ≤ 1 := hfull
    exact absurd hfull (by decide)
  | cons first front =>
    have hfirst : first ∈ trades.filter fun row => id ≤ tradeId row :=
      List.mem_of_mem_take (i := limit) (by rw [hfront]; exact List.mem_cons_self)
    have hlt : tradeId first < tradeId last :=
      (List.pairwise_append.mp hids).2.2 first List.mem_cons_self last List.mem_cons_self
    have hidle : id ≤ tradeId last :=
      (of_decide_eq_true (List.mem_filter.mp hfirst).2 : id ≤ tradeId first).trans hlt.le
    have hcursor : tradeId last ≤ saturate (tradeId last + 1) := by
      rcases h.next_id hlastTrade with heq | ⟨heq, -⟩
      · omega
      · omega
    have hfewer : trades.filter (fun row => saturate (tradeId last + 1) ≤ tradeId row) =
        (trades.filter fun row => id ≤ tradeId row).filter
          fun row => saturate (tradeId last + 1) ≤ tradeId row := by
      rw [List.filter_filter]
      refine List.filter_congr fun row _ => ?_
      rw [← Bool.decide_and, decide_eq_decide]
      omega
    show List.length _ < List.length _
    rw [hfewer, List.length_filter_lt_length_iff_exists]
    exact ⟨first, hfirst, by simpa using hlt.trans_le hcursor⟩

/-- A page that is asked for by id. -/
theorem next_turn (h : Holds pacedHistoryGet base path symbol weight trades) {chunk : TimeRange}
    {rows allRows : List Json} {fromId : ℤ}
    (hcollected : Collected trades rows chunk (some fromId, allRows)) :
    Routine.Turns (ε := ExchangeError) (Collected trades rows chunk)
      (Routine.Meets (fun _ => False) (Added trades rows chunk)) (remaining trades)
      (some fromId, allRows)
      (.ok (afterPage chunk allRows ((trades.filter fun row => fromId ≤ tradeId row).take limit))) := by
  obtain ⟨id, hnext, hrows⟩ := hcollected
  generalize hpage : (trades.filter fun row => fromId ≤ tradeId row).take limit = page
  have hmem : ∀ row ∈ page, row ∈ trades ∧ fromId ≤ tradeId row := by
    intro row hrow
    rw [← hpage] at hrow
    obtain ⟨htrade, hle⟩ := List.mem_filter.mp (List.mem_of_mem_take hrow)
    exact ⟨htrade, of_decide_eq_true hle⟩
  unfold afterPage
  cases hlast : page.getLast? with
  | none =>
    -- Nothing follows the cursor, so that everything has been read.
    have hempty : ∀ row ∈ trades, tradeId row < fromId := by
      intro row hrow
      rw [List.getLast?_eq_none_iff.mp hlast] at hpage
      rcases List.take_eq_nil_iff.mp hpage with hzero | hnone
      · exact absurd hzero (by decide)
      · exact not_le.mp fun hle => List.filter_eq_nil_iff.mp hnone row hrow (decide_eq_true hle)
    have hall : trades.filter (fun row => tradeId row ≤ id) = trades := by
      refine List.filter_eq_self.mpr fun row hrow => decide_eq_true ?_
      have := hempty row hrow
      omega
    show dedup _ allRows = _
    rw [hrows, hall]
  | some last =>
    obtain ⟨hlastTrade, hlastId⟩ := hmem last (List.mem_of_getLast? hlast)
    rcases hnext with rfl | ⟨rfl, hmax⟩
    · have hdone : dedup ["symbol", "id"]
          (allRows ++ page.filter (rowInRange (valueI64 · "time") chunk)) =
          dedup ["symbol", "id"] (rows ++
            (trades.filter fun row => tradeId row ≤ tradeId last).filter
              (rowInRange (valueI64 · "time") chunk)) := by
        rw [dedup_append_congr hrows, List.append_assoc, ← List.filter_append,
          h.filter_page (hpage ▸ hlast), hpage]
      simp only
      split
      case isTrue hstop =>
        show dedup _ _ = dedup _ _
        rw [hdone]
        rcases hstop with hshort | hlate
        · have hall : trades.filter (fun row => tradeId row ≤ tradeId last) = trades := by
            rw [h.filter_page (hpage ▸ hlast), List.take_of_length_le, List.filter_congr fun row _ =>
              show decide (tradeId row ≤ id) = decide (tradeId row < id + 1) by
                rw [decide_eq_decide, Int.lt_add_one_iff]]
            · exact filter_lt_append h.sorted (id + 1)
            · rw [← hpage, List.length_take] at hshort
              omega
          rw [hall]
        · rw [← h.filter_past hlastTrade hlate]
      case isFalse hfull =>
        refine ⟨⟨tradeId last, h.next_id hlastTrade, hdone⟩, ?_⟩
        refine h.remaining_lt (hpage ▸ hlast) ?_
        rw [hpage]
        omega
    · -- The greatest id has been read already, and the page is at most its trade.
      have hpageIds : ∀ row ∈ page, tradeId row = i64Max := by
        intro row hrow
        obtain ⟨htrade, hle⟩ := hmem row hrow
        exact le_antisymm (h.id_le htrade) (hmax ▸ hle)
      have hshort : page.length < limit := by
        have hpairwise : page.Pairwise fun r s => tradeId r < tradeId s :=
          hpage ▸ (h.ids.filter _).sublist (List.take_sublist _ _)
        match page, hpairwise, hpageIds with
        | [], _, _ => exact (by decide : 0 < limit)
        | [_], _, _ => exact (by decide : 1 < limit)
        | r :: s :: _, hpairwise, hpageIds =>
          have hlt := (List.pairwise_cons.mp hpairwise).1 s List.mem_cons_self
          rw [hpageIds r (by simp), hpageIds s (by simp)] at hlt
          exact absurd hlt (lt_irrefl _)
      have hall : trades.filter (fun row => tradeId row ≤ fromId) = trades :=
        List.filter_eq_self.mpr fun row hrow => decide_eq_true (hmax ▸ h.id_le hrow)
      simp only [hshort, true_or, if_true]
      show dedup _ _ = dedup _ _
      rw [dedup_append_congr hrows, hall]
      refine dedup_append_of_subset fun row hrow => List.mem_append_right _ ?_
      obtain ⟨hrowPage, hin⟩ := List.mem_filter.mp hrow
      exact List.mem_filter.mpr ⟨(hmem row hrowPage).1, hin⟩

/-- **The loop over a chunk** ends, and adds the trades of the chunk. -/
theorem chunk_gives (h : Holds pacedHistoryGet base path symbol weight trades) (chunk : TimeRange)
    (rows : List Json) : ∃ r,
      (Routine.loop (tradeTurn pacedHistoryGet base path symbol weight chunk) (none, rows)).Gives r ∧
        Routine.Meets (fun _ => False) (Added trades rows chunk) r := by
  refine Routine.loop_total (P := Collected trades rows chunk) (remaining trades) ?_ rfl
  rintro ⟨fromId, allRows⟩ hcollected
  cases fromId with
  | none =>
    obtain rfl : allRows = rows := hcollected
    obtain ⟨page, hget, hperm⟩ := h.window chunk
    exact ⟨_, h.turn_gives ((List.take_sublist _ _).trans List.filter_sublist) hperm hget,
      h.first_turn⟩
  | some fromId =>
    obtain ⟨page, hget, hperm⟩ := h.fromId chunk fromId
    exact ⟨_, h.turn_gives ((List.take_sublist _ _).trans List.filter_sublist) hperm hget,
      h.next_turn hcollected⟩

/-- Trades are told apart by their ids. -/
theorem dedup_trades (h : Holds pacedHistoryGet base path symbol weight trades) {rows : List Json}
    (hsub : rows.Sublist trades) : dedup ["symbol", "id"] rows = rows := by
  refine dedup_eq_self (show "id" ∈ _ by simp) (List.pairwise_iff_forall_sublist.mpr ?_)
  intro r s hrs hfield
  have hlt := List.pairwise_iff_forall_sublist.mp (h.ids.sublist hsub) hrs
  have hsame : tradeId r = tradeId s := by rw [tradeId, tradeId, valueI64, valueI64, hfield]
  omega

end Holds

/-- **The trades of the range are returned, each once and in the order of their times, exactly when
    the chunks are longer than nothing and the range does not end at `i64::MAX`**: there the loop
    that cuts the range never ends. -/
theorem paged_trades_complete_iff (h : Holds pacedHistoryGet base path symbol weight trades)
    (range : TimeRange) (chunkSpanMs : ℤ) :
    (pagedTrades pacedHistoryGet base path symbol weight range chunkSpanMs).Gives
        (.ok (trades.filter (rowInRange (valueI64 · "time") range))) ↔
      0 < chunkSpanMs ∧ (range.endMs < i64Max ∨ range.endMs < range.startMs) := by
  constructor
  · intro hgives
    by_contra hcond
    rw [not_and_or, not_or, not_lt, not_lt, not_lt] at hcond
    rcases hcond with hspan | ⟨hend, hstart⟩
    · rw [pagedTrades, Routine.gives_bind_error (chunks_error hspan)] at hgives
      cases hgives
    · by_cases hspan : 0 < chunkSpanMs
      · exact Routine.not_ends_bind (chunks_never hspan hend hstart) _ ⟨_, hgives⟩
      · rw [pagedTrades, Routine.gives_bind_error (chunks_error (not_lt.mp hspan))] at hgives
        cases hgives
  · rintro ⟨hspan, hend⟩
    obtain ⟨windows, hwindows, htiles⟩ := chunks_gives hspan hend
    have htimes : trades.Pairwise fun r s =>
        ∀ t ∈ valueI64 r "time", ∀ u ∈ valueI64 s "time", t ≤ u := by
      refine h.times.imp fun {r s} hle t ht u hu => ?_
      rw [tradeTime, tradeTime, Option.mem_def.mp ht, Option.mem_def.mp hu] at hle
      exact hle
    -- After each chunk the rows are those of the chunks so far, but for repetitions.
    obtain ⟨r, hr, hmeets⟩ := Routine.foldlM_total (l := windows) (s := []) (Q := fun _ => False)
      (P := fun past allRows => dedup ["symbol", "id"] allRows = dedup ["symbol", "id"]
        (past.flatMap fun chunk => trades.filter (rowInRange (valueI64 · "time") chunk)))
      (f := fun allRows chunk =>
        Routine.loop (tradeTurn pacedHistoryGet base path symbol weight chunk) (none, allRows))
      (fun past chunk rest _ rows hrows => by
        obtain ⟨r, hr, hmeets⟩ := h.chunk_gives chunk rows
        refine ⟨r, hr, ?_⟩
        match r, hmeets with
        | .ok allRows, hadded =>
          show dedup _ allRows = _
          rw [hadded, dedup_append_congr hrows, List.flatMap_append, List.flatMap_singleton])
      rfl
    match r, hr, hmeets with
    | .ok allRows, hr, hrows =>
      rw [pagedTrades, Routine.gives_bind_ok hwindows, Routine.gives_bind_ok hr, Routine.gives_pure]
      have hrange := htiles.flatMap_filter (fun row hrow => (h.numeric row hrow).2) htimes
      rw [show dedup _ allRows = _ from hrows, hrange, h.dedup_trades List.filter_sublist,
        sortByKey_of_sorted (h.times.filter _)]

/-! ## A day of trades -/

/-- An exchange that reads its parameters. -/
def tradesServer (trades : List Json) : HistoryGet := fun _ _ params _ =>
  let wanted := match params with
    | [_, _, ("fromId", id)] => trades.filter fun row => readInt id ≤ tradeId row
    | [_, _, ("startTime", startMs), ("endTime", endMs)] => trades.filter <|
      rowInRange (valueI64 · "time") { startMs := readInt startMs, endMs := readInt endMs }
    | _ => []
  .ok (.array (wanted.take limit))

def tradeRow (id time : String) : Json := textRow [("symbol", "BTCUSDT"), ("id", id), ("time", time)]

/-- Two trades of one millisecond and one of the next day. -/
def threeTrades : List Json :=
  [tradeRow "7" "1700000000000", tradeRow "8" "1700000000000", tradeRow "9" "1700090000000"]

def apiBase : String := "https://api.binance.com"

def myTrades : String := "/api/v3/myTrades"

def oneDayMs : ℤ := 24 * 60 * 60 * 1000

theorem holds_threeTrades :
    Holds (tradesServer threeTrades) apiBase myTrades "BTCUSDT" 20 threeTrades where
  numeric := by decide +kernel
  ids := by decide +kernel
  times := by decide +kernel
  window chunk := by
    refine ⟨_, rfl, ?_⟩
    simp only [tradeParams, List.cons_append, List.nil_append, readInt_toString]
    exact .refl _
  fromId chunk id := by
    refine ⟨_, rfl, ?_⟩
    simp only [tradeParams, List.cons_append, List.nil_append, readInt_toString]
    exact .refl _

theorem two_days_returned :
    (pagedTrades (tradesServer threeTrades) apiBase myTrades "BTCUSDT" 20
      ⟨1700000000000, 1700090000000⟩ oneDayMs).Gives (.ok (threeTrades.filter
        (rowInRange (valueI64 · "time") ⟨1700000000000, 1700090000000⟩))) :=
  (paged_trades_complete_iff holds_threeTrades _ _).mpr (by decide)

/-- `TimeRange::new` accepts the range up to `i64::MAX`, and the trades of it are never returned. -/
theorem last_millisecond_never_ends :
    Holds (tradesServer threeTrades) apiBase myTrades "BTCUSDT" 20 threeTrades ∧
      newTimeRange 1700000000000 i64Max = .ok ⟨1700000000000, i64Max⟩ ∧
      ¬(pagedTrades (tradesServer threeTrades) apiBase myTrades "BTCUSDT" 20
        ⟨1700000000000, i64Max⟩ oneDayMs).Ends :=
  ⟨holds_threeTrades, by rw [newTimeRange, if_neg (by decide), if_neg (by decide)],
    Routine.not_ends_bind (chunks_never (by decide) (by decide) (by decide)) _⟩

end CryptoNav.Exchange.Binance
