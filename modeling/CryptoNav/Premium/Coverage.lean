import CryptoNav.Lib.Balance
import CryptoNav.Lib.Table
import CryptoNav.Premium.Klines

/-!
# Coverage of the premium index

Both exchanges are synchronised by one loop: of a symbol's candles only the first and the last
minute are looked up, what lies before the first is fetched from the first trade on, what lies after
the last up to the last complete minute, a page of at most a thousand candles at a time. Pages are
committed as they come, so the extension to the left grows away from the first trade and towards
what is stored. Between its pages there is a hole, and if one fails the hole stays: the next cycle
finds the first trade stored. Hence the stored minutes are contiguous all along just when no
extension to the left gets past the first of several pages (`coverage_iff`).

The candles of one symbol are a table of their own: the query gives the symbols in upper case, and
the rows are stored under the same.

Log lines are left out, and an error of one symbol does not stop the others, which have tables
of their own. What the exchange holds at the first trade or later is contiguous by assumption; a
minute that it never had would be a hole that no program can close.
-/

set_option autoImplicit false

namespace CryptoNav.Premium

open CryptoNav.Lib

def pageLimit : ℤ := 1000

structure Exchange where
  name : String
  Wire : Type
  Kline : Type
  openTimeMs : Kline → ℤ
  parseResponse : String → Wire → Except String (List Kline)

def binance : Exchange where
  name := "Binance"
  Wire := List Binance.BinanceKline
  Kline := Binance.PremiumKline
  openTimeMs := Binance.PremiumKline.openTimeMs
  parseResponse := Binance.parseResponse

def bybit : Exchange where
  name := "Bybit"
  Wire := Bybit.BybitResponse
  Kline := Bybit.PremiumKline
  openTimeMs := Bybit.PremiumKline.openTimeMs
  parseResponse := Bybit.parseResponse

structure TradedSymbol where
  symbol : String
  firstTradeMs : ℤ

/-- What one cycle meets outside: the time, the answers to its two queries, those of the exchange to
    a request for a symbol between two times, and whether a statement that stores rows succeeds. -/
structure World (e : Exchange) where
  tradedSymbols : Except String (List TradedSymbol)
  nowMs : ℤ
  loadStored : String → Except String Unit
  get : String → ℤ → ℤ → Except String e.Wire
  execute : String → List e.Kline → Except String Unit

/-- The pages that were committed, and how it ended. -/
structure Synced (Kline : Type) where
  pages : List (List Kline)
  outcome : Except String ℕ

namespace Synced

variable {Kline : Type}

def nothing : Synced Kline := ⟨[], .ok 0⟩

def failed (error : String) : Synced Kline := ⟨[], .error error⟩

/-- The second part runs where the first succeeds. -/
def andThen (a b : Synced Kline) : Synced Kline :=
  match a.outcome with
  | .error _ => a
  | .ok upserted => ⟨a.pages ++ b.pages, b.outcome.map (upserted + ·)⟩

theorem andThen_error {a b : Synced Kline} {error : String} (h : a.outcome = .error error) :
    a.andThen b = a := by
  rw [andThen, h]

theorem andThen_ok {a b : Synced Kline} {upserted : ℕ} (h : a.outcome = .ok upserted) :
    a.andThen b = ⟨a.pages ++ b.pages, b.outcome.map (upserted + ·)⟩ := by
  rw [andThen, h]

theorem andThen_pages (a b : Synced Kline) : ∃ more, (a.andThen b).pages = a.pages ++ more := by
  cases h : a.outcome with
  | error error => exact ⟨[], by rw [andThen_error h, List.append_nil]⟩
  | ok upserted => exact ⟨b.pages, by rw [andThen_ok h]⟩

end Synced

variable {e : Exchange}

namespace World

variable (world : World e) (symbol : String)

def fetchPage (startMs endMs : ℤ) : Except String (List e.Kline) :=
  world.get symbol startMs (endMs + (intervalMs - 1)) >>= e.parseResponse symbol

/-- One statement, which may not name a minute twice. -/
def upsertRows (rows : List e.Kline) : Except String ℕ :=
  if (rows.map e.openTimeMs).Nodup then (world.execute symbol rows).map fun _ => rows.length
  else .error s!"upsert {e.name} premium-index K-lines"

def pageEndMs (cursor endMs : ℤ) : ℤ := min (cursor + (pageLimit - 1) * intervalMs) endMs

/-- One round of the loop: the rows that it stores, the last minute among them and their number. -/
def page (cursor endMs : ℤ) : Except String (List e.Kline × ℤ × ℕ) :=
  world.fetchPage symbol cursor (pageEndMs cursor endMs) >>= fun rows =>
    match rows.getLast? with
    | none => .error (s!"{e.name} premium-index returned no rows for {symbol} in " ++
        s!"{cursor}..={pageEndMs cursor endMs}")
    | some last =>
      let lastOpenMs := e.openTimeMs last
      if lastOpenMs < cursor ∨ lastOpenMs > pageEndMs cursor endMs then
        .error s!"{e.name} premium-index page for {symbol} ended at invalid time {lastOpenMs}"
      else (world.upsertRows symbol rows).map fun upserted => (rows, lastOpenMs, upserted)

theorem page_ok {cursor endMs lastOpenMs : ℤ} {rows : List e.Kline} {upserted : ℕ}
    (h : world.page symbol cursor endMs = .ok (rows, lastOpenMs, upserted)) :
    world.fetchPage symbol cursor (pageEndMs cursor endMs) = .ok rows ∧
      (∃ last, rows.getLast? = some last ∧ e.openTimeMs last = lastOpenMs) ∧
      cursor ≤ lastOpenMs ∧ lastOpenMs ≤ pageEndMs cursor endMs := by
  obtain ⟨fetched, hfetched, h⟩ := bind_eq_ok.mp h
  cases hlast : fetched.getLast? with
  | none =>
    rw [hlast] at h
    cases h
  | some last =>
    simp only [hlast] at h
    split at h
    · cases h
    · rename_i hwithin
      obtain ⟨_, -, hrows⟩ := map_eq_ok.mp h
      cases hrows
      rw [not_or, not_lt, not_lt] at hwithin
      exact ⟨hfetched, ⟨last, hlast, rfl⟩, hwithin⟩

def syncRange (cursor endMs : ℤ) : Synced e.Kline :=
  if cursor ≤ endMs then
    match _h : world.page symbol cursor endMs with
    | .error error => .failed error
    | .ok (rows, lastOpenMs, upserted) =>
      let rest := syncRange (lastOpenMs + intervalMs) endMs
      ⟨rows :: rest.pages, rest.outcome.map (upserted + ·)⟩
  else .nothing
termination_by (endMs + 1 - cursor).toNat
decreasing_by
  obtain ⟨-, -, hcursor, -⟩ := world.page_ok symbol _h
  unfold intervalMs
  omega

theorem syncRange_of_lt {cursor endMs : ℤ} (h : endMs < cursor) :
    world.syncRange symbol cursor endMs = .nothing := by
  rw [syncRange, if_neg (not_le.mpr h)]

theorem syncRange_error {cursor endMs : ℤ} {error : String} (hle : cursor ≤ endMs)
    (h : world.page symbol cursor endMs = .error error) :
    world.syncRange symbol cursor endMs = .failed error := by
  rw [syncRange, if_pos hle]
  split
  · rename_i h'
    cases h.symm.trans h'
    rfl
  · rename_i h'
    cases h.symm.trans h'

theorem syncRange_ok {cursor endMs lastOpenMs : ℤ} {rows : List e.Kline} {upserted : ℕ}
    (hle : cursor ≤ endMs)
    (h : world.page symbol cursor endMs = .ok (rows, lastOpenMs, upserted)) :
    world.syncRange symbol cursor endMs =
      ⟨rows :: (world.syncRange symbol (lastOpenMs + intervalMs) endMs).pages,
        (world.syncRange symbol (lastOpenMs + intervalMs) endMs).outcome.map (upserted + ·)⟩ := by
  rw [syncRange, if_pos hle]
  split
  · rename_i h'
    cases h.symm.trans h'
  · rename_i h'
    cases h.symm.trans h'
    rfl

end World

def firstOpenMs (t : Table e.openTimeMs) : Option ℤ := (t.rows.map e.openTimeMs).min?

def lastOpenMs (t : Table e.openTimeMs) : Option ℤ := (t.rows.map e.openTimeMs).max?

/-- A call of `sync_symbol` in a cycle. -/
structure Call (e : Exchange) where
  world : World e
  traded : TradedSymbol

namespace Call

variable (call : Call e)

def desiredStartMs : ℤ := minuteOpen call.traded.firstTradeMs

def completeThroughMs : ℤ := latestCompleteOpenMs call.world.nowMs

/-- The extension to the left. -/
def syncBack (first : Option ℤ) : Synced e.Kline :=
  match first with
  | some first =>
    if call.desiredStartMs < first then
      call.world.syncRange call.traded.symbol call.desiredStartMs (first - intervalMs)
    else .nothing
  | none => .nothing

def syncForward (last : Option ℤ) : Synced e.Kline :=
  let forwardStartMs := last.elim call.desiredStartMs (· + intervalMs)
  if forwardStartMs ≤ call.completeThroughMs then
    call.world.syncRange call.traded.symbol forwardStartMs call.completeThroughMs
  else .nothing

def syncSymbol (t : Table e.openTimeMs) : Synced e.Kline :=
  if call.desiredStartMs > call.completeThroughMs then .nothing
  else
    match call.world.loadStored call.traded.symbol with
    | .error error => .failed error
    | .ok () => (call.syncBack (firstOpenMs t)).andThen (call.syncForward (lastOpenMs t))

end Call

/-- `sync_cycle`: an error of one symbol does not stop the others. -/
def World.calls (world : World e) : List (Call e) :=
  match world.tradedSymbols with
  | .error _ => []
  | .ok symbols => symbols.map fun traded => { world, traded }

/-- A table with some pages more. -/
def store (t : Table e.openTimeMs) (pages : List (List e.Kline)) : Table e.openTimeMs :=
  pages.foldl Table.putAll t

/-- The database when `n` pages of a call have been committed. -/
def commit (db : String → Table e.openTimeMs) (call : Call e) (n : ℕ) :
    String → Table e.openTimeMs :=
  let symbol := call.traded.symbol
  Function.update db symbol (store (db symbol) ((call.syncSymbol (db symbol)).pages.take n))

def syncStep (db : String → Table e.openTimeMs) (call : Call e) : String → Table e.openTimeMs :=
  commit db call (call.syncSymbol (db call.traded.symbol)).pages.length

/-- The calls of a sequence of cycles, each with the database that it finds. -/
def calls (db : String → Table e.openTimeMs) (worlds : List (World e)) :
    List ((String → Table e.openTimeMs) × Call e) :=
  steps syncStep db (worlds.flatMap World.calls)

/-! ## What is stored -/

/-- The minute is stored. -/
def Stored (t : Table e.openTimeMs) (k : ℤ) : Prop := (t.get k).isSome

instance (t : Table e.openTimeMs) : DecidablePred (Stored t) := fun k =>
  inferInstanceAs (Decidable ((t.get k).isSome = true))

/-- The stored minutes have no hole. This says nothing about where they begin or end. -/
def Contiguous (t : Table e.openTimeMs) : Prop :=
  (∀ k, Stored t k → IsMinute k) ∧
    ∀ a b k, Stored t a → Stored t b → IsMinute k → a ≤ k → k ≤ b → Stored t k

/-- The minutes of some pages. -/
def opened (pages : List (List e.Kline)) : List ℤ := pages.flatten.map e.openTimeMs

theorem stored_store (t : Table e.openTimeMs) (pages : List (List e.Kline)) (k : ℤ) :
    Stored (store t pages) k ↔ k ∈ opened pages ∨ Stored t k := by
  induction pages generalizing t with
  | nil => simp [store, opened]
  | cons rows pages ih =>
    rw [show store t (rows :: pages) = store (t.putAll rows) pages from rfl, ih, Stored,
      Table.isSome_get_putAll]
    simp only [opened, List.flatten_cons, List.map_append, List.mem_append, Stored]
    tauto

theorem stored_iff {t : Table e.openTimeMs} {k : ℤ} :
    Stored t k ↔ k ∈ t.rows.map e.openTimeMs := by
  rw [Stored, Option.isSome_iff_exists, List.mem_map]
  exact exists_congr fun row => Table.get_eq_some

theorem firstOpenMs_eq_some {t : Table e.openTimeMs} {first : ℤ}
    (h : firstOpenMs t = some first) : Stored t first ∧ ∀ k, Stored t k → first ≤ k := by
  obtain ⟨hmem, hle⟩ := List.min?_eq_some_iff.mp h
  exact ⟨stored_iff.mpr hmem, fun k hk => hle k (stored_iff.mp hk)⟩

theorem lastOpenMs_eq_some {t : Table e.openTimeMs} {last : ℤ}
    (h : lastOpenMs t = some last) : Stored t last ∧ ∀ k, Stored t k → k ≤ last := by
  obtain ⟨hmem, hle⟩ := List.max?_eq_some_iff.mp h
  exact ⟨stored_iff.mpr hmem, fun k hk => hle k (stored_iff.mp hk)⟩

/-- Nothing is stored, or something from a first to a last minute. -/
theorem range_cases (t : Table e.openTimeMs) :
    (firstOpenMs t = none ∧ lastOpenMs t = none ∧ ∀ k, ¬Stored t k) ∨
      ∃ first last, firstOpenMs t = some first ∧ lastOpenMs t = some last := by
  cases hrows : t.rows.map e.openTimeMs with
  | nil =>
    refine .inl ⟨by rw [firstOpenMs, hrows]; rfl, by rw [lastOpenMs, hrows]; rfl, fun k hk => ?_⟩
    rw [stored_iff, hrows] at hk
    cases hk
  | cons k ks =>
    right
    obtain ⟨first, hfirst⟩ := Option.ne_none_iff_exists'.mp
      (mt List.min?_eq_none_iff.mp (List.cons_ne_nil k ks))
    obtain ⟨last, hlast⟩ := Option.ne_none_iff_exists'.mp
      (mt List.max?_eq_none_iff.mp (List.cons_ne_nil k ks))
    exact ⟨first, last, by rw [firstOpenMs, hrows, hfirst], by rw [lastOpenMs, hrows, hlast]⟩

theorem Contiguous.stored_iff {t : Table e.openTimeMs} (h : Contiguous t) {first last : ℤ}
    (hfirst : firstOpenMs t = some first) (hlast : lastOpenMs t = some last) (k : ℤ) :
    Stored t k ↔ IsMinute k ∧ first ≤ k ∧ k ≤ last := by
  obtain ⟨hmin, hmin_le⟩ := firstOpenMs_eq_some hfirst
  obtain ⟨hmax, hmax_le⟩ := lastOpenMs_eq_some hlast
  constructor
  · intro hk
    exact ⟨h.1 k hk, hmin_le k hk, hmax_le k hk⟩
  · rintro ⟨hminute, hle, hge⟩
    exact h.2 first last k hmin hmax hminute hle hge

/-! ## An exchange that answers with all candles -/

/-- The minutes of a window, ascending. -/
def Answers (times : List ℤ) (startMs endMs : ℤ) : Prop :=
  times.Pairwise (· < ·) ∧ ∀ k, k ∈ times ↔ IsMinute k ∧ startMs ≤ k ∧ k ≤ endMs

/-- What is fetched of a window is complete, if it is not longer than a page. A window without
    candles is answered with none, which is complete only if the exchange has none. -/
def World.Complete (world : World e) : Prop :=
  ∀ symbol startMs endMs rows, IsMinute startMs → IsMinute endMs →
    endMs < startMs + pageLimit * intervalMs → world.fetchPage symbol startMs endMs = .ok rows →
    Answers (rows.map e.openTimeMs) startMs endMs

theorem complete_of_binance {world : World binance}
    (h : ∀ symbol startMs endMs wire, IsMinute startMs → IsMinute endMs →
      endMs < startMs + pageLimit * intervalMs →
      world.get symbol startMs (endMs + (intervalMs - 1)) = .ok wire →
      Answers (wire.map Binance.BinanceKline.openTimeMs) startMs endMs) : world.Complete := by
  intro symbol startMs endMs rows hstart hend hpage hfetch
  obtain ⟨wire, hget, hparse⟩ := bind_eq_ok.mp hfetch
  have htimes : rows.map binance.openTimeMs = wire.map Binance.BinanceKline.openTimeMs :=
    Binance.parseResponse_openTimes hparse
  rw [htimes]
  exact h symbol startMs endMs wire hstart hend hpage hget

/-- Bybit may list the candles in any order. -/
theorem complete_of_bybit {world : World bybit}
    (h : ∀ symbol startMs endMs wire, IsMinute startMs → IsMinute endMs →
      endMs < startMs + pageLimit * intervalMs →
      world.get symbol startMs (endMs + (intervalMs - 1)) = .ok wire →
      ∀ k, some k ∈ wire.result.list.map Bybit.wireOpenTime ↔
        IsMinute k ∧ startMs ≤ k ∧ k ≤ endMs) : world.Complete := by
  intro symbol startMs endMs rows hstart hend hpage hfetch
  obtain ⟨wire, hget, hparse⟩ := bind_eq_ok.mp hfetch
  obtain ⟨hascending, hmem⟩ := Bybit.parseResponse_ascending hparse
  exact ⟨hascending, fun k => (hmem k).trans (h symbol startMs endMs wire hstart hend hpage hget k)⟩

section Ranges

variable {world : World e} {symbol : String} {startMs endMs : ℤ}

theorem isMinute_pageEndMs (hstart : IsMinute startMs) (hend : IsMinute endMs) :
    IsMinute (World.pageEndMs startMs endMs) := by
  rcases min_choice (startMs + (pageLimit - 1) * intervalMs) endMs with h | h
  · rw [World.pageEndMs, h]
    exact hstart.add _
  · rw [World.pageEndMs, h]
    exact hend

/-- A page has the minutes up to its end. -/
theorem World.Complete.page (hcomplete : world.Complete) (hstart : IsMinute startMs)
    (hend : IsMinute endMs) (hle : startMs ≤ endMs) {rows : List e.Kline} {lastOpenMs : ℤ}
    {upserted : ℕ} (h : world.page symbol startMs endMs = .ok (rows, lastOpenMs, upserted)) :
    lastOpenMs = pageEndMs startMs endMs ∧
      ∀ k, k ∈ rows.map e.openTimeMs ↔
        IsMinute k ∧ startMs ≤ k ∧ k ≤ pageEndMs startMs endMs := by
  obtain ⟨hfetch, ⟨last, hlast, rfl⟩, -, hwithin⟩ := world.page_ok symbol h
  have hlimit : pageEndMs startMs endMs < startMs + pageLimit * intervalMs := by
    unfold pageEndMs pageLimit intervalMs
    omega
  have hpage : startMs ≤ pageEndMs startMs endMs := by
    unfold pageEndMs pageLimit intervalMs
    omega
  have hpageEnd := isMinute_pageEndMs hstart hend
  obtain ⟨hascending, hmem⟩ := hcomplete symbol _ _ rows hstart hpageEnd hlimit hfetch
  refine ⟨le_antisymm hwithin ?_, hmem⟩
  -- The end of the page is among the rows, and the last of them is the greatest.
  have hin := (hmem _).mpr ⟨hpageEnd, hpage, le_rfl⟩
  have hsplit := List.dropLast_append_getLast? _ hlast
  rw [← hsplit, List.map_append, List.pairwise_append] at hascending
  rw [← hsplit, List.map_append, List.mem_append] at hin
  rcases hin with hin | hin
  · exact (hascending.2.2 _ hin _ List.mem_cons_self).le
  · exact (List.mem_singleton.mp hin).le

theorem World.Complete.exists_page (hcomplete : world.Complete) (hstart : IsMinute startMs)
    (hend : IsMinute endMs) (hle : startMs ≤ endMs) {rows : List e.Kline}
    (hfetch : world.fetchPage symbol startMs (pageEndMs startMs endMs) = .ok rows)
    (hexecute : world.execute symbol rows = .ok ()) :
    ∃ page, world.page symbol startMs endMs = .ok page := by
  have hpage : startMs ≤ pageEndMs startMs endMs ∧
      pageEndMs startMs endMs < startMs + pageLimit * intervalMs := by
    unfold pageEndMs pageLimit intervalMs
    omega
  obtain ⟨hascending, hmem⟩ :=
    hcomplete symbol _ _ rows hstart (isMinute_pageEndMs hstart hend) hpage.2 hfetch
  cases hlast : rows.getLast? with
  | none =>
    rw [List.getLast?_eq_none_iff.mp hlast] at hmem
    exact absurd ((hmem startMs).mpr ⟨hstart, le_rfl, hpage.1⟩) List.not_mem_nil
  | some last =>
    have hwithin := (hmem _).mp (List.mem_map_of_mem (List.mem_of_getLast? hlast))
    refine ⟨(rows, e.openTimeMs last, rows.length), ?_⟩
    rw [World.page, hfetch]
    simp only [bind, Except.bind, hlast]
    have hnodup : (rows.map e.openTimeMs).Nodup := hascending.imp ne_of_lt
    rw [if_neg (by omega), World.upsertRows, if_pos hnodup, hexecute]
    rfl

/-- The pages of a range grow from its start, and reach its end where it succeeds. -/
theorem syncRange_opened (symbol : String) (hcomplete : world.Complete) (hstart : IsMinute startMs)
    (hend : IsMinute endMs) (n : ℕ) :
    ∃ c, startMs ≤ c ∧ c ≤ max startMs (endMs + intervalMs) ∧
      (∀ k, k ∈ opened ((world.syncRange symbol startMs endMs).pages.take n) ↔
        IsMinute k ∧ startMs ≤ k ∧ k < c) ∧
      ∀ upserted, (world.syncRange symbol startMs endMs).outcome = .ok upserted →
        (world.syncRange symbol startMs endMs).pages.length ≤ n → endMs < c := by
  induction startMs using World.syncRange.induct world symbol endMs generalizing n with
  | case1 cursor hle error herror =>
    rw [World.syncRange_error world symbol hle herror]
    refine ⟨cursor, le_rfl, le_max_left _ _, fun k => ?_, fun _ h => by cases h⟩
    simp only [Synced.failed, opened, List.take_nil, List.flatten_nil, List.map_nil,
      List.not_mem_nil, false_iff]
    omega
  | case2 cursor hle rows lastOpenMs upserted hpage ih =>
    obtain ⟨rfl, hrows⟩ := hcomplete.page hstart hend hle hpage
    have hnext : IsMinute (World.pageEndMs cursor endMs + intervalMs) := by
      simpa using (isMinute_pageEndMs hstart hend).add 1
    rw [World.syncRange_ok world symbol hle hpage]
    cases n with
    | zero =>
      refine ⟨cursor, le_rfl, le_max_left _ _, fun k => ?_, fun _ _ h => ?_⟩
      · simp only [opened, List.take_zero, List.flatten_nil, List.map_nil, List.not_mem_nil,
          false_iff]
        omega
      · cases h
    | succ n =>
      obtain ⟨c, hc, hcend, hmem, hok⟩ := ih hnext n
      have hpageEnd : cursor ≤ World.pageEndMs cursor endMs ∧ World.pageEndMs cursor endMs ≤ endMs := by
        unfold World.pageEndMs pageLimit intervalMs
        omega
      have hminute := isMinute_iff.mp (isMinute_pageEndMs hstart hend)
      refine ⟨c, ?_, ?_, fun k => ?_, fun total h hlen => ?_⟩
      · unfold intervalMs at hc
        omega
      · unfold intervalMs at hcend ⊢
        omega
      · rw [List.take_succ_cons, opened, List.flatten_cons, List.map_append, List.mem_append, hrows]
        refine (or_congr_right (hmem k)).trans ?_
        rw [isMinute_iff]
        unfold intervalMs at *
        omega
      · obtain ⟨rest, hrest, -⟩ := map_eq_ok.mp h
        exact hok rest hrest (Nat.le_of_succ_le_succ hlen)
  | case3 cursor hlt =>
    rw [World.syncRange_of_lt world symbol (not_le.mp hlt)]
    refine ⟨cursor, le_rfl, le_max_left _ _, fun k => ?_, fun _ _ _ => not_le.mp hlt⟩
    simp only [Synced.nothing, opened, List.take_nil, List.flatten_nil, List.map_nil,
      List.not_mem_nil, false_iff]
    omega

/-- A range of one page is stored as a whole or not at all. -/
theorem syncRange_onePage (hcomplete : world.Complete) (hstart : IsMinute startMs)
    (hend : IsMinute endMs) (hle : startMs ≤ endMs)
    (h : endMs < startMs + pageLimit * intervalMs ∨
      ∀ page, world.page symbol startMs endMs ≠ .ok page) (n : ℕ) :
    opened ((world.syncRange symbol startMs endMs).pages.take n) = [] ∨
      ∀ k, k ∈ opened ((world.syncRange symbol startMs endMs).pages.take n) ↔
        IsMinute k ∧ startMs ≤ k ∧ k ≤ endMs := by
  cases hpage : world.page symbol startMs endMs with
  | error error =>
    rw [World.syncRange_error world symbol hle hpage]
    exact .inl (by simp [Synced.failed, opened])
  | ok page =>
    obtain ⟨rows, lastOpenMs, upserted⟩ := page
    obtain ⟨rfl, hrows⟩ := hcomplete.page hstart hend hle hpage
    have hwhole : World.pageEndMs startMs endMs = endMs := by
      rcases h with h | h
      · have hminute := And.intro (isMinute_iff.mp hstart) (isMinute_iff.mp hend)
        unfold World.pageEndMs
        unfold pageLimit intervalMs at *
        omega
      · exact absurd hpage (h _)
    have hdone : endMs < World.pageEndMs startMs endMs + intervalMs := by
      rw [hwhole]
      unfold intervalMs
      omega
    rw [World.syncRange_ok world symbol hle hpage, World.syncRange_of_lt world symbol hdone]
    cases n with
    | zero => exact .inl rfl
    | succ n =>
      refine .inr fun k => ?_
      rw [hwhole] at hrows
      rw [List.take_succ_cons, opened, Synced.nothing, List.take_nil, List.flatten_singleton, hrows]

end Ranges

/-! ## One call -/

namespace Call

/-- The extension to the left has one page, or stores none. A call that fails before its first page
    is committed has stored nothing, so it is none that breaks this. -/
def OnePage (call : Call e) (t : Table e.openTimeMs) : Prop :=
  ∀ first, firstOpenMs t = some first → call.desiredStartMs < first →
    call.desiredStartMs ≤ call.completeThroughMs →
    call.world.loadStored call.traded.symbol = .ok () →
    first ≤ call.desiredStartMs + pageLimit * intervalMs ∨
      ∀ page, call.world.page call.traded.symbol call.desiredStartMs (first - intervalMs) ≠ .ok page

/-- From the first trade to the last complete minute every minute is stored. -/
def Covers (call : Call e) (t : Table e.openTimeMs) : Prop :=
  ∀ k, IsMinute k → call.desiredStartMs ≤ k → k ≤ call.completeThroughMs → Stored t k

/-- What a call should guarantee: no hole at any page boundary, and coverage when it succeeds. Pages
    are committed one after the other, so a failing call leaves those before the failure. -/
def Sound (call : Call e) (t : Table e.openTimeMs) : Prop :=
  (∀ n, Contiguous (store t ((call.syncSymbol t).pages.take n))) ∧
    ∀ upserted, (call.syncSymbol t).outcome = .ok upserted →
      call.Covers (store t (call.syncSymbol t).pages)

variable {call : Call e} {t : Table e.openTimeMs}

theorem isMinute_desiredStartMs (call : Call e) : IsMinute call.desiredStartMs := isMinute_minuteOpen _

theorem isMinute_completeThroughMs (call : Call e) : IsMinute call.completeThroughMs := by
  have h := (isMinute_minuteOpen call.world.nowMs).add (-1)
  rw [isMinute_iff] at h ⊢
  unfold completeThroughMs latestCompleteOpenMs
  unfold intervalMs at *
  omega

theorem syncForward_opened (hcomplete : call.world.Complete) (last : Option ℤ)
    (hlast : ∀ k ∈ last, IsMinute k) (n : ℕ) :
    ∃ c, last.elim call.desiredStartMs (· + intervalMs) ≤ c ∧
      (∀ k, k ∈ opened ((call.syncForward last).pages.take n) ↔
        IsMinute k ∧ last.elim call.desiredStartMs (· + intervalMs) ≤ k ∧ k < c) ∧
      ∀ upserted, (call.syncForward last).outcome = .ok upserted →
        (call.syncForward last).pages.length ≤ n → call.completeThroughMs < c := by
  have hstart : IsMinute (last.elim call.desiredStartMs (· + intervalMs)) := by
    cases last with
    | none => exact call.isMinute_desiredStartMs
    | some last => simpa using (hlast last rfl).add 1
  unfold syncForward
  generalize last.elim call.desiredStartMs (· + intervalMs) = forwardStartMs at hstart ⊢
  dsimp only
  split
  · obtain ⟨c, hc, -, hmem, hok⟩ := syncRange_opened call.traded.symbol hcomplete hstart
      call.isMinute_completeThroughMs n
    exact ⟨c, hc, hmem, hok⟩
  · rename_i hlt
    refine ⟨forwardStartMs, le_rfl, fun k => ?_, fun _ _ _ => not_le.mp hlt⟩
    simp only [Synced.nothing, opened, List.take_nil, List.flatten_nil, List.map_nil,
      List.not_mem_nil, false_iff]
    omega

theorem syncBack_opened (hcomplete : call.world.Complete) (hone : call.OnePage t) {first : ℤ}
    (hfirst : firstOpenMs t = some first) (hminute : IsMinute first)
    (hwithin : call.desiredStartMs ≤ call.completeThroughMs)
    (hload : call.world.loadStored call.traded.symbol = .ok ()) (n : ℕ) :
    ∃ a ≤ first,
      (∀ k, k ∈ opened ((call.syncBack (some first)).pages.take n) ↔
        IsMinute k ∧ a ≤ k ∧ k < first) ∧
      ∀ upserted, (call.syncBack (some first)).outcome = .ok upserted →
        (call.syncBack (some first)).pages.length ≤ n → a ≤ call.desiredStartMs := by
  have hdesired := isMinute_iff.mp (call.isMinute_desiredStartMs)
  have hfirstMinute := isMinute_iff.mp hminute
  unfold syncBack
  dsimp only
  split
  · rename_i hlt
    have hend : IsMinute (first - intervalMs) := by
      rw [isMinute_iff]
      unfold intervalMs at *
      omega
    have hle : call.desiredStartMs ≤ first - intervalMs := by
      unfold intervalMs at *
      omega
    have hpages := (hone first hfirst hlt hwithin hload).imp_left fun h =>
      show first - intervalMs < call.desiredStartMs + pageLimit * intervalMs by
        unfold pageLimit intervalMs at *
        omega
    rcases syncRange_onePage hcomplete call.isMinute_desiredStartMs hend hle hpages n with hnone | hall
    · obtain ⟨c, -, -, hmem, hok⟩ := syncRange_opened call.traded.symbol hcomplete
        call.isMinute_desiredStartMs hend n
      rw [hnone] at hmem ⊢
      refine ⟨first, le_rfl, fun k => by simp, fun upserted hupserted hlen => ?_⟩
      -- A range that succeeds stores its first minute.
      have hc := hok upserted hupserted hlen
      exact absurd ((hmem call.desiredStartMs).mpr
        ⟨call.isMinute_desiredStartMs, le_rfl, lt_of_le_of_lt hle hc⟩) List.not_mem_nil
    · refine ⟨call.desiredStartMs, hlt.le, fun k => ?_, fun _ _ _ => le_rfl⟩
      rw [hall, isMinute_iff]
      unfold intervalMs at *
      omega
  · rename_i hge
    refine ⟨first, le_rfl, fun k => ?_, fun _ _ _ => not_lt.mp hge⟩
    simp only [Synced.nothing, opened, List.take_nil, List.flatten_nil, List.map_nil,
      List.not_mem_nil, false_iff]
    omega

theorem contiguous_of_iff {a c : ℤ} (h : ∀ k, Stored t k ↔ IsMinute k ∧ a ≤ k ∧ k < c) :
    Contiguous t := by
  refine ⟨fun k hk => ((h k).mp hk).1, fun b d k hb hd hk hbk hkd => ?_⟩
  exact (h k).mpr ⟨hk, ((h b).mp hb).2.1.trans hbk, lt_of_le_of_lt hkd ((h d).mp hd).2.2⟩

theorem opened_take_append (a b : List (List e.Kline)) (n : ℕ) (k : ℤ) :
    k ∈ opened ((a ++ b).take n) ↔ k ∈ opened (a.take n) ∨ k ∈ opened (b.take (n - a.length)) := by
  rw [opened, List.take_append, List.flatten_append, List.map_append, List.mem_append]
  rfl

/-- Whatever has been committed spans a range of minutes, which at a success is long enough. -/
def Spans (call : Call e) (t : Table e.openTimeMs) (synced : Synced e.Kline) : Prop :=
  ∀ n, ∃ a c, (∀ k, Stored (store t (synced.pages.take n)) k ↔ IsMinute k ∧ a ≤ k ∧ k < c) ∧
    ∀ upserted, synced.outcome = .ok upserted → synced.pages.length ≤ n →
      a ≤ call.desiredStartMs ∧ call.completeThroughMs < c

theorem Spans.sound (h : call.Spans t (call.syncSymbol t)) : call.Sound t := by
  refine ⟨fun n => ?_, fun upserted hupserted k hk hle hge => ?_⟩
  · obtain ⟨a, c, hstored, -⟩ := h n
    exact contiguous_of_iff hstored
  · obtain ⟨a, c, hstored, hok⟩ := h (call.syncSymbol t).pages.length
    obtain ⟨ha, hc⟩ := hok upserted hupserted le_rfl
    rw [List.take_length] at hstored
    exact (hstored k).mpr ⟨hk, ha.trans hle, lt_of_le_of_lt hge hc⟩

/-- From an empty table the range grows from the first trade. -/
theorem spans_of_empty (hcomplete : call.world.Complete) (hnone : ∀ k, ¬Stored t k) :
    call.Spans t ((call.syncBack none).andThen (call.syncForward none)) := by
  intro n
  obtain ⟨c, -, hmem, hok⟩ := syncForward_opened hcomplete none (by simp) n
  refine ⟨call.desiredStartMs, c, fun k => ?_, fun upserted h hlen => ⟨le_rfl, ?_⟩⟩
  · rw [stored_store, or_iff_left (hnone k)]
    exact hmem k
  · obtain ⟨forward, hforward, -⟩ := map_eq_ok.mp h
    exact hok forward hforward hlen

/-- A stored range grows on both sides. -/
theorem OnePage.spans (hone : call.OnePage t) (hcomplete : call.world.Complete)
    (hcontiguous : Contiguous t) (hwithin : call.desiredStartMs ≤ call.completeThroughMs)
    (hload : call.world.loadStored call.traded.symbol = .ok ()) {first last : ℤ}
    (hfirst : firstOpenMs t = some first) (hlast : lastOpenMs t = some last) :
    call.Spans t ((call.syncBack (some first)).andThen (call.syncForward (some last))) := by
  have hstored := hcontiguous.stored_iff hfirst hlast
  have hmin := (hstored first).mp (firstOpenMs_eq_some hfirst).1
  have hmax := (hstored last).mp (lastOpenMs_eq_some hlast).1
  have hminute := And.intro (isMinute_iff.mp hmin.1) (isMinute_iff.mp hmax.1)
  intro n
  obtain ⟨a, ha, hback, hbackOk⟩ := syncBack_opened hcomplete hone hfirst hmin.1 hwithin hload n
  cases houtcome : (call.syncBack (some first)).outcome with
  | error error =>
    rw [Synced.andThen_error houtcome]
    refine ⟨a, last + intervalMs, fun k => ?_, fun _ h => by cases houtcome.symm.trans h⟩
    rw [stored_store, hback, hstored, isMinute_iff]
    unfold intervalMs at *
    omega
  | ok upserted =>
    rw [Synced.andThen_ok houtcome]
    obtain ⟨c, hc, hforward, hforwardOk⟩ := syncForward_opened hcomplete (some last)
      (by simpa using hmax.1) (n - (call.syncBack (some first)).pages.length)
    rw [Option.elim_some] at hc
    refine ⟨a, c, fun k => ?_, fun total h hlen => ?_⟩
    · rw [stored_store, opened_take_append, hback, hforward, hstored, Option.elim_some,
        isMinute_iff]
      unfold intervalMs at *
      omega
    · obtain ⟨forward, hforwardOutcome, -⟩ := map_eq_ok.mp h
      rw [List.length_append] at hlen
      exact ⟨hbackOk upserted houtcome (by omega), hforwardOk forward hforwardOutcome (by omega)⟩

/-- **A call is sound** if its extension to the left has one page, or stores none. -/
theorem OnePage.sound (hone : call.OnePage t) (hcomplete : call.world.Complete)
    (hcontiguous : Contiguous t) : call.Sound t := by
  -- A call that stores nothing leaves the table as it is.
  have hidle : ∀ n, Contiguous (store t (([] : List (List e.Kline)).take n)) := by
    intro n
    rwa [List.take_nil]
  by_cases hwithin : call.desiredStartMs > call.completeThroughMs
  · have hsync : call.syncSymbol t = .nothing := if_pos hwithin
    refine ⟨hsync ▸ hidle, fun _ _ k _ hle hge => ?_⟩
    omega
  cases hload : call.world.loadStored call.traded.symbol with
  | error error =>
    have hsync : call.syncSymbol t = .failed error := by
      rw [syncSymbol, if_neg hwithin, hload]
    exact ⟨hsync ▸ hidle, fun _ h => by rw [hsync] at h; cases h⟩
  | ok _ =>
    have hsync : call.syncSymbol t =
        (call.syncBack (firstOpenMs t)).andThen (call.syncForward (lastOpenMs t)) := by
      rw [syncSymbol, if_neg hwithin, hload]
    refine Spans.sound ?_
    rw [hsync]
    rcases range_cases t with ⟨hfirst, hlast, hnone⟩ | ⟨first, last, hfirst, hlast⟩
    · rw [hfirst, hlast]
      exact spans_of_empty hcomplete hnone
    · rw [hfirst, hlast]
      exact hone.spans hcomplete hcontiguous (not_lt.mp hwithin) hload hfirst hlast

/-- Between the first page of an extension and what is stored there is a hole. -/
theorem onePage_of_contiguous
    (hsound : ∀ n, Contiguous (store t ((call.syncSymbol t).pages.take n)))
    (hcomplete : call.world.Complete) : call.OnePage t := by
  intro first hfirst hlt hwithin hload
  by_contra hnot
  rw [not_or, not_le] at hnot
  obtain ⟨hlong, hpage⟩ := hnot
  obtain ⟨⟨rows, lastOpenMs, upserted⟩, hpage⟩ := not_forall_not.mp hpage
  have hbefore : Contiguous t := hsound 0
  have hafter := hsound 1
  obtain ⟨hmin, hmin_le⟩ := firstOpenMs_eq_some hfirst
  have hdesired := call.isMinute_desiredStartMs
  have hend : IsMinute (first - intervalMs) := by
    have hminute := (hbefore.1 first hmin).add (-1)
    rwa [neg_one_mul, ← sub_eq_add_neg] at hminute
  have hle : call.desiredStartMs ≤ first - intervalMs := by
    unfold pageLimit intervalMs at *
    omega
  obtain ⟨rfl, hrows⟩ := hcomplete.page hdesired hend hle hpage
  -- The first page is the first that is stored.
  have htake : (call.syncSymbol t).pages.take 1 = [rows] := by
    have hsync : call.syncSymbol t =
        (call.syncBack (firstOpenMs t)).andThen (call.syncForward (lastOpenMs t)) := by
      rw [syncSymbol, if_neg (not_lt.mpr hwithin), hload]
    obtain ⟨more, hmore⟩ :=
      Synced.andThen_pages (call.syncBack (firstOpenMs t)) (call.syncForward (lastOpenMs t))
    rw [hsync, hmore, hfirst, syncBack, if_pos hlt, World.syncRange_ok _ _ hle hpage,
      List.cons_append, List.take_succ_cons, List.take_zero]
  rw [htake] at hafter
  have hstored : ∀ k, Stored (store t [rows]) k ↔ k ∈ rows.map e.openTimeMs ∨ Stored t k := by
    intro k
    rw [stored_store, opened, List.flatten_singleton]
  have hhole := hafter.2 call.desiredStartMs first (call.desiredStartMs + pageLimit * intervalMs)
    ((hstored _).mpr (.inl ((hrows _).mpr ⟨hdesired, le_rfl, by
      unfold World.pageEndMs pageLimit intervalMs
      unfold intervalMs at hle
      omega⟩)))
    ((hstored _).mpr (.inr hmin)) (hdesired.add _) (by unfold pageLimit intervalMs; omega) hlong.le
  rcases (hstored _).mp hhole with hhole | hhole
  · have hbeyond := ((hrows _).mp hhole).2.2
    unfold World.pageEndMs pageLimit intervalMs at hbeyond
    omega
  · exact absurd (hmin_le _ hhole) (not_le.mpr hlong)

end Call

theorem world_of_mem_calls {worlds : List (World e)} {call : Call e}
    (h : call ∈ worlds.flatMap World.calls) : call.world ∈ worlds := by
  obtain ⟨world, hworld, hcall⟩ := List.mem_flatMap.mp h
  unfold World.calls at hcall
  split at hcall
  · cases hcall
  · obtain ⟨traded, -, rfl⟩ := List.mem_map.mp hcall
    exact hworld

/-- A call commits nothing for another symbol. -/
theorem commit_of_ne {db : String → Table e.openTimeMs} {call : Call e} {symbol : String}
    (h : call.traded.symbol ≠ symbol) (n : ℕ) : commit db call n symbol = db symbol :=
  Function.update_of_ne h.symm _ _

theorem commit_self (db : String → Table e.openTimeMs) (call : Call e) (n : ℕ) :
    commit db call n call.traded.symbol = store (db call.traded.symbol)
      ((call.syncSymbol (db call.traded.symbol)).pages.take n) :=
  Function.update_self _ _ _

theorem syncStep_self (db : String → Table e.openTimeMs) (call : Call e) :
    syncStep db call call.traded.symbol = store (db call.traded.symbol)
      (call.syncSymbol (db call.traded.symbol)).pages := by
  rw [syncStep, commit_self, List.take_length]

/-- **No holes**: through all cycles the stored minutes of a symbol are contiguous at every page
    boundary, and reach from its first trade to the last complete minute after every call that
    succeeds, just when no call extends them to the left by more than one page. -/
theorem coverage_iff {worlds : List (World e)} (hcomplete : ∀ world ∈ worlds, world.Complete)
    {db : String → Table e.openTimeMs} {symbol : String} (hstart : Contiguous (db symbol)) :
    (∀ entry ∈ calls db worlds,
      (∀ n, Contiguous (commit entry.1 entry.2 n symbol)) ∧
      (entry.2.traded.symbol = symbol → ∀ upserted,
        (entry.2.syncSymbol (entry.1 symbol)).outcome = .ok upserted →
          entry.2.Covers (syncStep entry.1 entry.2 symbol))) ↔
    ∀ entry ∈ calls db worlds, entry.2.traded.symbol = symbol →
      entry.2.OnePage (entry.1 symbol) := by
  refine @steps_iff _ _ _ (fun db => Contiguous (db symbol))
    (fun db call => (∀ n, Contiguous (commit db call n symbol)) ∧
      (call.traded.symbol = symbol → ∀ upserted,
        (call.syncSymbol (db symbol)).outcome = .ok upserted → call.Covers (syncStep db call symbol)))
    (fun db call => call.traded.symbol = symbol → call.OnePage (db symbol)) _
    (fun call hcall db hdb => ?_) (fun call _ db _ hgood => hgood.1 _) _ hstart
  by_cases hsymbol : call.traded.symbol = symbol
  · cases hsymbol
    have hworld := hcomplete call.world (world_of_mem_calls hcall)
    simp only [commit_self, syncStep_self, forall_const]
    exact ⟨fun hsound => Call.onePage_of_contiguous hsound.1 hworld, fun hone => hone.sound hworld hdb⟩
  · simp only [commit_of_ne hsymbol, hsymbol, false_implies, and_true, forall_const, iff_true]
    exact hdb

/-! ## An extension that fails at its second page -/

def flatKline (openTimeMs : ℤ) : Binance.BinanceKline where
  openTimeMs
  openRate := "0"
  highRate := "0"
  lowRate := "0"
  closeRate := "0"
  closeTimeMs := openTimeMs + intervalMs - 1
  sampleCount := 12

/-- The minutes from one on, up to a time. -/
def minutes (startMs endTimeMs : ℤ) : List ℤ :=
  (List.range ((endTimeMs - startMs) / intervalMs + 1).toNat).map fun i : ℕ => startMs + i * intervalMs

/-- Binance answers the requests that it gets before a time with flat candles. -/
def flatWorld (firstTradeMs nowMs reachedMs : ℤ) : World binance where
  tradedSymbols := .ok [{ symbol := "BTCUSDT", firstTradeMs }]
  nowMs
  loadStored := fun _ => .ok ()
  get := fun _ startMs endTimeMs =>
    if startMs < reachedMs then .ok ((minutes startMs endTimeMs).map flatKline)
    else .error "operation timed out"
  execute := fun _ _ => .ok ()

theorem minutes_answers {startMs endMs : ℤ} (hstart : IsMinute startMs) (hend : IsMinute endMs) :
    Answers (minutes startMs (endMs + (intervalMs - 1))) startMs endMs := by
  rw [isMinute_iff] at hstart hend
  constructor
  · refine List.pairwise_map.mpr (List.pairwise_lt_range.imp fun h => ?_)
    unfold intervalMs
    omega
  · intro k
    simp only [minutes, List.mem_map, List.mem_range, isMinute_iff]
    constructor
    · rintro ⟨i, hi, rfl⟩
      unfold intervalMs at *
      omega
    · rintro ⟨hk, hle, hge⟩
      refine ⟨((k - startMs) / intervalMs).toNat, ?_, ?_⟩
      · unfold intervalMs at *
        omega
      · unfold intervalMs at *
        omega

theorem flatWorld_complete (firstTradeMs nowMs reachedMs : ℤ) :
    (flatWorld firstTradeMs nowMs reachedMs).Complete := by
  refine complete_of_binance fun symbol startMs endMs wire hstart hend _ hget => ?_
  simp only [flatWorld] at hget
  split at hget
  · cases hget
    rw [List.map_map]
    exact (List.map_id _).symm ▸ minutes_answers hstart hend
  · cases hget

theorem parseKline_flatKline {symbol : String} {openTimeMs : ℤ} (h : IsMinute openTimeMs) :
    Binance.parseKline symbol (flatKline openTimeMs) = .ok
      { symbol := symbol.toUpper, openTimeMs, closeTimeMs := openTimeMs + intervalMs - 1
        openRate := 0, highRate := 0, lowRate := 0, closeRate := 0, sampleCount := 12 } := by
  have hrate : ∀ field, parseRate "premium-index" symbol openTimeMs field "0" = .ok 0 := by
    intro field
    have hzero : parseFloat "0".toList = some 0 := by decide +kernel
    have hfinite : Float.isFinite 0 = true := by decide +kernel
    rw [parseRate, hzero]
    exact if_pos hfinite
  have hrange : rangeHolds 0 0 0 0 = true := by decide +kernel
  simp only [Binance.parseKline, flatKline, hrate]
  simp [bind, Except.bind, h, hrange]

/-- Before the time a page is there. -/
theorem flatWorld_page {firstTradeMs nowMs reachedMs startMs endMs : ℤ}
    (hstart : IsMinute startMs) (hend : IsMinute endMs) (hle : startMs ≤ endMs)
    (hreached : startMs < reachedMs) : ∃ page,
      (flatWorld firstTradeMs nowMs reachedMs).page "BTCUSDT" startMs endMs = .ok page := by
  have hanswers := minutes_answers hstart (isMinute_pageEndMs hstart hend)
  have hparse : ∀ wire : List Binance.BinanceKline, (∀ row ∈ wire, ∃ kline,
      Binance.parseKline "BTCUSDT" row = .ok kline) → ∃ rows,
      Binance.parseResponse "BTCUSDT" wire = .ok rows := by
    intro wire hwire
    induction wire with
    | nil => exact ⟨[], rfl⟩
    | cons row wire ih =>
      obtain ⟨kline, hkline⟩ := hwire row List.mem_cons_self
      obtain ⟨rows, hrows⟩ := ih fun row hrow => hwire row (List.mem_cons_of_mem _ hrow)
      unfold Binance.parseResponse at hrows ⊢
      exact ⟨kline :: rows, by rw [List.mapM_cons, hkline, hrows]; rfl⟩
  obtain ⟨rows, hrows⟩ := hparse ((minutes startMs (World.pageEndMs startMs endMs
    + (intervalMs - 1))).map flatKline) (by
      intro row hrow
      obtain ⟨k, hk, rfl⟩ := List.mem_map.mp hrow
      exact ⟨_, parseKline_flatKline ((hanswers.2 k).mp hk).1⟩)
  have hfetch : (flatWorld firstTradeMs nowMs reachedMs).fetchPage "BTCUSDT" startMs
      (World.pageEndMs startMs endMs) = .ok rows := by
    simp only [World.fetchPage, flatWorld, if_pos hreached]
    exact hrows
  exact (flatWorld_complete _ _ _).exists_page hstart hend hle hfetch rfl

def emptyDb : String → Table binance.openTimeMs := fun _ => .empty

theorem contiguous_empty : Contiguous (emptyDb "BTCUSDT") :=
  ⟨fun _ h => absurd h Bool.false_ne_true, fun _ _ _ h => absurd h Bool.false_ne_true⟩

def flatCall (firstTradeMs nowMs reachedMs : ℤ) : Call binance where
  world := flatWorld firstTradeMs nowMs reachedMs
  traded := { symbol := "BTCUSDT", firstTradeMs }

/-- The second cycle learns of a trade two thousand minutes before the first, and the exchange
    answers for the first thousand. -/
theorem extension_leaves_hole :
    (∀ world ∈ [flatWorld 1786353600000 1786353660000 1786353660000,
      flatWorld 1786233600000 1786353660000 1786293600000], world.Complete) ∧
    Contiguous (emptyDb "BTCUSDT") ∧
    ¬∀ entry ∈ calls emptyDb [flatWorld 1786353600000 1786353660000 1786353660000,
        flatWorld 1786233600000 1786353660000 1786293600000],
      ∀ n, Contiguous (commit entry.1 entry.2 n "BTCUSDT") := by
  refine ⟨?_, contiguous_empty, fun hcontiguous => ?_⟩
  · simp only [List.mem_cons, List.not_mem_nil, or_false]
    rintro world (rfl | rfl)
    · exact flatWorld_complete _ _ _
    · exact flatWorld_complete _ _ _
  · have hsecond := hcontiguous (syncStep emptyDb (flatCall 1786353600000 1786353660000 1786353660000),
      flatCall 1786233600000 1786353660000 1786293600000) (.tail _ (.head _))
    have hfirst : firstOpenMs (syncStep emptyDb
        (flatCall 1786353600000 1786353660000 1786353660000) "BTCUSDT") = some 1786353600000 := by
      decide +kernel
    have hone := Call.onePage_of_contiguous hsecond (flatWorld_complete _ _ _) _ hfirst (by decide)
      (by decide) rfl
    have hpage := @flatWorld_page 1786233600000 1786353660000 1786293600000 1786233600000
      1786353540000 (by decide) (by decide) (by decide) (by decide)
    rcases hone with hshort | hnone
    · exact absurd hshort (by decide)
    · exact hpage.elim hnone

/-- The second cycle learns of a trade two minutes before the first. -/
theorem coverage_two_minutes :
    (calls emptyDb [flatWorld 1786353600000 1786353660000 1786353660000,
        flatWorld 1786353480000 1786353720000 1786353720000]).length = 2 ∧
    ∀ entry ∈ calls emptyDb [flatWorld 1786353600000 1786353660000 1786353660000,
        flatWorld 1786353480000 1786353720000 1786353720000],
      (∀ n, Contiguous (commit entry.1 entry.2 n "BTCUSDT")) ∧
      (entry.2.traded.symbol = "BTCUSDT" → ∀ upserted,
        (entry.2.syncSymbol (entry.1 "BTCUSDT")).outcome = .ok upserted →
          entry.2.Covers (syncStep entry.1 entry.2 "BTCUSDT")) := by
  refine ⟨rfl, (coverage_iff ?_ contiguous_empty).mpr ?_⟩
  · simp only [List.mem_cons, List.not_mem_nil, or_false]
    rintro world (rfl | rfl)
    · exact flatWorld_complete _ _ _
    · exact flatWorld_complete _ _ _
  · intro entry hentry _ first hfirst _ _ _
    have hentries : entry = (emptyDb, flatCall 1786353600000 1786353660000 1786353660000) ∨
        entry = (syncStep emptyDb (flatCall 1786353600000 1786353660000 1786353660000),
          flatCall 1786353480000 1786353720000 1786353720000) := by
      simpa [calls, steps, World.calls, flatWorld, flatCall] using hentry
    rcases hentries with rfl | rfl
    · cases hfirst
    · have hstored : firstOpenMs (syncStep emptyDb
          (flatCall 1786353600000 1786353660000 1786353660000) "BTCUSDT") = some 1786353600000 := by
        decide +kernel
      cases hstored.symm.trans hfirst
      exact .inl (by decide)

end CryptoNav.Premium
