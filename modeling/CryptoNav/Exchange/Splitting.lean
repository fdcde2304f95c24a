import CryptoNav.Exchange.Client

/-!
# Windows that are split until they fit

Binance's dividends and forced orders have no cursor: a window whose page is full is split at
its middle and both halves are asked for again. What has been collected and the windows that are
pending partition the range, and the pending windows shrink, so that the loop ends with all rows
of the range or with a millisecond that cannot be split (`split_scan_iff`). What the rows then
lose is what the deduplication takes for one (`split_scans_iff`).

The request is a parameter that reads its own parameters, and what is assumed of the exchange is
that a page has the rows of its window up to its limit (`HoldsForceOrders`, `HoldsDividends`).
The pacing of the requests, their signatures and the account modes that are refused before the
first of them are left out. A window is split into milliseconds at most, because the exchange's
own times have no finer grain; that is where the error comes from, and why it is no fault of the
loop.
-/

set_option autoImplicit false

namespace CryptoNav.Exchange.Binance

open CryptoNav.Lib
open CryptoNav.History (i64Max)
open CryptoNav.History.Raw (TimeRange dedup dedupKey Agree valueI64 textRow)

/-! ## The client -/

/-- `split_force_order_range` and `split_asset_dividend_range`, but for their message. -/
def splitRange (message : ℤ → String) (range : TimeRange) :
    Except ExchangeError (TimeRange × TimeRange) :=
  if range.startMs = range.endMs then .error (.invalidResponse "binance" (message range.startMs))
  else
    let middle := range.startMs + (range.endMs - range.startMs).tdiv 2
    .ok ({ startMs := range.startMs, endMs := middle }, { startMs := middle + 1, endMs := range.endMs })

/-- The rows of a window's page, and whether it is saturated. -/
abbrev WindowPage := TimeRange → Except ExchangeError (List Json × Bool)

/-- A turn of the `while let Some(window) = pending.pop()`: the windows to come, the next one first,
    and the rows so far. -/
def splitTurn (windowPage : WindowPage)
    (split : TimeRange → Except ExchangeError (TimeRange × TimeRange)) (time : Json → Option ℤ) :
    List TimeRange × List Json → Routine ExchangeError ((List TimeRange × List Json) ⊕ List Json)
  | ([], rows) => pure (.inr rows)
  | (window :: pending, rows) => do
    let (page, saturated) ← .ofExcept (windowPage window)
    if saturated then
      let (left, right) ← .ofExcept (split window)
      pure (.inl (left :: right :: pending, rows))
    else pure (.inl (pending, rows ++ page.filter (rowInRange time window)))

/-- What `asset_dividends` and `paged_force_orders` share. -/
def splitScan (windowPage : WindowPage)
    (split : TimeRange → Except ExchangeError (TimeRange × TimeRange)) (time : Json → Option ℤ)
    (fields : List String) (maxSpanMs : ℤ) (range : TimeRange) :
    Routine ExchangeError (List Json) := do
  let range ← .ofExcept (newTimeRange range.startMs range.endMs)
  let pending ← chunks range maxSpanMs
  let rows ← Routine.loop (splitTurn windowPage split time) (pending, [])
  pure (sortByKey (fun row => (time row).getD 0) (dedup fields rows))

/-- `signed_get`, of the base, the path, the parameters and the weight. -/
abbrev SignedGet := String → String → Params → ℕ → Except ExchangeError Json

def forceOrderLimit : ℕ := 100

inductive AutoCloseType where
  | liquidation
  | adl

def AutoCloseType.apiValue : AutoCloseType → String
  | liquidation => "LIQUIDATION"
  | adl => "ADL"

def forceOrderParams (symbol : Option String) (autoCloseType : Option AutoCloseType)
    (window : TimeRange) : Params :=
  [("startTime", toString window.startMs), ("endTime", toString window.endMs),
    ("limit", toString forceOrderLimit)] ++ symbol.toList.map (("symbol", ·)) ++
    autoCloseType.toList.map (("autoCloseType", ·.apiValue))

def forceOrderPage (signedGet : SignedGet) (base path : String) (symbol : Option String)
    (autoCloseType : Option AutoCloseType) : WindowPage := fun window => do
  let value ← signedGet base path (forceOrderParams symbol autoCloseType window)
    (if symbol.isSome then 20 else 50)
  let page ← rootArray "binance" value
  .ok (page, page.length = forceOrderLimit)

def splitForceOrderRange : TimeRange → Except ExchangeError (TimeRange × TimeRange) :=
  splitRange fun startMs =>
    s!"force orders exceeded the {forceOrderLimit} row limit at timestamp {startMs}; query by symbol"

def sevenDaysMs : ℤ := 7 * 24 * 60 * 60 * 1000

/-- `BinanceClient::paged_force_orders` -/
def pagedForceOrders (signedGet : SignedGet) (base path : String) (symbol : Option String)
    (autoCloseType : Option AutoCloseType) (range : TimeRange) :
    Routine ExchangeError (List Json) :=
  splitScan (forceOrderPage signedGet base path symbol autoCloseType) splitForceOrderRange
    (valueI64 · "time") ["orderId", "symbol"] sevenDaysMs range

def assetDividendLimit : ℕ := 500

def assetDividendPageIsSaturated (total : Option ℤ) (pageLen : ℕ) : Bool :=
  match total with
  | some total => (pageLen : ℤ) < total
  | none => pageLen = assetDividendLimit

def assetDividendParams (window : TimeRange) : Params :=
  [("startTime", toString window.startMs), ("endTime", toString window.endMs),
    ("limit", toString assetDividendLimit)]

def assetDividendPage (signedGet : SignedGet) : WindowPage := fun window => do
  let value ← signedGet "https://api.binance.com" "/sapi/v1/asset/assetDividend"
    (assetDividendParams window) 10
  let total := valueI64 value "total"
  let page ← match value.get "rows" with
    | some (.array page) => .ok page
    | _ => .error (.invalidResponse "binance" "asset dividend response is missing rows")
  .ok (page, assetDividendPageIsSaturated total page.length)

def splitAssetDividendRange : TimeRange → Except ExchangeError (TimeRange × TimeRange) :=
  splitRange fun startMs =>
    s!"asset dividends exceeded the {assetDividendLimit} row limit at timestamp {startMs}"

def assetDividendMaxSpanMs : ℤ := 180 * (24 * 60 * 60 * 1000)

inductive AccountMode where
  | usdmFutures
  | portfolioMargin
  deriving DecidableEq

def requireStandardAccount (mode : AccountMode) : Except ExchangeError Unit :=
  if mode = .usdmFutures then .ok ()
  else .error (.invalidQuery "endpoint requires a standard Binance account")

/-- `BinanceClient::asset_dividends` -/
def assetDividends (mode : AccountMode) (signedGet : SignedGet) (range : TimeRange) :
    Routine ExchangeError (List Json) := do
  .ofExcept (requireStandardAccount mode)
  splitScan (assetDividendPage signedGet) splitAssetDividendRange (valueI64 · "divTime") ["id"]
    assetDividendMaxSpanMs range

theorem assetDividends_standard (signedGet : SignedGet) (range : TimeRange) :
    assetDividends .usdmFutures signedGet range =
      splitScan (assetDividendPage signedGet) splitAssetDividendRange (valueI64 · "divTime") ["id"]
        assetDividendMaxSpanMs range := rfl

/-! ## Splitting -/

variable {windowPage : WindowPage} {split : TimeRange → Except ExchangeError (TimeRange × TimeRange)}
  {message : ℤ → String} {time : Json → Option ℤ} {rows : List Json} {most : ℕ} {range : TimeRange}

/-- The rows of one millisecond do not fit on a page. Such a millisecond is asked for again and
    again until it is a window of its own, and then it is an error. -/
def Saturated (time : Json → Option ℤ) (rows : List Json) (most : ℕ) (t : ℤ) : Prop :=
  most < (rowsIn time rows { startMs := t, endMs := t }).length

/-- A page is saturated where a window has more than `most` rows, and has all of them otherwise. It
    is an assumption about the exchange, together with how the client counts. -/
def Pages (windowPage : WindowPage) (time : Json → Option ℤ) (rows : List Json) (most : ℕ) : Prop :=
  ∀ window, ∃ page, windowPage window = .ok (page, decide (most < (rowsIn time rows window).length)) ∧
    ((rowsIn time rows window).length ≤ most → page.Perm (rowsIn time rows window))

/-- The pending windows follow what has been collected, none of which was saturated. -/
structure Partitioned (time : Json → Option ℤ) (rows : List Json) (most : ℕ) (range : TimeRange)
    (next : ℤ) (s : List TimeRange × List Json) : Prop where
  tiles : Tiles range.endMs next s.1
  start_le : range.startMs ≤ next
  next_le : next ≤ range.endMs + 1
  collected : s.2.Perm (rowsIn time rows { startMs := range.startMs, endMs := next - 1 })
  fits : ∀ t, range.startMs ≤ t → t < next → ¬Saturated time rows most t

/-- How much splitting is left: a window of `n` milliseconds can be split `n - 1` times. -/
def splitWork (s : List TimeRange × List Json) : ℕ :=
  (s.1.map fun window => (2 * (window.endMs - window.startMs) + 1).toNat).sum

theorem splitRange_of_lt (message : ℤ → String) {range : TimeRange} (h : range.startMs < range.endMs) : ∃ middle, range.startMs ≤ middle ∧
    middle < range.endMs ∧ splitRange message range = .ok
      ({ startMs := range.startMs, endMs := middle }, { startMs := middle + 1, endMs := range.endMs }) := by
  refine ⟨range.startMs + (range.endMs - range.startMs).tdiv 2, ?_, ?_, ?_⟩
  · rw [Int.tdiv_eq_ediv_of_nonneg (by omega)]
    omega
  · rw [Int.tdiv_eq_ediv_of_nonneg (by omega)]
    omega
  · rw [splitRange, if_neg h.ne]

/-- What a millisecond has is in every window around it. -/
theorem length_rowsIn_le (window : TimeRange) {t : ℤ} (hstart : window.startMs ≤ t)
    (hend : t ≤ window.endMs) :
    (rowsIn time rows { startMs := t, endMs := t }).length ≤ (rowsIn time rows window).length := by
  refine (List.monotone_filter_right rows fun row hin => ?_).length_le
  obtain ⟨u, hu, hrange⟩ := (Option.any_eq_true _ _).mp hin
  refine (Option.any_eq_true _ _).mpr ⟨u, hu, ?_⟩
  simp only [History.Raw.inRange, Bool.and_eq_true, decide_eq_true_eq] at hrange ⊢
  omega

/-- **A turn** splits a window that is saturated, collects one that is not, and ends when there is
    none, or with a millisecond that is saturated. -/
theorem split_turn (message : ℤ → String) (hpages : Pages windowPage time rows most)
    {s : List TimeRange × List Json} (hs : ∃ next, Partitioned time rows most range next s) :
    ∃ r, (splitTurn windowPage (splitRange message) time s).Gives r ∧
      Routine.Turns (fun s => ∃ next, Partitioned time rows most range next s)
        (Routine.Meets
          (fun _ => ∃ t, range.startMs ≤ t ∧ t ≤ range.endMs ∧ Saturated time rows most t)
          (fun collected => collected.Perm (rowsIn time rows range) ∧
            ∀ t, range.startMs ≤ t → t ≤ range.endMs → ¬Saturated time rows most t))
        splitWork s r := by
  obtain ⟨next, h⟩ := hs
  obtain ⟨pending, collected⟩ := s
  cases pending with
  | nil =>
    refine ⟨_, Routine.gives_pure.mpr rfl, ?_⟩
    have hlt : range.endMs < next := h.tiles
    have hnext : next - 1 = range.endMs := by
      have := h.next_le
      omega
    have hcollected := h.collected
    rw [hnext] at hcollected
    exact ⟨hcollected, fun t hs ht => h.fits t hs (by omega)⟩
  | cons window pending =>
    obtain ⟨startMs, endMs⟩ := window
    obtain ⟨hstart, hle, hend, hrest⟩ := h.tiles
    obtain rfl : startMs = next := hstart
    have hle : startMs ≤ endMs := hle
    have hend : endMs ≤ range.endMs := hend
    have hfrom := h.start_le
    obtain ⟨page, hpage, hall⟩ := hpages { startMs, endMs }
    simp only [splitTurn, hpage, Routine.ofExcept_ok_bind, decide_eq_true_eq]
    by_cases hsat : most < (rowsIn time rows { startMs, endMs }).length
    · rw [if_pos hsat]
      by_cases hone : startMs = endMs
      · -- A single millisecond cannot be split.
        subst hone
        simp only [splitRange, if_true, Routine.ofExcept_error_bind]
        exact ⟨_, Routine.gives_ofExcept.mpr rfl, startMs, hfrom, hend, hsat⟩
      · have hlt : ({ startMs, endMs } : TimeRange).startMs < endMs := lt_of_le_of_ne hle hone
        obtain ⟨middle, hlow, hhigh, hsplit⟩ := splitRange_of_lt message hlt
        have hlow : startMs ≤ middle := hlow
        have hhigh : middle + 1 ≤ endMs := hhigh
        simp only [hsplit, Routine.ofExcept_ok_bind]
        refine ⟨_, Routine.gives_pure.mpr rfl,
          ⟨startMs, ?_, hfrom, h.next_le, h.collected, h.fits⟩, ?_⟩
        · exact ⟨rfl, hlow, by show middle ≤ range.endMs; omega, rfl, hhigh, hend, hrest⟩
        · simp only [splitWork, List.map_cons, List.sum_cons]
          omega
    · rw [if_neg hsat]
      have hperm := hall (not_lt.mp hsat)
      refine ⟨_, Routine.gives_pure.mpr rfl, ⟨endMs + 1, hrest, by omega, by omega, ?_, ?_⟩, ?_⟩
      · have hinside : page.filter (rowInRange time { startMs, endMs }) = page :=
          List.filter_eq_self.mpr fun row hrow =>
            (List.mem_filter.mp (hperm.subset hrow)).2
        have hsplit := @filter_split_perm time range.startMs (startMs - 1) endMs rows (by omega)
          (by omega)
        rw [sub_add_cancel] at hsplit
        show (collected ++ page.filter _).Perm _
        rw [hinside, show endMs + 1 - 1 = endMs by omega]
        exact (h.collected.append hperm).trans hsplit
      · intro t hs ht
        by_cases hold : t < startMs
        · exact h.fits t hs hold
        · exact not_lt.mpr ((length_rowsIn_le { startMs, endMs } (not_lt.mp hold)
            (Int.lt_add_one_iff.mp ht)).trans (not_lt.mp hsat))
      · simp only [splitWork, List.map_cons, List.sum_cons]
        omega

/-! ## The whole range -/

/-- Some millisecond of the range is saturated. -/
def SomeSaturated (time : Json → Option ℤ) (rows : List Json) (most : ℕ) (range : TimeRange) : Prop :=
  ∃ t, range.startMs ≤ t ∧ t ≤ range.endMs ∧ Saturated time rows most t

/-- No two rows of the range are taken for one. Rows that agree in the fields are one row for the
    deduplication, however they differ elsewhere. -/
def ToldApart (fields : List String) (time : Json → Option ℤ) (rows : List Json)
    (range : TimeRange) : Prop :=
  (rowsIn time rows range).Pairwise fun r s => ¬Agree fields r s

/-- Either exactly the rows of the range, each once and in the order of their times, or an error and
    a millisecond that is saturated. -/
def CompleteOrFails (time : Json → Option ℤ) (rows : List Json) (most : ℕ) (range : TimeRange)
    (x : Routine ExchangeError (List Json)) : Prop :=
  ∃ r, x.Gives r ∧ Routine.Meets (fun _ => SomeSaturated time rows most range)
    (fun result => result.Perm (rowsIn time rows range) ∧
      result.Pairwise fun r s => (time r).getD 0 ≤ (time s).getD 0) r

/-- Deduplication keeps as many rows as there are only where it tells all of them apart. -/
theorem dedup_perm_iff {fields : List String} {collected wanted : List Json}
    (h : collected.Perm wanted) : (dedup fields collected).Perm wanted ↔
      wanted.Pairwise fun r s => ¬Agree fields r s := by
  have hsymm : ∀ {r s : Json}, ¬Agree fields r s → ¬Agree fields s r := fun hrs hsr =>
    hrs fun field hfield => (hsr field hfield).symm
  have hkeys : ∀ rows : List Json, (rows.map (dedupKey fields)).Nodup ↔
      rows.Pairwise fun r s => ¬Agree fields r s := by
    intro rows
    rw [List.Nodup, List.pairwise_map]
    exact ⟨fun h => h.imp fun hne hagree => hne (History.Raw.dedupKey_eq.mpr hagree),
      fun h => h.imp fun hne hkey => hne (History.Raw.dedupKey_eq.mp hkey)⟩
  rw [← h.pairwise_iff hsymm, ← hkeys]
  constructor
  · intro hkept
    have hsame : dedup fields collected = collected :=
      (keepFirst_sublist _ _ _).eq_of_length (hkept.length_eq.trans h.length_eq.symm)
    rw [← hsame]
    exact keepFirst_nodup _ _ _
  · intro hnodup
    rw [dedup, keepFirst_eq_self hnodup (by simp)]
    exact h

/-- **A scan that splits returns the range or fails at a saturated millisecond**, exactly when the
    range does not end at `i64::MAX` and, if nothing is saturated, its rows are told apart. -/
theorem split_scan_iff (hpages : Pages windowPage time rows most) {fields : List String}
    {maxSpanMs : ℤ} (hspan : 0 < maxSpanMs) (hvalid : Valid range) :
    CompleteOrFails time rows most range
        (splitScan windowPage (splitRange message) time fields maxSpanMs range) ↔
      range.endMs < i64Max ∧ (SomeSaturated time rows most range ∨ ToldApart fields time rows range) := by
  rw [splitScan, newTimeRange_of_valid hvalid, Routine.ofExcept_ok_bind]
  by_cases hend : range.endMs < i64Max
  · obtain ⟨windows, hwindows, htiles⟩ := chunks_gives hspan (.inl hend)
    have hstart : Partitioned time rows most range range.startMs (windows, []) := by
      refine ⟨htiles, le_rfl, ?_, ?_, fun t hs ht => absurd ht (not_lt.mpr hs)⟩
      · have := hvalid.2
        omega
      · rw [rowsIn, List.filter_eq_nil_iff.mpr fun row _ hin => ?_]
        obtain ⟨t, -, ht⟩ := (Option.any_eq_true _ _).mp hin
        simp only [History.Raw.inRange, Bool.and_eq_true, decide_eq_true_eq] at ht
        omega
    obtain ⟨r, hr, hmeets⟩ := Routine.loop_total splitWork
      (fun _ hs => split_turn message hpages hs) ⟨_, hstart⟩
    rw [CompleteOrFails, and_iff_right hend]
    rcases r with e | collected
    · refine iff_of_true ⟨.error e, ?_, hmeets⟩ (.inl hmeets)
      rw [Routine.gives_bind_ok hwindows, Routine.gives_bind_error hr]
    · obtain ⟨hperm, hfits⟩ := hmeets
      have hnone : ¬SomeSaturated time rows most range := by
        rintro ⟨t, hs, ht, hsat⟩
        exact hfits t hs ht hsat
      have hgives : ∀ r', ((chunks range maxSpanMs >>= fun pending =>
          Routine.loop (splitTurn windowPage (splitRange message) time) (pending, []) >>= fun rows =>
            pure (sortByKey (fun row => (time row).getD 0) (dedup fields rows))).Gives r' ↔
          .ok (sortByKey (fun row => (time row).getD 0) (dedup fields collected)) = r') := by
        intro r'
        rw [Routine.gives_bind_ok hwindows, Routine.gives_bind_ok hr, Routine.gives_pure]
      simp only [hgives, exists_eq_left', Routine.Meets, or_iff_right hnone]
      rw [and_iff_left (sortByKey_pairwise _ _), ToldApart, ← dedup_perm_iff hperm]
      exact ⟨fun h => (sortByKey_perm _ _).symm.trans h, fun h => (sortByKey_perm _ _).trans h⟩
  · refine iff_of_false ?_ fun h => hend h.1
    rintro ⟨r, hr, -⟩
    exact Routine.not_ends_bind (chunks_never hspan (not_lt.mp hend) hvalid.2) _ ⟨r, hr⟩

/-! ## The exchange -/

/-- An exchange that answers a window with its forced orders, as many as fit on a page. The order
    within a page is left open; what matters is that a full page is recognized as one. -/
def HoldsForceOrders (signedGet : SignedGet) (base path : String) (symbol : Option String)
    (autoCloseType : Option AutoCloseType) (rows : List Json) : Prop :=
  ∀ window, ∃ page, signedGet base path (forceOrderParams symbol autoCloseType window)
      (if symbol.isSome then 20 else 50) = .ok (.array page) ∧
    page.Subperm (rowsIn (valueI64 · "time") rows window) ∧
    page.length = min forceOrderLimit (rowsIn (valueI64 · "time") rows window).length

theorem HoldsForceOrders.pages {signedGet : SignedGet} {base path : String}
    {symbol : Option String} {autoCloseType : Option AutoCloseType} {rows : List Json}
    (h : HoldsForceOrders signedGet base path symbol autoCloseType rows) :
    Pages (forceOrderPage signedGet base path symbol autoCloseType) (valueI64 · "time") rows
      (forceOrderLimit - 1) := by
  intro window
  obtain ⟨page, hget, hsub, hlength⟩ := h window
  refine ⟨page, ?_, fun hle => hsub.perm_of_length_le ?_⟩
  · have hfull : page.length = forceOrderLimit ↔
        forceOrderLimit - 1 < (rowsIn (valueI64 · "time") rows window).length := by
      unfold forceOrderLimit at *
      omega
    simp only [forceOrderPage, hget, rootArray_array, bind, Except.bind, hfull]
  · unfold forceOrderLimit at *
    omega

/-- An exchange that answers a window with its dividends, as many as fit on a page and all if they
    do, and says how many there are. -/
def HoldsDividends (signedGet : SignedGet) (rows : List Json) : Prop :=
  ∀ window, ∃ value page, signedGet "https://api.binance.com" "/sapi/v1/asset/assetDividend"
      (assetDividendParams window) 10 = .ok value ∧
    valueI64 value "total" = some ((rowsIn (valueI64 · "divTime") rows window).length : ℤ) ∧
    value.get "rows" = some (.array page) ∧ page.length ≤ assetDividendLimit ∧
    ((rowsIn (valueI64 · "divTime") rows window).length ≤ assetDividendLimit →
      page.Perm (rowsIn (valueI64 · "divTime") rows window))

theorem HoldsDividends.pages {signedGet : SignedGet} {rows : List Json}
    (h : HoldsDividends signedGet rows) :
    Pages (assetDividendPage signedGet) (valueI64 · "divTime") rows assetDividendLimit := by
  intro window
  obtain ⟨value, page, hget, htotal, hrows, hlength, hall⟩ := h window
  refine ⟨page, ?_, hall⟩
  have hfull : ((page.length : ℤ) < (rowsIn (valueI64 · "divTime") rows window).length) ↔
      assetDividendLimit < (rowsIn (valueI64 · "divTime") rows window).length := by
    rw [Int.ofNat_lt]
    refine ⟨fun hlt => not_le.mp fun hle => ?_, hlength.trans_lt⟩
    have := (hall hle).length_eq
    omega
  simp only [assetDividendPage, hget, hrows, htotal, assetDividendPageIsSaturated, bind, Except.bind,
    hfull]

/-- **Forced orders and dividends are complete, or fail at a millisecond that does not fit on a page**,
    exactly when the range does not end at `i64::MAX` and, unless some millisecond is saturated, no
    two rows of the range have the same order id and symbol, or the same id. -/
theorem split_scans_iff {signedGet : SignedGet} {base path : String} {symbol : Option String}
    {autoCloseType : Option AutoCloseType} {orders dividends : List Json} {range : TimeRange}
    (horders : HoldsForceOrders signedGet base path symbol autoCloseType orders)
    (hdividends : HoldsDividends signedGet dividends) (hvalid : Valid range) :
    (CompleteOrFails (valueI64 · "time") orders (forceOrderLimit - 1) range
        (pagedForceOrders signedGet base path symbol autoCloseType range) ↔
      range.endMs < i64Max ∧
        (SomeSaturated (valueI64 · "time") orders (forceOrderLimit - 1) range ∨
          ToldApart ["orderId", "symbol"] (valueI64 · "time") orders range)) ∧
    (CompleteOrFails (valueI64 · "divTime") dividends assetDividendLimit range
        (assetDividends .usdmFutures signedGet range) ↔
      range.endMs < i64Max ∧
        (SomeSaturated (valueI64 · "divTime") dividends assetDividendLimit range ∨
          ToldApart ["id"] (valueI64 · "divTime") dividends range)) :=
  ⟨split_scan_iff horders.pages (by decide) hvalid, by
    rw [assetDividends_standard]
    exact split_scan_iff hdividends.pages (by decide) hvalid⟩

/-! ## Two orders and a dividend -/

/-- An exchange with forced orders and dividends that reads its parameters. -/
def splitServer (orders dividends : List Json) : SignedGet := fun _ path params _ =>
  match params with
  | ("startTime", startMs) :: ("endTime", endMs) :: _ =>
    let window : TimeRange := { startMs := readInt startMs, endMs := readInt endMs }
    if path = "/sapi/v1/asset/assetDividend" then
      let wanted := rowsIn (valueI64 · "divTime") dividends window
      .ok (.object [("rows", .array (wanted.take assetDividendLimit)),
        ("total", .string (toString (wanted.length : ℤ)))])
    else .ok (.array ((rowsIn (valueI64 · "time") orders window).take forceOrderLimit))
  | _ => .ok .null

def forceOrdersPath : String := "/fapi/v1/forceOrders"

theorem holds_splitServer_orders (orders dividends : List Json) : HoldsForceOrders
    (splitServer orders dividends) "https://fapi.binance.com" forceOrdersPath none none orders := by
  intro window
  refine ⟨(rowsIn (valueI64 · "time") orders window).take forceOrderLimit, ?_,
    (List.take_sublist _ _).subperm, List.length_take⟩
  simp only [splitServer, forceOrderParams, List.cons_append, readInt_toString]
  rw [if_neg (by decide)]

theorem holds_splitServer_dividends {orders dividends : List Json}
    (hfew : (dividends.length : ℤ) ≤ i64Max) : HoldsDividends (splitServer orders dividends) dividends := by
  intro window
  have hlength : ((rowsIn (valueI64 · "divTime") dividends window).length : ℤ) ≤ i64Max :=
    (Int.ofNat_le.mpr (List.length_filter_le _ _)).trans hfew
  refine ⟨.object [("rows", .array ((rowsIn (valueI64 · "divTime") dividends window).take
      assetDividendLimit)),
    ("total", .string (toString ((rowsIn (valueI64 · "divTime") dividends window).length : ℤ)))],
    _, ?_, ?_, rfl, List.length_take_le _ _, fun hfits => by rw [List.take_of_length_le hfits]⟩
  · simp only [splitServer, assetDividendParams, readInt_toString, if_true]
  · exact parseInt_toString (by unfold History.i64Min; omega) hlength

def forceOrderRow (orderId time : String) : Json :=
  textRow [("orderId", orderId), ("symbol", "BTCUSDT"), ("time", time)]

def twoOrders : List Json := [forceOrderRow "1" "1700000000000", forceOrderRow "2" "1700000000000"]

def oneDividend : List Json := [textRow [("id", "5"), ("divTime", "1700000000000")]]

theorem orders_and_dividends_returned :
    CompleteOrFails (valueI64 · "time") twoOrders (forceOrderLimit - 1)
        ⟨1700000000000, 1700090000000⟩ (pagedForceOrders (splitServer twoOrders oneDividend)
          "https://fapi.binance.com" forceOrdersPath none none ⟨1700000000000, 1700090000000⟩) ∧
      CompleteOrFails (valueI64 · "divTime") oneDividend assetDividendLimit
        ⟨1700000000000, 1700090000000⟩
        (assetDividends .usdmFutures (splitServer twoOrders oneDividend) ⟨1700000000000, 1700090000000⟩) := by
  have hdividends : HoldsDividends (splitServer twoOrders oneDividend) oneDividend :=
    holds_splitServer_dividends (by decide)
  have hvalid : Valid ⟨1700000000000, 1700090000000⟩ := ⟨by decide, by decide⟩
  have hscans := split_scans_iff (holds_splitServer_orders twoOrders oneDividend) hdividends hvalid
  refine ⟨hscans.1.mpr ⟨by decide, .inr ?_⟩, hscans.2.mpr ⟨by decide, .inr ?_⟩⟩
  · unfold ToldApart
    decide +kernel
  · unfold ToldApart
    decide +kernel

/-- `TimeRange::new` accepts the range up to `i64::MAX`, and neither scan ever returns. -/
theorem last_millisecond_never_scanned :
    Valid ⟨1700000000000, i64Max⟩ ∧
      ¬(pagedForceOrders (splitServer twoOrders oneDividend) "https://fapi.binance.com"
        forceOrdersPath none none ⟨1700000000000, i64Max⟩).Ends ∧
      ¬(assetDividends .usdmFutures (splitServer twoOrders oneDividend) ⟨1700000000000, i64Max⟩).Ends := by
  have hvalid : Valid ⟨1700000000000, i64Max⟩ := ⟨by decide, by decide⟩
  refine ⟨hvalid, ?_, ?_⟩
  · rw [pagedForceOrders, splitScan, newTimeRange_of_valid hvalid, Routine.ofExcept_ok_bind]
    exact Routine.not_ends_bind (chunks_never (by decide) le_rfl hvalid.2) _
  · rw [assetDividends_standard, splitScan, newTimeRange_of_valid hvalid, Routine.ofExcept_ok_bind]
    exact Routine.not_ends_bind (chunks_never (by decide) le_rfl hvalid.2) _

end CryptoNav.Exchange.Binance
