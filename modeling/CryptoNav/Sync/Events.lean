import CryptoNav.Matching.Engine
import CryptoNav.Sync.Lifecycle

/-!
# From lifecycles to matching events

`lifecycle_events`: a released lifecycle of a Margin venue becomes a Margin order if it has a
real fill, one of a Futures venue becomes a Futures order in any case. `from_key` carries what
the strategy put into it, as text.

A side that is none, or a filled order without the time of its fill, stops the run. What is
computed here (`range`, `tlen`, `cprice`) is rounded, as in the engine; the filled amounts are
handed on as they are. The query that loads the lifecycles has no `ORDER BY`; here they come by key,
which decides no more than which of several errors is given.
-/

set_option autoImplicit false

namespace CryptoNav.Sync

open CryptoNav.Lib CryptoNav.Matching

/-! ## Numbers in `from_key` -/

def digit? (c : Char) : Option ℕ :=
  if '0' ≤ c ∧ c ≤ '9' then some (c.toNat - '0'.toNat) else none

/-- A nonempty run of decimal digits. -/
def parseDigits : List Char → Option ℕ
  | [] => none
  | c :: cs => (c :: cs).foldlM (fun n c => (digit? c).map (10 * n + ·)) 0

/-- An optional sign in front of what `parse` reads. -/
def parseSigned {α : Type} [Neg α] (parse : List Char → Option α) : List Char → Option α
  | '-' :: cs => (parse cs).map (- ·)
  | '+' :: cs => parse cs
  | cs => parse cs

/-- `str::parse::<i64>`. -/
def parseI64 (s : List Char) : Option ℤ :=
  (parseSigned (fun cs => (parseDigits cs).map Int.ofNat) s).filter
    fun n => -2 ^ 63 ≤ n ∧ n < 2 ^ 63

/-- Digits with an optional point and an optional exponent, as `str::parse::<f64>` reads them
    before it rounds; its `inf` and `nan` are no rationals. -/
def parseDecimal (s : List Char) : Option ℚ :=
  let isDigit (c : Char) := (digit? c).isSome
  let whole := s.takeWhile isDigit
  let rest := s.dropWhile isDigit
  let (fraction, rest) := match rest with
    | '.' :: cs => (cs.takeWhile isDigit, cs.dropWhile isDigit)
    | cs => ([], cs)
  let exponent : Option ℤ := match rest with
    | [] => some 0
    | e :: cs => if e = 'e' ∨ e = 'E' then
        parseSigned (fun cs => (parseDigits cs).map Int.ofNat) cs
      else none
  exponent.bind fun exponent => (parseDigits (whole ++ fraction)).map fun n : ℕ =>
    (n : ℚ) * 10 ^ (exponent - fraction.length)

def parseF64 [Rounding] (s : List Char) : Option ℚ := (parseSigned parseDecimal s).map Rounding.fl

/-- What follows the last occurrence of `separator`. -/
def afterLast (separator : List Char) : List Char → Option (List Char)
  | [] => none
  | c :: cs => (afterLast separator cs).or
      (if separator.isPrefixOf (c :: cs) then some ((c :: cs).drop separator.length) else none)

def parseTlen [Rounding] (fromKey : String) : Option ℚ :=
  (afterLast ":tlen=".toList fromKey.toList).bind parseF64

def parseMainFkey (fromKey : String) : Option ℤ :=
  parseI64 (fromKey.toList.takeWhile (· ≠ '|'))

def hedgeNewTs (venue fromKey : String) (newTsUs terminalTsUs : Option ℤ) : Option ℤ :=
  if newTsUs.isSome then newTsUs
  else
    let reason := (fromKey.toList.splitOn '|')[1]?
    let bybitTaker := venue = "BybitFutures" ∧ reason ∈
      ["arb_hedge_force_taker_direct", "arb_hedge_lazy_model_direct",
        "arb_hedge_lazy_taker_direct"].map fun r : String => some r.toList
    if bybitTaker then terminalTsUs else none

/-! ## Events -/

/-- `venue.ends_with("Margin")` -/
def isMargin (venue : String) : Bool := "Margin".toList.isSuffixOf venue.toList

def isFutures (venue : String) : Bool := "Futures".toList.isSuffixOf venue.toList

/-- The fill time a filled order must have. -/
def requiredFillTs (kind : String) (row : Lifecycle) : Except String ℤ :=
  match row.lastFillUpdateTsUs with
  | some ts => .ok ts
  | none => .error
      s!"filled {kind} order {row.venue}/{row.clientOrderId} has no FILLED or PARTIALLY_FILLED timestamp"

def marginOrder [Rounding] (row : Lifecycle) (side : Side) (openUts : ℤ) : MarginOrder where
  fkey := row.clientOrderId
  symbol := row.symbol
  side := side
  cts := row.createTsUs
  openUts := openUts
  openMktTsUs := row.mktTsUs
  openNewTsUs := row.newTsUs
  openTerminalTsUs := row.terminalTsUs
  openTerminalTsLocalUs := row.terminalTsLocalUs
  price := row.price
  amount := row.amountInit
  range := Rounding.fl (row.priceOffset * 10000)
  tlen := (parseTlen row.fromKey).map fun quantity => Rounding.fl (quantity * row.price)
  openFillAmount := row.filledAmount
  remainingAmount := row.filledAmount
  openSourceTsUs := row.lastSourceTsUs

def futuresOrder [Rounding] (row : Lifecycle) (side : Side) (fillTsUs : Option ℤ) (ε : ℚ) :
    FuturesOrder where
  clientOrderId := row.clientOrderId
  mainFkey := parseMainFkey row.fromKey
  symbol := row.symbol
  side := side
  createTsUs := row.createTsUs
  updateTsUs := row.updateTsUs
  newTsUs := hedgeNewTs row.venue row.fromKey row.newTsUs row.terminalTsUs
  terminalTsUs := row.terminalTsUs
  fillTsUs := fillTsUs
  sourceTsUs := row.lastSourceTsUs
  amount := row.filledAmount
  cprice :=
    if ε < row.filledAmount then some (Rounding.fl (row.fillNotional / row.filledAmount)) else none
  eventCount := row.eventCount

/-- The event of a released lifecycle, if it has one. -/
def lifecycleEvent [Rounding] (ε : ℚ) (row : Lifecycle) : Except String (Option MatchEvent) := do
  let side ← Side.parse row.side
  if isMargin row.venue then
    if row.filledAmount ≤ ε then pure none
    else
      let openUts ← requiredFillTs "Margin" row
      pure (some (.margin (marginOrder row side openUts)))
  else if isFutures row.venue then
    if ε < row.filledAmount then
      let fillTsUs ← requiredFillTs "Futures" row
      pure (some (.futures (futuresOrder row side (some fillTsUs) ε)))
    else pure (some (.futures (futuresOrder row side none ε)))
  else pure none

def lifecycleEvents [Rounding] (ε : ℚ) (rows : List Lifecycle) : Except String (List MatchEvent) :=
  rows.foldlM (fun events row => (lifecycleEvent ε row).map (events ++ ·.toList)) []

/-- The events are those of the rows, in their order. -/
theorem lifecycleEvents_eq [Rounding] {ε : ℚ} {rows : List Lifecycle} {events : List MatchEvent}
    (h : lifecycleEvents ε rows = .ok events) :
    events = rows.flatMap fun row => ((lifecycleEvent ε row).toOption.join).toList := by
  refine run_prefix (P := fun past events => events
    = past.flatMap fun row => ((lifecycleEvent ε row).toOption.join).toList) ?_ rfl h
  intro past row _ _ events events' hevents hstep
  obtain ⟨event, hevent, rfl⟩ := map_eq_ok.mp hstep
  rw [hevents, List.flatMap_append, List.flatMap_singleton, hevent]
  rfl

/-- An event is the event of a row. -/
theorem mem_lifecycleEvents [Rounding] {ε : ℚ} {rows : List Lifecycle} {events : List MatchEvent}
    (h : lifecycleEvents ε rows = .ok events) {event : MatchEvent} (hevent : event ∈ events) :
    ∃ row ∈ rows, lifecycleEvent ε row = .ok (some event) := by
  rw [lifecycleEvents_eq h, List.mem_flatMap] at hevent
  obtain ⟨row, hrow, hevent⟩ := hevent
  refine ⟨row, hrow, ?_⟩
  cases hok : lifecycleEvent ε row with
  | error m =>
    rw [hok] at hevent
    cases hevent
  | ok e =>
    rw [hok] at hevent
    cases e with
    | none => cases hevent
    | some e => rw [List.mem_singleton.mp hevent]

/-- Every row has its outcome among the events. -/
theorem lifecycleEvents_row [Rounding] {ε : ℚ} {rows : List Lifecycle} {events : List MatchEvent}
    (h : lifecycleEvents ε rows = .ok events) {row : Lifecycle} (hrow : row ∈ rows) :
    ∃ event, lifecycleEvent ε row = .ok event ∧ ∀ e ∈ event, e ∈ events := by
  refine run_prefix (P := fun past events => ∀ row ∈ past, ∃ event,
    lifecycleEvent ε row = .ok event ∧ ∀ e ∈ event, e ∈ events) ?_
    (fun _ hrow => absurd hrow List.not_mem_nil) h row hrow
  intro past row _ _ events events' hevents hstep x hx
  obtain ⟨event, hevent, rfl⟩ := map_eq_ok.mp hstep
  rcases List.mem_append.mp hx with hx | hx
  · obtain ⟨old, hold, hmem⟩ := hevents x hx
    exact ⟨old, hold, fun e he => List.mem_append_left _ (hmem e he)⟩
  · rw [List.mem_singleton.mp hx]
    exact ⟨event, hevent, fun e he => List.mem_append_right _ (Option.mem_toList.mpr he)⟩

/-- Margin orders enter the engine with nothing matched and nothing hedged. -/
theorem lifecycleEvent_margin [Rounding] {ε : ℚ} {row : Lifecycle} {order : MarginOrder}
    (h : lifecycleEvent ε row = .ok (some (.margin order))) :
    ∃ side openUts, order = marginOrder row side openUts ∧ Side.parse row.side = .ok side ∧
      isMargin row.venue ∧ ε < row.filledAmount ∧ row.lastFillUpdateTsUs = some openUts := by
  unfold lifecycleEvent at h
  obtain ⟨side, hside, h⟩ := bind_eq_ok.mp h
  split at h
  · rename_i hvenue
    split at h
    · cases h
    · rename_i hfill
      obtain ⟨openUts, hts, h⟩ := bind_eq_ok.mp h
      cases h
      refine ⟨side, openUts, rfl, hside, hvenue, not_le.mp hfill, ?_⟩
      unfold requiredFillTs at hts
      split at hts
      · rename_i ts hsome
        cases hts
        exact hsome
      · cases hts
  · split at h
    · split at h
      · obtain ⟨_, _, h⟩ := bind_eq_ok.mp h
        cases h
      · cases h
    · cases h

/-- A Futures order has the fill of its lifecycle, filled or not. -/
theorem lifecycleEvent_futures [Rounding] {ε : ℚ} {row : Lifecycle} {order : FuturesOrder}
    (h : lifecycleEvent ε row = .ok (some (.futures order))) :
    ∃ side fillTsUs, order = futuresOrder row side fillTsUs ε ∧ isFutures row.venue := by
  unfold lifecycleEvent at h
  obtain ⟨side, -, h⟩ := bind_eq_ok.mp h
  split at h
  · split at h
    · cases h
    · obtain ⟨_, _, h⟩ := bind_eq_ok.mp h
      cases h
  · split at h
    · rename_i hvenue
      split at h
      · obtain ⟨fillTsUs, _, h⟩ := bind_eq_ok.mp h
        cases h
        exact ⟨side, some fillTsUs, rfl, hvenue⟩
      · cases h
        exact ⟨side, none, rfl, hvenue⟩
    · cases h

theorem not_isMargin {venue : String} (h : isFutures venue) : ¬isMargin venue := by
  intro hmargin
  obtain ⟨a, ha⟩ := List.isSuffixOf_iff_suffix.mp h
  obtain ⟨b, hb⟩ := List.isSuffixOf_iff_suffix.mp hmargin
  have hlast := congrArg List.getLast? (ha.trans hb.symm)
  rw [List.getLast?_append, List.getLast?_append] at hlast
  replace hlast : some 's' = some 'n' := hlast
  cases hlast

end CryptoNav.Sync
