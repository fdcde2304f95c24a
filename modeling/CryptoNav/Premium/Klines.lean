import CryptoNav.Lib.Decimal
import CryptoNav.Lib.Runs
import CryptoNav.Lib.Sorting

/-!
# Premium-index candles

The one-minute candles of the two exchanges as they come over the wire and as they are stored.
Binance answers in ascending order and is taken at its word; Bybit answers the newest first, and the
rows are sorted and freed of repeated minutes (`Bybit.parseResponse_ascending`).

Rates are `f64`, since they are compared with each other as such before a candle is stored: one
whose opening or closing rate is not within its range is refused, with its symbol and its time
in the message. The requests are in `Coverage`. A candle that is not complete yet is told by its
time and by nothing else in it.
-/

set_option autoImplicit false

namespace CryptoNav.Premium

open CryptoNav.Lib

def intervalMs : ℤ := 60000

def minuteOpen (timestampMs : ℤ) : ℤ := timestampMs / intervalMs * intervalMs

def latestCompleteOpenMs (nowMs : ℤ) : ℤ := minuteOpen nowMs - intervalMs

/-- The opening of a minute. -/
def IsMinute (t : ℤ) : Prop := t = minuteOpen t

instance : DecidablePred IsMinute := fun t => inferInstanceAs (Decidable (t = minuteOpen t))

theorem isMinute_iff {t : ℤ} : IsMinute t ↔ t % intervalMs = 0 := by
  unfold IsMinute minuteOpen intervalMs
  omega

theorem isMinute_minuteOpen (t : ℤ) : IsMinute (minuteOpen t) := by
  rw [isMinute_iff]
  unfold minuteOpen intervalMs
  omega

theorem IsMinute.add {t : ℤ} (h : IsMinute t) (n : ℤ) : IsMinute (t + n * intervalMs) := by
  rw [isMinute_iff] at h ⊢
  unfold intervalMs at h ⊢
  omega

/-- `parse_rate`, under the name that the exchange has in its messages. -/
def parseRate (index symbol : String) (openTimeMs : ℤ) (field value : String) :
    Except String Float :=
  match parseFloat value.toList with
  | none => .error s!"parse {symbol} {index} {field} at {openTimeMs}: {value.quote}"
  | some parsed =>
    if parsed.isFinite then .ok parsed
    else .error s!"non-finite {symbol} {index} {field} at {openTimeMs}"

/-- The rates of a candle are within its range. -/
def rangeHolds (openRate highRate lowRate closeRate : Float) : Bool :=
  !(highRate < openRate || highRate < closeRate || lowRate > openRate || lowRate > closeRate)

/-- Parsing row by row keeps what parsing keeps of each row. -/
theorem mapM_map {α β ε κ : Type} {parse : α → Except ε β} {f : α → κ} {g : β → κ} {wire : List α}
    {rows : List β} (keep : ∀ a b, parse a = .ok b → g b = f a) (h : wire.mapM parse = .ok rows) :
    rows.map g = wire.map f := by
  induction wire generalizing rows with
  | nil =>
    cases h
    rfl
  | cons a wire ih =>
    rw [List.mapM_cons] at h
    obtain ⟨b, hb, h⟩ := bind_eq_ok.mp h
    obtain ⟨rest, hrest, h⟩ := bind_eq_ok.mp h
    cases h
    rw [List.map_cons, List.map_cons, keep a b hb, ih hrest]

/-! ## Binance -/

namespace Binance

/-- The fields of the wire tuple that are read. -/
structure BinanceKline where
  openTimeMs : ℤ
  openRate : String
  highRate : String
  lowRate : String
  closeRate : String
  closeTimeMs : ℤ
  sampleCount : ℤ

structure PremiumKline where
  symbol : String
  openTimeMs : ℤ
  closeTimeMs : ℤ
  openRate : Float
  highRate : Float
  lowRate : Float
  closeRate : Float
  sampleCount : ℤ

def parseKline (symbol : String) (row : BinanceKline) : Except String PremiumKline := do
  let openRate ← parseRate "premium-index" symbol row.openTimeMs "open" row.openRate
  let highRate ← parseRate "premium-index" symbol row.openTimeMs "high" row.highRate
  let lowRate ← parseRate "premium-index" symbol row.openTimeMs "low" row.lowRate
  let closeRate ← parseRate "premium-index" symbol row.openTimeMs "close" row.closeRate
  if ¬IsMinute row.openTimeMs ∨ row.closeTimeMs ≠ row.openTimeMs + intervalMs - 1 ∨
      row.sampleCount < 0 ∨ !rangeHolds openRate highRate lowRate closeRate then
    .error s!"invalid Binance premium-index candle for {symbol} at {row.openTimeMs}"
  else
    .ok { symbol := symbol.toUpper, openTimeMs := row.openTimeMs, closeTimeMs := row.closeTimeMs
          openRate, highRate, lowRate, closeRate, sampleCount := row.sampleCount }

/-- What `fetch_page` makes of a decoded answer. -/
def parseResponse (symbol : String) (wire : List BinanceKline) :
    Except String (List PremiumKline) :=
  wire.mapM (parseKline symbol)

theorem parseKline_openTimeMs {symbol : String} {row : BinanceKline} {kline : PremiumKline}
    (h : parseKline symbol row = .ok kline) : kline.openTimeMs = row.openTimeMs := by
  simp only [parseKline, bind_eq_ok] at h
  obtain ⟨_, -, _, -, _, -, _, -, h⟩ := h
  split at h
  · cases h
  · cases h
    rfl

theorem parseResponse_openTimes {symbol : String} {wire : List BinanceKline}
    {rows : List PremiumKline} (h : parseResponse symbol wire = .ok rows) :
    rows.map PremiumKline.openTimeMs = wire.map BinanceKline.openTimeMs :=
  mapM_map (fun _ _ => parseKline_openTimeMs) h

end Binance

/-! ## Bybit -/

namespace Bybit

structure BybitResult where
  symbol : String := ""
  category : String := ""
  list : List (List String) := []

structure BybitResponse where
  retCode : ℤ
  retMsg : String
  result : BybitResult

structure PremiumKline where
  symbol : String
  openTimeMs : ℤ
  closeTimeMs : ℤ
  openRate : Float
  highRate : Float
  lowRate : Float
  closeRate : Float

def parseKline (symbol : String) (row : List String) : Except String PremiumKline :=
  match row with
  | [openTime, open', high, low, close] =>
    match parseInt openTime.toList with
    | none => .error s!"parse {symbol} Bybit premium-index timestamp"
    | some openTimeMs => do
      let openRate ← parseRate "Bybit premium-index" symbol openTimeMs "open" open'
      let highRate ← parseRate "Bybit premium-index" symbol openTimeMs "high" high
      let lowRate ← parseRate "Bybit premium-index" symbol openTimeMs "low" low
      let closeRate ← parseRate "Bybit premium-index" symbol openTimeMs "close" close
      if ¬IsMinute openTimeMs ∨ !rangeHolds openRate highRate lowRate closeRate then
        .error s!"invalid Bybit premium-index candle for {symbol} at {openTimeMs}"
      else
        .ok { symbol := symbol.toUpper, openTimeMs, closeTimeMs := openTimeMs + intervalMs - 1
              openRate, highRate, lowRate, closeRate }
  | _ => .error s!"invalid Bybit premium-index row: {row}"

/-- `Vec::dedup_by_key` -/
def dedupByKey {α κ : Type*} [DecidableEq κ] (key : α → κ) (rows : List α) : List α :=
  rows.destutter (key · ≠ key ·)

def parseResponse (symbol : String) (wire : BybitResponse) : Except String (List PremiumKline) :=
  if wire.retCode ≠ 0 then
    .error s!"Bybit premium-index returned code {wire.retCode} for {symbol}: {wire.retMsg}"
  else if wire.result.category ≠ "linear" ∨ wire.result.symbol.toUpper ≠ symbol.toUpper then
    .error (s!"Bybit premium-index returned mismatched market for {symbol}: " ++
      s!"{wire.result.category}/{wire.result.symbol}")
  else do
    let rows ← wire.result.list.mapM (parseKline symbol)
    .ok (dedupByKey PremiumKline.openTimeMs (sortByKey PremiumKline.openTimeMs rows))

/-- The minute that a row of the answer names. -/
def wireOpenTime (row : List String) : Option ℤ := row.head?.bind fun text => parseInt text.toList

theorem parseKline_openTimeMs {symbol : String} {row : List String} {kline : PremiumKline}
    (h : parseKline symbol row = .ok kline) : some kline.openTimeMs = wireOpenTime row := by
  unfold parseKline at h
  split at h
  case h_2 => cases h
  case h_1 openTime _ _ _ _ =>
    cases htime : parseInt openTime.toList with
    | none =>
      rw [htime] at h
      cases h
    | some t =>
      simp only [htime, bind_eq_ok] at h
      obtain ⟨_, -, _, -, _, -, _, -, h⟩ := h
      split at h
      · cases h
      · cases h
        exact htime.symm

theorem map_dedupByKey {α κ : Type*} [DecidableEq κ] (key : α → κ) (rows : List α) :
    (dedupByKey key rows).map key = (rows.map key).destutter (· ≠ ·) :=
  List.map_destutter fun _ _ _ _ => Iff.rfl

/-- Sorted rows freed of neighbours with the same key ascend strictly. -/
theorem dedupByKey_ascending {α κ : Type*} [LinearOrder κ] {key : α → κ} {rows : List α}
    (h : rows.Pairwise fun a b => key a ≤ key b) :
    ((dedupByKey key rows).map key).Pairwise (· < ·) := by
  rw [map_dedupByKey]
  have hsorted : ((rows.map key).destutter (· ≠ ·)).Pairwise (· ≤ ·) :=
    (List.pairwise_map.mpr h).sublist (List.destutter_sublist _ _)
  have hchain := List.isChain_destutter (· ≠ ·) (rows.map key)
  rw [List.isChain_iff_getElem] at hchain
  refine List.isChain_iff_pairwise.mp (List.isChain_iff_getElem.mpr fun i hi => ?_)
  exact lt_of_le_of_ne (List.isChain_iff_getElem.mp hsorted.isChain i hi) (hchain i hi)

/-- However the answer is ordered, its minutes come out ascending, each once. -/
theorem parseResponse_ascending {symbol : String} {wire : BybitResponse} {rows : List PremiumKline}
    (h : parseResponse symbol wire = .ok rows) :
    (rows.map PremiumKline.openTimeMs).Pairwise (· < ·) ∧
      ∀ t, t ∈ rows.map PremiumKline.openTimeMs ↔ some t ∈ wire.result.list.map wireOpenTime := by
  unfold parseResponse at h
  split at h
  · cases h
  split at h
  · cases h
  obtain ⟨parsed, hparsed, h⟩ := bind_eq_ok.mp h
  cases h
  refine ⟨dedupByKey_ascending (sortByKey_pairwise _ _), fun t => ?_⟩
  have htimes := mapM_map (g := fun kline => some kline.openTimeMs)
    (fun _ _ => parseKline_openTimeMs) hparsed
  rw [map_dedupByKey, mem_destutter, ((sortByKey_perm _ _).map _).mem_iff, ← htimes]
  simp

end Bybit

end CryptoNav.Premium
