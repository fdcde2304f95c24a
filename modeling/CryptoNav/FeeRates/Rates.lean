import CryptoNav.Lib.Scientific
import CryptoNav.Exchange.Cursors

/-!
# Fee rates as the exchanges quote them

What each exchange answers is brought into one form, in which a positive rate is a cost and a
negative one a rebate. OKX quotes the other way round, so that its texts get their sign changed;
what the column of the rate holds is then the negative of what OKX quotes
(`normalizeOkx_stored`).

The answers are JSON values, whatever the server sends; which requests lead to them is in
`FeeRates.Sync`. A rate is kept as the text the exchange sent and becomes a number only in the
column of the table, so that the sign is changed on the text, with a minus put in front or taken
away. Zero is the case to be careful with: `invertRateSign` looks at the value of a text, and a
rate too small for an `f64` is one whose value it takes for zero.
-/

set_option autoImplicit false

namespace CryptoNav.FeeRates

open CryptoNav.Lib
open CryptoNav.Exchange (ExchangeError)
open CryptoNav.History.Raw (valueI64)

structure TradingFeeRate where
  exchange : String
  accountMode : String
  market : String
  /-- The symbol or family the exchange gives the rate for, otherwise `*`. -/
  instrument : String
  makerRate : String
  takerRate : String
  feeTier : Option String
  feeGroup : Option String
  effectiveAtMs : ℤ
  raw : Json

/-! ## Reading -/

def invalid (exchange message : String) : ExchangeError := .invalidResponse exchange message

def optionalString (value : Json) (key : String) : Option String :=
  match value.get key with
  | some (.string text) => if text = "" then none else some text
  | _ => none

def requiredString (exchange : String) (value : Json) (key : String) :
    Except ExchangeError String :=
  match optionalString value key with
  | some text => .ok text
  | none => .error (invalid exchange s!"fee response is missing {key}")

theorem requiredString_ok {exchange key text : String} {value : Json} :
    requiredString exchange value key = .ok text ↔ optionalString value key = some text := by
  unfold requiredString
  cases optionalString value key <;> simp

/-! ## The exchanges -/

def normalizeBinance (raw : Json) (accountMode : String) (fetchedAtMs : ℤ) :
    Except ExchangeError (List TradingFeeRate) := do
  let instrument ← requiredString "binance" raw "symbol"
  let makerRate ← requiredString "binance" raw "makerCommissionRate"
  let takerRate ← requiredString "binance" raw "takerCommissionRate"
  return [{ exchange := "binance", accountMode, market := "usdt_futures", instrument, makerRate,
            takerRate, feeTier := none, feeGroup := none, effectiveAtMs := fetchedAtMs, raw }]

def normalizeBinanceSpot (raw : Json) (accountMode : String) (fetchedAtMs : ℤ) :
    Except ExchangeError (List TradingFeeRate) :=
  match raw.get "standardCommission" with
  | none => .error (invalid "binance" "spot fee response is missing standardCommission")
  | some standard => do
    let instrument ← requiredString "binance" raw "symbol"
    let makerRate ← requiredString "binance" standard "maker"
    let takerRate ← requiredString "binance" standard "taker"
    return [{ exchange := "binance", accountMode, market := "spot", instrument, makerRate, takerRate,
              feeTier := some "standard_commission", feeGroup := none,
              effectiveAtMs := fetchedAtMs, raw }]

def normalizeGate (raw : Json) (market instrument : String) (fetchedAtMs : ℤ) :
    Except ExchangeError (List TradingFeeRate) := do
  let fee := (raw.get instrument).getD raw
  let makerRate ← requiredString "gate" fee "maker_fee"
  let takerRate ← requiredString "gate" fee "taker_fee"
  return [{ exchange := "gate", accountMode := "unified", market, instrument, makerRate, takerRate,
            feeTier := none, feeGroup := none, effectiveAtMs := fetchedAtMs, raw }]

def bitgetRate (market : String) (fetchedAtMs : ℤ) (raw : Json) :
    Except ExchangeError TradingFeeRate := do
  let instrument ← requiredString "bitget" raw "symbol"
  let makerRate ← requiredString "bitget" raw "makerFeeRate"
  let takerRate ← requiredString "bitget" raw "takerFeeRate"
  return { exchange := "bitget", accountMode := "unified", market, instrument, makerRate, takerRate,
           feeTier := none, feeGroup := none, effectiveAtMs := fetchedAtMs, raw }

def normalizeBitget (rawRows : List Json) (market : String) (fetchedAtMs : ℤ) :
    Except ExchangeError (List TradingFeeRate) :=
  rawRows.mapM (bitgetRate market fetchedAtMs)

def bybitRate (market : String) (instrument : Option String) (fetchedAtMs : ℤ) (raw : Json) :
    Except ExchangeError TradingFeeRate := do
  let rowInstrument := (((optionalString raw "symbol").or (optionalString raw "baseCoin")).or
    instrument).getD "*"
  let makerRate ← requiredString "bybit" raw "makerFeeRate"
  let takerRate ← requiredString "bybit" raw "takerFeeRate"
  return { exchange := "bybit", accountMode := "unified", market, instrument := rowInstrument,
           makerRate, takerRate, feeTier := none, feeGroup := none, effectiveAtMs := fetchedAtMs, raw }

def normalizeBybit (rawRows : List Json) (market : String) (instrument : Option String)
    (fetchedAtMs : ℤ) : Except ExchangeError (List TradingFeeRate) :=
  if rawRows.isEmpty then .error (invalid "bybit" "fee-rate response contains no fee rates")
  else rawRows.mapM (bybitRate market instrument fetchedAtMs)

/-! ## OKX -/

def invertRateSign (rate : String) : String :=
  match rate.toList with
  | '-' :: unsigned => .ofList unsigned
  | text => if (parseFloat text).any (· != 0) then .ofList ('-' :: text) else rate

/-- The pairs of fields a rate may stand under, the first complete one counting. -/
def okxKeyPairs (market : String) : List (String × String) :=
  if market = "spot" ∨ market = "margin" then [("maker", "taker")]
  else [("makerU", "takerU"), ("makerUSDC", "takerUSDC"), ("maker", "taker")]

def okxTopLevelRates (raw : Json) (market : String) : Except ExchangeError (String × String) :=
  match (okxKeyPairs market).findSome? fun (makerKey, takerKey) => do
      return (← optionalString raw makerKey, ← optionalString raw takerKey) with
  | some rates => .ok rates
  | none => .error (invalid "okx" "trade-fee response has no complete maker/taker pair")

def okxGroups (raw : Json) : List Json :=
  match raw.get "feeGroup" with
  | some (.array groups) => groups
  | _ => []

/-- A rate of a row, from the texts that OKX quotes. -/
def okxRate (market : String) (instrument : Option String) (fetchedAtMs : ℤ) (raw : Json)
    (feeGroup : Option String) (maker taker : String) : TradingFeeRate :=
  { exchange := "okx", accountMode := "unified", market, instrument := instrument.getD "*"
    makerRate := invertRateSign maker, takerRate := invertRateSign taker
    feeTier := optionalString raw "level", feeGroup
    effectiveAtMs := (valueI64 raw "ts").getD fetchedAtMs, raw }

/-- One turn of the loop over the rows. -/
def okxRates (market : String) (instrument : Option String) (fetchedAtMs : ℤ) (raw : Json) :
    Except ExchangeError (List TradingFeeRate) :=
  match okxGroups raw with
  | [] => do
    let (maker, taker) ← okxTopLevelRates raw market
    return [okxRate market instrument fetchedAtMs raw none maker taker]
  | groups => groups.mapM fun group => do
    let maker ← requiredString "okx" group "maker"
    let taker ← requiredString "okx" group "taker"
    return okxRate market instrument fetchedAtMs raw (optionalString group "groupId") maker taker

def normalizeOkx (rawRows : List Json) (market : String) (instrument : Option String)
    (fetchedAtMs : ℤ) : Except ExchangeError (List TradingFeeRate) := do
  let normalized ← rawRows.mapM (okxRates market instrument fetchedAtMs)
  if normalized.flatten.isEmpty then
    .error (invalid "okx" "trade-fee response contains no fee rates")
  else .ok normalized.flatten

/-! ## What is stored of a rate -/

/-- `numeric` rounds a half away from zero. -/
def roundHalfAway (q : ℚ) : ℤ := if 0 ≤ q then ⌊q + 1 / 2⌋ else -⌊-q + 1 / 2⌋

theorem roundHalfAway_neg (q : ℚ) : roundHalfAway (-q) = -roundHalfAway q := by
  have hhalf : ⌊(0 : ℚ) + 1 / 2⌋ = 0 := by norm_num
  unfold roundHalfAway
  rcases lt_trichotomy q 0 with h | rfl | h
  · rw [if_pos (by linarith), if_neg h.not_ge, neg_neg]
  · rw [neg_zero, if_pos le_rfl, hhalf]
    rfl
  · rw [if_neg (by linarith), if_pos h.le, neg_neg]

theorem roundHalfAway_eq_zero {q : ℚ} (h0 : 0 ≤ q) (h : q < 1 / 2) : roundHalfAway q = 0 := by
  rw [roundHalfAway, if_pos h0, Int.floor_eq_zero_iff]
  constructor <;> linarith

/-- What a `numeric(38, 18)` column holds of a decimal. -/
def columnValue (value : ℚ) : Option ℚ :=
  let units := roundHalfAway (value * 10 ^ 18)
  if units.natAbs < 10 ^ 38 then some (units / 10 ^ 18) else none

def rateColumn (rate : String) : Option ℚ :=
  (parseDecimal rate.toList).bind fun decimal => columnValue decimal.value

theorem columnValue_neg (value : ℚ) : columnValue (-value) = (columnValue value).map (-·) := by
  simp only [columnValue, neg_mul, roundHalfAway_neg, Int.natAbs_neg]
  split
  · rw [Option.map_some, Int.cast_neg, neg_div]
  · rfl

/-- The digits and the exponent of a text without its sign. -/
def readUnsigned (rest : List Char) : Option (ℕ × ℤ) :=
  let whole := rest.takeWhile Char.isDigit
  let (fraction, rest) := readFraction (rest.dropWhile Char.isDigit)
  if whole ++ fraction = [] then none
  else (readExponent rest).map fun exponent =>
    (digitsValue (whole ++ fraction), exponent - fraction.length)

theorem parseDecimal_eq {text rest : List Char} {negative : Bool}
    (h : readSign text = (negative, rest)) :
    parseDecimal text = (readUnsigned rest).map fun read => ⟨negative, read.1, read.2⟩ := by
  simp only [parseDecimal, h, readUnsigned]
  split
  · rfl
  · rw [Option.map_map]
    rfl

/-- What is read begins with a digit or the point. -/
theorem head_of_readUnsigned {c : Char} {rest : List Char} {read : ℕ × ℤ}
    (h : readUnsigned (c :: rest) = some read) : c.isDigit = true ∨ c = '.' := by
  by_contra hc
  rw [not_or, Bool.not_eq_true] at hc
  have hfraction : readFraction (c :: rest) = ([], c :: rest) := by
    unfold readFraction
    split
    · rename_i heq
      exact absurd (List.cons.inj heq).1 hc.2
    · rfl
  simp [readUnsigned, hc.1, hfraction] at h

theorem readSign_of_readUnsigned {text : List Char} {read : ℕ × ℤ}
    (h : readUnsigned text = some read) : readSign text = (false, text) := by
  unfold readSign
  split
  · exact absurd (head_of_readUnsigned h) (by decide)
  · exact absurd (head_of_readUnsigned h) (by decide)
  · rfl

/-- A decimal is no word for an infinity or for no number. -/
theorem parseFloat_of_readUnsigned {text : List Char} {read : ℕ × ℤ}
    (h : readUnsigned text = some read) :
    parseFloat text = some (Decimal.mk false read.1 read.2).toFloat := by
  have hword : ∀ c rest, text.map Char.toLower = c :: rest → c ≠ 'i' ∧ c ≠ 'n' := by
    intro c rest hmap
    obtain ⟨head, tail, rfl, rfl, -⟩ := List.map_eq_cons_iff.mp hmap
    have hsame : head.toLower = head := by
      rw [Char.toLower, dif_neg]
      rcases head_of_readUnsigned h with hdigit | rfl
      · simp only [Char.isDigit, Bool.and_eq_true, decide_eq_true_eq] at hdigit
        intro hupper
        exact absurd (UInt32.le_trans hupper.1 hdigit.2) (by decide)
      · decide
    rw [hsame]
    rcases head_of_readUnsigned h with hdigit | rfl
    · constructor
      · rintro rfl
        exact absurd hdigit (by decide)
      · rintro rfl
        exact absurd hdigit (by decide)
    · decide
  have hsign := readSign_of_readUnsigned h
  simp only [parseFloat, hsign]
  rw [if_neg, if_neg, parseDecimal_eq hsign, h]
  · rfl
  · exact fun hnan => (hword _ _ hnan).2 rfl
  · rintro (hinf | hinf) <;> exact (hword _ _ hinf).1 rfl

def unsignedValue (read : ℕ × ℤ) : ℚ := read.1 * 10 ^ read.2

theorem value_eq (negative : Bool) (read : ℕ × ℤ) :
    (Decimal.mk negative read.1 read.2).value =
      if negative then -unsignedValue read else unsignedValue read := by
  cases negative <;> simp [Decimal.value, unsignedValue]

theorem unsignedValue_nonneg (read : ℕ × ℤ) : 0 ≤ unsignedValue read := by
  unfold unsignedValue
  positivity

theorem rateColumn_eq {rate : String} {rest : List Char} {negative : Bool}
    (h : readSign rate.toList = (negative, rest)) :
    rateColumn rate = (readUnsigned rest).bind fun read =>
      columnValue (if negative then -unsignedValue read else unsignedValue read) := by
  rw [rateColumn, parseDecimal_eq h, Option.bind_map]
  congr 1
  funext read
  rw [Function.comp_apply, value_eq]

/-- A rate as an exchange may quote it: one that the column takes, without a plus sign. A plus sign
    would stay in front of the minus that is put there. -/
structure Quoted (rate : String) : Prop where
  stored : (rateColumn rate).isSome
  noPlus : rate.toList.head? ≠ some '+'

theorem map_neg_neg (value : Option ℚ) : (value.map (-·)).map (-·) = value := by
  cases value <;> simp

/-- A decimal that reads as the number zero is stored as zero. -/
theorem columnValue_of_reads_zero {read : ℕ × ℤ}
    (h : ((Decimal.mk false read.1 read.2).toFloat == 0) = true) :
    columnValue (unsignedValue read) = some 0 := by
  have hsmall := value_lt_of_toFloat_eq_zero rfl h
  rw [value_eq, if_neg Bool.false_ne_true] at hsmall
  have hleast : least * 10 ^ 18 ≤ 1 / 2 := by
    have hbound : least ≤ 2 ^ (-61 : ℤ) := by
      unfold least
      gcongr
      · exact one_le_two
      · norm_num
    calc least * 10 ^ 18 ≤ 2 ^ (-61 : ℤ) * 10 ^ 18 := by gcongr
      _ ≤ 1 / 2 := by norm_num
  have hunits : roundHalfAway (unsignedValue read * 10 ^ 18) = 0 := by
    apply roundHalfAway_eq_zero
    · exact mul_nonneg (unsignedValue_nonneg read) (by positivity)
    · exact (mul_lt_mul_of_pos_right hsmall (by positivity)).trans_le hleast
  rw [columnValue, hunits]
  simp

/-- **The sign of a stored rate changes**, whatever its text looks like. -/
theorem rateColumn_invertRateSign {rate : String} (h : Quoted rate) :
    rateColumn (invertRateSign rate) = (rateColumn rate).map (-·) := by
  obtain ⟨hstored, hplus⟩ := h
  by_cases hminus : ∃ unsigned, rate.toList = '-' :: unsigned
  · obtain ⟨unsigned, htext⟩ := hminus
    have hcolumn := @rateColumn_eq rate unsigned true (by rw [htext]; rfl)
    rw [hcolumn] at hstored
    obtain ⟨value, hvalue⟩ := Option.isSome_iff_exists.mp hstored
    obtain ⟨read, hread, -⟩ := Option.bind_eq_some_iff.mp hvalue
    have hinvert : invertRateSign rate = .ofList unsigned := by
      rw [invertRateSign, htext]
      rfl
    have hsign : readSign (String.ofList unsigned).toList = (false, unsigned) := by
      rw [String.toList_ofList]
      exact readSign_of_readUnsigned hread
    rw [hinvert, hcolumn, rateColumn_eq hsign, hread, Option.bind_some, Option.bind_some,
      if_pos rfl, if_neg Bool.false_ne_true, columnValue_neg, map_neg_neg]
  · have hsign : readSign rate.toList = (false, rate.toList) := by
      unfold readSign
      split
      · rename_i rest heq
        exact absurd ⟨rest, heq⟩ hminus
      · rename_i heq
        rw [heq] at hplus
        exact absurd rfl hplus
      · rfl
    have hcolumn := rateColumn_eq hsign
    rw [hcolumn] at hstored
    obtain ⟨value, hvalue⟩ := Option.isSome_iff_exists.mp hstored
    obtain ⟨read, hread, -⟩ := Option.bind_eq_some_iff.mp hvalue
    have hinvert : invertRateSign rate =
        if (parseFloat rate.toList).any (· != 0) then .ofList ('-' :: rate.toList) else rate := by
      unfold invertRateSign
      split
      · rename_i rest heq
        exact absurd ⟨rest, heq⟩ hminus
      · rfl
    rw [hinvert, parseFloat_of_readUnsigned hread, Option.any_some]
    split
    · rw [@rateColumn_eq _ rate.toList true (by rw [String.toList_ofList]; rfl), hcolumn, hread, Option.bind_some, Option.bind_some,
        if_pos rfl, if_neg Bool.false_ne_true, columnValue_neg]
    · rename_i hzero
      have hreads : ((Decimal.mk false read.1 read.2).toFloat == 0) = true := by
        simpa [bne] using hzero
      rw [hcolumn, hread, Option.bind_some, if_neg Bool.false_ne_true,
        columnValue_of_reads_zero hreads, Option.map_some, neg_zero]

/-! ## What OKX quotes -/

structure OkxQuote where
  group : Option String
  maker : String
  taker : String

/-- The pairs of rates that a row quotes. -/
def okxQuotes (market : String) (raw : Json) : List OkxQuote :=
  match okxGroups raw with
  | [] =>
    match okxTopLevelRates raw market with
    | .ok (maker, taker) => [⟨none, maker, taker⟩]
    | .error _ => []
  | groups => groups.filterMap fun group => do
    return ⟨optionalString group "groupId", ← optionalString group "maker",
      ← optionalString group "taker"⟩

/-- Each pair of a row that is read gives one rate. -/
theorem okxRates_eq {market : String} {instrument : Option String} {fetchedAtMs : ℤ} {raw : Json}
    {rates : List TradingFeeRate} (h : okxRates market instrument fetchedAtMs raw = .ok rates) :
    rates = (okxQuotes market raw).map fun quote =>
      okxRate market instrument fetchedAtMs raw quote.group quote.maker quote.taker := by
  unfold okxRates at h
  unfold okxQuotes
  split at h
  case h_1 =>
    obtain ⟨⟨maker, taker⟩, hread, h⟩ := bind_eq_ok.mp h
    rw [hread, ← pure_eq_ok.mp h]
    rfl
  case h_2 hne =>
    clear hne
    generalize okxGroups raw = groups at h ⊢
    induction groups generalizing rates with
    | nil => exact (pure_eq_ok.mp h).symm
    | cons group groups ih =>
      rw [List.mapM_cons] at h
      obtain ⟨rate, hrate, h⟩ := bind_eq_ok.mp h
      obtain ⟨rest, hrest, h⟩ := bind_eq_ok.mp h
      obtain ⟨maker, hmaker, hrate⟩ := bind_eq_ok.mp hrate
      obtain ⟨taker, htaker, hrate⟩ := bind_eq_ok.mp hrate
      rw [requiredString_ok] at hmaker htaker
      rw [← pure_eq_ok.mp h, ← pure_eq_ok.mp hrate, ih hrest]
      simp [hmaker, htaker]

theorem normalizeOkx_eq {rawRows : List Json} {market : String} {instrument : Option String}
    {fetchedAtMs : ℤ} {rates : List TradingFeeRate}
    (h : normalizeOkx rawRows market instrument fetchedAtMs = .ok rates) :
    rates ≠ [] ∧ rates = rawRows.flatMap fun raw => (okxQuotes market raw).map fun quote =>
      okxRate market instrument fetchedAtMs raw quote.group quote.maker quote.taker := by
  obtain ⟨normalized, hrows, h⟩ := bind_eq_ok.mp h
  split at h
  · cases h
  · rename_i hne
    cases h
    refine ⟨fun hnil => hne (List.isEmpty_iff.mpr hnil), ?_⟩
    rw [eq_map_of_mapM (fun _ _ => okxRates_eq) hrows, List.flatMap_def]

/-- A rebate for makers and a cost for takers, as OKX quotes them. -/
def sampleAnswer : Json :=
  .object [("level", .string "VIP2"), ("ts", .string "1784623822499"),
    ("feeGroup", .array [.object [("groupId", .string "4"), ("maker", .string "0.00015"),
      ("taker", .string "-0.00036")]])]

def sampleQuote : OkxQuote := ⟨some "4", "0.00015", "-0.00036"⟩

def sampleRates : List TradingFeeRate :=
  [okxRate "swap" (some "BTC-USDT") 123 sampleAnswer (some "4") "0.00015" "-0.00036"]

theorem sample_quoted : Quoted "0.00015" ∧ Quoted "-0.00036" := by
  constructor <;> constructor <;> decide +kernel

end CryptoNav.FeeRates
