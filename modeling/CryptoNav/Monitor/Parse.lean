import CryptoNav.History.Watermark
import CryptoNav.Monitor.Redact

/-!
# Reading a log line

What `observe_trading_line` and `parse_log_event` make of a line, with every slice that they take of
it. Almost all slices begin where a search ended. The timestamp is sliced between two independent
searches, from the first `[` to the first `Z`: a line that has its first `Z` before its first `[`
stops the program, and no other line does (`line_returns_iff`).

How `chrono` reads a time and the standard library a float are parameters.

The formats of the lines are those of another program, so nothing is assumed about them: the
theorem is about every text. What the parsers remember from line to line, such as an order whose
rejection would be expected, is their state here as in the source.
-/

set_option autoImplicit false

namespace CryptoNav.Monitor

open CryptoNav.Lib
open CryptoNav.History (i64Min i64Max)
open CryptoNav.History.Raw (isWhitespace)

/-- What is missing ends a function early, and a bad slice ends the program. -/
abbrev Parse := OptionT (Routine Panic)

namespace Parse

variable {α β : Type}

def ofOption (x : Option α) : Parse α := OptionT.mk (pure x)

def ofSlice (x : Except Panic α) : Parse α := OptionT.lift (Routine.ofExcept x)

/-- What may be missing as a value. -/
def optional (x : Parse α) : Parse (Option α) := OptionT.lift x.run

/-- The program is not stopped. With enough turns the loops end, and no slice on the way panics. -/
def Returns (x : Parse α) : Prop := ∃ r, x.run.Gives (.ok r)

theorem returns_ofOption (x : Option α) : (ofOption x).Returns := ⟨x, Routine.gives_pure.mpr rfl⟩

theorem returns_pure (a : α) : (pure a : Parse α).Returns := ⟨some a, Routine.gives_pure.mpr rfl⟩

theorem returns_failure : (failure : Parse α).Returns := ⟨none, Routine.gives_pure.mpr rfl⟩

theorem returns_optional {x : Parse α} (h : x.Returns) : (optional x).Returns := by
  obtain ⟨r, hr⟩ := h
  exact ⟨some r, (Routine.gives_bind_ok hr).mpr (Routine.gives_pure.mpr rfl)⟩

theorem returns_ofSlice {a : α} {x : Except Panic α} (h : x = .ok a) : (ofSlice x).Returns := by
  rw [h]
  exact ⟨some a, Routine.gives_pure.mpr rfl⟩

theorem returns_bind {x : Parse α} {f : α → Parse β} (hx : x.Returns) (hf : ∀ a, (f a).Returns) :
    (x >>= f).Returns := by
  obtain ⟨r, hr⟩ := hx
  cases r with
  | none => exact ⟨none, (Routine.gives_bind_ok hr).mpr (Routine.gives_pure.mpr rfl)⟩
  | some a =>
    obtain ⟨r', hr'⟩ := hf a
    exact ⟨r', (Routine.gives_bind_ok hr).mpr hr'⟩

theorem returns_ofOption_bind {x : Option α} {f : α → Parse β} (h : ∀ a, x = some a → (f a).Returns) :
    (ofOption x >>= f).Returns := by
  cases x with
  | none => exact ⟨none, Routine.gives_pure.mpr rfl⟩
  | some a => exact h a rfl

theorem returns_ofSlice_bind {x : Except Panic α} {a : α} (hx : x = .ok a) {f : α → Parse β}
    (h : (f a).Returns) : (ofSlice x >>= f).Returns := by
  rw [hx]
  exact h

theorem Returns.ends {x : Parse α} (h : x.Returns) : x.run.Ends := by
  obtain ⟨r, hr⟩ := h
  exact ⟨_, hr⟩

theorem ends_bind {x : Parse α} {f : α → Parse β} (hx : x.Returns) (hf : ∀ a, (f a).run.Ends) :
    (x >>= f).run.Ends := by
  obtain ⟨r, hr⟩ := hx
  cases r with
  | none => exact ⟨_, (Routine.gives_bind_ok hr).mpr (Routine.gives_pure.mpr rfl)⟩
  | some a =>
    obtain ⟨r', hr'⟩ := hf a
    exact ⟨r', (Routine.gives_bind_ok hr).mpr hr'⟩

theorem ends_ite {p : Prop} [Decidable p] {x y : Parse α} (hx : x.run.Ends) (hy : y.run.Ends) :
    (if p then x else y).run.Ends := by
  split
  · exact hx
  · exact hy

/-- The program is stopped where a part of it is. -/
theorem not_returns_bind {x : Parse α} {e : Panic} (h : x.run.Gives (.error e)) (f : α → Parse β) :
    ¬(x >>= f).Returns := by
  rintro ⟨r, hr⟩
  cases (Routine.gives_bind_error h).mp hr

theorem gives_ofSlice_bind {x : Except Panic α} {e : Panic} (hx : x = .error e) (f : α → Parse β) :
    (ofSlice x >>= f).run.Gives (.error e) := by
  rw [hx]
  exact Routine.gives_ofExcept.mpr rfl

theorem returns_orElse {x y : Parse α} (hx : x.Returns) (hy : y.Returns) : (x <|> y).Returns := by
  obtain ⟨r, hr⟩ := hx
  cases r with
  | none =>
    obtain ⟨r', hr'⟩ := hy
    exact ⟨r', (Routine.gives_bind_ok hr).mpr hr'⟩
  | some a => exact ⟨some a, (Routine.gives_bind_ok hr).mpr (Routine.gives_pure.mpr rfl)⟩

theorem returns_ite {p : Prop} [Decidable p] {x y : Parse α} (hx : x.Returns) (hy : y.Returns) :
    (if p then x else y).Returns := by
  split
  · exact hx
  · exact hy

end Parse

/-- What the program takes from `chrono` and the standard library. -/
structure Readers where
  rfc3339Millis : List Char → Option ℤ
  float : List Char → Option Float

def parseLogTimestamp (readers : Readers) (line : List Char) : Parse ℤ := do
  let timestampEnd ← Parse.ofOption (findChar (· = 'Z') line)
  let bracket ← Parse.ofOption (findChar (· = '[') line)
  let text ← Parse.ofSlice (slice (bracket + 1) (timestampEnd + 1) line)
  Parse.ofOption (readers.rfc3339Millis text)

def endsField (c : Char) : Bool := isWhitespace c || [',', ')', ']', '}'].contains c

def fieldToken (value marker : List Char) : Parse (List Char) := do
  let found ← Parse.ofOption (find marker value)
  let tail ← Parse.ofSlice (sliceFrom (found + byteLen marker) value)
  Parse.ofSlice (sliceTo ((findChar endsField tail).getD (byteLen tail)) tail)

/-- The value of decimal digits, `none` without one. -/
def parseDigits (digits : List Char) : Option ℤ :=
  if digits = [] then none
  else some (digits.foldl (fun n c => 10 * n + (c.toNat - '0'.toNat : ℕ)) 0)

def numericField (value marker : List Char) : Parse ℤ := do
  let token ← fieldToken value marker
  let negative := token.head? = some '-'
  let digits := (if negative then token.drop 1 else token).takeWhile Char.isDigit
  let magnitude ← Parse.ofOption (parseDigits digits)
  let number := if negative then -magnitude else magnitude
  if i64Min ≤ number ∧ number ≤ i64Max then pure number else failure

structure OrderContext where
  atMs : ℤ
  clientOrderId : List Char
  symbol : List Char
  venue : List Char
  side : List Char
  qty : Option Float
  price : Option Float

/-- `str::split_whitespace` -/
def splitWhitespace (text : List Char) : List (List Char) :=
  (text.splitOnP isWhitespace).filter (· ≠ [])

def parseOrderContext (readers : Readers) (line : List Char) (atMs : ℤ) : Parse OrderContext :=
  if !contains "订单已创建".toList line && !contains "OrderSlowTrace".toList line then failure
  else do
    let clientOrderId ← fieldToken line "client_order_id=".toList
    let symbolStart ← Parse.ofOption (find "symbol=".toList line)
    let symbolTail ← Parse.ofSlice (sliceFrom (symbolStart + byteLen "symbol=".toList) line)
    let symbolParts := splitWhitespace symbolTail
    let symbol ← Parse.ofOption symbolParts[0]?
    let venue ← fieldToken line "venue=".toList <|> Parse.ofOption symbolParts[1]?
    let side ← fieldToken line "side=".toList
    let qty ← Parse.optional (fieldToken line "qty=".toList)
    let price ← Parse.optional (fieldToken line "price=".toList)
    return {
      atMs, clientOrderId, symbol, venue, side
      qty := qty.bind readers.float
      price := price.bind readers.float }

structure TradingBlockFailure where
  atMs : ℤ
  clientOrderId : List Char
  httpStatus : Option ℕ
  errorCode : Option ℤ
  errorLabel : String
  errorMessage : String

def parseTradingBlockFailure (line : List Char) (atMs : ℤ) : Parse TradingBlockFailure :=
  if !contains "RISK_CHECK_MARKET_FORBIDDEN".toList line && !contains "code=-100510".toList line &&
      !contains "Risk check prohibits market order".toList line then failure
  else do
    let clientOrderId ← fieldToken line "client_order_id=".toList
      <|> fieldToken line "cli_ord_id=".toList
    let httpStatus ← Parse.optional (numericField line "status=".toList)
    let errorCode ← Parse.optional (numericField line "code=".toList)
    return {
      atMs, clientOrderId
      httpStatus := (httpStatus.filter fun status => 0 ≤ status ∧ status < 65536).map Int.toNat
      errorCode
      errorLabel := "RISK_CHECK_MARKET_FORBIDDEN"
      errorMessage := "Risk check prohibits this trading market" }

/-! ## Expected rejections -/

/-- `f64::max`, which passes over a NaN. -/
def f64Max (x y : Float) : Float := if x.isNaN then y else if y.isNaN || y < x then x else y

def usdtValueAfter (readers : Readers) (line marker : List Char) : Option Float := do
  let (_, tail) ← splitOnce marker line
  let (value, _) ← splitOnce "USDT".toList tail
  readers.float (trimChars (((rsplitOnce '(' value).map (·.2)).getD value))

def isWhitelistedMaxPositionRejection (readers : Readers) (line : List Char)
    (whitelistUsd : List Float) : Bool :=
  if !contains "下单后持仓".toList line || !contains "超过阈值".toList line then false
  else
    match (usdtValueAfter readers line "超过阈值 ".toList).map Float.abs with
    | none => false
    | some threshold => whitelistUsd.any fun allowed =>
      let tolerance := f64Max allowed.abs 1.0 * 1e-6
      allowed.isFinite && decide (allowed > 0.0) && decide ((threshold - allowed).abs ≤ tolerance)

def isExpectedCancelRace (line : List Char) : Bool :=
  let cancelRequest := (contains "Cancel".toList line && contains "Order".toList line) ||
    contains "cancel_order".toList line
  let unknownOrder := contains "code=-2011".toList line || contains "code=Some(-2011)".toList line
  cancelRequest && unknownOrder

def isGenericHttpClassification (line : List Char) : Bool :=
  contains "trade_engine::dispatcher] http classify:".toList line

def isUnlockedAccountOpenBlock (line : List Char) : Parse Bool :=
  if contains "mkt_signal::pre_trade::account_open_block]".toList line &&
      contains "AccountOpenBlock:".toList line then do
    let state ← Parse.optional (fieldToken line "state=".toList)
    return decide (state = some "unlocked".toList)
  else pure false

def isExpectedBinancePositionLimitRejection (readers : Readers) (line : List Char) : Bool :=
  let directRejection := contains "Binance限仓检查失败:".toList line
  let summarizedRejection := contains "mkt_signal::pre_trade::log_throttle]".toList line &&
    contains "reason=binance position-limit failed:".toList line
  if !contains "Binance FR position-limit cap exceeded".toList line ||
      (!directRejection && !summarizedRejection) then false
  else
    let openNext := (usdtValueAfter readers line "open_next=".toList).map Float.abs
    let futuresNext := (usdtValueAfter readers line "futures_next=".toList).map Float.abs
    let cap := (usdtValueAfter readers line "cap=".toList).map Float.abs
    match openNext, futuresNext, cap with
    | some openNext, some futuresNext, some cap =>
      let largestLeg := f64Max openNext futuresNext
      decide (cap > 0.0) && decide (largestLeg > cap) && decide (largestLeg ≤ cap * 1.05) &&
        decide ((openNext - futuresNext).abs ≤ cap * 0.01)
    | _, _, _ => false

def isNumberPart (c : Char) : Bool := c.isDigit || ['.', '-', '+'].contains c

def numberAfter (readers : Readers) (line marker : List Char) : Parse Float := do
  let (_, after) ← Parse.ofOption (splitOnce marker line)
  let tail := after.dropWhile isWhitespace
  let number ← Parse.ofSlice
    (sliceTo ((findChar (fun c => !isNumberPart c) tail).getD (byteLen tail)) tail)
  Parse.ofOption (readers.float number)

def isExpectedLeverageRejection (readers : Readers) (line : List Char) : Parse Bool :=
  let relevant := contains "杠杆风控检查失败".toList line ||
    (contains "mkt_signal::pre_trade::log_throttle]".toList line &&
      contains "reason_class=leverage".toList line && contains "leverage risk failed:".toList line)
  if !relevant then pure false
  else do
    let actual ← Parse.optional (numberAfter readers line "杠杆率 ".toList)
    let limit ← Parse.optional (numberAfter readers line "超过限制 ".toList)
    match actual.map Float.abs, limit.map Float.abs with
    | some actual, some limit =>
      return decide (limit > 0.0) && decide (actual > limit) && decide (actual ≤ limit * 1.05)
    | _, _ => return false

def isExpectedPositionLimitRejection (readers : Readers) (line : List Char) : Bool :=
  let projected := ((usdtValueAfter readers line "下单后持仓=".toList).or
    (usdtValueAfter readers line "下单后持仓 ".toList)).map Float.abs
  let limit := (usdtValueAfter readers line "超过阈值 ".toList).map Float.abs
  match projected, limit with
  | some projected, some limit =>
    if limit ≤ 0.0 || projected ≤ limit then false
    else
      let projectedIsNearLimit := decide (projected ≤ limit * 1.05)
      let summarizedRejection := contains "mkt_signal::pre_trade::log_throttle]".toList line &&
        (contains "reason_class=max_position".toList line ||
          contains "reason=max position risk failed:".toList line)
      if (contains "mkt_signal::strategy::open_strategy_common]".toList line &&
          contains "仓位限制检查失败:".toList line) || summarizedRejection then
        projectedIsNearLimit
      else if !contains "mkt_signal::pre_trade::monitor_channel]".toList line then false
      else
        let current := (usdtValueAfter readers line "当前持仓=".toList).map Float.abs
        let order := (usdtValueAfter readers line "下单数量=".toList).map Float.abs
        match current, order with
        | some current, some order =>
          decide (current ≤ limit * 1.05) && decide (order ≤ limit * 0.05) && projectedIsNearLimit
        | _, _ => false
  | _, _ => false

/-- The rejections that `parse_log_event` passes over, asked for one after the other. -/
def isExpected (readers : Readers) (line : List Char) : Parse Bool :=
  if isExpectedPositionLimitRejection readers line ||
      isExpectedBinancePositionLimitRejection readers line then pure true
  else do
    let leverage ← isExpectedLeverageRejection readers line
    if leverage || isExpectedCancelRace line || isGenericHttpClassification line then pure true
    else isUnlockedAccountOpenBlock line

/-! ## Events -/

inductive AlertSeverity where
  | warning
  | error
  deriving DecidableEq

structure LogEvent where
  severity : AlertSeverity
  atMs : ℤ
  message : List Char
  fingerprint : List Char
  deriving DecidableEq

/-- A text with each run of digits as a `#`. -/
def fingerprintFrom (inDigits : Bool) : List Char → List Char
  | [] => []
  | c :: text =>
    if c.isDigit then
      if inDigits then fingerprintFrom true text else '#' :: fingerprintFrom true text
    else c :: fingerprintFrom false text

def fingerprint (value : List Char) : List Char := fingerprintFrom false value

def severityOf (line : List Char) : Option (AlertSeverity × List Char) :=
  if contains " ERROR ".toList line then some (.error, " ERROR ".toList)
  else if contains " WARN  ".toList line then some (.warning, " WARN  ".toList)
  else if contains " WARNING ".toList line then some (.warning, " WARNING ".toList)
  else none

def parseLogEvent (readers : Readers) (line : List Char) (nowMs windowMs : ℤ) : Parse LogEvent := do
  let (severity, marker) ← Parse.ofOption (severityOf line)
  let expected ← isExpected readers line
  if expected then failure
  else do
    let timestamp ← parseLogTimestamp readers line
    if nowMs - timestamp > windowMs ∨ timestamp - nowMs > 5 * 60 * 1000 then failure
    else do
      let markerIndex ← Parse.ofOption (find marker line)
      let text ← Parse.ofSlice (sliceFrom (markerIndex + byteLen marker) line)
      let message ← OptionT.lift (redactAndTruncate text)
      return { severity, atMs := timestamp, message, fingerprint := fingerprint message }

/-! ## Orders -/

def orderContextWindowMs : ℤ := 30 * 60 * 1000

/-- The fields of a `LogMonitor` that `observe_trading_line` writes. -/
structure TradingState where
  orders : String × List Char → Option OrderContext := fun _ => none
  tradingBlockFailures : String × List Char → Option TradingBlockFailure := fun _ => none

/-- An order that is known takes what the line says, but for what it leaves out. -/
def OrderContext.modify (existing order : OrderContext) : OrderContext :=
  { existing with
    atMs := max existing.atMs order.atMs
    symbol := order.symbol
    venue := order.venue
    side := order.side
    qty := order.qty.or existing.qty
    price := order.price.or existing.price }

namespace TradingState

def noteOrder (state : TradingState) (slug : String) (order : OrderContext) : TradingState :=
  let key := (slug, order.clientOrderId)
  let entry := ((state.orders key).map (·.modify order)).getD order
  { state with orders := Function.update state.orders key (some entry) }

def noteFailure (state : TradingState) (slug : String) (failure : TradingBlockFailure) :
    TradingState :=
  { state with
    tradingBlockFailures :=
      Function.update state.tradingBlockFailures (slug, failure.clientOrderId) (some failure) }

/-- What a line within the times adds. -/
def observe (readers : Readers) (state : TradingState) (slug : String) (line : List Char)
    (atMs nowMs windowMs : ℤ) : Parse TradingState := do
  let order ← Parse.optional (parseOrderContext readers line atMs)
  let state := (order.map (state.noteOrder slug)).getD state
  if nowMs - atMs ≤ windowMs then do
    let failure ← Parse.optional (parseTradingBlockFailure line atMs)
    return (failure.map (state.noteFailure slug)).getD state
  else pure state

/-- What is too old is forgotten. -/
def prune (state : TradingState) (nowMs windowMs : ℤ) : TradingState where
  orders key := (state.orders key).filter fun order => nowMs - order.atMs ≤ orderContextWindowMs
  tradingBlockFailures key :=
    (state.tradingBlockFailures key).filter fun failure => nowMs - failure.atMs ≤ windowMs

end TradingState

/-- Without a result the state stays what it is. -/
def observeTradingLine (readers : Readers) (state : TradingState) (slug : String)
    (line : List Char) (nowMs windowMs : ℤ) : Parse TradingState := do
  let atMs ← parseLogTimestamp readers line
  if nowMs - atMs > orderContextWindowMs ∨ atMs - nowMs > 5 * 60 * 1000 then failure
  else state.observe readers slug line atMs nowMs windowMs

/-! ## Slices that are taken after a search -/

/-- A text is taken up to the first character of a kind. -/
theorem returns_sliceTo (p : Char → Bool) (text : List Char) :
    (Parse.ofSlice (sliceTo ((findChar p text).getD (byteLen text)) text)).Returns := by
  obtain ⟨stretch, rest, rfl, hstretch, hrest⟩ := exists_stretch p text
  rw [stretch_getD hstretch hrest]
  exact Parse.returns_ofSlice (sliceTo_append stretch rest)

/-- What comes after a text that was found. -/
theorem returns_after {β : Type} {pattern text : List Char} {n : ℕ} (h : find pattern text = some n)
    {f : List Char → Parse β} (hf : ∀ after, (f after).Returns) :
    (Parse.ofSlice (sliceFrom (n + byteLen pattern) text) >>= f).Returns := by
  obtain ⟨before, after, hfound, rfl⟩ := find_eq_some h
  refine Parse.returns_ofSlice_bind (a := after) ?_ (hf after)
  rw [splitOnce_eq_some hfound, ← byteLen_append, ← List.append_assoc]
  exact sliceFrom_append _ _

theorem fieldToken_returns (value marker : List Char) : (fieldToken value marker).Returns :=
  Parse.returns_ofOption_bind fun _ hfound => returns_after hfound fun tail =>
    returns_sliceTo endsField tail

theorem numericField_returns (value marker : List Char) : (numericField value marker).Returns := by
  refine Parse.returns_bind (fieldToken_returns value marker) fun token => ?_
  refine Parse.returns_ofOption_bind fun magnitude _ => ?_
  exact Parse.returns_ite (Parse.returns_pure _) Parse.returns_failure

theorem numberAfter_returns (readers : Readers) (line marker : List Char) :
    (numberAfter readers line marker).Returns := by
  refine Parse.returns_ofOption_bind fun found _ => ?_
  exact Parse.returns_bind (returns_sliceTo _ _) fun number => Parse.returns_ofOption _

theorem parseOrderContext_returns (readers : Readers) (line : List Char) (atMs : ℤ) :
    (parseOrderContext readers line atMs).Returns := by
  refine Parse.returns_ite Parse.returns_failure ?_
  refine Parse.returns_bind (fieldToken_returns _ _) fun clientOrderId => ?_
  refine Parse.returns_ofOption_bind fun symbolStart hsymbol => ?_
  refine returns_after hsymbol fun symbolTail => ?_
  refine Parse.returns_bind (Parse.returns_ofOption _) fun symbol => ?_
  refine Parse.returns_bind
    (Parse.returns_orElse (fieldToken_returns _ _) (Parse.returns_ofOption _)) fun venue => ?_
  refine Parse.returns_bind (fieldToken_returns _ _) fun side => ?_
  refine Parse.returns_bind (Parse.returns_optional (fieldToken_returns _ _)) fun qty => ?_
  refine Parse.returns_bind (Parse.returns_optional (fieldToken_returns _ _)) fun price => ?_
  exact Parse.returns_pure _

theorem parseTradingBlockFailure_returns (line : List Char) (atMs : ℤ) :
    (parseTradingBlockFailure line atMs).Returns := by
  refine Parse.returns_ite Parse.returns_failure ?_
  refine Parse.returns_bind
    (Parse.returns_orElse (fieldToken_returns _ _) (fieldToken_returns _ _)) fun clientOrderId => ?_
  refine Parse.returns_bind (Parse.returns_optional (numericField_returns _ _)) fun httpStatus => ?_
  refine Parse.returns_bind (Parse.returns_optional (numericField_returns _ _)) fun errorCode => ?_
  exact Parse.returns_pure _

theorem isExpectedLeverageRejection_returns (readers : Readers) (line : List Char) :
    (isExpectedLeverageRejection readers line).Returns := by
  refine Parse.returns_ite (Parse.returns_pure _) ?_
  refine Parse.returns_bind (Parse.returns_optional (numberAfter_returns _ _ _)) fun actual => ?_
  refine Parse.returns_bind (Parse.returns_optional (numberAfter_returns _ _ _)) fun limit => ?_
  split
  · exact Parse.returns_pure _
  · exact Parse.returns_pure _

theorem isUnlockedAccountOpenBlock_returns (line : List Char) :
    (isUnlockedAccountOpenBlock line).Returns := by
  refine Parse.returns_ite ?_ (Parse.returns_pure _)
  refine Parse.returns_bind (Parse.returns_optional (fieldToken_returns _ _)) fun state => ?_
  exact Parse.returns_pure _

theorem isExpected_returns (readers : Readers) (line : List Char) :
    (isExpected readers line).Returns := by
  refine Parse.returns_ite (Parse.returns_pure _) ?_
  refine Parse.returns_bind (isExpectedLeverageRejection_returns _ _) fun leverage => ?_
  exact Parse.returns_ite (Parse.returns_pure _) (isUnlockedAccountOpenBlock_returns line)

theorem observe_returns (readers : Readers) (state : TradingState) (slug : String)
    (line : List Char) (atMs nowMs windowMs : ℤ) :
    (state.observe readers slug line atMs nowMs windowMs).Returns := by
  refine Parse.returns_bind (Parse.returns_optional (parseOrderContext_returns _ _ _)) fun order => ?_
  refine Parse.returns_ite ?_ (Parse.returns_pure _)
  refine Parse.returns_bind
    (Parse.returns_optional (parseTradingBlockFailure_returns _ _)) fun failure => ?_
  exact Parse.returns_pure _

/-! ## The timestamp -/

/-- The first `Z` comes before the first `[`. A line without one of the two is not such a line. -/
def ZoneFirst (line : List Char) : Prop :=
  ∃ before after, line = before ++ 'Z' :: after ∧ '[' ∉ before ∧ '[' ∈ after

theorem parseLogTimestamp_of_zoneFirst (readers : Readers) {line : List Char} (h : ZoneFirst line) :
    (parseLogTimestamp readers line).run.Gives (.error .slice) := by
  obtain ⟨before, after, rfl, hopen, hafter⟩ := h
  have hzone : 'Z' ∈ before ++ 'Z' :: after := List.mem_append_right _ List.mem_cons_self
  have hbracket : '[' ∈ before ++ 'Z' :: after :=
    List.mem_append_right _ (List.mem_cons_of_mem _ hafter)
  obtain ⟨zoned, _, hline, hzoned⟩ := List.eq_append_cons_of_mem hzone
  obtain ⟨opened, _, hline', hopened⟩ := List.eq_append_cons_of_mem hbracket
  -- The first `Z` is the given one, or before it.
  have hclosed : '[' ∉ zoned := by
    rcases split_trichotomy hline with ⟨rfl, -, -⟩ | ⟨m, rfl, -⟩ | ⟨m, rfl, -⟩
    · exact hopen
    · exact absurd (List.mem_append_right _ List.mem_cons_self) hzoned
    · exact fun hmem => hopen (List.mem_append_left _ hmem)
  have hlt : byteLen zoned + 1 < byteLen opened + 1 := by
    rcases split_trichotomy (hline.symm.trans hline') with ⟨-, hchar, -⟩ | ⟨m, rfl, -⟩ | ⟨m, rfl, -⟩
    · cases hchar
    · have hpos := Char.utf8Size_pos 'Z'
      rw [byteLen_append, byteLen_cons]
      omega
    · exact absurd (List.mem_append_right _ List.mem_cons_self) hclosed
  have hend : findChar (· = 'Z') (before ++ 'Z' :: after) = some (byteLen zoned) := by
    rw [hline, findChar_append (decide_eq_of_not_mem hzoned) (decide_eq_true rfl)]
  have hstart : findChar (· = '[') (before ++ 'Z' :: after) = some (byteLen opened) := by
    rw [hline', findChar_append (decide_eq_of_not_mem hopened) (decide_eq_true rfl)]
  rw [parseLogTimestamp, hend, hstart]
  exact Parse.gives_ofSlice_bind (slice_of_lt hlt _) _

theorem parseLogTimestamp_returns (readers : Readers) {line : List Char} (h : ¬ZoneFirst line) :
    (parseLogTimestamp readers line).Returns := by
  refine Parse.returns_ofOption_bind fun timestampEnd hend => ?_
  refine Parse.returns_ofOption_bind fun bracket hbracket => ?_
  obtain ⟨before, after, hline, hzone, rfl⟩ := findChar_eq_some hend
  obtain ⟨before', after', hline', hopen, rfl⟩ := findChar_eq_some hbracket
  rcases split_trichotomy (hline.symm.trans hline') with ⟨-, hchar, -⟩ | ⟨m, rfl, rfl⟩ | ⟨m, rfl, rfl⟩
  · cases hchar
  · refine absurd ⟨before, _, hline, ?_, ?_⟩ h
    · exact fun hmem => hopen (List.mem_append_left _ hmem)
    · exact List.mem_append_right _ List.mem_cons_self
  · have hslice : slice (byteLen before' + 1) (byteLen (before' ++ '[' :: m) + 1) line
        = .ok (m ++ ['Z']) := by
      have hone : '['.utf8Size = 1 ∧ 'Z'.utf8Size = 1 := by decide
      have hstart : byteLen before' + 1 = byteLen (before' ++ ['[']) := by
        rw [byteLen_append, byteLen_cons, byteLen_nil, hone.1]
      have hstop : byteLen (before' ++ '[' :: m) + 1
          = byteLen (before' ++ ['[']) + byteLen (m ++ ['Z']) := by
        simp only [byteLen_append, byteLen_cons, byteLen_nil, hone]
        omega
      have hsplit : line = (before' ++ ['[']) ++ ((m ++ ['Z']) ++ after) := by
        rw [hline]
        simp only [List.append_assoc, List.cons_append, List.nil_append]
      rw [hstart, hstop, hsplit]
      exact slice_append _ _ _
    exact Parse.returns_ofSlice_bind hslice (Parse.returns_ofOption _)

/-! ## A line -/

theorem parseLogEvent_returns (readers : Readers) {line : List Char} (nowMs windowMs : ℤ)
    (h : ¬ZoneFirst line) : (parseLogEvent readers line nowMs windowMs).Returns := by
  refine Parse.returns_ofOption_bind fun found _ => ?_
  refine Parse.returns_bind (isExpected_returns readers line) fun expected => ?_
  refine Parse.returns_ite Parse.returns_failure ?_
  refine Parse.returns_bind (parseLogTimestamp_returns readers h) fun timestamp => ?_
  refine Parse.returns_ite Parse.returns_failure ?_
  refine Parse.returns_ofOption_bind fun markerIndex hmarker => ?_
  refine returns_after hmarker fun text => ?_
  obtain ⟨message, hmessage⟩ := redactAndTruncate_gives text
  exact Parse.returns_bind
    ⟨some message, (Routine.gives_bind_ok hmessage).mpr (Routine.gives_pure.mpr rfl)⟩
    fun message => Parse.returns_pure _

/-- A line that stops the program stops it at once. -/
theorem observeTradingLine_ends (readers : Readers) (state : TradingState) (slug : String)
    (line : List Char) (nowMs windowMs : ℤ) :
    (observeTradingLine readers state slug line nowMs windowMs).run.Ends := by
  by_cases h : ZoneFirst line
  · exact ⟨_, (Routine.gives_bind_error (parseLogTimestamp_of_zoneFirst readers h)).mpr rfl⟩
  · refine Parse.ends_bind (parseLogTimestamp_returns readers h) fun atMs => ?_
    exact Parse.ends_ite Parse.returns_failure.ends (observe_returns _ _ _ _ _ _ _).ends

theorem parseLogEvent_ends (readers : Readers) (line : List Char) (nowMs windowMs : ℤ) :
    (parseLogEvent readers line nowMs windowMs).run.Ends := by
  by_cases h : ZoneFirst line
  · refine Parse.ends_bind (Parse.returns_ofOption _) fun found => ?_
    refine Parse.ends_bind (isExpected_returns readers line) fun expected => ?_
    refine Parse.ends_ite Parse.returns_failure.ends ?_
    exact ⟨_, (Routine.gives_bind_error (parseLogTimestamp_of_zoneFirst readers h)).mpr rfl⟩
  · exact (parseLogEvent_returns readers nowMs windowMs h).ends

/-- **A line stops the monitor** just when its first `Z` comes before its first `[`. The two
    searches do not know of each other, and a slice from the one to the other is then taken
    backwards; every other slice of a line is in order. -/
theorem line_returns_iff (readers : Readers) (state : TradingState) (slug : String)
    (line : List Char) (nowMs windowMs : ℤ) :
    (observeTradingLine readers state slug line nowMs windowMs).Returns ∧
      (parseLogEvent readers line nowMs windowMs).Returns ↔ ¬ZoneFirst line := by
  constructor
  · rintro ⟨hobserve, -⟩ hzone
    exact Parse.not_returns_bind (parseLogTimestamp_of_zoneFirst readers hzone) _ hobserve
  · intro h
    refine ⟨?_, parseLogEvent_returns readers nowMs windowMs h⟩
    refine Parse.returns_bind (parseLogTimestamp_returns readers h) fun atMs => ?_
    exact Parse.returns_ite Parse.returns_failure (observe_returns _ _ _ _ _ _ _)

/-- What `chrono` and the standard library read does not matter there. -/
def readNothing : Readers where
  rfc3339Millis := fun _ => none
  float := fun _ => none

def zookeeperLine : List Char := "connection to ZOOKEEPER lost [retry 1]".toList

/-- The program is stopped by a line without a timestamp that names a `Z` before its brackets. -/
theorem zookeeperLine_stops :
    ZoneFirst zookeeperLine ∧
      ¬(observeTradingLine readNothing {} "binance-intra-arb01" zookeeperLine 0 900000).Returns := by
  have hzone : ZoneFirst zookeeperLine :=
    ⟨"connection to ".toList, "OOKEEPER lost [retry 1]".toList, by decide, by decide, by decide⟩
  exact ⟨hzone, Parse.not_returns_bind (parseLogTimestamp_of_zoneFirst _ hzone) _⟩

end CryptoNav.Monitor
