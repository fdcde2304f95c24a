import CryptoNav.Lib.Binary64
import CryptoNav.Lib.Bytes
import CryptoNav.Lib.Decimal
import CryptoNav.Lib.Newest
import CryptoNav.Lib.Runs
import CryptoNav.Lib.Text
import CryptoNav.Lib.Utf8

/-!
# Mark prices

The cache of mark prices, filled once from the exchanges' REST answers, stamped with zero, and then
from frames that the market-data processes publish. A frame is a message type, a symbol behind its
length, a price and a time, padded to a fixed size (`parseMarkPrice_eq_some_iff`). An answer that
is taken quotes what its rows quote, whichever exchange it is from (`RestAnswer.quotes_eq`); one row
whose price is no number makes the whole answer an error. Whatever arrives in whatever order, a
price is that of the newest quote of its exchange and symbol (`price_eq_some_iff`).

An answer is taken here as `serde` leaves it, with its rows as texts; the requests, their addresses
and the JSON around the rows are left out, and so are the subscribers of the feeds: what a feed
delivers is a list of payloads. Upper case is a parameter, since the source asks Unicode for it; all
that is used is that it keeps the capitals and digits of ASCII.
-/

set_option autoImplicit false

namespace CryptoNav.Feeds

open CryptoNav.Lib

/-- `char::to_uppercase`, which may give several characters. -/
structure Uppercase where
  map : Char → List Char
  ascii : ∀ c, c.isUpper || c.isDigit → map c = [c]

/-- The upper case of the ASCII letters; any other character stays. -/
def asciiUpper : Uppercase where
  map c := [c.toUpper]
  ascii c h := by
    rcases toUpper_cases c with hc | ⟨⟨hlo, hhi⟩, -⟩
    · rw [hc]
    · -- A small letter is neither a capital nor a digit.
      simp only [Char.isUpper, Char.isDigit, Bool.or_eq_true, Bool.and_eq_true, decide_eq_true_eq,
        UInt32.le_iff_toNat_le, ge_iff_le] at h
      change _ ∧ c.toNat ≤ 90 ∨ _ ∧ c.toNat ≤ 57 at h
      omega

inductive MarkPriceExchange where
  | binance | bybit | gate | okx
  deriving DecidableEq, Repr

structure MarkPrice where
  price : Float
  exchangeTsMs : ℤ

def isSeparator (c : Char) : Bool := ['-', '_', '/'].contains c

/-- `is_ascii_uppercase` or `is_ascii_digit`. -/
def isSymbolChar (c : Char) : Bool := c.isUpper || c.isDigit

def normalizeSymbol (upper : Uppercase) (value : List Char) : Option (List Char) :=
  let symbol := (value.filter fun c => !isSeparator c).flatMap upper.map
  if symbol ≠ [] ∧ symbol.all isSymbolChar then some symbol else none

/-! ## The cache -/

structure MarkPriceCache where
  prices : MarkPriceExchange × List Char → Option MarkPrice

namespace MarkPriceCache

def empty : MarkPriceCache := ⟨fun _ => none⟩

def price (cache : MarkPriceCache) (upper : Uppercase) (exchange : MarkPriceExchange)
    (symbol : List Char) : Option Float := do
  let symbol ← normalizeSymbol upper symbol
  let entry ← cache.prices (exchange, symbol)
  pure entry.price

/-- Whether the update was stored, and the cache after it. -/
def update (cache : MarkPriceCache) (upper : Uppercase) (exchange : MarkPriceExchange)
    (symbol : List Char) (price : Float) (exchangeTsMs : ℤ) : Bool × MarkPriceCache :=
  match normalizeSymbol upper symbol with
  | none => (false, cache)
  | some symbol =>
    if !price.isFinite || price ≤ 0 || exchangeTsMs < 0 then (false, cache)
    else if (cache.prices (exchange, symbol)).any fun existing => exchangeTsMs < existing.exchangeTsMs
    then (false, cache)
    else (true, ⟨fun key =>
      if key = (exchange, symbol) then some { price, exchangeTsMs } else cache.prices key⟩)

/-- `store_bootstrap_result`: how many rows were stored, and the cache after them. -/
def storeBootstrapResult (cache : MarkPriceCache) (upper : Uppercase)
    (exchange : MarkPriceExchange) (result : Except String (List (List Char × Float))) :
    ℕ × MarkPriceCache :=
  match result with
  | .ok rows => rows.foldl (fun (stored, cache) (symbol, price) =>
      let (done, cache) := cache.update upper exchange symbol price 0
      (stored + done.toNat, cache)) (0, cache)
  | .error _ => (0, cache)

end MarkPriceCache

/-! ## REST answers -/

def parseRestRow (upper : Uppercase) (parsed : List (List Char × Float))
    (row : List Char × List Char) : Except String (List (List Char × Float)) :=
  match normalizeSymbol upper row.1 with
  | none => .ok parsed
  | some symbol =>
    match parseFloat row.2 with
    | none => .error (String.ofList ("invalid mark price for ".toList ++ symbol))
    | some price =>
      .ok (if price.isFinite ∧ 0 < price then parsed ++ [(symbol, price)] else parsed)

def parseRestRows (upper : Uppercase) (rows : List (List Char × List Char)) :
    Except String (List (List Char × Float)) := do
  let parsed ← rows.foldlM (parseRestRow upper) []
  if parsed = [] then .error "mark price response contains no usable rows" else pure parsed

structure BybitMarkPriceResponse where
  retCode : ℤ
  retMsg : String
  list : List (List Char × List Char)

def parseBybitMarkPrices (upper : Uppercase) (response : BybitMarkPriceResponse) :
    Except String (List (List Char × Float)) :=
  if response.retCode ≠ 0 then
    .error s!"Bybit linear tickers error {response.retCode}: {response.retMsg}"
  else parseRestRows upper response.list

structure OkxMarkPriceResponse where
  code : String
  msg : String
  data : List (List Char × List Char)

def stripSuffix (suffix text : List Char) : Option (List Char) :=
  if suffix.isSuffixOf text then some (text.take (text.length - suffix.length)) else none

/-- The perpetual contracts of the answer, without their suffix. -/
def OkxMarkPriceResponse.swaps (response : OkxMarkPriceResponse) : List (List Char × List Char) :=
  response.data.filterMap fun (instId, markPx) =>
    (stripSuffix "-SWAP".toList instId).map (·, markPx)

def okxMarkPrices (upper : Uppercase) (response : OkxMarkPriceResponse) :
    Except String (List (List Char × Float)) :=
  if response.code ≠ "0" then .error s!"OKX mark prices error {response.code}: {response.msg}"
  else parseRestRows upper response.swaps

/-- What the exchanges answer. Binance and Gate answer with the rows themselves, each with its
symbol (`name` with Gate) and its price; Bybit and OKX can say no. -/
inductive RestAnswer where
  | binance (rows : List (List Char × List Char))
  | bybit (response : BybitMarkPriceResponse)
  | gate (rows : List (List Char × List Char))
  | okx (response : OkxMarkPriceResponse)

namespace RestAnswer

def exchange : RestAnswer → MarkPriceExchange
  | .binance _ => .binance
  | .bybit _ => .bybit
  | .gate _ => .gate
  | .okx _ => .okx

/-- The rows that `parse_rest_rows` is given. -/
def rows : RestAnswer → List (List Char × List Char)
  | .binance rows => rows
  | .bybit response => response.list
  | .gate rows => rows
  | .okx response => response.swaps

/-- `fetch_binance_mark_prices`, `fetch_gate_mark_prices` and so on, from the answer on. -/
def parse (upper : Uppercase) : RestAnswer → Except String (List (List Char × Float))
  | .binance rows => parseRestRows upper rows
  | .bybit response => parseBybitMarkPrices upper response
  | .gate rows => parseRestRows upper rows
  | .okx response => okxMarkPrices upper response

theorem parse_ok {upper : Uppercase} {answer : RestAnswer} {parsed : List (List Char × Float)}
    (h : answer.parse upper = .ok parsed) : parseRestRows upper answer.rows = .ok parsed := by
  cases answer with
  | binance rows => exact h
  | gate rows => exact h
  | bybit response =>
    rw [parse, parseBybitMarkPrices] at h
    split at h
    · cases h
    · exact h
  | okx response =>
    rw [parse, okxMarkPrices] at h
    split at h
    · cases h
    · exact h

end RestAnswer

/-! ## Frames -/

def markPriceMessageType : ℕ := 1011

structure MarkPriceUpdate where
  symbol : List Char
  price : Float
  exchangeTsMs : ℤ

/-- `usize::checked_add` -/
def checkedAdd (a b : ℕ) : Option ℕ := if a + b < 2 ^ 64 then some (a + b) else none

def readU32 (payload : List UInt8) (offset : ℕ) : Option ℕ := readLe payload offset 4

def readI64 (payload : List UInt8) (offset : ℕ) : Option ℤ :=
  (readLe payload offset 8).map (ofTwos 8)

def readF64 (payload : List UInt8) (offset : ℕ) : Option Float :=
  (readLe payload offset 8).map fun bits => Float.ofBits (.ofNat bits)

def parseMarkPrice (upper : Uppercase) (payload : List UInt8) : Option MarkPriceUpdate := do
  guard (24 ≤ payload.length)
  guard ((← readU32 payload 0) = markPriceMessageType)
  let symbolLen ← readU32 payload 4
  let priceOffset ← checkedAdd 8 symbolLen
  let timestampOffset ← checkedAdd priceOffset 8
  guard ((← checkedAdd timestampOffset 8) ≤ payload.length)
  let symbol ← fromUtf8 (← slot payload 8 (priceOffset - 8))
  let symbol ← normalizeSymbol upper symbol
  let price ← readF64 payload priceOffset
  let exchangeTsMs ← readI64 payload timestampOffset
  if !price.isFinite || price ≤ 0 || exchangeTsMs ≤ 0 then none
  else some { symbol, price, exchangeTsMs }

/-- A frame as it is published, without its padding. -/
def markPriceFrame (name : List UInt8) (bits : ℕ) (exchangeTsMs : ℤ) : List UInt8 :=
  leBytes 4 markPriceMessageType ++ (leBytes 4 name.length ++ (name ++
    (leBytes 8 bits ++ leBytes 8 (twos 8 exchangeTsMs))))

theorem length_markPriceFrame (name : List UInt8) (bits : ℕ) (exchangeTsMs : ℤ) :
    (markPriceFrame name bits exchangeTsMs).length = name.length + 24 := by
  simp only [markPriceFrame, List.length_append, length_leBytes]
  omega

theorem checkedAdd_eq_some {a b c : ℕ} : checkedAdd a b = some c ↔ a + b < 2 ^ 64 ∧ a + b = c := by
  unfold checkedAdd
  split
  · rename_i h
    rw [Option.some_inj, and_iff_right h]
  · rename_i h
    exact ⟨fun hn => absurd hn (by simp), fun hn => absurd hn.1 h⟩

theorem normalizeSymbol_ne_nil {upper : Uppercase} {name symbol : List Char}
    (h : normalizeSymbol upper name = some symbol) : symbol ≠ [] ∧ symbol.all isSymbolChar := by
  simp only [normalizeSymbol] at h
  split at h
  · rename_i hsymbol
    cases h
    exact hsymbol
  · cases h

/-- What a frame has to hold to be taken for an update. Nothing is asked of the price and the time
    here; the cache looks at those. -/
structure Quoted (upper : Uppercase) (name : List Char) (bits : ℕ) (u : MarkPriceUpdate) : Prop where
  length : (encode name).length < 2 ^ 32
  symbol : normalizeSymbol upper name = some u.symbol
  word : bits < 2 ^ 64
  price : u.price = Float.ofBits (.ofNat bits)
  finite : u.price.isFinite
  positive : 0 < u.price
  time : 0 < u.exchangeTsMs
  timeRange : u.exchangeTsMs < 2 ^ 63

theorem isFinite_zero : (0 : Float).isFinite = true := rfl

/-- The guard of a price, and of a time. -/
theorem not_refused_iff {price : Float} {p : Prop} [Decidable p] :
    ¬(!price.isFinite || price ≤ 0 || p) = true ↔ price.isFinite ∧ 0 < price ∧ ¬p := by
  simp only [Bool.or_eq_true, Bool.not_eq_true', decide_eq_true_eq, not_or, Bool.not_eq_false,
    and_assoc]
  refine and_congr_right fun hfinite => and_congr_left fun _ => ⟨fun h => ?_, not_le_of_lt_float⟩
  exact lt_of_not_le_float (not_isNaN_of_isFinite hfinite) (not_isNaN_of_isFinite isFinite_zero) h

theorem frame_of_parseMarkPrice {upper : Uppercase} {payload : List UInt8} {u : MarkPriceUpdate}
    (h : parseMarkPrice upper payload = some u) : ∃ name bits padding,
      payload = markPriceFrame (encode name) bits u.exchangeTsMs ++ padding ∧
        Quoted upper name bits u := by
  unfold parseMarkPrice at h
  simp only [Option.bind_eq_bind, Option.bind_eq_some_iff, Option.guard_eq_some',
    checkedAdd_eq_some] at h
  obtain ⟨-, -, messageType, hType, -, rfl, length, hLength, _, ⟨-, rfl⟩, _, ⟨-, rfl⟩, _, ⟨-, rfl⟩,
    -, -, raw, hRaw, name, hName, symbol, hSymbol, price, hPrice, time, hTime, h⟩ := h
  obtain ⟨bits, hBits, rfl⟩ := Option.map_eq_some_iff.mp hPrice
  obtain ⟨word, hWord, rfl⟩ := Option.map_eq_some_iff.mp hTime
  rw [Nat.add_sub_cancel_left] at hRaw
  -- Each field is what the payload goes on with after the one before.
  obtain ⟨-, h0⟩ := drop_of_readLe hType
  obtain ⟨hlength, h4⟩ := drop_of_readLe hLength
  obtain ⟨hraw, h8⟩ := drop_of_slot hRaw
  obtain ⟨hbits, hprice⟩ := drop_of_readLe hBits
  obtain ⟨hword, htime⟩ := drop_of_readLe hWord
  split at h
  · cases h
  · rename_i hvalid
    cases h
    obtain ⟨hfinite, hpositive, hpos⟩ := not_refused_iff.mp hvalid
    have hencode : encode name = raw := fromUtf8_eq_some.mp hName
    refine ⟨name, bits, payload.drop (8 + length + 8 + 8), ?_, ?_⟩
    · rw [List.drop_zero] at h0
      rw [markPriceFrame, hencode, hraw, twos_ofTwos hword]
      simp only [List.append_assoc]
      rw [← htime, ← hprice, ← h8, ← h4]
      exact h0
    · have htop : ofTwos 8 word < 2 ^ 63 := by
        have := BitVec.toInt_lt (x := BitVec.ofNat 64 word)
        simpa [ofTwos] using this
      exact { length := by rw [hencode, hraw]; simpa using hlength
              symbol := hSymbol
              word := by simpa using hbits
              price := rfl
              finite := hfinite
              positive := hpositive
              time := not_le.mp hpos
              timeRange := htop }

theorem parseMarkPrice_of_frame {upper : Uppercase} {name : List Char} {bits : ℕ}
    {u : MarkPriceUpdate} (padding : List UInt8) (h : Quoted upper name bits u) :
    parseMarkPrice upper (markPriceFrame (encode name) bits u.exchangeTsMs ++ padding) = some u := by
  have hsize := length_markPriceFrame (encode name) bits u.exchangeTsMs
  have h0 : (markPriceFrame (encode name) bits u.exchangeTsMs ++ padding).drop 0 =
      leBytes 4 markPriceMessageType ++ (leBytes 4 (encode name).length ++ (encode name ++
        (leBytes 8 bits ++ (leBytes 8 (twos 8 u.exchangeTsMs) ++ padding)))) := by
    simp only [List.drop_zero, markPriceFrame, List.append_assoc]
  have hlength : (encode name).length + 24 ≤
      (markPriceFrame (encode name) bits u.exchangeTsMs ++ padding).length := by
    rw [List.length_append, hsize]
    omega
  generalize markPriceFrame (encode name) bits u.exchangeTsMs ++ padding = payload at h0 hlength
  have h4 := drop_add_of_drop h0
  have h8 := drop_add_of_drop h4
  have hp := drop_add_of_drop h8
  have ht := drop_add_of_drop hp
  simp only [length_leBytes, zero_add] at h4 h8 hp ht
  have hType : readU32 payload 0 = some markPriceMessageType :=
    readLe_of_drop (by omega) (by decide) h0
  have hLength : readU32 payload 4 = some (encode name).length :=
    readLe_of_drop (by omega) (by simpa using h.length) h4
  have hName : slot payload 8 (encode name).length = some (encode name) :=
    slot_of_drop (by omega) h8
  have hPrice : readF64 payload (8 + (encode name).length) = some u.price := by
    rw [readF64, readLe_of_drop (by omega) (by simpa using h.word) hp, Option.map_some, h.price]
  have hTime : readI64 payload (8 + (encode name).length + 8) = some u.exchangeTsMs := by
    have hlow : -(2 ^ (8 * 8 - 1) : ℤ) ≤ u.exchangeTsMs := le_trans (by norm_num) h.time.le
    rw [readI64, readLe_of_drop (by omega) (twos_lt 8 _) ht, Option.map_some,
      ofTwos_twos hlow h.timeRange (by decide)]
  have hshort := h.length
  unfold parseMarkPrice
  simp only [Option.bind_eq_bind, Option.bind_eq_some_iff, Option.guard_eq_some',
    checkedAdd_eq_some]
  refine ⟨(), by omega, _, hType, (), rfl, _, hLength, _, ⟨by omega, rfl⟩, _, ⟨by omega, rfl⟩, _,
    ⟨by omega, rfl⟩, (), by omega, _, by rwa [Nat.add_sub_cancel_left], _,
    fromUtf8_eq_some.mpr rfl, _, h.symbol, _, hPrice, _, hTime, ?_⟩
  rw [if_neg (not_refused_iff.mpr ⟨h.finite, h.positive, not_le.mpr h.time⟩)]

/-- **The frame format.** A payload is an update exactly if it starts with a frame of it: the bytes
behind the time do not count, and every symbol that normalizes can be sent. -/
theorem parseMarkPrice_eq_some_iff {upper : Uppercase} {payload : List UInt8}
    {u : MarkPriceUpdate} :
    parseMarkPrice upper payload = some u ↔ ∃ name bits padding,
      payload = markPriceFrame (encode name) bits u.exchangeTsMs ++ padding ∧
        Quoted upper name bits u := by
  constructor
  · exact frame_of_parseMarkPrice
  · rintro ⟨name, bits, padding, rfl, h⟩
    exact parseMarkPrice_of_frame padding h

/-! ## What arrives -/

/-- A REST answer of an exchange, or a payload of its feed. -/
inductive Arrival where
  | answer (exchange : MarkPriceExchange) (result : Except String (List (List Char × Float)))
  | frame (exchange : MarkPriceExchange) (payload : List UInt8)

def Arrival.exchange : Arrival → MarkPriceExchange
  | .answer exchange _ => exchange
  | .frame exchange _ => exchange

/-- One turn of `start` or of `drain`. -/
def MarkPriceCache.receive (upper : Uppercase) (cache : MarkPriceCache) : Arrival → MarkPriceCache
  | .answer exchange result => (cache.storeBootstrapResult upper exchange result).2
  | .frame exchange payload =>
    match parseMarkPrice upper payload with
    | some u => (cache.update upper exchange u.symbol u.price u.exchangeTsMs).2
    | none => cache

def afterArrivals (upper : Uppercase) (arrivals : List Arrival) : MarkPriceCache :=
  arrivals.foldl (MarkPriceCache.receive upper) .empty

/-- What a row of an answer quotes. -/
def rowQuote (upper : Uppercase) (exchange : MarkPriceExchange) (row : List Char × Float) :
    Option ((MarkPriceExchange × List Char) × MarkPrice) :=
  if row.2.isFinite ∧ 0 < row.2 then
    (normalizeSymbol upper row.1).map fun symbol => ((exchange, symbol), ⟨row.2, 0⟩)
  else none

/-- The quotes of an arrival, those of an answer stamped with zero. -/
def Arrival.quotes (upper : Uppercase) :
    Arrival → List ((MarkPriceExchange × List Char) × MarkPrice)
  | .answer exchange (.ok rows) => rows.filterMap (rowQuote upper exchange)
  | .answer _ (.error _) => []
  | .frame exchange payload =>
    ((parseMarkPrice upper payload).map fun u =>
      ((exchange, u.symbol), ⟨u.price, u.exchangeTsMs⟩)).toList

def quotesOf (upper : Uppercase) (exchange : MarkPriceExchange) (symbol : List Char)
    (arrivals : List Arrival) : List MarkPrice :=
  (arrivals.flatMap (Arrival.quotes upper)).filterMap fun quote =>
    if quote.1 = (exchange, symbol) then some quote.2 else none

theorem flatMap_upper (upper : Uppercase) {symbol : List Char} (h : symbol.all isSymbolChar) :
    symbol.flatMap upper.map = symbol := by
  induction symbol with
  | nil => rfl
  | cons c symbol ih =>
    obtain ⟨hc, hsymbol⟩ := List.all_cons.symm ▸ h |> Bool.and_eq_true_iff.mp
    rw [List.flatMap_cons, upper.ascii c hc, ih hsymbol, List.singleton_append]

theorem not_isSeparator {c : Char} (h : isSymbolChar c) : !isSeparator c := by
  by_contra hc
  simp only [isSeparator, Bool.not_eq_true', Bool.not_eq_false, List.contains_iff_mem,
    List.mem_cons, List.not_mem_nil, or_false] at hc
  rcases hc with rfl | rfl | rfl <;> exact absurd h (by decide)

/-- A normalized symbol is normal. -/
theorem normalizeSymbol_normal {upper : Uppercase} {name symbol : List Char}
    (h : normalizeSymbol upper name = some symbol) : normalizeSymbol upper symbol = some symbol := by
  obtain ⟨hne, hall⟩ := normalizeSymbol_ne_nil h
  have hfilter : symbol.filter (fun c => !isSeparator c) = symbol :=
    List.filter_eq_self.mpr fun c hc => not_isSeparator (List.all_eq_true.mp hall c hc)
  simp only [normalizeSymbol, hfilter, flatMap_upper upper hall, if_pos (And.intro hne hall)]

/-- What a row of an answer quotes, before its price is read. -/
def textQuote (upper : Uppercase) (exchange : MarkPriceExchange) (row : List Char × List Char) :
    Option ((MarkPriceExchange × List Char) × MarkPrice) :=
  (parseFloat row.2).bind fun price => rowQuote upper exchange (row.1, price)

theorem parseRestRow_quotes {upper : Uppercase} (exchange : MarkPriceExchange)
    {parsed parsed' : List (List Char × Float)} {row : List Char × List Char}
    (h : parseRestRow upper parsed row = .ok parsed') :
    parsed'.filterMap (rowQuote upper exchange) =
      parsed.filterMap (rowQuote upper exchange) ++ (textQuote upper exchange row).toList := by
  unfold parseRestRow at h
  split at h
  · rename_i hname
    cases h
    have hquote : textQuote upper exchange row = none := by simp [textQuote, rowQuote, hname]
    rw [hquote, Option.toList_none, List.append_nil]
  · rename_i symbol hname
    split at h
    · cases h
    · rename_i price hprice
      cases h
      split
      · rename_i husable
        have hnormal := normalizeSymbol_normal hname
        simp [textQuote, rowQuote, hprice, hname, hnormal, husable]
      · rename_i hunusable
        simp [textQuote, rowQuote, hprice, hunusable]

/-- The rows that are passed over quote nothing, and those that are kept quote the same under their
normalized symbols. -/
theorem parseRestRows_quotes {upper : Uppercase} (exchange : MarkPriceExchange)
    {rows : List (List Char × List Char)} {parsed : List (List Char × Float)}
    (h : parseRestRows upper rows = .ok parsed) :
    parsed.filterMap (rowQuote upper exchange) = rows.filterMap (textQuote upper exchange) := by
  have hrows : ∀ start, rows.foldlM (parseRestRow upper) start = .ok parsed →
      parsed.filterMap (rowQuote upper exchange) = start.filterMap (rowQuote upper exchange) ++
        rows.filterMap (textQuote upper exchange) := by
    clear h
    induction rows with
    | nil =>
      rintro start h
      cases h
      exact (List.append_nil _).symm
    | cons row rows ih =>
      intro start h
      rw [List.foldlM_cons] at h
      obtain ⟨next, hnext, h⟩ := bind_eq_ok.mp h
      rw [ih next h, parseRestRow_quotes exchange hnext, List.append_assoc]
      cases hquote : textQuote upper exchange row <;> simp [hquote]
  unfold parseRestRows at h
  obtain ⟨all, hall, h⟩ := bind_eq_ok.mp h
  split at h
  · cases h
  · cases h
    exact hrows [] hall

/-- **What an answer quotes** is what its rows quote, from whichever exchange it is. -/
theorem RestAnswer.quotes_eq {upper : Uppercase} {answer : RestAnswer}
    {parsed : List (List Char × Float)} (h : answer.parse upper = .ok parsed) :
    (Arrival.answer answer.exchange (answer.parse upper)).quotes upper =
      answer.rows.filterMap (textQuote upper answer.exchange) := by
  rw [h]
  exact parseRestRows_quotes answer.exchange (RestAnswer.parse_ok h)

/-- **What an update does**: a valid quote is posted under its symbol. -/
theorem update_of_valid {upper : Uppercase} (cache : MarkPriceCache) {exchange : MarkPriceExchange}
    {name symbol : List Char} {price : Float} {time : ℤ}
    (hname : normalizeSymbol upper name = some symbol) (hfinite : price.isFinite)
    (hpositive : 0 < price) (htime : 0 ≤ time) :
    (cache.update upper exchange name price time).2.prices =
      post MarkPrice.exchangeTsMs cache.prices (exchange, symbol) ⟨price, time⟩ := by
  have hvalid := not_refused_iff.mpr ⟨hfinite, hpositive, not_lt.mpr htime⟩
  simp only [MarkPriceCache.update, hname]
  rw [if_neg hvalid]
  funext key
  simp only [post, keepNewest]
  by_cases hkey : key = (exchange, symbol)
  · subst hkey
    split <;> simp
  · split <;> simp [hkey]

theorem update_of_refused {upper : Uppercase} (cache : MarkPriceCache)
    {exchange : MarkPriceExchange} {name : List Char} {price : Float} {time : ℤ}
    (h : normalizeSymbol upper name = none ∨ ¬(price.isFinite ∧ 0 < price)) :
    (cache.update upper exchange name price time).2 = cache := by
  unfold MarkPriceCache.update
  rcases h with hname | hprice
  · rw [hname]
  · split
    · rfl
    · rw [if_pos]
      by_contra hvalid
      obtain ⟨hfinite, hpositive, -⟩ := not_refused_iff.mp hvalid
      exact hprice ⟨hfinite, hpositive⟩

theorem storeBootstrapResult_ok (upper : Uppercase) (exchange : MarkPriceExchange)
    (rows : List (List Char × Float)) (cache : MarkPriceCache) :
    (cache.storeBootstrapResult upper exchange (.ok rows)).2.prices =
      (rows.filterMap (rowQuote upper exchange)).foldl
        (fun board quote => post MarkPrice.exchangeTsMs board quote.1 quote.2) cache.prices := by
  simp only [MarkPriceCache.storeBootstrapResult]
  generalize 0 = stored
  induction rows generalizing cache stored with
  | nil => rfl
  | cons row rows ih =>
    rw [List.foldl_cons, ih]
    cases hquote : rowQuote upper exchange row with
    | none =>
      rw [List.filterMap_cons_none hquote, update_of_refused]
      unfold rowQuote at hquote
      split at hquote
      · exact .inl (Option.map_eq_none_iff.mp hquote)
      · rename_i hprice
        exact .inr hprice
    | some quote =>
      rw [List.filterMap_cons_some hquote, List.foldl_cons]
      unfold rowQuote at hquote
      split at hquote
      · rename_i hprice
        obtain ⟨symbol, hsymbol, rfl⟩ := Option.map_eq_some_iff.mp hquote
        rw [update_of_valid cache hsymbol hprice.1 hprice.2 le_rfl]
      · cases hquote

/-- An arrival posts its quotes. -/
theorem receive_prices (upper : Uppercase) (cache : MarkPriceCache) (arrival : Arrival) :
    (cache.receive upper arrival).prices = (arrival.quotes upper).foldl
      (fun board quote => post MarkPrice.exchangeTsMs board quote.1 quote.2) cache.prices := by
  cases arrival with
  | answer exchange result =>
    cases result with
    | error message => rfl
    | ok rows => exact storeBootstrapResult_ok upper exchange rows cache
  | frame exchange payload =>
    simp only [MarkPriceCache.receive, Arrival.quotes]
    cases hparse : parseMarkPrice upper payload with
    | none => rfl
    | some u =>
      obtain ⟨name, bits, padding, -, h⟩ := frame_of_parseMarkPrice hparse
      exact update_of_valid cache (normalizeSymbol_normal h.symbol) h.finite h.positive h.time.le

theorem prices_afterArrivals (upper : Uppercase) (arrivals : List Arrival)
    (exchange : MarkPriceExchange) (symbol : List Char) :
    (afterArrivals upper arrivals).prices (exchange, symbol) =
      (quotesOf upper exchange symbol arrivals).foldl (keepNewest MarkPrice.exchangeTsMs) none := by
  have hrun : ∀ cache : MarkPriceCache, (arrivals.foldl (·.receive upper) cache).prices =
      (arrivals.flatMap (Arrival.quotes upper)).foldl
        (fun board quote => post MarkPrice.exchangeTsMs board quote.1 quote.2) cache.prices := by
    induction arrivals with
    | nil => exact fun _ => rfl
    | cons arrival arrivals ih =>
      intro cache
      rw [List.foldl_cons, ih, receive_prices, List.flatMap_cons, List.foldl_append]
  rw [afterArrivals, hrun, post_foldl]
  rfl

/-- **A price is that of the newest quote** of its exchange and symbol, whatever else arrived and in
whatever order; of quotes with one time, of the last. -/
theorem price_eq_some_iff (upper : Uppercase) (arrivals : List Arrival)
    (exchange : MarkPriceExchange) (name : List Char) (price : Float) :
    (afterArrivals upper arrivals).price upper exchange name = some price ↔
      ∃ symbol time, normalizeSymbol upper name = some symbol ∧
        Newest MarkPrice.exchangeTsMs (quotesOf upper exchange symbol arrivals) ⟨price, time⟩ := by
  simp only [MarkPriceCache.price, Option.bind_eq_bind, Option.bind_eq_some_iff,
    prices_afterArrivals, foldl_keepNewest_iff, Option.pure_def, Option.some_inj]
  constructor
  · rintro ⟨symbol, hname, entry, hentry, rfl⟩
    exact ⟨symbol, entry.exchangeTsMs, hname, hentry⟩
  · rintro ⟨symbol, time, hname, hentry⟩
    exact ⟨symbol, hname, _, hentry, rfl⟩

def btcSwaps : RestAnswer :=
  .okx ⟨"0", "", [("BTC-USDT-SWAP".toList, "104.5".toList), ("BTC-USD".toList, "7".toList)]⟩

/-- The answer of OKX, a frame of a later price behind its padding, and one that is too short. -/
def btcArrivals : List Arrival :=
  [.answer btcSwaps.exchange (btcSwaps.parse asciiUpper),
    .frame .okx (markPriceFrame (encode "btc-usdt".toList) 0x405A600000000000 1700000000000 ++
      [0, 0, 0]),
    .frame .okx [1, 2, 3]]

theorem price_of_btc :
    (afterArrivals asciiUpper btcArrivals).price asciiUpper .okx "btc/usdt".toList = some 105.5 :=
  (price_eq_some_iff asciiUpper btcArrivals .okx "btc/usdt".toList 105.5).mpr
    ⟨"BTCUSDT".toList, 1700000000000, by decide, [⟨104.5, 0⟩], [], rfl,
      by simp, by simp⟩

end CryptoNav.Feeds
