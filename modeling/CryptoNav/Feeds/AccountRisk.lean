import CryptoNav.Feeds.MarkPrices
import CryptoNav.Lib.Runs
import CryptoNav.Lib.Sorting
import Mathlib.Data.Prod.Lex

/-!
# Account risk

The risk figures that the account monitors publish, one service for each strategy. An event is a
header with type, scope and length, a body that repeats the type, and padding
(`decodeAccountRisk_eq_ok_some_iff`); an amount that is not available is no number, an infinite one
is an error. What a snapshot shows of a reading is a level for every margin ratio and the ratio
itself where there is a margin to maintain.

The layout is given by what the readers of the code look at: the offsets of the fields, a body
that is at least as long as the fields need, and a length in the header that fits into the
payload. What is behind the body is padding and is not looked at, so that the format is larger
than what any monitor writes, and two payloads may be one reading. Amounts are binary64 numbers
with their infinities, since the checks are about these; no arithmetic is done on them but one
division.
-/

set_option autoImplicit false

namespace CryptoNav.Feeds

open CryptoNav.Lib

def accountRiskEventType : ℕ := 4007
def accountEventHeaderBytes : ℕ := 12
def accountRiskLegacyBodyBytes : ℕ := 4 + 8 + 8 * 7
def accountRiskBodyBytes : ℕ := accountRiskLegacyBodyBytes + 8
def staleAfterMs : ℤ := 90000

/-- `f64::EPSILON` -/
def epsilon : Float := Float.ofScientific 2220446049250313 true 31

structure AccountRiskFeed where
  strategySlug : String
  exchange : String
  serviceName : String
  sortOrder : ℤ

namespace AccountRiskFeed

def new (strategySlug exchange : String) (sortOrder : ℤ) : Option AccountRiskFeed := do
  let serviceExchange ←
    if exchange ∈ ["binance", "gate", "bitget", "bybit"] then some exchange
    else if exchange = "okx" then some "okex" else none
  let serviceName := s!"{strategySlug}/account_pubs/{serviceExchange}_pm"
  pure { strategySlug, exchange, serviceName, sortOrder }

def rapidx (strategySlug exchange portfolioId : String) (sortOrder : ℤ) :
    Option AccountRiskFeed := do
  let serviceExchange ←
    if exchange = "binance" then some "binance"
    else if exchange = "okx" then some "okex" else none
  if portfolioId = "" ∨ 64 < portfolioId.utf8ByteSize ∨ ¬portfolioId.toList.all Char.isDigit then
    none
  else
    let serviceName := s!"{strategySlug}/account_pubs/rapidx_{serviceExchange}_{portfolioId}_pm"
    pure { strategySlug, exchange, serviceName, sortOrder }

end AccountRiskFeed

/-! ## Events -/

inductive AccountScope where
  | binanceUnified | binanceStandardSpot | binanceStandardUm | okxUnified | gateUnified
  | bitgetUnified | bybitUnified
  deriving DecidableEq, Repr

namespace AccountScope

def decode (value : ℕ) : Except String AccountScope :=
  match value with
  | 1 => .ok .binanceUnified
  | 2 => .ok .binanceStandardSpot
  | 3 => .ok .binanceStandardUm
  | 10 => .ok .okxUnified
  | 11 => .ok .gateUnified
  | 12 => .ok .bitgetUnified
  | 13 => .ok .bybitUnified
  | _ => .error s!"unsupported account risk scope: {value}"

def asStr : AccountScope → String
  | .binanceUnified => "binance_unified"
  | .binanceStandardSpot => "binance_std_spot"
  | .binanceStandardUm => "binance_std_um"
  | .okxUnified => "okx_unified"
  | .gateUnified => "gate_unified"
  | .bitgetUnified => "bitget_unified"
  | .bybitUnified => "bybit_unified"

end AccountScope

structure AccountRiskReading where
  sourceTsMs : ℤ
  scope : AccountScope
  adjustedEquityUsd : Float
  actualEquityUsd : Float
  maintenanceMarginUsd : Float
  initialMarginUsd : Float
  marginRatio : Float
  borrowedUsd : Float
  notionalUsd : Float
  receivedAtMs : ℤ

namespace Event

def read (data : List UInt8) (offset width : ℕ) : Except String ℕ :=
  match readLe data offset width with
  | some n => .ok n
  | none => .error s!"message truncated at byte {offset}"

def readU32 (data : List UInt8) (offset : ℕ) : Except String ℕ := read data offset 4

def readI64 (data : List UInt8) (offset : ℕ) : Except String ℤ :=
  (read data offset 8).map (ofTwos 8)

def readF64 (data : List UInt8) (offset : ℕ) : Except String Float :=
  (read data offset 8).map fun bits => Float.ofBits (.ofNat bits)

end Event

def readReading (scope : AccountScope) (body : List UInt8) : Except String AccountRiskReading := do
  pure { sourceTsMs := ← Event.readI64 body 4
         scope
         adjustedEquityUsd := ← Event.readF64 body 12
         actualEquityUsd := ← Event.readF64 body 20
         maintenanceMarginUsd := ← Event.readF64 body 28
         initialMarginUsd := ← Event.readF64 body 36
         marginRatio := ← Event.readF64 body 44
         borrowedUsd := ← Event.readF64 body 52
         notionalUsd := ← Event.readF64 body 60
         receivedAtMs := 0 }

namespace AccountRiskReading

def amounts (reading : AccountRiskReading) : List (String × Float) :=
  [("adjusted_equity_usd", reading.adjustedEquityUsd),
    ("actual_equity_usd", reading.actualEquityUsd),
    ("maintenance_margin_usd", reading.maintenanceMarginUsd),
    ("initial_margin_usd", reading.initialMarginUsd),
    ("borrowed_usd", reading.borrowedUsd),
    ("notional_usd", reading.notionalUsd)]

def zeroMarginInfinity (reading : AccountRiskReading) : Bool :=
  reading.maintenanceMarginUsd ≤ epsilon && reading.marginRatio == 1 / 0

/-- Unavailable amounts are no numbers; only infinities are corruption. -/
def check (reading : AccountRiskReading) : Except String AccountRiskReading :=
  if reading.sourceTsMs ≤ 0 then .error "account risk timestamp must be positive"
  else match reading.amounts.find? fun amount => !amount.2.isFinite && !amount.2.isNaN with
    | some (name, _) => .error s!"account risk {name} is not finite"
    | none =>
      if !reading.marginRatio.isFinite && !reading.zeroMarginInfinity then
        .error "account risk margin_ratio is not finite"
      else .ok reading

end AccountRiskReading

def decodeBody (scope : AccountScope) (body : List UInt8) : Except String AccountRiskReading := do
  let inner ← Event.readU32 body 0
  if inner ≠ accountRiskEventType then
    .error "account risk inner event type does not match wrapper"
  else (← readReading scope body).check

def decodeAccountRisk (data : List UInt8) : Except String (Option AccountRiskReading) :=
  if data.length < accountEventHeaderBytes then
    .error s!"account event too short: {data.length}"
  else do
    let eventType ← Event.readU32 data 0
    if eventType ≠ accountRiskEventType then pure none
    else
      let scope ← AccountScope.decode (← Event.readU32 data 4)
      let bodyLen ← Event.readU32 data 8
      if bodyLen ≠ accountRiskLegacyBodyBytes ∧ bodyLen ≠ accountRiskBodyBytes then
        let (legacy, full) := (accountRiskLegacyBodyBytes, accountRiskBodyBytes)
        .error s!"unsupported account risk body length: {bodyLen}, expected {legacy} or {full}"
      else
        let totalLen := accountEventHeaderBytes + bodyLen
        if data.length < totalLen then
          .error s!"truncated account risk event: {data.length} < {totalLen}"
        else
          let body := (data.drop accountEventHeaderBytes).take (totalLen - accountEventHeaderBytes)
          some <$> decodeBody scope body

/-! ## The format -/

/-- The body of an event; `appended` is what newer monitors put behind the amounts. -/
def accountRiskBody (sourceTsMs : ℤ) (words : List ℕ) (appended : List UInt8) : List UInt8 :=
  leBytes 4 accountRiskEventType ++
    (leBytes 8 (twos 8 sourceTsMs) ++ (words.flatMap (leBytes 8) ++ appended))

def accountRiskEvent (code : ℕ) (body : List UInt8) : List UInt8 :=
  leBytes 4 accountRiskEventType ++ (leBytes 4 code ++ (leBytes 4 body.length ++ body))

/-- The event that holds a reading, and what is checked of it. The words are the bits of the
    numbers, so that a NaN is the one that was sent. -/
structure Reported (code : ℕ) (words : List ℕ) (appended : List UInt8)
    (reading : AccountRiskReading) : Prop where
  codeRange : code < 2 ^ 32
  scope : AccountScope.decode code = .ok reading.scope
  fits : ∀ word ∈ words, word < 2 ^ 64
  figures : words.map (fun bits => Float.ofBits (.ofNat bits)) =
    [reading.adjustedEquityUsd, reading.actualEquityUsd, reading.maintenanceMarginUsd,
      reading.initialMarginUsd, reading.marginRatio, reading.borrowedUsd, reading.notionalUsd]
  appended : appended.length = 0 ∨ appended.length = 8
  time : 0 < reading.sourceTsMs
  timeRange : reading.sourceTsMs < 2 ^ 63
  amounts : ∀ amount ∈ reading.amounts, amount.2.isFinite ∨ amount.2.isNaN
  ratio : reading.marginRatio.isFinite ∨ reading.zeroMarginInfinity
  received : reading.receivedAtMs = 0

namespace Event

theorem read_eq_ok {data : List UInt8} {offset width n : ℕ} :
    read data offset width = .ok n ↔ readLe data offset width = some n := by
  unfold read
  split
  · rename_i h
    rw [h, Except.ok.injEq, Option.some_inj]
  · rename_i h
    rw [h]
    simp

theorem readI64_eq_ok {data : List UInt8} {offset : ℕ} {t : ℤ} :
    readI64 data offset = .ok t ↔ ∃ n, readLe data offset 8 = some n ∧ ofTwos 8 n = t := by
  simp only [readI64, map_eq_ok, read_eq_ok]

theorem readF64_eq_ok {data : List UInt8} {offset : ℕ} {x : Float} :
    readF64 data offset = .ok x ↔
      ∃ n, readLe data offset 8 = some n ∧ Float.ofBits (.ofNat n) = x := by
  simp only [readF64, map_eq_ok, read_eq_ok]

end Event

theorem check_eq_ok {reading checked : AccountRiskReading} :
    reading.check = .ok checked ↔ reading = checked ∧ 0 < reading.sourceTsMs ∧
      (∀ amount ∈ reading.amounts, amount.2.isFinite ∨ amount.2.isNaN) ∧
      (reading.marginRatio.isFinite ∨ reading.zeroMarginInfinity) := by
  unfold AccountRiskReading.check
  split
  · rename_i h
    simp [not_lt.mpr h]
  · rename_i h
    rw [and_iff_right (not_le.mp h)]
    split
    · rename_i name amount hfind
      have hmem := List.mem_of_find?_eq_some hfind
      have hbad := List.find?_some hfind
      simp only [Bool.and_eq_true, Bool.not_eq_true'] at hbad
      refine ⟨fun hn => (nomatch hn), fun hn => absurd (hn.2.1 _ hmem) ?_⟩
      rw [hbad.1, hbad.2]
      decide
    · rename_i hfind
      have hall : ∀ amount ∈ reading.amounts, amount.2.isFinite ∨ amount.2.isNaN := by
        intro amount hmem
        have := List.find?_eq_none.mp hfind amount hmem
        simpa only [Bool.and_eq_true, Bool.not_eq_true', not_and, Bool.not_eq_false,
          or_iff_not_imp_left, Bool.not_eq_true] using this
      rw [and_iff_right hall]
      split
      · rename_i hratio
        simp only [Bool.and_eq_true, Bool.not_eq_true'] at hratio
        simp [hratio.1, hratio.2]
      · rename_i hratio
        simp only [Bool.and_eq_true, Bool.not_eq_true', not_and, Bool.not_eq_false] at hratio
        rw [Except.ok.injEq, and_iff_left]
        rwa [or_iff_not_imp_left, Bool.not_eq_true]

theorem decodeBody_eq_ok {scope : AccountScope} {body : List UInt8}
    {reading : AccountRiskReading} {code : ℕ} (hcode : code < 2 ^ 32)
    (hscope : AccountScope.decode code = .ok scope)
    (hlength : body.length = accountRiskLegacyBodyBytes ∨ body.length = accountRiskBodyBytes) :
    decodeBody scope body = .ok reading ↔ ∃ words appended,
      body = accountRiskBody reading.sourceTsMs words appended ∧
        Reported code words appended reading := by
  simp only [decodeBody, bind_eq_ok, Event.readU32, Event.read_eq_ok]
  constructor
  · rintro ⟨inner, hinner, h⟩
    split at h
    · cases h
    rename_i htype
    rw [not_not] at htype
    subst htype
    simp only [readReading, bind_eq_ok, pure_eq_ok, Event.readI64_eq_ok, Event.readF64_eq_ok,
      check_eq_ok] at h
    obtain ⟨-, ⟨-, ⟨t, ht, rfl⟩, -, ⟨a, ha, rfl⟩, -, ⟨b, hb, rfl⟩, -, ⟨c, hc, rfl⟩, -, ⟨d, hd, rfl⟩,
      -, ⟨e, he, rfl⟩, -, ⟨f, hf, rfl⟩, -, ⟨g, hg, rfl⟩, rfl⟩, rfl, htime, hamounts, hratio⟩ := h
    -- Each figure is what the body goes on with after the one before.
    obtain ⟨-, h0⟩ := drop_of_readLe hinner
    obtain ⟨htlt, h4⟩ := drop_of_readLe ht
    obtain ⟨halt, h12⟩ := drop_of_readLe ha
    obtain ⟨hblt, h20⟩ := drop_of_readLe hb
    obtain ⟨hclt, h28⟩ := drop_of_readLe hc
    obtain ⟨hdlt, h36⟩ := drop_of_readLe hd
    obtain ⟨helt, h44⟩ := drop_of_readLe he
    obtain ⟨hflt, h52⟩ := drop_of_readLe hf
    obtain ⟨hglt, h60⟩ := drop_of_readLe hg
    refine ⟨[a, b, c, d, e, f, g], body.drop 68, ?_, ?_⟩
    · rw [List.drop_zero] at h0
      simp only [accountRiskBody, twos_ofTwos htlt, List.flatMap_cons, List.flatMap_nil,
        List.append_assoc, List.nil_append]
      rw [← h60, ← h52, ← h44, ← h36, ← h28, ← h20, ← h12, ← h4]
      exact h0
    · have htop : ofTwos 8 t < 2 ^ 63 := by
        have := BitVec.toInt_lt (x := BitVec.ofNat 64 t)
        simpa [ofTwos] using this
      refine { codeRange := hcode, scope := hscope, fits := ?_, figures := rfl, appended := ?_,
               time := htime, timeRange := htop, amounts := hamounts, ratio := hratio,
               received := rfl }
      · simp only [List.mem_cons, List.not_mem_nil, or_false, forall_eq_or_imp, forall_eq]
        norm_num at halt hblt hclt hdlt helt hflt hglt ⊢
        exact ⟨halt, hblt, hclt, hdlt, helt, hflt, hglt⟩
      · rw [List.length_drop]
        simp only [accountRiskBodyBytes, accountRiskLegacyBodyBytes] at hlength
        omega
  · rintro ⟨words, appended, rfl, h⟩
    have hfigures := h.figures
    simp only [List.map_eq_cons_iff, List.map_eq_nil_iff] at hfigures
    obtain ⟨a, _, rfl, ha, b, _, rfl, hb, c, _, rfl, hc, d, _, rfl, hd, e, _, rfl, he, f, _, rfl, hf,
      g, _, rfl, hg, rfl⟩ := hfigures
    have hfits := h.fits
    simp only [List.mem_cons, List.not_mem_nil, or_false, forall_eq_or_imp, forall_eq] at hfits
    obtain ⟨halt, hblt, hclt, hdlt, helt, hflt, hglt⟩ := hfits
    have h0 : (accountRiskBody reading.sourceTsMs [a, b, c, d, e, f, g] appended).drop 0 =
        leBytes 4 accountRiskEventType ++ (leBytes 8 (twos 8 reading.sourceTsMs) ++
          (leBytes 8 a ++ (leBytes 8 b ++ (leBytes 8 c ++ (leBytes 8 d ++ (leBytes 8 e ++
            (leBytes 8 f ++ (leBytes 8 g ++ appended)))))))) := by
      simp only [accountRiskBody, List.drop_zero, List.flatMap_cons, List.flatMap_nil,
        List.append_assoc, List.nil_append]
    have hlong : 68 ≤ (accountRiskBody reading.sourceTsMs [a, b, c, d, e, f, g] appended).length := by
      rcases hlength with hlength | hlength <;> rw [hlength] <;> decide
    generalize accountRiskBody reading.sourceTsMs [a, b, c, d, e, f, g] appended = body at h0 hlong
    have h4 := drop_add_of_drop h0
    have h12 := drop_add_of_drop h4
    have h20 := drop_add_of_drop h12
    have h28 := drop_add_of_drop h20
    have h36 := drop_add_of_drop h28
    have h44 := drop_add_of_drop h36
    have h52 := drop_add_of_drop h44
    have h60 := drop_add_of_drop h52
    simp only [length_leBytes, Nat.zero_add, Nat.reduceAdd] at h4 h12 h20 h28 h36 h44 h52 h60
    refine ⟨_, readLe_of_drop (by omega) (by decide) h0, ?_⟩
    rw [if_neg (not_not.mpr rfl)]
    have htime : ofTwos 8 (twos 8 reading.sourceTsMs) = reading.sourceTsMs :=
      ofTwos_twos (le_trans (by norm_num) h.time.le) h.timeRange (by decide)
    have hok : scope = reading.scope := Except.ok.inj (hscope.symm.trans h.scope)
    refine bind_eq_ok.mpr ⟨reading, ?_, check_eq_ok.mpr ⟨rfl, h.time, h.amounts, h.ratio⟩⟩
    simp only [readReading, bind_eq_ok, pure_eq_ok, Event.readI64_eq_ok, Event.readF64_eq_ok]
    refine ⟨_, ⟨_, readLe_of_drop (by omega) (twos_lt 8 _) h4, htime⟩,
      _, ⟨a, readLe_of_drop (by omega) (by simpa using halt) h12, ha⟩,
      _, ⟨b, readLe_of_drop (by omega) (by simpa using hblt) h20, hb⟩,
      _, ⟨c, readLe_of_drop (by omega) (by simpa using hclt) h28, hc⟩,
      _, ⟨d, readLe_of_drop (by omega) (by simpa using hdlt) h36, hd⟩,
      _, ⟨e, readLe_of_drop (by omega) (by simpa using helt) h44, he⟩,
      _, ⟨f, readLe_of_drop (by omega) (by simpa using hflt) h52, hf⟩,
      _, ⟨g, readLe_of_drop (by omega) (by simpa using hglt) h60, hg⟩, ?_⟩
    rw [hok, ← h.received]

/-- **The event format.** A reading is decoded exactly from the events that report it; what follows
the body, and in a long body what follows the seven amounts, does not count. -/
theorem decodeAccountRisk_eq_ok_some_iff {data : List UInt8} {reading : AccountRiskReading} :
    decodeAccountRisk data = .ok (some reading) ↔ ∃ code words appended padding,
      data = accountRiskEvent code (accountRiskBody reading.sourceTsMs words appended) ++ padding ∧
        Reported code words appended reading := by
  unfold decodeAccountRisk
  constructor
  · intro h
    split at h
    · cases h
    rename_i hheader
    simp only [bind_eq_ok, Event.readU32, Event.read_eq_ok] at h
    obtain ⟨eventType, htype, h⟩ := h
    split at h
    · cases h
    rename_i hrisk
    rw [not_not] at hrisk
    subst hrisk
    simp only [bind_eq_ok, Event.read_eq_ok] at h
    obtain ⟨code, hcode, scope, hscope, bodyLen, hlen, h⟩ := h
    split at h
    · cases h
    rename_i hbodyLen
    rw [not_and_or, not_not, not_not] at hbodyLen
    split at h
    · cases h
    rename_i htotal
    obtain ⟨reading', hbody, hsome⟩ := map_eq_ok.mp h
    cases hsome
    -- The body is what the header is followed by, cut to its length.
    obtain ⟨-, h0⟩ := drop_of_readLe htype
    obtain ⟨hcodelt, h4⟩ := drop_of_readLe hcode
    obtain ⟨-, h8⟩ := drop_of_readLe hlen
    rw [Nat.add_sub_cancel_left] at hbody
    have hlength : ((data.drop accountEventHeaderBytes).take bodyLen).length = bodyLen := by
      rw [List.length_take, List.length_drop]
      omega
    have hcut : data.drop 12 = (data.drop accountEventHeaderBytes).take bodyLen ++
        data.drop (accountEventHeaderBytes + bodyLen) := by
      rw [← List.drop_drop]
      exact (List.take_append_drop bodyLen _).symm
    obtain ⟨words, appended, hshape, hreported⟩ :=
      (decodeBody_eq_ok (by simpa using hcodelt) hscope (by rwa [hlength])).mp hbody
    refine ⟨code, words, appended, data.drop (accountEventHeaderBytes + bodyLen), ?_, hreported⟩
    rw [← hshape, accountRiskEvent, hlength]
    simp only [List.append_assoc]
    rw [← hcut, ← h8, ← h4]
    exact h0
  · rintro ⟨code, words, appended, padding, rfl, h⟩
    have hseven : words.length = 7 := by simpa using congrArg List.length h.figures
    have hbody : (accountRiskBody reading.sourceTsMs words appended).length =
        accountRiskLegacyBodyBytes + appended.length := by
      have hwords : (words.flatMap (leBytes 8)).length = 8 * words.length := by
        rw [List.length_flatMap]
        simp [mul_comm]
      simp only [accountRiskBody, List.length_append, length_leBytes, hwords, hseven,
        accountRiskLegacyBodyBytes]
      omega
    have hor : (accountRiskBody reading.sourceTsMs words appended).length =
        accountRiskLegacyBodyBytes ∨ (accountRiskBody reading.sourceTsMs words appended).length =
        accountRiskBodyBytes := by
      rw [hbody]
      exact h.appended.imp (fun h => by rw [h, Nat.add_zero]) (fun h => by rw [h]; rfl)
    have hdecode := (decodeBody_eq_ok h.codeRange h.scope hor).mpr ⟨words, appended, rfl, h⟩
    generalize accountRiskBody reading.sourceTsMs words appended = body at hor hdecode
    have h0 : (accountRiskEvent code body ++ padding).drop 0 = leBytes 4 accountRiskEventType ++
        (leBytes 4 code ++ (leBytes 4 body.length ++ (body ++ padding))) := by
      simp only [accountRiskEvent, List.drop_zero, List.append_assoc]
    have hlong : (accountRiskEvent code body ++ padding).length =
        12 + body.length + padding.length := by
      simp only [accountRiskEvent, List.length_append, length_leBytes]
      omega
    generalize accountRiskEvent code body ++ padding = data at h0 hlong
    have h4 := drop_add_of_drop h0
    have h8 := drop_add_of_drop h4
    have h12 := drop_add_of_drop h8
    simp only [length_leBytes, Nat.zero_add, Nat.reduceAdd] at h4 h8 h12
    have hshort : body.length < 2 ^ 32 := by
      rcases hor with h | h <;> rw [h] <;> decide
    have hheader : ¬data.length < accountEventHeaderBytes := by
      simp only [accountEventHeaderBytes]
      omega
    have hkind : ¬(body.length ≠ accountRiskLegacyBodyBytes ∧ body.length ≠ accountRiskBodyBytes) := by
      rw [not_and_or, not_not, not_not]
      exact hor
    have htotal : ¬data.length < accountEventHeaderBytes + body.length := by
      simp only [accountEventHeaderBytes]
      omega
    rw [if_neg hheader]
    refine bind_eq_ok.mpr ⟨_, Event.read_eq_ok.mpr
      (readLe_of_drop (by omega) (by decide) h0), ?_⟩
    rw [if_neg (not_not.mpr rfl)]
    refine bind_eq_ok.mpr ⟨_, Event.read_eq_ok.mpr
      (readLe_of_drop (by omega) (by simpa using h.codeRange) h4), ?_⟩
    refine bind_eq_ok.mpr ⟨_, h.scope, ?_⟩
    refine bind_eq_ok.mpr ⟨_, Event.read_eq_ok.mpr
      (readLe_of_drop (by omega) (by simpa using hshort) h8), ?_⟩
    rw [if_neg hkind]
    simp only
    rw [if_neg htotal, Nat.add_sub_cancel_left, accountEventHeaderBytes, h12, List.take_left,
      hdecode]
    rfl

end CryptoNav.Feeds
