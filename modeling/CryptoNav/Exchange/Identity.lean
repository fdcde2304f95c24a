import CryptoNav.Exchange.Ltp

/-!
# One identity for deduplication and upsert

The clients remove repeated rows by a few raw fields, the tables tell rows apart by the columns of
their `ON CONFLICT` clause. The two come apart in three ways: a field that both look at is written
differently in two rows of one record, such rows differ in a field that only deduplication looks at,
or duplicates differ in one that only the normalizer does (`OneIdentity`). A list of rows without any
of them is treated alike by both, and no other is (`dedup_upsert_identity`).

Five of the clients join the texts of their fields and keep the first row of each. RapidX's keeps the
first of each id and fails where another row has it; statements have no id twice. That every row is
accepted by the normalizer is assumed: one that is not ends the run before anything is stored. What
`fetch_trades` leaves out afterwards, by leg and by symbol, is left out here.
-/

set_option autoImplicit false

namespace CryptoNav.Exchange

open CryptoNav.Lib
open CryptoNav.History (Leg)
open CryptoNav.History.Raw

/-! ## Where the two come apart -/

/-- The fields of deduplication that no column is read from. -/
def unread : Feed → List String
  | .trades .bybit _ => ["category"]
  | .trades .bitget _ => ["orderId"]
  | .trades .okx _ => ["instType"]
  | .funding .gate => ["contract", "time", "change"]
  | .funding .bitget | .interest .bitget => ["type", "createdTime"]
  | .funding .okx => ["instId", "ts"]
  | _ => []

/-- Rows that are duplicates read the same where a column is read from other fields: the ids of a
Bitget fill without an `execId`, the time in the id that is made up for Gate's interest, the id of
OKX's interest where one of the rows has it, the time of Binance's liquidations. -/
def Beyond (outside : Outside) (storage : Storage) : Feed → Json → Json → Prop
  | .trades .bitget _, r, s => optionalText r ["execId"] = none →
      optionalText r ["tradeId", "id"] = optionalText s ["tradeId", "id"]
  | .interest .gate, r, s => optionalText r ["id"] = none →
      idColumn outside (storage.cash = .binance)
        (madeUpIdOf r "currency" "interest" ["time_ms", "time", "create_time"]) =
      idColumn outside (storage.cash = .binance)
        (madeUpIdOf s "currency" "interest" ["time_ms", "time", "create_time"])
  | .interest .okx, r, s => optionalText r ["billId"] ≠ none ∨ optionalText s ["billId"] ≠ none →
      idColumn outside (storage.cash = .binance) (cashId .okx true r) =
      idColumn outside (storage.cash = .binance) (cashId .okx true s)
  | .binanceLiquidations, r, s =>
      (timestampField r ["time"]).toOption = (timestampField s ["time"]).toOption
  | _, _, _ => True

/-- What keeps deduplication and the table together, as conditions on every two of the raw rows. -/
structure OneIdentity (outside : Outside) (storage : Storage) (feed : Feed) (rows : List Json) :
    Prop where
  /-- A field that both look at is written in one way: not as a text and as a number, nor as `BTC-USDT`
  and `BTCUSDT`, nor with zeros before a number. -/
  written : ∀ r ∈ rows, ∀ s ∈ rows, feed.columns outside storage r = feed.columns outside storage s →
    ∀ field ∈ feed.fields, field ∉ unread feed → r.get field = s.get field
  /-- A field that only deduplication looks at is the same in all rows of one record. -/
  unread : ∀ r ∈ rows, ∀ s ∈ rows, feed.columns outside storage r = feed.columns outside storage s →
    ∀ field ∈ unread feed, r.get field = s.get field
  /-- And what only the normalizer looks at is the same in duplicates. -/
  beyond : ∀ r ∈ rows, ∀ s ∈ rows, Agree feed.fields r s → Beyond outside storage feed r s

theorem timestampField_congr {r s : Json} {fields : List String} (h : Agree fields r s) :
    (timestampField r fields).toOption = (timestampField s fields).toOption := by
  have htext := optionalText_congr h
  unfold timestampField
  cases hr : optionalText r fields with
  | none =>
    rw [hr] at htext
    have hnone : ∀ v : Json, optionalText v fields = none →
        ∃ message, textField v fields = .error message := by
      intro v hv
      cases htext : textField v fields with
      | error message => exact ⟨message, rfl⟩
      | ok text => rw [textField_ok, hv] at htext; cases htext
    obtain ⟨message, hmessage⟩ := hnone r hr
    obtain ⟨message', hmessage'⟩ := hnone s htext.symm
    rw [hmessage, hmessage']
    rfl
  | some text =>
    rw [hr] at htext
    rw [textField_ok.mpr hr, textField_ok.mpr htext.symm]

/-- Whether the rows of a feed come from RapidX. -/
def ofLtp : Feed → Bool
  | .ltpTrades | .ltpFunding | .ltpInterest => true
  | _ => false

theorem unread_subset (feed : Feed) : unread feed ⊆ feed.fields := by
  intro field hfield
  cases feed with
  | trades client leg => cases client <;> simp_all [unread, Feed.fields]
  | funding client => cases client <;> simp_all [unread, Feed.fields]
  | interest client => cases client <;> simp_all [unread, Feed.fields]
  | _ => cases hfield

theorem tradeColumns_id_iff {outside : Outside} {storage : TradeStorage} {client : Client}
    (hclient : client ≠ .binance) {market : Option (Leg × String)} {symbol id id' : Option String} :
    tradeColumns outside storage client market symbol id =
      tradeColumns outside storage client market symbol id' ↔ id = id' := by
  have htext : ∀ id : Option String,
      (id.bind fun id => some (KeyPart.text id)) = id.map KeyPart.text :=
    fun id => (Option.map_eq_bind).symm
  have hinj := (Option.map_injective fun _ _ heq => KeyPart.text.inj heq).eq_iff (a := id) (b := id')
  cases storage with
  | liang => simp [tradeColumns, idColumn, hclient, htext, hinj]
  | generic => simp [tradeColumns, hinj]

/-- Bitget's ids are read from the first of three fields, one of which is deduplicated by. -/
theorem bitgetId_eq (raw : Json) :
    optionalText raw ["execId", "tradeId", "id"]
      = (optionalText raw ["execId"]).or (optionalText raw ["tradeId", "id"]) := by
  simp only [optionalText, List.findSome?_cons, List.findSome?_nil]
  rcases raw.get "execId" with _ | value
  · rfl
  · cases value
    case string text =>
      simp only
      split <;> rfl
    all_goals rfl

/-- Rows that agree in the fields of a feed read alike in any of them. -/
theorem optionalText_of_agree {feed : Feed} {r s : Json} (h : Agree feed.fields r s)
    {fields : List String} (hsub : fields ⊆ feed.fields) :
    optionalText r fields = optionalText s fields :=
  optionalText_congr fun field hfield => h field (hsub hfield)

/-- Duplicate trades. Only Bitget's have an id that may be read from a field beyond. -/
theorem trades_columns_iff_beyond {outside : Outside} {storage : Storage} {client : Client} {leg : Leg}
    {r s : Json} (h : Agree (Feed.trades client leg).fields r s) :
    Feed.columns outside storage (.trades client leg) r =
        Feed.columns outside storage (.trades client leg) s ↔
      Beyond outside storage (.trades client leg) r s := by
  have hread : ∀ fields ⊆ (Feed.trades client leg).fields,
      optionalText r fields = optionalText s fields := fun _ => optionalText_of_agree h
  cases client with
  | bitget =>
    have hsymbol : tradeSymbol outside.toUppercase .bitget leg r =
        tradeSymbol outside.toUppercase .bitget leg s :=
      congrArg (Option.map _) (hread ["symbol"] (by simp [Feed.fields]))
    have hexec := hread ["execId"] (by simp [Feed.fields])
    have hcolumns : Feed.columns outside storage (.trades .bitget leg) r =
        Feed.columns outside storage (.trades .bitget leg) s ↔
        optionalText r ["execId", "tradeId", "id"] = optionalText s ["execId", "tradeId", "id"] := by
      rw [Feed.columns, Feed.columns, hsymbol, tradeIdFields, tradeColumns_id_iff (by decide)]
    rw [hcolumns, bitgetId_eq, bitgetId_eq, ← hexec, Beyond]
    cases optionalText r ["execId"] <;> simp
  | gate =>
    refine iff_of_true ?_ trivial
    cases leg with
    | spot =>
      simp only [Feed.columns, tradeSymbol, tradeIdFields,
        hread ["currency_pair"] (by simp [Feed.fields]), hread ["id"] (by simp [Feed.fields])]
    | derivative =>
      simp only [Feed.columns, tradeSymbol, tradeIdFields,
        hread ["contract"] (by simp [Feed.fields]), hread ["trade_id"] (by simp [Feed.fields])]
  | binance =>
    refine iff_of_true ?_ trivial
    simp only [Feed.columns, tradeSymbol, tradeIdFields, hread ["symbol"] (by simp [Feed.fields]),
      hread ["id"] (by simp [Feed.fields])]
  | bybit =>
    refine iff_of_true ?_ trivial
    simp only [Feed.columns, tradeSymbol, tradeIdFields, hread ["symbol"] (by simp [Feed.fields]),
      hread ["execId"] (by simp [Feed.fields])]
  | okx =>
    refine iff_of_true ?_ trivial
    simp only [Feed.columns, tradeSymbol, tradeIdFields, hread ["instId"] (by simp [Feed.fields]),
      hread ["tradeId"] (by simp [Feed.fields])]

/-- Duplicate interest rows. Gate's may have an id in a field beyond, OKX's a bill. -/
theorem interest_columns_iff_beyond {outside : Outside} {storage : Storage} {client : Client}
    {r s : Json} (h : Agree (Feed.interest client).fields r s) :
    Feed.columns outside storage (.interest client) r =
        Feed.columns outside storage (.interest client) s ↔
      Beyond outside storage (.interest client) r s := by
  have hread : ∀ fields ⊆ (Feed.interest client).fields,
      optionalText r fields = optionalText s fields := fun _ => optionalText_of_agree h
  cases client with
  | gate =>
    have hid := hread ["id"] (by simp [Feed.fields])
    simp only [Feed.columns, cashId, Beyond, ← hid, List.cons.injEq, and_true]
    cases optionalText r ["id"] <;> simp
  | okx =>
    have hasset := hread ["ccy"] (by simp [Feed.fields])
    have hamount := hread ["interest"] (by simp [Feed.fields])
    have htime : (timestampField r ["ts"]).toOption = (timestampField s ["ts"]).toOption :=
      timestampField_congr fun field hfield => h field (by simp_all [Feed.fields])
    have hmade : madeUpIdOf r "ccy" "interest" ["ts"] = madeUpIdOf s "ccy" "interest" ["ts"] := by
      unfold madeUpIdOf
      rw [hasset, hamount, htime]
    simp only [Feed.columns, Beyond, List.cons.injEq, and_true]
    refine ⟨fun heq _ => heq, fun hbeyond => ?_⟩
    by_cases hnone : optionalText r ["billId"] = none ∧ optionalText s ["billId"] = none
    · rw [cashId, cashId, hnone.1, hnone.2, hmade]
    · exact hbeyond (not_and_or.mp hnone)
  | binance =>
    refine iff_of_true ?_ trivial
    simp only [Feed.columns, cashId, hread ["txId"] (by simp [Feed.fields])]
  | bybit =>
    refine iff_of_true ?_ trivial
    simp only [Feed.columns, cashId, hread ["id"] (by simp [Feed.fields])]
  | bitget =>
    refine iff_of_true ?_ trivial
    simp only [Feed.columns, cashId, hread ["id", "bizId"] (by simp [Feed.fields])]

/-- **Duplicates are read alike** just when they are in the fields beyond those they are deduplicated
by. -/
theorem columns_iff_beyond {outside : Outside} {storage : Storage} {feed : Feed}
    (hfeed : ofLtp feed = false) {r s : Json} (h : Agree feed.fields r s) :
    feed.columns outside storage r = feed.columns outside storage s ↔
      Beyond outside storage feed r s := by
  have hread : ∀ fields ⊆ feed.fields, optionalText r fields = optionalText s fields :=
    fun _ => optionalText_of_agree h
  cases feed with
  | trades client leg => exact trades_columns_iff_beyond h
  | interest client => exact interest_columns_iff_beyond h
  | funding client =>
    refine iff_of_true ?_ (by cases client <;> trivial)
    have hid : cashId client false r = cashId client false s := by
      cases client <;> exact hread _ (by simp [Feed.fields])
    rw [Feed.columns, Feed.columns, hid]
  | rebates =>
    refine iff_of_true ?_ trivial
    rw [Feed.columns, Feed.columns, hread ["id"] (by simp [Feed.fields])]
  | binanceLiquidations =>
    simp only [Feed.columns, Beyond, hread ["symbol"] (by simp [Feed.fields]),
      hread ["orderId"] (by simp [Feed.fields]), List.cons.injEq, true_and, and_true]
    exact (Option.map_injective fun _ _ heq => KeyPart.bigint.inj heq).eq_iff
  | gateLiquidations =>
    refine iff_of_true ?_ trivial
    have htime : (timestampField r ["time"]).toOption = (timestampField s ["time"]).toOption :=
      timestampField_congr fun field hfield => h field (by simp_all [Feed.fields])
    rw [Feed.columns, Feed.columns, hread ["contract"] (by simp [Feed.fields]),
      hread ["order_id"] (by simp [Feed.fields]), htime]
  | ltpTrades => cases hfeed
  | ltpFunding => cases hfeed
  | ltpInterest => cases hfeed

/-! ## One identity -/

/-- The list without its repeated rows: of rows that are duplicates one is kept. Which one is left
    open: that is where duplicates may be read differently. -/
structure Thinned (feed : Feed) (rows kept : List Json) : Prop where
  subset : kept ⊆ rows
  apart : kept.Pairwise fun r s => ¬ Agree feed.fields r s
  covered : ∀ r ∈ rows, ∃ s ∈ kept, Agree feed.fields s r

theorem thinned_dedup (feed : Feed) (rows : List Json) :
    Thinned feed rows (dedup feed.fields rows) where
  subset := (keepFirst_sublist _ _ _).subset
  apart := (List.pairwise_map.mp (keepFirst_nodup (dedupKey feed.fields) [] rows)).imp
    fun hne hagree => hne (dedupKey_eq.mpr hagree)
  covered r hr := by
    obtain ⟨s, hs, hkey⟩ := exists_keepFirst (dedupKey feed.fields) hr List.not_mem_nil
    exact ⟨s, hs, dedupKey_eq.mp hkey⟩

/-- Deduplication and the table agree on a list of rows: no two rows that are kept are stored under
one key, and a row that is removed has the key of the row that was kept in its stead. -/
structure SameIdentity (outside : Outside) (storage : Storage) (feed : Feed)
    (rows kept : List Json) : Prop where
  kept_apart : kept.Pairwise fun r s =>
    feed.conflictKey outside storage r ≠ feed.conflictKey outside storage s
  removed_kept : ∀ r ∈ rows, ∃ s ∈ kept, Agree feed.fields s r ∧
    feed.conflictKey outside storage s = feed.conflictKey outside storage r

/-- The rows are such as the normalizer and the table accept. A single row that is not refuses the
    whole list. -/
def Accepted (outside : Outside) (storage : Storage) (feed : Feed) (rows : List Json) : Prop :=
  ∀ r ∈ rows, (feed.conflictKey outside storage r).isOk

theorem Accepted.exists_key {outside : Outside} {storage : Storage} {feed : Feed}
    {rows : List Json} (h : Accepted outside storage feed rows) {r : Json} (hr : r ∈ rows) :
    ∃ key, feed.conflictKey outside storage r = .ok key := by
  have hok := h r hr
  cases hkey : feed.conflictKey outside storage r with
  | error message =>
    rw [hkey] at hok
    cases hok
  | ok key => exact ⟨key, rfl⟩

theorem conflictKey_eq_iff {outside : Outside} {storage : Storage} {feed : Feed} {rows : List Json}
    (haccepted : Accepted outside storage feed rows) {r s : Json} (hr : r ∈ rows) (hs : s ∈ rows) :
    feed.conflictKey outside storage r = feed.conflictKey outside storage s ↔
      feed.columns outside storage r = feed.columns outside storage s := by
  obtain ⟨key, hkey⟩ := haccepted.exists_key hr
  obtain ⟨key', hkey'⟩ := haccepted.exists_key hs
  rw [hkey, hkey', conflictKey_columns hkey, conflictKey_columns hkey',
    (List.map_injective_iff.mpr (Option.some_injective _)).eq_iff]
  exact ⟨Except.ok.inj, congrArg _⟩

/-- Pair by pair. -/
theorem sameIdentity_iff_pairs {outside : Outside} {storage : Storage} {feed : Feed}
    {rows kept : List Json} (hthinned : Thinned feed rows kept)
    (haccepted : Accepted outside storage feed rows) :
    SameIdentity outside storage feed rows kept ↔ ∀ r ∈ rows, ∀ s ∈ rows,
      (Agree feed.fields r s ↔
        feed.columns outside storage r = feed.columns outside storage s) := by
  obtain ⟨hsub, hdistinct, hcovered⟩ := hthinned
  constructor
  · rintro ⟨hapart, hremoved⟩ r hr s hs
    obtain ⟨r', hr', hfieldsR, hkeyR⟩ := hremoved r hr
    obtain ⟨s', hs', hfieldsS, hkeyS⟩ := hremoved s hs
    have hagree : Agree feed.fields r s ↔ Agree feed.fields r' s' :=
      forall₂_congr fun field hfield => by rw [hfieldsR field hfield, hfieldsS field hfield]
    rw [← conflictKey_eq_iff haccepted hr hs, hagree, ← hkeyR, ← hkeyS]
    by_cases heq : r' = s'
    · rw [heq]
      exact iff_of_true (fun _ _ => rfl) rfl
    · have : Std.Symm fun r s => ¬ Agree feed.fields r s :=
        ⟨fun _ _ hne h => hne fun field hfield => (h field hfield).symm⟩
      have : Std.Symm fun r s =>
          feed.conflictKey outside storage r ≠ feed.conflictKey outside storage s :=
        ⟨fun _ _ hne => hne.symm⟩
      exact iff_of_false (hdistinct.forall hr' hs' heq) (hapart.forall hr' hs' heq)
  · intro halike
    have hiff : ∀ r ∈ rows, ∀ s ∈ rows, Agree feed.fields r s ↔
        feed.conflictKey outside storage r = feed.conflictKey outside storage s :=
      fun r hr s hs => (halike r hr s hs).trans (conflictKey_eq_iff haccepted hr hs).symm
    refine ⟨hdistinct.imp_of_mem fun hr hs hne hkey => ?_, fun r hr => ?_⟩
    · exact hne ((hiff _ (hsub hr) _ (hsub hs)).mpr hkey)
    · obtain ⟨s, hs, hagree⟩ := hcovered r hr
      exact ⟨s, hs, hagree, (hiff s (hsub hs) r hr).mp hagree⟩

/-- **Deduplication and upsert use one identity** on exactly those lists in which nothing drives the
two apart. Of RapidX's rows those that are duplicates have to be the same row. -/
theorem sameIdentity_iff {outside : Outside} {storage : Storage} {feed : Feed}
    {rows kept : List Json} (hthinned : Thinned feed rows kept)
    (haccepted : Accepted outside storage feed rows)
    (hsame : ofLtp feed = true → ∀ r ∈ rows, ∀ s ∈ rows, Agree feed.fields r s → r = s) :
    SameIdentity outside storage feed rows kept ↔ OneIdentity outside storage feed rows := by
  have hbeyond : ∀ r ∈ rows, ∀ s ∈ rows, Agree feed.fields r s →
      (feed.columns outside storage r = feed.columns outside storage s ↔
        Beyond outside storage feed r s) := by
    intro r hr s hs hagree
    cases hfeed : ofLtp feed with
    | false => exact columns_iff_beyond hfeed hagree
    | true =>
      rw [hsame hfeed r hr s hs hagree]
      refine iff_of_true rfl ?_
      cases feed <;> trivial
  rw [sameIdentity_iff_pairs hthinned haccepted]
  constructor
  · intro halike
    refine ⟨fun r hr s hs heq field hfield _ => ?_, fun r hr s hs heq field hfield => ?_,
      fun r hr s hs hagree => ?_⟩
    · exact (halike r hr s hs).mpr heq field hfield
    · exact (halike r hr s hs).mpr heq field (unread_subset feed hfield)
    · exact (hbeyond r hr s hs hagree).mp ((halike r hr s hs).mp hagree)
  · rintro ⟨hwritten, hunread, hread⟩ r hr s hs
    refine ⟨fun hagree => (hbeyond r hr s hs hagree).mpr (hread r hr s hs hagree), ?_⟩
    intro heq field hfield
    by_cases hfieldUnread : field ∈ unread feed
    · exact hunread r hr s hs heq field hfieldUnread
    · exact hwritten r hr s hs heq field hfield hfieldUnread

/-! ## What the clients return -/

/-- The rows that a client is served and those that it returns. -/
def Returns : Feed → List Json → List Json → Prop
  | .ltpTrades, rows, kept => ∃ (client : Ltp.Client) (nowMs : ℤ) (range : TimeRange)
      (tiers : List (String × TimeRange)), Ltp.executionRanges range nowMs = .ok tiers ∧
      client.executionHistory nowMs range = .ok kept ∧
      ∀ row, row ∈ rows ↔ ∃ tier ∈ tiers, client.TierRow tier row
  | .ltpFunding, rows, kept => ∃ (client : Ltp.Client) (nowMs : ℤ) (range : TimeRange),
      (client.statementHistory nowMs range "FUNDING_FEE").result = .ok rows ∧ kept = rows
  | .ltpInterest, rows, kept => ∃ (client : Ltp.Client) (nowMs : ℤ) (range : TimeRange),
      (client.statementHistory nowMs range "DEDUCT_INTEREST").result = .ok rows ∧ kept = rows
  | feed, rows, kept => kept = dedup feed.fields rows

theorem requiredString_congr {r s : Json} {key : String} (h : Agree [key] r s) :
    Ltp.requiredString r key = Ltp.requiredString s key := by
  unfold Ltp.requiredString
  rw [h key (List.mem_singleton_self key)]

/-- Rows with ids of their own are no duplicates. -/
theorem apart_of_distinct {key : String} {rows : List Json} (h : Ltp.Distinct key rows) :
    rows.Pairwise fun r s => ¬ Agree [key] r s :=
  (List.pairwise_map.mp h.nodup).imp fun hne hagree => hne (requiredString_congr hagree)

theorem Returns.statements {client : Ltp.Client} {nowMs : ℤ} {range : TimeRange} {type : String}
    {feed : Feed} {rows : List Json} (hfields : feed.fields = [Ltp.statements.idKey])
    (h : (client.statementHistory nowMs range type).result = .ok rows) :
    Thinned feed rows rows ∧ ∀ r ∈ rows, ∀ s ∈ rows, Agree feed.fields r s → r = s := by
  have hdistinct := (Ltp.statementHistory_whole h).distinct
  refine ⟨⟨List.Subset.refl _, ?_, fun r hr => ⟨r, hr, fun _ _ => rfl⟩⟩, ?_⟩
  · rw [hfields]
    exact apart_of_distinct hdistinct
  · intro r hr s hs hagree
    rw [hfields] at hagree
    exact hdistinct.eq_of_id hr hs (requiredString_congr hagree)

/-- **What is returned is what is served**, without the repeated rows. -/
theorem Returns.thinned {feed : Feed} {rows kept : List Json} (h : Returns feed rows kept) :
    Thinned feed rows kept ∧
      (ofLtp feed = true → ∀ r ∈ rows, ∀ s ∈ rows, Agree feed.fields r s → r = s) := by
  cases feed with
  | ltpTrades =>
    obtain ⟨client, nowMs, range, tiers, htiers, hkept, hrows⟩ := h
    obtain ⟨hdistinct, tiers', htiers', -, hmem⟩ := Ltp.executionHistory_once hkept
    cases htiers.symm.trans htiers'
    have hsame : ∀ row, row ∈ rows ↔ row ∈ kept := fun row => (hrows row).trans (hmem row).symm
    refine ⟨⟨fun r hr => (hsame r).mpr hr, apart_of_distinct hdistinct, fun r hr => ?_⟩, ?_⟩
    · exact ⟨r, (hsame r).mp hr, fun _ _ => rfl⟩
    · intro _ r hr s hs hagree
      exact hdistinct.eq_of_id ((hsame r).mp hr) ((hsame s).mp hs) (requiredString_congr hagree)
  | ltpFunding =>
    obtain ⟨client, nowMs, range, hrows, rfl⟩ := h
    exact ⟨(Returns.statements rfl hrows).1, fun _ => (Returns.statements rfl hrows).2⟩
  | ltpInterest =>
    obtain ⟨client, nowMs, range, hrows, rfl⟩ := h
    exact ⟨(Returns.statements rfl hrows).1, fun _ => (Returns.statements rfl hrows).2⟩
  | _ =>
    cases h
    exact ⟨thinned_dedup _ _, fun hltp => by cases hltp⟩

instance (outside : Outside) (storage : Storage) (feed : Feed) (rows : List Json) :
    Decidable (Accepted outside storage feed rows) :=
  inferInstanceAs (Decidable (∀ r ∈ rows, _))

def incomeRow (id symbol : String) : Json :=
  textRow [("tranId", id), ("symbol", symbol), ("asset", "USDT"), ("income", "0.25"),
    ("time", "1700000000000")]

def statementRow (id : String) : Json :=
  textRow [("statementId", id), ("statementType", "FUNDING_FEE"), ("portfolioId", "42"),
    ("exchangeType", "BINANCE"), ("coin", "USDT"), ("deltaAmount", "0.25"),
    ("createAt", "1700000000000")]

/-- RapidX with two statements, on one page. -/
def statementClient : Ltp.Client where
  signedGet _ _ := .ok (.object [("data", .object [
    ("page", .number Ltp.one), ("pageSize", .number Ltp.thousand),
    ("pageNum", .number Ltp.one), ("totalSize", .number Ltp.two),
    ("list", .array [statementRow "7", statementRow "8"])])])
  portfolioId := "42"
  exchange := "BINANCE"

/-- What a settlement took and gave, under one id. -/
def settlementRow (direction amount : String) : Json :=
  textRow [("id", "9001"), ("type", "CONTRACT_MAIN_SETTLE_FEE_USER_" ++ direction),
    ("symbol", "BTCUSDT"), ("coin", "USDT"), ("amount", amount), ("createdTime", "1700000000000")]

/-- Two fills of one order, in the shape that has a `tradeId`. -/
def fillRow (id size : String) : Json :=
  textRow [("tradeId", id), ("orderId", "77"), ("symbol", "BTCUSDT"), ("side", "buy"),
    ("price", "100"), ("size", size), ("createdTime", "1700000000000")]

end CryptoNav.Exchange
