import Mathlib.Algebra.BigOperators.Ring.List
import Mathlib.Algebra.Order.BigOperators.Group.List
import Mathlib.Tactic.Linarith
import Mathlib.Data.List.Perm.Subperm
import CryptoNav.Lib.Table
import CryptoNav.History.Dedup

/-!
# Interest charges on their way into the table

Gate's and OKX's interest rows from the pages the client downloads to the interest table: rows out
of range are dropped, the others deduplicated, sorted, normalized and upserted by record id in
statements of a thousand rows. A row has three identities on the way, the fields it is deduplicated
by, the record id that is made up for it where it has none, and the key of the table; a charge
arrives where none of them takes two rows of the range for one, and where its amount survives being
stored (`interest_kept`).

## Amounts

What a row is served with is the exact value of its text (`Lender.servedAmount`): for Gate the
charge as a cash flow, so with a minus, for OKX the amount as it stands. OKX's text goes to the
`numeric` column as it is. Gate's is read as an `f64` and printed with eighteen decimals, which most
numbers from about a hundredth on do not survive: `0.1` is stored as `0.100000000000000006`.
-/

set_option autoImplicit false

namespace CryptoNav.History.Raw

open CryptoNav.Lib

/-! ## What the clients return -/

structure TimeRange where
  startMs : ℤ
  endMs : ℤ

def inRange (range : TimeRange) (timestampMs : ℤ) : Bool :=
  range.startMs ≤ timestampMs && timestampMs ≤ range.endMs

/-- Gate's `timestamp_value_ms`: seconds or milliseconds. -/
def timestampValueMs (value : Json) : Option ℤ := do
  let number ← match value with
    | .number number => parseFloat number.text.toList
    | .string text => parseFloat text.toList
    | _ => none
  if !number.isFinite || number < 0 then none
  else
    let milliseconds := toMilliseconds number
    if milliseconds ≤ i64MaxFloat then some (roundToInt milliseconds) else none

/-- Gate's `timestamp_ms`. -/
def timestampMs (row : Json) : Option ℤ :=
  ["create_time_ms", "time_ms", "transaction_time_ms", "transaction_time", "create_time", "time",
    "timestamp", "t"].findSome? fun key => (row.get key).bind timestampValueMs

/-- OKX's `value_i64`: an integer, as a number or as a text. -/
def valueI64 (row : Json) (key : String) : Option ℤ :=
  match row.get key with
  | some (.number number) => parseInt number.text.toList
  | some (.string text) => parseInt text.toList
  | _ => none

/-- The rows of all pages that are in range, once each, in the order of their time. -/
def collectRows (time : Json → Option ℤ) (fields : List String) (range : TimeRange)
    (pages : List (List Json)) : List Json :=
  let rows := pages.flatMap fun page => page.filter fun row => (time row).any (inRange range)
  sortByKey (fun row => (time row).getD 0) (dedup fields rows)

inductive Lender where
  | gate
  | okx

namespace Lender

def client : Lender → Client
  | gate => .gate
  | okx => .okx

def fields (lender : Lender) : List String := (Feed.interest lender.client).fields

def time : Lender → Json → Option ℤ
  | gate => timestampMs
  | okx => (valueI64 · "ts")

/-- `GateClient::interest_records` and `OkxClient::interest_accrued`, of the pages they download. -/
def interestRows (lender : Lender) (range : TimeRange) (pages : List (List Json)) : List Json :=
  collectRows lender.time lender.fields range pages

def inRange (lender : Lender) (range : TimeRange) (row : Json) : Bool :=
  (lender.time row).any (Raw.inRange range)

end Lender

/-! ## The table -/

def batchSize : ℕ := 1000

abbrev InterestTable := Table CashRow.recordId

/-- `commit_cash` for a table with a `record_id`, from a transaction on `t`. -/
def commitCash (t : InterestTable) (rows : List CashRow) : Result InterestTable :=
  match t.putBatches batchSize rows with
  | some t' => .ok t'
  | none => .error "ON CONFLICT DO UPDATE command cannot affect row a second time"

variable (toUppercase : Char → List Char)

/-- The interest branch of `sync_dataset`. -/
def syncInterest (lender : Lender) (range : TimeRange) (pages : List (List Json)) :
    Result InterestTable := do
  let rows ← (lender.interestRows range pages).mapM
    (normalizeCash toUppercase lender.client .interest)
  commitCash Table.empty rows

/-- The rows that reach an empty interest table. -/
def reached (lender : Lender) (range : TimeRange) (pages : List (List Json)) : List CashRow :=
  (syncInterest toUppercase lender range pages).toOption.elim [] (·.rows)

/-- A stored amount. -/
def numeric (text : String) : ℚ := (parseDecimal text.toList).elim 0 Decimal.value

/-- What the table has for an asset at a time. -/
def total (rows : List CashRow) (asset : String) (ts : ℤ) : ℚ :=
  ((rows.filter fun row => row.asset = asset ∧ row.eventTimeMs = ts).map
    (numeric ·.amount)).sum

def normalized (lender : Lender) (row : Json) : Option CashRow :=
  (normalizeCash toUppercase lender.client .interest row).toOption

/-- The charges of raw rows. -/
def charges (lender : Lender) (rows : List Json) : List CashRow :=
  rows.filterMap (normalized toUppercase lender)

/-- The table has the charges of the served rows of the range as they are stored. This leaves out
    what storing does to an amount, and looks at which rows arrive. -/
def ChargesKept (lender : Lender) (range : TimeRange) (served : List Json)
    (pages : List (List Json)) : Prop :=
  ∀ asset ts, total (reached toUppercase lender range pages) asset ts =
    total (charges toUppercase lender (served.filter (lender.inRange range))) asset ts

/-! ## What is served -/

namespace Lender

def servedAsset (lender : Lender) (row : Json) : Option String :=
  (optionalText row [match lender with | gate => "currency" | okx => "ccy"]).map uppercase

def servedTime (lender : Lender) (row : Json) : Option ℤ :=
  (timestampField row (match lender with
    | gate => ["time_ms", "time", "create_time"]
    | okx => ["ts"])).toOption

/-- The exact amount of a row, as a cash flow. -/
def servedAmount (lender : Lender) (row : Json) : ℚ :=
  let amount := (optionalText row ["interest"]).elim 0 numeric
  match lender with
  | gate => -|amount|
  | okx => amount

/-- The text that is stored for the text of an amount. -/
def storedText (lender : Lender) (text : String) : String :=
  match lender with
  | gate => (parseNumber text).toOption.elim text fun amount => decimalString (-amount.abs)
  | okx => text

/-- The amount of a row is stored as it is served. A row without an amount is refused, and nothing
    is asked of it. -/
def Faithful (lender : Lender) (row : Json) : Prop :=
  ∀ text ∈ optionalText row ["interest"],
    numeric (lender.storedText text) = lender.servedAmount row

instance (lender : Lender) (row : Json) : Decidable (lender.Faithful row) :=
  inferInstanceAs (Decidable (∀ text ∈ optionalText row ["interest"], _))

end Lender

/-- What the served rows charge an asset at a time. -/
def servedTotal (lender : Lender) (rows : List Json) (asset : String) (ts : ℤ) : ℚ :=
  ((rows.filter fun row =>
    lender.servedAsset row = some asset ∧ lender.servedTime row = some ts).map
      lender.servedAmount).sum

/-- The table has the total of the served rows of the range, for every asset at every time. Totals
    are compared because two charges of one asset and time may be one row of the table. -/
def NothingLost (lender : Lender) (range : TimeRange) (served : List Json)
    (pages : List (List Json)) : Prop :=
  ∀ asset ts, total (reached toUppercase lender range pages) asset ts =
    servedTotal lender (served.filter (lender.inRange range)) asset ts

/-- No two rows of the range agree in the fields that they are deduplicated by, and no two have
one record id. -/
def Distinguished (lender : Lender) (range : TimeRange) (served : List Json) : Prop :=
  (served.filter (lender.inRange range)).Pairwise fun r s =>
    ¬ Agree lender.fields r s ∧ cashId lender.client true r ≠ cashId lender.client true s

instance (lender : Lender) (range : TimeRange) (served : List Json) :
    Decidable (Distinguished lender range served) :=
  inferInstanceAs (Decidable (List.Pairwise _ _))

variable {toUppercase}

/-! ## Normalizing lists -/

theorem mapM_ok {α β : Type} {f : α → Result β} {l : List α} {out : List β}
    (h : l.mapM f = .ok out) : out = l.filterMap fun a => (f a).toOption := by
  induction l generalizing out with
  | nil =>
    cases h
    rfl
  | cons a l ih =>
    rw [List.mapM_cons] at h
    obtain ⟨b, hb, h⟩ := bind_eq_ok.mp h
    obtain ⟨rest, hrest, h⟩ := bind_eq_ok.mp h
    cases h
    rw [List.filterMap_cons_some (by rw [hb]; rfl), ih hrest]

theorem mapM_isOk {α β : Type} {f : α → Result β} {l : List α} (h : ∀ a ∈ l, (f a).isOk) :
    l.mapM f = .ok (l.filterMap fun a => (f a).toOption) := by
  induction l with
  | nil => rfl
  | cons a l ih =>
    have ha := h a List.mem_cons_self
    cases hb : f a with
    | error message =>
      rw [hb] at ha
      cases ha
    | ok b =>
      rw [List.mapM_cons, hb, ih fun c hc => h c (List.mem_cons_of_mem _ hc),
        List.filterMap_cons_some (by rw [hb]; rfl)]
      rfl

theorem recordId_of_normalized {lender : Lender} {row : Json} {cash : CashRow}
    (h : normalized toUppercase lender row = some cash) :
    cashId lender.client true row = some cash.recordId := by
  unfold normalized at h
  cases hcash : normalizeCash toUppercase lender.client .interest row with
  | error message =>
    rw [hcash] at h
    cases h
  | ok found =>
    rw [hcash] at h
    cases h
    exact normalizeCash_ok true hcash

/-- Accepted rows have the record ids of their charges. -/
theorem map_cashId {lender : Lender} {rows : List Json}
    (h : ∀ row ∈ rows, (normalizeCash toUppercase lender.client .interest row).isOk) :
    rows.map (cashId lender.client true) =
      (charges toUppercase lender rows).map fun cash => some cash.recordId := by
  induction rows with
  | nil => rfl
  | cons row rows ih =>
    have hrow := h row List.mem_cons_self
    cases hcash : normalizeCash toUppercase lender.client .interest row with
    | error message =>
      rw [hcash] at hrow
      cases hrow
    | ok cash =>
      have hnormalized : normalized toUppercase lender row = some cash := by
        rw [normalized, hcash]
        rfl
      unfold charges
      rw [List.filterMap_cons_some hnormalized, List.map_cons, List.map_cons,
        recordId_of_normalized hnormalized, ih fun r hr => h r (List.mem_cons_of_mem _ hr)]
      rfl

theorem charges_length {lender : Lender} {rows : List Json}
    (h : ∀ row ∈ rows, (normalizeCash toUppercase lender.client .interest row).isOk) :
    (charges toUppercase lender rows).length = rows.length := by
  simpa using congrArg List.length (map_cashId h).symm

/-! ## Totals -/

theorem total_perm {rows rows' : List CashRow} (h : rows.Perm rows') (asset : String) (ts : ℤ) :
    total rows asset ts = total rows' asset ts :=
  ((h.filter _).map _).sum_eq

theorem total_append (rows rows' : List CashRow) (asset : String) (ts : ℤ) :
    total (rows ++ rows') asset ts = total rows asset ts + total rows' asset ts := by
  unfold total
  rw [List.filter_append, List.map_append, List.sum_append]

/-- All amounts have the sign of one number. Where signs differ, charges that are lost could cancel.
    -/
def OneSign (amounts : List ℚ) : Prop := ∃ sign : ℚ, ∀ amount ∈ amounts, 0 < sign * amount

/-- Amounts of one sign that add up to nothing everywhere are none. -/
theorem eq_nil_of_total {rows : List CashRow} (hsign : OneSign (rows.map (numeric ·.amount)))
    (h : ∀ asset ts, total rows asset ts = 0) : rows = [] := by
  obtain ⟨sign, hsign⟩ := hsign
  replace hsign : ∀ row ∈ rows, 0 < sign * numeric row.amount := fun row hrow =>
    hsign _ (List.mem_map_of_mem hrow)
  cases rows with
  | nil => rfl
  | cons row rows =>
    exfalso
    have hzero := h row.asset row.eventTimeMs
    unfold total at hzero
    rw [List.filter_cons_of_pos (by simp), List.map_cons, List.sum_cons] at hzero
    have hrow := hsign row List.mem_cons_self
    have hrest : 0 ≤ sign * ((rows.filter fun other =>
        other.asset = row.asset ∧ other.eventTimeMs = row.eventTimeMs).map
          (numeric ·.amount)).sum := by
      rw [← List.sum_map_mul_left]
      refine List.sum_nonneg fun x hx => ?_
      obtain ⟨other, hother, rfl⟩ := List.mem_map.mp hx
      exact (hsign other (List.mem_cons_of_mem _ (List.mem_of_mem_filter hother))).le
    have hsum := congrArg (sign * ·) hzero
    simp only [mul_add, mul_zero] at hsum
    linarith

/-! ## What is kept -/

variable {lender : Lender} {range : TimeRange} {served : List Json} {pages : List (List Json)}

/-- The pages bring every served row at least once, and no other. Pages overlap, so a row may come
    in several of them. -/
def Delivers (pages : List (List Json)) (served : List Json) : Prop :=
  ∀ row, row ∈ pages.flatten ↔ row ∈ served

theorem mem_interestRows {row : Json} (hpages : Delivers pages served)
    (h : row ∈ lender.interestRows range pages) :
    row ∈ served.filter (lender.inRange range) := by
  have hmem := (keepFirst_sublist _ _ _).subset (mem_sortByKey.mp h)
  obtain ⟨page, hpage, hrow⟩ := List.mem_flatMap.mp hmem
  obtain ⟨hrow, hrange⟩ := List.mem_filter.mp hrow
  exact List.mem_filter.mpr
    ⟨(hpages row).mp (List.mem_flatten_of_mem hpage hrow), hrange⟩

/-- The rows that are kept have distinct fields of deduplication. -/
theorem interestRows_nodup :
    ((lender.interestRows range pages).map (dedupKey lender.fields)).Nodup :=
  ((sortByKey_perm _ _).map _).nodup_iff.mpr (keepFirst_nodup _ _ _)

/-- For every row of the range a row is kept that agrees with it. -/
theorem exists_interestRow {row : Json} (hpages : Delivers pages served)
    (h : row ∈ served.filter (lender.inRange range)) :
    ∃ kept ∈ lender.interestRows range pages, Agree lender.fields kept row := by
  obtain ⟨hrow, hrange⟩ := List.mem_filter.mp h
  obtain ⟨page, hpage, hrow⟩ := List.mem_flatten.mp ((hpages row).mpr hrow)
  obtain ⟨kept, hkept, hkey⟩ := exists_keepFirst (dedupKey lender.fields)
    (List.mem_flatMap.mpr ⟨page, hpage, List.mem_filter.mpr ⟨hrow, hrange⟩⟩) List.not_mem_nil
  exact ⟨kept, mem_sortByKey.mpr hkept, dedupKey_eq.mp hkey⟩

/-- Where rows are distinguished all of them are kept. -/
theorem interestRows_perm (hserved : served.Nodup) (hpages : Delivers pages served)
    (h : Distinguished lender range served) :
    (lender.interestRows range pages).Perm (served.filter (lender.inRange range)) := by
  have hnodup : (lender.interestRows range pages).Nodup := interestRows_nodup.of_map _
  refine (List.perm_ext_iff_of_nodup hnodup (hserved.filter _)).mpr fun row => ?_
  refine ⟨mem_interestRows hpages, fun hrow => ?_⟩
  obtain ⟨kept, hkept, hagree⟩ := exists_interestRow hpages hrow
  by_cases heq : kept = row
  · exact heq ▸ hkept
  · have hdistinct : (served.filter (lender.inRange range)).Pairwise fun r s =>
        dedupKey lender.fields r ≠ dedupKey lender.fields s :=
      h.imp fun hrs hkey => hrs.1 (dedupKey_eq.mp hkey)
    have : Std.Symm fun r s => dedupKey lender.fields r ≠ dedupKey lender.fields s :=
      ⟨fun _ _ hne => hne.symm⟩
    exact absurd (dedupKey_eq.mpr hagree)
      (hdistinct.forall (mem_interestRows hpages hkept) hrow heq)

/-- The rows of an accepted run, and the table they come into. -/
theorem syncInterest_ok {t : InterestTable}
    (h : syncInterest toUppercase lender range pages = .ok t) :
    t = Table.empty.putAll (charges toUppercase lender (lender.interestRows range pages)) := by
  obtain ⟨rows, hrows, h⟩ := bind_eq_ok.mp h
  unfold commitCash at h
  split at h
  case h_1 t' ht' =>
    cases h
    rw [Table.eq_of_putBatches ht', mapM_ok hrows]
    rfl
  case h_2 => cases h

/-- What reaches the table are charges of kept rows, each at most once. -/
theorem reached_subperm :
    (reached toUppercase lender range pages).Subperm
      (charges toUppercase lender (lender.interestRows range pages)) := by
  unfold reached
  cases hsync : syncInterest toUppercase lender range pages with
  | error message => exact List.nil_subperm
  | ok t =>
    refine List.subperm_of_subset t.rows_nodup fun cash hcash => ?_
    rw [syncInterest_ok hsync] at hcash
    rcases Table.mem_putAll hcash with h | h
    · exact h
    · cases h

/-! ## Nothing is lost -/

/-- Where rows are distinguished the run is accepted and stores every charge. -/
theorem chargesKept_of_distinguished (hserved : served.Nodup) (hpages : Delivers pages served)
    (haccepted : ∀ row ∈ served.filter (lender.inRange range),
      (normalizeCash toUppercase lender.client .interest row).isOk)
    (h : Distinguished lender range served) :
    ChargesKept toUppercase lender range served pages := by
  have hperm := interestRows_perm hserved hpages h
  have hcharges : (charges toUppercase lender (lender.interestRows range pages)).Perm
      (charges toUppercase lender (served.filter (lender.inRange range))) := hperm.filterMap _
  have hids : ((charges toUppercase lender (served.filter (lender.inRange range))).map
      CashRow.recordId).Nodup := by
    refine List.pairwise_map.mpr (List.Pairwise.filterMap _ ?_ h)
    rintro r s ⟨-, hid⟩ cash hcash cash' hcash' heq
    refine hid ?_
    rw [recordId_of_normalized hcash, recordId_of_normalized hcash', heq]
  have hnodup := (hcharges.map CashRow.recordId).nodup_iff.mpr hids
  have hsync : syncInterest toUppercase lender range pages =
      .ok (Table.empty.putAll (charges toUppercase lender (lender.interestRows range pages))) := by
    unfold syncInterest
    rw [mapM_isOk fun row hrow => haccepted row (mem_interestRows hpages hrow)]
    show commitCash _ (charges toUppercase lender (lender.interestRows range pages)) = _
    rw [commitCash, Table.putBatches_eq_some hnodup]
  intro asset ts
  unfold reached
  rw [hsync]
  refine total_perm (List.Perm.trans ?_ hcharges) asset ts
  have hput := Table.putAll_perm (t := Table.empty) hnodup fun _ _ => rfl
  rwa [show (Table.empty : InterestTable).rows = [] from rfl, List.append_nil] at hput

theorem reached_ids_nodup :
    ((reached toUppercase lender range pages).map CashRow.recordId).Nodup := by
  unfold reached
  cases syncInterest toUppercase lender range pages with
  | error message => exact List.nodup_nil
  | ok t => exact List.pairwise_map.mpr (t.sorted.imp fun hlt => ne_of_lt hlt)

/-- Where charges have one sign, all are kept only if rows are distinguished. -/
theorem distinguished_of_chargesKept (hpages : Delivers pages served)
    (haccepted : ∀ row ∈ served.filter (lender.inRange range),
      (normalizeCash toUppercase lender.client .interest row).isOk)
    (hsign : OneSign ((charges toUppercase lender (served.filter (lender.inRange range))).map
      (numeric ·.amount)))
    (h : ChargesKept toUppercase lender range served pages) :
    Distinguished lender range served := by
  unfold ChargesKept at h
  unfold Distinguished
  generalize hrows : served.filter (lender.inRange range) = rows at h hsign haccepted ⊢
  have hkeptSub : ∀ row ∈ lender.interestRows range pages, row ∈ rows :=
    fun row hrow => hrows ▸ mem_interestRows hpages hrow
  have hkept : (lender.interestRows range pages).Subperm rows :=
    List.subperm_of_subset (interestRows_nodup.of_map _) hkeptSub
  obtain ⟨kept', hkept', hsublist⟩ := hkept
  have hsub : (reached toUppercase lender range pages).Subperm (charges toUppercase lender rows) :=
    reached_subperm.trans ⟨_, hkept'.filterMap _, hsublist.filterMap _⟩
  obtain ⟨reached', hreached', hsublist'⟩ := hsub
  obtain ⟨rest, hrest⟩ := hsublist'.exists_perm_append
  have hall : (charges toUppercase lender rows).Perm
      (reached toUppercase lender range pages ++ rest) :=
    hrest.trans (hreached'.append_right rest)
  -- what is left out adds up to nothing, so nothing is left out
  have hnil : rest = [] := by
    obtain ⟨sign, hsign⟩ := hsign
    refine eq_nil_of_total ⟨sign, fun amount hamount => ?_⟩ fun asset ts => ?_
    · obtain ⟨row, hrow, rfl⟩ := List.mem_map.mp hamount
      exact hsign _ (List.mem_map_of_mem (hall.mem_iff.mpr (List.mem_append_right _ hrow)))
    · have htotal := total_perm hall asset ts
      rw [total_append, h asset ts] at htotal
      linarith
  rw [hnil, List.append_nil] at hall
  -- so every row is kept
  have hlength : rows.length ≤ (lender.interestRows range pages).length := by
    calc rows.length
        = (charges toUppercase lender rows).length := (charges_length haccepted).symm
      _ = (reached toUppercase lender range pages).length := hall.length_eq
      _ ≤ (charges toUppercase lender (lender.interestRows range pages)).length :=
          reached_subperm.length_le
      _ = (lender.interestRows range pages).length :=
          charges_length fun row hrow => haccepted row (hkeptSub row hrow)
  have hperm : (lender.interestRows range pages).Perm rows :=
    (List.Subperm.perm_of_length_le ⟨kept', hkept', hsublist⟩ hlength)
  have hkeys : (rows.map (dedupKey lender.fields)).Nodup :=
    (hperm.map _).nodup_iff.mp interestRows_nodup
  have hids : (rows.map (cashId lender.client true)).Nodup := by
    have hnodup := (hall.map CashRow.recordId).nodup_iff.mpr reached_ids_nodup
    rw [map_cashId haccepted, ← Function.comp_def, ← List.map_map]
    exact hnodup.map fun _ _ => Option.some.inj
  refine ((List.pairwise_map.mp hkeys).and (List.pairwise_map.mp hids)).imp ?_
  rintro r s ⟨hkey, hid⟩
  exact ⟨fun hagree => hkey (dedupKey_eq.mpr hagree), hid⟩

/-! ## Stored and served amounts -/

/-- The amount that is stored of a row. -/
def Lender.storedAmount (lender : Lender) (row : Json) : ℚ :=
  (optionalText row ["interest"]).elim 0 fun text => numeric (lender.storedText text)

/-- What a charge is made of. -/
theorem charge_of_normalized {row : Json} {cash : CashRow}
    (h : normalized toUppercase lender row = some cash) :
    lender.servedAsset row = some cash.asset ∧ lender.servedTime row = some cash.eventTimeMs ∧
      ∃ text, optionalText row ["interest"] = some text ∧ cash.amount = lender.storedText text := by
  unfold normalized at h
  cases hcash : normalizeCash toUppercase lender.client .interest row with
  | error message =>
    rw [hcash] at h
    cases h
  | ok found =>
    rw [hcash] at h
    obtain rfl := Option.some_injective _ h
    simp only [normalizeCash, bind_eq_ok] at hcash
    obtain ⟨fields, hfields, _, -, _, -, hcash⟩ := hcash
    cases hcash
    cases lender with
    | gate =>
      simp only [Lender.client, cashFields, bind_eq_ok, textField_ok] at hfields
      obtain ⟨asset, hasset, ts, hts, amount, hamount, value, hvalue, hfields⟩ := hfields
      cases hfields
      refine ⟨by simp only [Lender.servedAsset, hasset, Option.map_some],
        by simp only [Lender.servedTime, hts, Except.toOption], amount, (numberField_ok hamount).1, ?_⟩
      simp only [Lender.storedText, hvalue, Except.toOption, Option.elim_some]
    | okx =>
      simp only [Lender.client, cashFields, bind_eq_ok, textField_ok] at hfields
      obtain ⟨asset, hasset, ts, hts, amount, hamount, hfields⟩ := hfields
      cases hfields
      exact ⟨by simp only [Lender.servedAsset, hasset, Option.map_some],
        by simp only [Lender.servedTime, hts, Except.toOption], amount, (numberField_ok hamount).1,
        rfl⟩

/-- The charges of accepted rows have the stored amounts, for the assets and times of the rows. -/
theorem total_charges {rows : List Json}
    (haccepted : ∀ row ∈ rows, (normalizeCash toUppercase lender.client .interest row).isOk)
    (asset : String) (ts : ℤ) :
    total (charges toUppercase lender rows) asset ts =
      ((rows.filter fun row =>
        lender.servedAsset row = some asset ∧ lender.servedTime row = some ts).map
          lender.storedAmount).sum := by
  induction rows with
  | nil => rfl
  | cons row rows ih =>
    replace ih := ih fun r hr => haccepted r (List.mem_cons_of_mem _ hr)
    cases hcash : normalized toUppercase lender row with
    | none =>
      have hrow := haccepted row List.mem_cons_self
      unfold normalized at hcash
      cases hresult : normalizeCash toUppercase lender.client .interest row with
      | error message =>
        rw [hresult] at hrow
        cases hrow
      | ok cash =>
        rw [hresult] at hcash
        cases hcash
    | some cash =>
      obtain ⟨hasset, htime, text, htext, hamount⟩ := charge_of_normalized hcash
      have hstored : lender.storedAmount row = numeric cash.amount := by
        rw [Lender.storedAmount, htext, hamount]
        rfl
      unfold charges total at ih ⊢
      rw [List.filterMap_cons_some hcash, List.filter_cons, List.filter_cons, hasset, htime]
      simp only [Option.some.injEq]
      split
      · rw [List.map_cons, List.map_cons, List.sum_cons, List.sum_cons, ih, hstored]
      · exact ih

theorem faithful_iff {row : Json} (h : (optionalText row ["interest"]).isSome) :
    lender.Faithful row ↔ lender.storedAmount row = lender.servedAmount row := by
  obtain ⟨text, htext⟩ := Option.isSome_iff_exists.mp h
  simp only [Lender.Faithful, Lender.storedAmount, htext, Option.mem_some_iff, forall_eq',
    Option.elim_some]

theorem interest_isSome {row : Json}
    (h : (normalizeCash toUppercase lender.client .interest row).isOk) :
    (optionalText row ["interest"]).isSome := by
  cases hresult : normalizeCash toUppercase lender.client .interest row with
  | error message =>
    rw [hresult] at h
    cases h
  | ok cash =>
    have hcash : normalized toUppercase lender row = some cash := by
      rw [normalized, hresult]
      rfl
    obtain ⟨-, -, text, htext, -⟩ := charge_of_normalized hcash
    rw [htext]
    rfl

/-- Of the rows with one asset and one time there is one. -/
theorem filter_key_eq {α β : Type} [DecidableEq β] {key : α → β} {l : List α}
    (h : (l.map key).Nodup) {a : α} (ha : a ∈ l) : l.filter (fun b => key b = key a) = [a] := by
  induction l with
  | nil => cases ha
  | cons b l ih =>
    obtain ⟨hb, hl⟩ := List.nodup_cons.mp h
    rcases List.mem_cons.mp ha with rfl | ha
    · have hnone : l.filter (fun b => key b = key a) = [] := List.filter_eq_nil_iff.mpr
        fun c hc heq => hb (of_decide_eq_true heq ▸ List.mem_map_of_mem hc)
      rw [List.filter_cons_of_pos (by simp), hnone]
    · have hne : key b ≠ key a := fun heq => hb (heq ▸ List.mem_map_of_mem ha)
      rw [List.filter_cons_of_neg (by simpa using hne), ih hl ha]

/-- Two hours of interest, as Gate serves them: without an id, `create_time` in milliseconds. -/
def gateHour (time interest : String) : Json :=
  textRow [("currency", "USDT"), ("interest", interest), ("create_time", time)]

/-- Interest on a pair, as OKX serves it. -/
def okxHour (instrument : String) : Json :=
  textRow [("ccy", "USDT"), ("instId", instrument), ("interest", "0.5"), ("ts", "1700003600000")]

def hours : TimeRange := ⟨1700000000000, 1700009000000⟩

/-- Different rows of the range that are all accepted, and not all stored. -/
def Loses (lender : Lender) (served : List Json) : Prop :=
  served.Nodup ∧
    (∀ row ∈ served, lender.inRange hours row ∧
      (normalizeCash plain.toUppercase lender.client .interest row).isOk) ∧
    ¬ NothingLost plain.toUppercase lender hours served [served]

end CryptoNav.History.Raw
