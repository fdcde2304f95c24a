import CryptoNav.History.Symbols
import CryptoNav.Lib.Table
import CryptoNav.Lib.Text
import CryptoNav.Pnl.Multipliers

/-!
# The daily refresh of the contract multipliers

At every midnight the specifications of the contracts are downloaded from Gate and OKX and stored
for the day, each exchange in one transaction. Symbols are stored in capitals, so that a book of
these rows has one spelling of each and every lookup in it finds what is in force
(`inForce_of_cycles`). But the database multiplies the two factors itself and rounds, and a product
that it rounds to zero, or two contracts of one symbol, keep the book of the whole exchange from
loading (`loads_iff`).

The downloads are left out, and their answers are inputs; whether a refresh of one exchange
fails makes no difference to the other. `numeric` is exact up to the decimals of its column, and
what an `f64` makes of it is a parameter with the few properties that are used. Books are loaded
from whatever the table holds by then, and what was in force before the first refresh is unknown
to them.
-/

set_option autoImplicit false

namespace CryptoNav.Pnl

open CryptoNav.Lib CryptoNav.History.Raw

inductive ContractExchange where
  | gate
  | okx
  deriving DecidableEq

def ContractExchange.name : ContractExchange → String
  | .gate => "gate"
  | .okx => "okx"

structure ContractSpec where
  exchange : ContractExchange
  instrument : String
  symbol : String
  baseAsset : String
  quoteAsset : String
  contractValue : String
  contractFactor : String
  status : Option String
  raw : Json

/-! ## The answers -/

def valueText : Json → Option String
  | .string text => some text
  | .number number => some number.text
  | _ => none

def optionalField (value : Json) (key : String) : Option String :=
  ((value.get key).bind valueText).filter (· ≠ "")

def requiredText (value : Json) (key context : String) : Except String String :=
  match optionalField value key with
  | some text => .ok text
  | none => .error s!"{context} is missing {key}"

def requiredPositiveNumeric (value : Json) (key instrument : String) : Except String String := do
  let text ← requiredText value key instrument
  match parseFloat text.toList with
  | none => .error s!"{instrument} has invalid {key}: {text}"
  | some number =>
    if !number.isFinite ∨ number ≤ 0 then .error s!"{instrument} has non-positive {key}: {text}"
    else .ok text

def symbolText (value : String) : List Char :=
  (uppercase (trim value)).toList.filter fun c => c ≠ '-' && c ≠ '_' && c ≠ '/'

section
-- `char::is_alphanumeric`
variable (isAlphanumeric : Char → Bool)

/-- `normalize_symbol` -/
def contractSymbol (value : String) : Except String String :=
  let symbol := symbolText value
  if symbol.isEmpty || !symbol.all isAlphanumeric then
    .error s!"invalid normalized symbol from {value}"
  else .ok (.ofList symbol)

/-- A turn of the loop of `parse_gate_contracts`. -/
def gateContract (raw : Json) : Except String (Option ContractSpec) := do
  let instrument ← requiredText raw "name" "Gate contract"
  match splitOnce ['_'] instrument.toList with
  | none => .error s!"Gate contract has invalid name: {instrument}"
  | some (base, quote) =>
    if uppercase (.ofList quote) ≠ "USDT" then pure none
    else
      let contractValue ← requiredPositiveNumeric raw "quanto_multiplier" instrument
      let symbol ← contractSymbol isAlphanumeric instrument
      pure (some
        { exchange := .gate
          instrument
          symbol
          baseAsset := uppercase (.ofList base)
          quoteAsset := uppercase (.ofList quote)
          contractValue
          contractFactor := "1"
          status := optionalField raw "status"
          raw })

def parseGateContracts : Json → Except String (List ContractSpec)
  | .array contracts => do
    let rows ← contracts.mapM (gateContract isAlphanumeric)
    pure rows.reduceOption
  | _ => .error "Gate contracts response is not an array"

def okxFactor (raw : Json) (instrument : String) : Except String String :=
  match optionalField raw "ctMult" with
  | some _ => requiredPositiveNumeric raw "ctMult" instrument
  | none => .ok "1"

/-- A turn of the loop of `parse_okx_contracts`. -/
def okxContract (raw : Json) : Except String (Option ContractSpec) :=
  if optionalField raw "ctType" ≠ some "linear" ∨ optionalField raw "settleCcy" ≠ some "USDT" then
    .ok none
  else do
    let instrument ← requiredText raw "instId" "OKX contract"
    let base := instrument.toList.takeWhile (· ≠ '-')
    if base.isEmpty then .error s!"OKX contract has invalid instId: {instrument}"
    else
      let contractValue ← requiredPositiveNumeric raw "ctVal" instrument
      let contractFactor ← okxFactor raw instrument
      let symbol ← contractSymbol isAlphanumeric (.ofList (trimSwap instrument.toList))
      pure (some
        { exchange := .okx
          instrument
          symbol
          baseAsset := uppercase (.ofList base)
          quoteAsset := "USDT"
          contractValue
          contractFactor
          status := optionalField raw "state"
          raw })

def parseOkxContracts (value : Json) : Except String (List ContractSpec) := do
  let code ← requiredText value "code" "OKX response"
  if code ≠ "0" then
    .error ("OKX contract API error " ++ code ++ ": " ++
      (optionalField value "msg").getD "unknown error")
  else
    match value.get "data" with
    | some (.array contracts) => do
      let rows ← contracts.mapM (okxContract isAlphanumeric)
      pure rows.reduceOption
    | _ => .error "OKX contracts response is missing data array"

def parseContracts : ContractExchange → Json → Except String (List ContractSpec)
  | .gate => parseGateContracts isAlphanumeric
  | .okx => parseOkxContracts isAlphanumeric

end

/-! ## The table -/

/-- The units of `NUMERIC(38, 18)`. -/
def numericScale : ℕ := 10 ^ 18

def numericBound : ℕ := 10 ^ 38

/-- A non-negative number as `NUMERIC(38, 18)` keeps it, halves rounded up. -/
def toNumeric (x : ℚ) : Option ℕ :=
  let units := ⌊x * numericScale + 1 / 2⌋₊
  if units < numericBound then some units else none

/-- The generated column `contract_value * contract_factor`. -/
def numericProduct (a b : ℕ) : Option ℕ := toNumeric ((a : ℚ) / numericScale * (b / numericScale))

/-- A row of `contract_multipliers`; the table's checks are fields. -/
structure StoredContract where
  exchange : ContractExchange
  instrument : String
  symbol : String
  baseAsset : String
  quoteAsset : String
  contractValue : ℕ
  contractFactor : ℕ
  contractMultiplier : ℕ
  status : Option String
  effectiveAtMs : ℕ
  raw : Json
  value_pos : 0 < contractValue
  factor_pos : 0 < contractFactor
  generated : numericProduct contractValue contractFactor = some contractMultiplier

def StoredContract.key (row : StoredContract) : String ×ₗ String ×ₗ ℕ :=
  toLex (row.exchange.name, toLex (row.instrument, row.effectiveAtMs))

abbrev StoredContracts : Type := Table StoredContract.key

/-- `$1::numeric`, as the column keeps it. -/
def castNumeric (text : String) : Option ℕ :=
  (parseDecimal text.toList).bind fun decimal => toNumeric decimal.value

def ContractSpec.store (spec : ContractSpec) (effectiveAtMs : ℤ) : Option StoredContract :=
  (castNumeric spec.contractValue).bind fun contractValue =>
  (castNumeric spec.contractFactor).bind fun contractFactor =>
    match hproduct : numericProduct contractValue contractFactor with
    | none => none
    | some contractMultiplier =>
      if h : 0 < contractValue ∧ 0 < contractFactor ∧ 0 ≤ effectiveAtMs then
        some
          { exchange := spec.exchange
            instrument := spec.instrument
            symbol := spec.symbol
            baseAsset := spec.baseAsset
            quoteAsset := spec.quoteAsset
            contractValue
            contractFactor
            contractMultiplier
            status := spec.status
            effectiveAtMs := effectiveAtMs.toNat
            raw := spec.raw
            value_pos := h.1
            factor_pos := h.2.1
            generated := hproduct }
      else none

def batchSize : ℕ := 500

/-- The transaction of `upsert_specs`: all rows or none. -/
def upsertSpecs (table : StoredContracts) (specs : List ContractSpec) (effectiveAtMs : ℤ) :
    Option StoredContracts :=
  (specs.mapM (ContractSpec.store · effectiveAtMs)).bind (table.putBatches batchSize ·)

/-! ## Refreshes -/

/-- What a cycle finds: the start of the day and what the exchanges answer. -/
structure RefreshCycle where
  effectiveAtMs : ℤ
  answers : ContractExchange → Except String Json

section
variable (isAlphanumeric : Char → Bool)

/-- The table after `refresh_exchange`; an error is logged and leaves it as it was. -/
def refreshExchange (cycle : RefreshCycle) (table : StoredContracts) (exchange : ContractExchange) :
    StoredContracts :=
  match cycle.answers exchange >>= parseContracts isAlphanumeric exchange with
  | .error _ => table
  | .ok [] => table
  | .ok specs => (upsertSpecs table specs cycle.effectiveAtMs).getD table

def refreshCycle (table : StoredContracts) (cycle : RefreshCycle) : StoredContracts :=
  [ContractExchange.gate, .okx].foldl (refreshExchange isAlphanumeric cycle) table

def afterCycles (cycles : List RefreshCycle) : StoredContracts :=
  cycles.foldl (refreshCycle isAlphanumeric) .empty

end

/-! ## The query of a book -/

/-- `contract_multiplier::float8`: PostgreSQL reads a number of units as the nearest `f64`. -/
structure Float8 where
  ofUnits : ℕ → Float
  zero : ofUnits 0 = 0
  finite : ∀ n < numericBound, (ofUnits n).isFinite = true
  positive : ∀ n < numericBound, 0 < n → ¬ofUnits n ≤ 0

def StoredContract.row (float8 : Float8) (row : StoredContract) : MultiplierRow where
  symbol := row.symbol
  contractMultiplier := float8.ofUnits row.contractMultiplier
  effectiveAtMs := row.effectiveAtMs

/-- The rows of the query in `load`. It orders them by symbol and time; which symbol comes first
depends on the collation of the database. -/
structure Queried (float8 : Float8) (table : StoredContracts) (exchange : ContractExchange)
    (rows : List MultiplierRow) : Prop where
  perm : rows.Perm ((table.rows.filter (·.exchange = exchange)).map (·.row float8))
  sorted : rows.Pairwise fun a b => a.symbol = b.symbol → a.effectiveAtMs ≤ b.effectiveAtMs

/-! ## Symbols are stored in capitals -/

section
variable {isAlphanumeric : Char → Bool}

theorem toUpper_of_mem_symbolText {value : String} : ∀ c ∈ symbolText value, c.toUpper = c := by
  intro c hc
  have hc := (List.mem_filter.mp hc).1
  unfold uppercase at hc
  rw [String.toList_ofList] at hc
  obtain ⟨d, -, rfl⟩ := List.mem_map.mp hc
  exact toUpper_toUpper d

theorem contractSymbol_uppercase {value symbol : String}
    (h : contractSymbol isAlphanumeric value = .ok symbol) : uppercase symbol = symbol := by
  unfold contractSymbol at h
  simp only at h
  split at h
  · cases h
  · have h := Except.ok.inj h
    subst h
    unfold uppercase
    rw [String.toList_ofList, List.map_congr_left toUpper_of_mem_symbolText, List.map_id']

theorem gateContract_symbol {raw : Json} {spec : ContractSpec}
    (h : gateContract isAlphanumeric raw = .ok (some spec)) :
    spec.exchange = .gate ∧ uppercase spec.symbol = spec.symbol := by
  obtain ⟨instrument, -, h⟩ := bind_eq_ok.mp h
  split at h
  · cases h
  · split at h
    · cases h
    · obtain ⟨value, -, h⟩ := bind_eq_ok.mp h
      obtain ⟨symbol, hsymbol, h⟩ := bind_eq_ok.mp h
      cases pure_eq_ok.mp h
      exact ⟨rfl, contractSymbol_uppercase hsymbol⟩

theorem okxContract_symbol {raw : Json} {spec : ContractSpec}
    (h : okxContract isAlphanumeric raw = .ok (some spec)) :
    spec.exchange = .okx ∧ uppercase spec.symbol = spec.symbol := by
  unfold okxContract at h
  split at h
  · cases h
  · obtain ⟨instrument, -, h⟩ := bind_eq_ok.mp h
    simp only at h
    split at h
    · cases h
    · obtain ⟨value, -, h⟩ := bind_eq_ok.mp h
      obtain ⟨factor, -, h⟩ := bind_eq_ok.mp h
      obtain ⟨symbol, hsymbol, h⟩ := bind_eq_ok.mp h
      cases pure_eq_ok.mp h
      exact ⟨rfl, contractSymbol_uppercase hsymbol⟩

theorem parseContracts_symbol {exchange : ContractExchange} {value : Json}
    {specs : List ContractSpec} (h : parseContracts isAlphanumeric exchange value = .ok specs)
    {spec : ContractSpec} (hspec : spec ∈ specs) :
    spec.exchange = exchange ∧ uppercase spec.symbol = spec.symbol := by
  cases exchange with
  | gate =>
    cases value with
    | array contracts =>
      obtain ⟨rows, hrows, h⟩ := bind_eq_ok.mp h
      cases pure_eq_ok.mp h
      obtain ⟨raw, -, hraw⟩ := mem_of_mapM hrows (List.reduceOption_mem_iff.mp hspec)
      exact gateContract_symbol hraw
    | _ => cases h
  | okx =>
    obtain ⟨code, -, h⟩ := bind_eq_ok.mp h
    split at h
    · cases h
    · split at h
      · obtain ⟨rows, hrows, h⟩ := bind_eq_ok.mp h
        cases pure_eq_ok.mp h
        obtain ⟨raw, -, hraw⟩ := mem_of_mapM hrows (List.reduceOption_mem_iff.mp hspec)
        exact okxContract_symbol hraw
      · cases h

end

theorem ContractSpec.store_eq {spec : ContractSpec} {effectiveAtMs : ℤ} {row : StoredContract}
    (h : spec.store effectiveAtMs = some row) :
    row.symbol = spec.symbol ∧ row.exchange = spec.exchange := by
  obtain ⟨value, -, h⟩ := Option.bind_eq_some_iff.mp h
  obtain ⟨factor, -, h⟩ := Option.bind_eq_some_iff.mp h
  split at h
  · cases h
  · split at h
    · cases h
      exact ⟨rfl, rfl⟩
    · cases h

section
variable {isAlphanumeric : Char → Bool}

/-- A refresh leaves the table as it was or puts a row for every contract that was answered. -/
theorem refreshExchange_cases (isAlphanumeric : Char → Bool) (cycle : RefreshCycle)
    (table : StoredContracts) (exchange : ContractExchange) :
    refreshExchange isAlphanumeric cycle table exchange = table ∨
      ∃ value specs rows, cycle.answers exchange = .ok value ∧
        parseContracts isAlphanumeric exchange value = .ok specs ∧
        specs.mapM (ContractSpec.store · cycle.effectiveAtMs) = some rows ∧
        refreshExchange isAlphanumeric cycle table exchange = table.putAll rows := by
  unfold refreshExchange
  cases hspecs : cycle.answers exchange >>= parseContracts isAlphanumeric exchange with
  | error e => exact .inl rfl
  | ok specs =>
    obtain ⟨value, hvalue, hparse⟩ := bind_eq_ok.mp hspecs
    cases specs with
    | nil => exact .inl rfl
    | cons spec specs =>
      cases hupsert : upsertSpecs table (spec :: specs) cycle.effectiveAtMs with
      | none => exact .inl (by simp only [hupsert, Option.getD_none])
      | some table' =>
        obtain ⟨rows, hrows, hput⟩ := Option.bind_eq_some_iff.mp hupsert
        refine .inr ⟨value, spec :: specs, rows, hvalue, hparse, hrows, ?_⟩
        simp only [hupsert, Option.getD_some]
        exact Table.eq_of_putBatches hput

theorem refreshExchange_symbols {cycle : RefreshCycle} {table : StoredContracts}
    {exchange : ContractExchange} (h : ∀ row ∈ table.rows, uppercase row.symbol = row.symbol) :
    ∀ row ∈ (refreshExchange isAlphanumeric cycle table exchange).rows,
      uppercase row.symbol = row.symbol := by
  rcases refreshExchange_cases isAlphanumeric cycle table exchange with
    hsame | ⟨value, specs, rows, -, hparse, hrows, hput⟩
  · rwa [hsame]
  · rw [hput]
    intro row hrow
    rcases Table.mem_putAll hrow with hrow | hrow
    · obtain ⟨spec, hspec, hstore⟩ := mem_of_mapM_some hrows hrow
      rw [(spec.store_eq hstore).1]
      exact (parseContracts_symbol hparse hspec).2
    · exact h row hrow

theorem afterCycles_symbols (cycles : List RefreshCycle) :
    ∀ row ∈ (afterCycles isAlphanumeric cycles).rows, uppercase row.symbol = row.symbol := by
  induction cycles using List.reverseRecOn with
  | nil => exact fun _ h => by cases h
  | append_singleton cycles cycle ih =>
    rw [afterCycles, List.foldl_append]
    exact refreshExchange_symbols (refreshExchange_symbols ih)

end

/-! ## Books of stored rows -/

section
variable {isAlphanumeric : Char → Bool} {cycles : List RefreshCycle} {float8 : Float8}
  {exchange : ContractExchange} {rows : List MultiplierRow}

theorem Queried.symbols (h : Queried float8 (afterCycles isAlphanumeric cycles) exchange rows) :
    ∀ row ∈ rows, uppercase row.symbol = row.symbol := by
  intro row hrow
  obtain ⟨stored, hstored, rfl⟩ := List.mem_map.mp (h.perm.mem_iff.mp hrow)
  exact afterCycles_symbols cycles stored (List.mem_filter.mp hstored).1

/-- Stored symbols have one spelling, so the query has the rows of each in the order of time. -/
theorem Queried.inTimeOrder (h : Queried float8 (afterCycles isAlphanumeric cycles) exchange rows)
    (symbol : String) : InTimeOrder rows symbol := by
  refine (h.sorted.filter _).imp_of_mem fun {a b} ha hb hab => hab ?_
  obtain ⟨ha, hasymbol⟩ := List.mem_filter.mp ha
  obtain ⟨hb, hbsymbol⟩ := List.mem_filter.mp hb
  rw [← h.symbols a ha, ← h.symbols b hb, of_decide_eq_true hasymbol, of_decide_eq_true hbsymbol]

/-- **Books of what the refreshes stored are correct as-of lookups.** Whenever the book of an
exchange loads, a lookup finds the multiplier that is in force among the stored rows, for every
symbol in any letter case and every time. -/
theorem inForce_of_cycles (h : Queried float8 (afterCycles isAlphanumeric cycles) exchange rows)
    {book : ContractMultiplierBook}
    (hbook : ContractMultiplierBook.fromRows exchange.name rows = .ok book) (symbol : String)
    (point : PartitionPoint) (ts : ℤ) :
    InForce rows symbol ts (book.multiplierAt point symbol ts) :=
  (ContractMultiplierBook.fromRows_snapshots hbook symbol).inForce_of_ordered
    (h.inTimeOrder symbol) (book.multiplierAt_toOption point symbol ts)

end

/-! ## Books that do not load -/

/-- The row passes the check of `from_rows`. -/
def MultiplierRow.Valid (row : MultiplierRow) : Prop :=
  row.contractMultiplier.isFinite = true ∧ ¬row.contractMultiplier ≤ 0

theorem MultiplierRow.Valid.beq_self {row : MultiplierRow} (h : row.Valid) :
    (row.contractMultiplier == row.contractMultiplier) = true := by
  have hne : row.contractMultiplier ≠ .nan := fun hnan => by
    have hfinite := h.1
    rw [hnan] at hfinite
    exact absurd hfinite (by decide)
  exact Float.beq_iff_ne_nan_and_eq.mpr ⟨hne, hne, .inl rfl⟩

namespace ContractMultiplierBook

theorem addRow_valid {exchange : String}
    {bySymbol after : String → Option (List MultiplierSnapshot)} {row : MultiplierRow}
    (h : addRow exchange bySymbol row = .ok after) : row.Valid := by
  unfold addRow at h
  split at h
  · cases h
  · next hvalid =>
    obtain ⟨hfinite, hpos⟩ := not_or.mp hvalid
    exact ⟨by simpa using hfinite, hpos⟩

theorem valid_of_run {exchange : String} {rows : List MultiplierRow}
    {bySymbol : String → Option (List MultiplierSnapshot)}
    (h : rows.foldlM (addRow exchange) (fun _ => none) = .ok bySymbol) :
    ∀ row ∈ rows, row.Valid := by
  refine run_prefix (P := fun past _ => ∀ row ∈ past, row.Valid) ?_ (by simp) h
  intro past row rest _ s t hpast hstep a ha
  rcases List.mem_append.mp ha with ha | ha
  · exact hpast a ha
  · cases List.mem_singleton.mp ha
    exact addRow_valid hstep

/-- Some two rows of a symbol agree in the time and not in the multiplier. Spellings do not count,
    and neither do rows that agree in both. -/
def Conflicting (rows : List MultiplierRow) : Prop :=
  ∃ a ∈ rows, ∃ b ∈ rows, uppercase a.symbol = uppercase b.symbol ∧
    a.effectiveAtMs = b.effectiveAtMs ∧ a.contractMultiplier ≠ b.contractMultiplier

theorem snapshots_of_run {exchange : String} {rows : List MultiplierRow}
    {bySymbol : String → Option (List MultiplierSnapshot)}
    (h : rows.foldlM (addRow exchange) (fun _ => none) = .ok bySymbol) (symbol : String) :
    Snapshots (rowsOfSymbol rows symbol) (snapshotsOf bySymbol symbol) := by
  cases rows with
  | nil =>
    cases pure_eq_ok.mp h
    exact snapshots_nil
  | cons row rows =>
    have hbook : fromRows exchange (row :: rows) = .ok ⟨exchange, bySymbol⟩ := by
      rw [fromRows, if_neg (by simp), h]
      rfl
    exact fromRows_snapshots hbook symbol

theorem not_conflicting_of_run {exchange : String} {rows : List MultiplierRow}
    {bySymbol : String → Option (List MultiplierSnapshot)}
    (horder : ∀ symbol, InTimeOrder rows symbol)
    (h : rows.foldlM (addRow exchange) (fun _ => none) = .ok bySymbol) : ¬Conflicting rows := by
  rintro ⟨a, ha, b, hb, hsymbol, htime, hdiffer⟩
  have hlist := snapshots_of_run h a.symbol
  have hnodup : ((snapshotsOf bySymbol a.symbol).map MultiplierSnapshot.effectiveAtMs).Nodup :=
    List.pairwise_map.mpr ((hlist.increasing (horder a.symbol)).imp ne_of_lt)
  have hsame : a.snapshot = b.snapshot := List.inj_on_of_nodup_map hnodup
    (hlist.kept a (List.mem_filter.mpr ⟨ha, decide_eq_true rfl⟩))
    (hlist.kept b (List.mem_filter.mpr ⟨hb, decide_eq_true hsymbol.symm⟩)) htime
  exact hdiffer (congrArg MultiplierSnapshot.multiplier hsame)

theorem exists_run {exchange : String} {rows : List MultiplierRow}
    (hvalid : ∀ row ∈ rows, row.Valid) (hconflict : ¬Conflicting rows) :
    ∃ bySymbol, rows.foldlM (addRow exchange) (fun _ => none) = .ok bySymbol := by
  refine run_progress
    (P := fun past bySymbol => past.foldlM (addRow exchange) (fun _ => none) = .ok bySymbol) ?_ rfl
  rintro past row rest rfl bySymbol hpast
  have hrow := hvalid row (by simp)
  -- The last snapshot of the symbol is that of a row which does not conflict with this one.
  have hpush : ∃ after, push exchange ((bySymbol (uppercase row.symbol)).getD []) row =
      .ok after := by
    unfold push
    cases hlast : ((bySymbol (uppercase row.symbol)).getD []).getLast? with
    | none => exact ⟨_, rfl⟩
    | some previous =>
      simp only
      split
      · next htime =>
        obtain ⟨b, hb, rfl⟩ := (snapshots_of_run hpast row.symbol).come previous
          (List.mem_of_getLast? hlast)
        obtain ⟨hb, hsymbol⟩ := List.mem_filter.mp hb
        have hsame : b.contractMultiplier = row.contractMultiplier := by
          by_contra hdiffer
          exact hconflict ⟨b, by simp [hb], row, by simp, of_decide_eq_true hsymbol, htime, hdiffer⟩
        have hbeq : (b.snapshot.multiplier != row.contractMultiplier) = false := by
          rw [show b.snapshot.multiplier = row.contractMultiplier from hsame, bne, hrow.beq_self]
          rfl
        rw [if_neg (by simp [hbeq])]
        exact ⟨_, rfl⟩
      · exact ⟨_, rfl⟩
  obtain ⟨after, hafter⟩ := hpush
  have hstep : addRow exchange bySymbol row =
      .ok (Function.update bySymbol (uppercase row.symbol) (some after)) := by
    unfold addRow
    rw [if_neg (by simpa [MultiplierRow.Valid] using hrow)]
    exact map_eq_ok.mpr ⟨after, hafter, rfl⟩
  exact ⟨_, hstep, run_append.mpr ⟨bySymbol, hpast, run_cons.mpr ⟨_, hstep, run_nil.mpr rfl⟩⟩⟩

end ContractMultiplierBook

section
variable {isAlphanumeric : Char → Bool} {cycles : List RefreshCycle} {float8 : Float8}
  {exchange : ContractExchange} {rows : List MultiplierRow}

theorem numericProduct_lt {a b units : ℕ} (h : numericProduct a b = some units) :
    units < numericBound := by
  simp only [numericProduct, toNumeric] at h
  split at h
  · next hlt => exact Option.some.inj h ▸ hlt
  · cases h

theorem StoredContract.row_valid_iff (row : StoredContract) :
    (row.row float8).Valid ↔ row.contractMultiplier ≠ 0 := by
  have hbound := numericProduct_lt row.generated
  constructor
  · rintro ⟨-, hpos⟩ hzero
    refine hpos ?_
    rw [show (row.row float8).contractMultiplier = float8.ofUnits row.contractMultiplier from rfl,
      hzero, float8.zero]
    decide
  · intro hne
    exact ⟨float8.finite _ hbound, float8.positive _ hbound (Nat.pos_of_ne_zero hne)⟩

/-- **When the book of an exchange loads:** some row of it is stored, no product was rounded to
zero, and no two rows of one symbol and day differ. Nothing else that exchanges can list keeps a
book from loading. -/
theorem loads_iff (h : Queried float8 (afterCycles isAlphanumeric cycles) exchange rows) :
    let stored := (afterCycles isAlphanumeric cycles).rows.filter (·.exchange = exchange)
    (∃ book, ContractMultiplierBook.fromRows exchange.name rows = .ok book) ↔
      stored ≠ [] ∧ (∀ row ∈ stored, row.contractMultiplier ≠ 0) ∧
        ∀ a ∈ stored, ∀ b ∈ stored, a.symbol = b.symbol → a.effectiveAtMs = b.effectiveAtMs →
          float8.ofUnits a.contractMultiplier = float8.ofUnits b.contractMultiplier := by
  intro stored
  have hempty : rows ≠ [] ↔ stored ≠ [] := by
    rw [← List.length_pos_iff, h.perm.length_eq, List.length_map, List.length_pos_iff]
  have hvalid : (∀ row ∈ rows, row.Valid) ↔ ∀ row ∈ stored, row.contractMultiplier ≠ 0 := by
    simp only [h.perm.mem_iff, List.forall_mem_map, StoredContract.row_valid_iff, stored]
  have hsymbols : ∀ row ∈ stored, uppercase row.symbol = row.symbol := fun row hrow =>
    afterCycles_symbols cycles row (List.mem_filter.mp hrow).1
  have hconflict : ¬ContractMultiplierBook.Conflicting rows ↔ ∀ a ∈ stored, ∀ b ∈ stored,
      a.symbol = b.symbol → a.effectiveAtMs = b.effectiveAtMs →
        float8.ofUnits a.contractMultiplier = float8.ofUnits b.contractMultiplier := by
    constructor
    · intro hnone a ha b hb hsymbol htime
      by_contra hdiffer
      exact hnone ⟨a.row float8, h.perm.mem_iff.mpr (List.mem_map_of_mem ha), b.row float8,
        h.perm.mem_iff.mpr (List.mem_map_of_mem hb), congrArg uppercase hsymbol,
        congrArg Nat.cast htime, hdiffer⟩
    · rintro hagree ⟨_, harow, _, hbrow, hsymbol, htime, hdiffer⟩
      obtain ⟨a, ha, rfl⟩ := List.mem_map.mp (h.perm.mem_iff.mp harow)
      obtain ⟨b, hb, rfl⟩ := List.mem_map.mp (h.perm.mem_iff.mp hbrow)
      refine hdiffer (hagree a ha b hb ?_ (Int.ofNat_inj.mp htime))
      rw [← hsymbols a ha, ← hsymbols b hb]
      exact hsymbol
  rw [← hempty, ← hvalid, ← hconflict]
  constructor
  · rintro ⟨book, hbook⟩
    unfold ContractMultiplierBook.fromRows at hbook
    split at hbook
    · cases hbook
    · next hsome =>
      obtain ⟨bySymbol, hrun, -⟩ := map_eq_ok.mp hbook
      exact ⟨by simpa using hsome, ContractMultiplierBook.valid_of_run hrun,
        ContractMultiplierBook.not_conflicting_of_run h.inTimeOrder hrun⟩
  · rintro ⟨hsome, hvalid, hconflict⟩
    obtain ⟨bySymbol, hrun⟩ := ContractMultiplierBook.exists_run hvalid hconflict
    exact ⟨⟨exchange.name, bySymbol⟩, by
      rw [ContractMultiplierBook.fromRows, if_neg (by simpa using hsome)]
      exact map_eq_ok.mpr ⟨bySymbol, hrun, rfl⟩⟩

end

/-- The cast on the sizes of the sample. -/
def Float8.sample : Float8 where
  ofUnits n := if n = 0 then 0 else if n = 100000000000000 then 0.0001 else 1
  zero := rfl
  finite n _ := by
    split
    · decide
    · split <;> decide
  positive n _ hpos := by
    rw [if_neg hpos.ne']
    split <;> decide

/-- Gate lists a contract, and OKX does not answer. -/
def RefreshCycle.sample : RefreshCycle where
  effectiveAtMs := 1700006400000
  answers
    | .gate => .ok (.array [.object [("name", .string "BTC_USDT"),
        ("quanto_multiplier", .string "0.0001"), ("status", .string "trading")]])
    | .okx => .error "dispatch okx contract request"

theorem sample_stored : ((afterCycles Char.isAlphanum [.sample]).rows.filter
    (·.exchange = .gate)).map (·.row .sample) = [⟨"BTCUSDT", 0.0001, 1700006400000⟩] := by
  decide +kernel

theorem sample_queried : Queried .sample (afterCycles Char.isAlphanum [.sample]) .gate
    [⟨"BTCUSDT", 0.0001, 1700006400000⟩] :=
  ⟨.of_eq sample_stored.symm, List.pairwise_singleton _ _⟩

theorem inForce_of_sample : ∃ book,
    ContractMultiplierBook.fromRows "gate" [⟨"BTCUSDT", 0.0001, 1700006400000⟩] = .ok book ∧
    ∀ symbol point ts, InForce [⟨"BTCUSDT", 0.0001, 1700006400000⟩] symbol ts
      (book.multiplierAt point symbol ts) := by
  obtain ⟨book, hbook, -⟩ : Yields (ContractMultiplierBook.fromRows "gate"
      [⟨"BTCUSDT", 0.0001, 1700006400000⟩]) fun _ => True := by decide +kernel
  exact ⟨book, hbook, inForce_of_cycles sample_queried hbook⟩

theorem sample_loads : ∃ book,
    ContractMultiplierBook.fromRows "gate" [⟨"BTCUSDT", 0.0001, 1700006400000⟩] = .ok book :=
  (loads_iff sample_queried).mpr (by decide +kernel)

/-- Two factors that are stored, and whose product is stored as zero. -/
example : castNumeric "0.0000000001" = some 100000000 ∧
    numericProduct 100000000 100000000 = some 0 := by decide +kernel

end CryptoNav.Pnl
