import CryptoNav.Lib.Table
import CryptoNav.History.Interest

/-!
# The sizes of Gate contracts

Gate counts futures fills and liquidations in contracts, so `sync_history` needs the size of each
contract: from the list of the contracts that are traded and, for the others, from one lookup each.
Rows of contracts that stay without a size are left out, and the watermark is raised all the same.
The message about an invalid size is without the size.

What identifies a contract on Gate is its name, and its size is a text until a quantity is
multiplied by it. The statements that insert rows are reduced to which rows they insert: the
columns are in `History.Normalize`, the keys in `History.Dedup`. A lookup that fails and a
contract that Gate does not know are different answers with the same effect on the run, and the
theorems keep them apart.
-/

set_option autoImplicit false

namespace CryptoNav.History.Gate

open CryptoNav.Lib CryptoNav.History.Raw

/-! ## Looking the sizes up -/

abbrev Multipliers := String → Option Float

def Multipliers.insert (multipliers : Multipliers) (name : String) (multiplier : Float) :
    Multipliers := Function.update multipliers name (some multiplier)

/-- What Gate answers during a run. A request fails on a timeout, a rate limit and every status
    other than a success. -/
structure Answers where
  futuresContracts : Result (List Json)
  futuresContract : String → Result Json

def parseMultiplier (text : String) : Result Float :=
  match parseFloat text.toList with
  | some multiplier => .ok multiplier
  | none => .error "parse Gate quanto_multiplier"

def gateQuantoMultiplier (row : Json) : Result Float := do
  let name ← textField row ["name"]
  let multiplier ← parseMultiplier (← numberField row ["quanto_multiplier"])
  bailIf (!multiplier.isFinite ∨ multiplier ≤ 0) s!"invalid Gate multiplier for {name}"
  .ok multiplier

def loadGateMultipliers (answers : Answers) : Result Multipliers := do
  let contracts ← answers.futuresContracts.mapError fun _ =>
    "fetch Gate futures contract multipliers"
  contracts.foldlM (fun (values : Multipliers) row => do
    let name ← textField row ["name"]
    let multiplier ← gateQuantoMultiplier row
    .ok (values.insert (uppercase name) multiplier)) fun _ => none

/-- One turn of `resolve_gate_multipliers`. A lookup that fails and an answer without a size are
    treated alike. -/
def resolveOne (answers : Answers) (found : List String × Multipliers) (contract : String) :
    List String × Multipliers :=
  if (found.2 contract).isSome then found
  else match answers.futuresContract contract with
    | .ok row =>
      match gateQuantoMultiplier row with
      | .ok multiplier => (found.1, found.2.insert contract multiplier)
      | .error _ => (found.1 ++ [contract], found.2)
    | .error _ => (found.1 ++ [contract], found.2)

/-- The contracts that could not be resolved, and all the sizes. -/
def resolveGateMultipliers (answers : Answers) (contracts : List String)
    (multipliers : Multipliers) : List String × Multipliers :=
  contracts.foldl (resolveOne answers) ([], multipliers)

/-! ## One run -/

/-- A table of a strategy's history with its watermark. -/
structure Synced {α κ : Type} [LinearOrder κ] (key : α → κ) where
  table : Table key := Table.empty
  watermark : Option ℤ := none

section
variable {α β κ τ : Type} [LinearOrder κ] [LinearOrder τ] {key : α → κ}

/-- `commit_trades` and `commit_liquidations`: the statements and the watermark in one transaction. -/
def commit (s : Synced key) (rows : List α) (endMs : ℤ) (updateWatermark : Bool) :
    Result (Synced key) :=
  match s.table.putBatches batchSize rows with
  | some table => .ok {
      table
      watermark :=
        if updateWatermark then some (advanceWatermark s.watermark endMs) else s.watermark }
  | none => .error "ON CONFLICT DO UPDATE command cannot affect row a second time"

/-- The Gate branches of `sync_dataset` once the rows are fetched: those of contracts without a size
    are dropped, the others normalized, sorted and committed. -/
def syncFetched (contractOf : β → Option String) (normalize : Multipliers → β → Result α)
    (order : α → τ) (answers : Answers) (raw : List β) (endMs : ℤ) (updateWatermark : Bool)
    (s : Synced key) : Result (Synced key) := do
  let multipliers ← loadGateMultipliers answers
  let contracts := sortByKey id (raw.filterMap contractOf).dedup
  let (unresolved, multipliers) := resolveGateMultipliers answers contracts multipliers
  let rows ← (raw.filter fun row => !(contractOf row).any unresolved.contains).mapM
    (normalize multipliers)
  commit s (sortByKey order rows) endMs updateWatermark

end

variable (toUppercase : Char → List Char)

def contractName (value : Json) : Option String := (optionalText value ["contract"]).map uppercase

/-- Spot fills are of no contract. -/
def tradeContract (fill : Leg × Json) : Option String :=
  if fill.1 = .derivative then contractName fill.2 else none

/-- The columns `(key,symbol,id)` or `(market,symbol,trade_id)`. -/
def gateTradeKey (storage : TradeStorage) (row : TradeRow) : String ×ₗ String ×ₗ String :=
  match storage with
  | .liang => toLex ("gate" ++ (if row.leg = .spot then "spot" else "swap"),
      toLex (row.symbol, row.tradeId))
  | .generic => toLex (row.market, toLex (row.symbol, row.tradeId))

def tradeOrder (row : TradeRow) : ℤ ×ₗ String ×ₗ String ×ₗ String :=
  toLex (row.eventTimeMs, toLex (row.market, toLex (row.symbol, row.tradeId)))

/-- The columns `(symbol,order_id,event_time_ms)`. -/
def gateLiquidationKey (row : LiquidationRow) : String ×ₗ String ×ₗ ℤ :=
  toLex (row.symbol, toLex (row.orderId, row.eventTimeMs))

def normalizeFill (multipliers : Multipliers) (fill : Leg × Json) : Result TradeRow :=
  normalizeTrade toUppercase multipliers .gate fill.1 fill.2

/-- `sync_dataset` with `Dataset::Trades`. -/
def syncTrades (storage : TradeStorage) (answers : Answers) (raw : List (Leg × Json)) (endMs : ℤ)
    (updateWatermark : Bool) (s : Synced (gateTradeKey storage)) :
    Result (Synced (gateTradeKey storage)) :=
  syncFetched tradeContract (normalizeFill toUppercase) tradeOrder answers raw endMs updateWatermark s

/-- `sync_dataset` with `Dataset::Liquidations`. -/
def syncLiquidations (answers : Answers) (raw : List Json) (endMs : ℤ) (updateWatermark : Bool)
    (s : Synced gateLiquidationKey) : Result (Synced gateLiquidationKey) :=
  syncFetched contractName (normalizeGateLiquidation toUppercase) (·.eventTimeMs) answers raw endMs
    updateWatermark s

/-! ## What is stored -/

/-- The sizes of the list of traded contracts. -/
def listed (answers : Answers) : Multipliers :=
  (loadGateMultipliers answers).toOption.getD fun _ => none

/-- The size of a contract from the list or from its lookup. -/
def sizes (answers : Answers) : Multipliers := fun contract =>
  (listed answers contract).or
    (answers.futuresContract contract >>= gateQuantoMultiplier).toOption

/-- Gate answered the lookup of a contract, and not with a size. A contract that is listed has been
    sized by the list. -/
def Unsized (answers : Answers) (contract : String) : Prop :=
  listed answers contract = none ∧
    ∃ row, answers.futuresContract contract = .ok row ∧ (gateQuantoMultiplier row).isOk = false

section
variable {α β κ : Type} [LinearOrder κ] {key : α → κ}

/-- Under its conflict key the table has a fetched row, itself or the last of those that share the
    key. -/
def Stored (normalize : β → Result α) (raw : List β) (t : Table key) (fetched : β) : Prop :=
  ∃ row stored, normalize fetched = .ok row ∧ stored ∈ t.rows ∧ key stored = key row ∧
    ∃ other ∈ raw, normalize other = .ok stored

/-- Every fetched row is stored, but for those of contracts that have no size. A row is found under
    its own key and with what the normalizer makes of it. -/
def NothingSkipped (contractOf : β → Option String) (normalize : Multipliers → β → Result α)
    (answers : Answers) (raw : List β) (t : Table key) : Prop :=
  ∀ fetched ∈ raw, Stored (normalize (sizes answers)) raw t fetched ∨
    ∃ contract, contractOf fetched = some contract ∧ Unsized answers contract

/-- No lookup of the contract of a fetched row failed. Contracts that are listed are not looked up
    one by one. -/
def LookupsAnswered (contractOf : β → Option String) (answers : Answers) (raw : List β) : Prop :=
  ∀ fetched ∈ raw, ∀ contract, contractOf fetched = some contract →
    listed answers contract = none → (answers.futuresContract contract).isOk

end

/-! ## The lookups, one after the other -/

def lookedUp (answers : Answers) (contract : String) : Option Float :=
  (answers.futuresContract contract >>= gateQuantoMultiplier).toOption

theorem lookedUp_eq_none {answers : Answers} {contract : String}
    (h : lookedUp answers contract = none)
    (hok : (answers.futuresContract contract).isOk) :
    ∃ row, answers.futuresContract contract = .ok row ∧ (gateQuantoMultiplier row).isOk = false := by
  unfold lookedUp at h
  cases hanswer : answers.futuresContract contract with
  | error message =>
    rw [hanswer] at hok
    cases hok
  | ok row =>
    rw [hanswer] at h
    refine ⟨row, rfl, ?_⟩
    cases hsize : gateQuantoMultiplier row with
    | error message => rfl
    | ok multiplier =>
      rw [show (Except.ok row >>= gateQuantoMultiplier) = gateQuantoMultiplier row from rfl,
        hsize] at h
      cases h

theorem resolveOne_eq (answers : Answers) (found : List String × Multipliers) (contract : String) :
    resolveOne answers found contract =
      if (found.2 contract).isSome then found
      else match lookedUp answers contract with
        | some multiplier => (found.1, found.2.insert contract multiplier)
        | none => (found.1 ++ [contract], found.2) := by
  unfold resolveOne lookedUp
  split
  · rfl
  · cases hanswer : answers.futuresContract contract with
    | error message => rfl
    | ok row =>
      rw [show (Except.ok row >>= gateQuantoMultiplier) = gateQuantoMultiplier row from rfl]
      cases hsize : gateQuantoMultiplier row with
      | error message => simp only [hsize]; rfl
      | ok multiplier => simp only [hsize]; rfl

/-- What one lookup does to the size of every contract, and to the contracts without one. -/
theorem resolveOne_spec (answers : Answers) (found : List String × Multipliers)
    (contract name : String) :
    (resolveOne answers found contract).2 name =
      (if name = contract then (found.2 name).or (lookedUp answers name) else found.2 name) ∧
    (name ∈ (resolveOne answers found contract).1 ↔
      name ∈ found.1 ∨ name = contract ∧ (found.2 name).or (lookedUp answers name) = none) := by
  rw [resolveOne_eq]
  by_cases hname : name = contract
  · subst hname
    cases hsize : found.2 name with
    | some multiplier => simp [hsize]
    | none =>
      cases hlooked : lookedUp answers name with
      | some multiplier => simp [Multipliers.insert]
      | none => simp [hsize]
  · cases hsize : found.2 contract with
    | some multiplier => simp [hname]
    | none =>
      cases hlooked : lookedUp answers contract with
      | some multiplier => simp [Multipliers.insert, hname]
      | none => simp [hname]

theorem resolve_spec (answers : Answers) (contracts : List String)
    (found : List String × Multipliers) (name : String) :
    (contracts.foldl (resolveOne answers) found).2 name =
      (if name ∈ contracts then (found.2 name).or (lookedUp answers name) else found.2 name) ∧
    (name ∈ (contracts.foldl (resolveOne answers) found).1 ↔
      name ∈ found.1 ∨ name ∈ contracts ∧ (found.2 name).or (lookedUp answers name) = none) := by
  induction contracts generalizing found with
  | nil => simp
  | cons contract contracts ih =>
    obtain ⟨hsize, hmem⟩ := resolveOne_spec answers found contract name
    rw [List.foldl_cons, (ih _).1, (ih _).2, hsize, hmem]
    by_cases hname : name = contract
    · subst hname
      cases found.2 name <;> cases lookedUp answers name <;> simp
    · simp [hname]

theorem sizes_eq (answers : Answers) (contract : String) :
    sizes answers contract = (listed answers contract).or (lookedUp answers contract) := rfl

/-! ## What a run commits -/

theorem mapM_congr {α β : Type} {f g : β → Result α} {l : List β} (h : ∀ b ∈ l, f b = g b) :
    l.mapM f = l.mapM g := by
  induction l with
  | nil => rfl
  | cons b l ih =>
    rw [List.mapM_cons, List.mapM_cons, h b List.mem_cons_self,
      ih fun c hc => h c (List.mem_cons_of_mem _ hc)]

theorem exists_of_mapM {α β : Type} {f : β → Result α} {l : List β} {rows : List α}
    (h : l.mapM f = .ok rows) {b : β} (hb : b ∈ l) : ∃ row, f b = .ok row := by
  induction l generalizing rows with
  | nil => cases hb
  | cons c l ih =>
    rw [List.mapM_cons] at h
    obtain ⟨row, hrow, h⟩ := bind_eq_ok.mp h
    obtain ⟨rest, hrest, -⟩ := bind_eq_ok.mp h
    rcases List.mem_cons.mp hb with rfl | hb
    · exact ⟨row, hrow⟩
    · exact ih hrest hb

section
variable {α β κ τ : Type} [LinearOrder κ] [LinearOrder τ] {key : α → κ}
  {contractOf : β → Option String} {normalize : Multipliers → β → Result α} {order : α → τ}
  {answers : Answers} {raw : List β} {endMs : ℤ} {s s' : Synced key}

/-- A normalizer needs the size of the contract of a row, and nothing about other contracts. Both
    normalizers that need sizes are of this kind, which is all that is used of them. -/
structure Sized (contractOf : β → Option String) (normalize : Multipliers → β → Result α) : Prop where
  congr : ∀ {m m' : Multipliers} {row : β},
    (∀ contract, contractOf row = some contract → m contract = m' contract) →
      normalize m row = normalize m' row
  needed : ∀ {m : Multipliers} {row : β} {contract : String}, contractOf row = some contract →
    m contract = none → (normalize m row).isOk = false

/-- The rows whose contract has a size, or that are of no contract. -/
def resolved (contractOf : β → Option String) (answers : Answers) (raw : List β) : List β :=
  raw.filter fun row => !(contractOf row).any fun contract => (sizes answers contract).isNone

theorem syncFetched_ok (hsized : Sized contractOf normalize)
    (h : syncFetched contractOf normalize order answers raw endMs true s = .ok s') :
    ∃ rows, (resolved contractOf answers raw).mapM (normalize (sizes answers)) = .ok rows ∧
      s'.table = s.table.putAll (sortByKey order rows) ∧
      s'.watermark = some (advanceWatermark s.watermark endMs) := by
  obtain ⟨bulk, hbulk, h⟩ := bind_eq_ok.mp h
  have hlisted : bulk = listed answers := by
    unfold listed
    rw [hbulk]
    rfl
  subst hlisted
  set contracts := sortByKey id (raw.filterMap contractOf).dedup with hcontracts
  obtain ⟨rows, hrows, h⟩ := bind_eq_ok.mp h
  have hmem : ∀ row ∈ raw, ∀ contract, contractOf row = some contract → contract ∈ contracts := by
    intro row hrow contract hcontract
    rw [hcontracts, mem_sortByKey, List.mem_dedup]
    exact List.mem_filterMap.mpr ⟨row, hrow, hcontract⟩
  have hkept : (raw.filter fun row => !(contractOf row).any
      (resolveGateMultipliers answers contracts (listed answers)).1.contains) =
      resolved contractOf answers raw := by
    refine List.filter_congr fun row hrow => ?_
    cases hcontract : contractOf row with
    | none => rfl
    | some contract =>
      have hspec := (resolve_spec answers contracts ([], listed answers) contract).2
      rw [← sizes_eq] at hspec
      simp only [List.not_mem_nil, false_or, hmem row hrow contract hcontract, true_and] at hspec
      rw [Option.any_some, Option.any_some]
      congr 1
      rw [Bool.eq_iff_iff, List.contains_iff_mem, Option.isNone_iff_eq_none]
      exact hspec
  have hnormalize : (resolved contractOf answers raw).mapM
      (normalize (resolveGateMultipliers answers contracts (listed answers)).2) =
      (resolved contractOf answers raw).mapM (normalize (sizes answers)) := by
    refine mapM_congr fun row hrow => hsized.congr fun contract hcontract => ?_
    have hspec := (resolve_spec answers contracts ([], listed answers) contract).1
    rw [if_pos (hmem row (List.mem_filter.mp hrow).1 contract hcontract)] at hspec
    exact hspec
  replace hrows : (raw.filter fun row => !(contractOf row).any
      (resolveGateMultipliers answers contracts (listed answers)).1.contains).mapM
      (normalize (resolveGateMultipliers answers contracts (listed answers)).2) = .ok rows := hrows
  rw [hkept, hnormalize] at hrows
  unfold commit at h
  split at h
  case h_1 table htable =>
    cases h
    exact ⟨rows, hrows, Table.eq_of_putBatches htable, rfl⟩
  case h_2 => cases h

/-- A row of an accepted list is normalized, and so is every row under its key. -/
theorem Stored.of_mapM {f : β → Result α} {kept : List β} {rows : List α} (hkept : kept ⊆ raw)
    (hrows : kept.mapM f = .ok rows) (t : Table key) {fetched : β} (hfetched : fetched ∈ kept) :
    Stored f raw (t.putAll (sortByKey order rows)) fetched := by
  have hmem : ∀ row, row ∈ rows ↔ ∃ other ∈ kept, f other = .ok row := by
    intro row
    rw [mapM_ok hrows, List.mem_filterMap]
    refine exists_congr fun other => and_congr_right fun _ => ?_
    cases f other <;> simp [Except.toOption]
  obtain ⟨row, hrow⟩ : ∃ row, f fetched = .ok row := exists_of_mapM hrows hfetched
  have hput : key row ∈ (sortByKey order rows).map key :=
    List.mem_map_of_mem (mem_sortByKey.mpr ((hmem row).mpr ⟨fetched, hfetched, hrow⟩))
  obtain ⟨stored, hstored, hget⟩ := t.exists_get_putAll hput
  obtain ⟨hin, hkey⟩ := Table.get_eq_some.mp hget
  obtain ⟨other, hother, hof⟩ := (hmem stored).mp (mem_sortByKey.mp hstored)
  exact ⟨row, stored, hrow, hin, hkey, other, hkept hother, hof⟩

/-- **A committed run stores every row but those without a size exactly when no lookup failed.** -/
theorem nothingSkipped_iff (hsized : Sized contractOf normalize)
    (h : syncFetched contractOf normalize order answers raw endMs true s = .ok s') :
    NothingSkipped contractOf normalize answers raw s'.table ↔
      LookupsAnswered contractOf answers raw := by
  obtain ⟨rows, hrows, htable, -⟩ := syncFetched_ok hsized h
  constructor
  · intro hall fetched hfetched contract hcontract hlisted
    rcases hall fetched hfetched with hstored | ⟨other, hother, -, answer, hanswer, -⟩
    · obtain ⟨row, -, hrow, -⟩ := hstored
      by_contra hfailed
      have hsize : sizes answers contract = none := by
        rw [sizes_eq, hlisted, Option.none_or]
        unfold lookedUp
        cases hanswer : answers.futuresContract contract with
        | error message => rfl
        | ok answer => exact absurd (by rw [hanswer]; rfl) hfailed
      have hrefused := hsized.needed hcontract hsize
      rw [hrow] at hrefused
      cases hrefused
    · obtain rfl := Option.some_injective _ (hcontract.symm.trans hother)
      rw [hanswer]
      rfl
  · intro hanswered fetched hfetched
    by_cases hkept : fetched ∈ resolved contractOf answers raw
    · rw [htable]
      exact .inl (.of_mapM (List.filter_subset_self _) hrows s.table hkept)
    · -- A row is dropped for want of a size, and the lookup of it was answered.
      right
      unfold resolved at hkept
      rw [List.mem_filter, not_and] at hkept
      have hdropped := hkept hfetched
      cases hcontract : contractOf fetched with
      | none =>
        rw [hcontract] at hdropped
        exact absurd rfl hdropped
      | some contract =>
        rw [hcontract] at hdropped
        have hsize : sizes answers contract = none := by simpa using hdropped
        rw [sizes_eq, Option.or_eq_none_iff] at hsize
        exact ⟨contract, rfl, hsize.1,
          lookedUp_eq_none hsize.2 (hanswered fetched hfetched contract hcontract hsize.1)⟩

end

/-! ## Fills and liquidations -/

variable {toUppercase : Char → List Char}

theorem contractName_eq (value : Json) :
    contractName value = (textField value ["contract"]).toOption.map uppercase := by
  unfold contractName
  cases htext : textField value ["contract"] with
  | ok text =>
    rw [textField_ok.mp htext]
    rfl
  | error message =>
    cases hread : optionalText value ["contract"] with
    | none => rfl
    | some text =>
      rw [textField_ok.mpr hread] at htext
      cases htext

/-- A normalizer that looks up the size of the contract of a row, once and nothing else. -/
theorem Sized.of_lookup {α β : Type} {contractOf : β → Option String}
    {normalize : Multipliers → β → Result α}
    (hnone : ∀ row, contractOf row = none → ∀ m m', normalize m row = normalize m' row)
    (hsome : ∀ row contract, contractOf row = some contract → ∃ (checked : Result Unit)
      (rest : Float → Result α), ∀ m, normalize m row =
        checked >>= fun _ => gateMultiplier m contract >>= rest) :
    Sized contractOf normalize where
  congr {m m' row} h := by
    cases hcontract : contractOf row with
    | none => exact hnone row hcontract m m'
    | some contract =>
      obtain ⟨checked, rest, hnormalize⟩ := hsome row contract hcontract
      rw [hnormalize, hnormalize]
      unfold gateMultiplier
      rw [h contract hcontract]
  needed {m row contract} hcontract hm := by
    obtain ⟨checked, rest, hnormalize⟩ := hsome row contract hcontract
    rw [hnormalize]
    unfold gateMultiplier
    rw [hm]
    cases checked with
    | error message => rfl
    | ok _ => rfl

theorem sized_fill : Sized tradeContract (normalizeFill toUppercase) := by
  refine .of_lookup (fun fill hnone m m' => ?_) fun fill contract hsome => ?_
  · obtain ⟨leg, value⟩ := fill
    cases leg with
    | spot => rfl
    | derivative =>
      change contractName value = none at hnone
      rw [contractName_eq] at hnone
      unfold normalizeFill normalizeTrade normalizeGateTrade
      cases htext : textField value ["contract"] with
      | error message => rfl
      | ok text =>
        rw [htext] at hnone
        cases hnone
  · obtain ⟨leg, value⟩ := fill
    cases leg with
    | spot => cases hsome
    | derivative =>
      change contractName value = some contract at hsome
      rw [contractName_eq] at hsome
      unfold normalizeFill normalizeTrade normalizeGateTrade
      cases htext : textField value ["contract"] with
      | error message =>
        rw [htext] at hsome
        cases hsome
      | ok text =>
        rw [htext] at hsome
        obtain rfl := Option.some_injective _ hsome
        simp only [bind, Except.bind, reduceCtorEq, if_false]
        cases numberField value ["size"] with
        | error message => exact ⟨.error message, fun _ => .error message, fun m => rfl⟩
        | ok number =>
          dsimp only
          cases parseNumber number with
          | error message => exact ⟨.error message, fun _ => .error message, fun m => rfl⟩
          | ok size =>
            exact ⟨bailIf (size == 0) "Gate futures trade has zero size", _, fun m => rfl⟩

theorem sized_liquidation : Sized contractName (normalizeGateLiquidation toUppercase) := by
  refine .of_lookup (fun value hnone m m' => ?_) fun value contract hsome => ?_
  · rw [contractName_eq] at hnone
    unfold normalizeGateLiquidation
    cases htext : textField value ["contract"] with
    | error message => rfl
    | ok text =>
      rw [htext] at hnone
      cases hnone
  · rw [contractName_eq] at hsome
    unfold normalizeGateLiquidation
    cases htext : textField value ["contract"] with
    | error message =>
      rw [htext] at hsome
      cases hsome
    | ok text =>
      rw [htext] at hsome
      obtain rfl := Option.some_injective _ hsome
      simp only [bind, Except.bind]
      cases textField value ["order_id"] with
      | error message => exact ⟨.error message, fun _ => .error message, fun m => rfl⟩
      | ok orderId =>
        dsimp only
        cases numberField value ["size"] with
        | error message => exact ⟨.error message, fun _ => .error message, fun m => rfl⟩
        | ok number => exact ⟨.ok (), _, fun m => rfl⟩

/-- **A committed run of fills or liquidations stores all its rows**, but for those of contracts for
    which Gate has no size, exactly when no lookup of the contract of a fetched row failed. -/
theorem committed_rows_stored_iff (toUppercase : Char → List Char) (answers : Answers) (endMs : ℤ) :
    (∀ (storage : TradeStorage) (raw : List (Leg × Json)) (s s' : Synced (gateTradeKey storage)),
      syncTrades toUppercase storage answers raw endMs true s = .ok s' →
        s'.watermark = some (advanceWatermark s.watermark endMs) ∧
        (NothingSkipped tradeContract (normalizeFill toUppercase) answers raw s'.table ↔
          LookupsAnswered tradeContract answers raw)) ∧
    ∀ (raw : List Json) (s s' : Synced gateLiquidationKey),
      syncLiquidations toUppercase answers raw endMs true s = .ok s' →
        s'.watermark = some (advanceWatermark s.watermark endMs) ∧
        (NothingSkipped contractName (normalizeGateLiquidation toUppercase) answers raw s'.table ↔
          LookupsAnswered contractName answers raw) := by
  constructor
  · intro storage raw s s' h
    obtain ⟨-, -, -, hwatermark⟩ := syncFetched_ok sized_fill h
    exact ⟨hwatermark, nothingSkipped_iff sized_fill h⟩
  · intro raw s s' h
    obtain ⟨-, -, -, hwatermark⟩ := syncFetched_ok sized_liquidation h
    exact ⟨hwatermark, nothingSkipped_iff sized_liquidation h⟩

def contractRow (name multiplier : String) : Json :=
  textRow [("name", name), ("quanto_multiplier", multiplier)]

def contractFill (contract : String) : Leg × Json :=
  (.derivative, textRow [("contract", contract), ("trade_id", "7"), ("size", "-3"),
    ("price", "2.5"), ("create_time", "1700000000")])

def liquidated (contract : String) : Json :=
  textRow [("contract", contract), ("order_id", "9"), ("size", "-3"), ("time", "1700000000")]

/-- One contract is listed; the others are delisted, with the size 10 or without one. -/
def delisted : Answers where
  futuresContracts := .ok [contractRow "BTC_USDT" "0.0001"]
  futuresContract name := .ok (contractRow name (if name = "OLD_USDT" then "10" else "0"))

/-- Lookups that are answered lose nothing. -/
theorem delisted_rows_stored :
    (∃ s' : Synced (gateTradeKey .generic), NothingSkipped tradeContract
      (normalizeFill plain.toUppercase) delisted
      [contractFill "BTC_USDT", contractFill "old_usdt", contractFill "GONE_USDT"] s'.table) ∧
    ∃ s' : Synced gateLiquidationKey, NothingSkipped contractName
      (normalizeGateLiquidation plain.toUppercase) delisted
      [liquidated "BTC_USDT", liquidated "OLD_USDT", liquidated "GONE_USDT"] s'.table := by
  constructor
  · obtain ⟨s', hs'⟩ : Yields (syncTrades plain.toUppercase .generic delisted
        [contractFill "BTC_USDT", contractFill "old_usdt", contractFill "GONE_USDT"] 1700000100000
        true {}) fun s' => s'.table.rows.length = 2 := by decide +kernel
    exact ⟨s', ((committed_rows_stored_iff _ _ _).1 _ _ _ _ hs'.1).2.mpr fun _ _ _ _ _ => rfl⟩
  · obtain ⟨s', hs'⟩ : Yields (syncLiquidations plain.toUppercase delisted
        [liquidated "BTC_USDT", liquidated "OLD_USDT", liquidated "GONE_USDT"] 1700000100000
        true {}) fun s' => s'.table.rows.length = 2 := by decide +kernel
    exact ⟨s', ((committed_rows_stored_iff _ _ _).2 _ _ _ hs'.1).2.mpr fun _ _ _ _ _ => rfl⟩

/-- A lookup that times out, of a contract that is no longer listed. -/
def timedOut : Answers where
  futuresContracts := .ok [contractRow "BTC_USDT" "0.0001"]
  futuresContract _ := .error "request timed out"

/-- The fill and the liquidation are left out, and the watermark passes them. -/
theorem rows_lost_after_timeout :
    (∃ s', syncTrades plain.toUppercase .generic timedOut [contractFill "OLD_USDT"] 1700000100000
      true {} = .ok s' ∧ s'.watermark = some 1700000100000 ∧
      ¬NothingSkipped tradeContract (normalizeFill plain.toUppercase) timedOut
        [contractFill "OLD_USDT"] s'.table) ∧
    ∃ s', syncLiquidations plain.toUppercase timedOut [liquidated "OLD_USDT"] 1700000100000 true {} =
      .ok s' ∧ s'.watermark = some 1700000100000 ∧
      ¬NothingSkipped contractName (normalizeGateLiquidation plain.toUppercase) timedOut
        [liquidated "OLD_USDT"] s'.table := by
  have hunlisted : listed timedOut "OLD_USDT" = none :=
    Option.isNone_iff_eq_none.mp (by decide +kernel)
  constructor
  · obtain ⟨s', hs', hwatermark⟩ : Yields (syncTrades plain.toUppercase .generic timedOut
        [contractFill "OLD_USDT"] 1700000100000 true {}) (·.watermark = some 1700000100000) := by
      decide +kernel
    refine ⟨s', hs', hwatermark, fun hall => ?_⟩
    exact Bool.false_ne_true ((nothingSkipped_iff sized_fill hs').mp hall _
      List.mem_cons_self "OLD_USDT" (by decide +kernel) hunlisted)
  · obtain ⟨s', hs', hwatermark⟩ : Yields (syncLiquidations plain.toUppercase timedOut
        [liquidated "OLD_USDT"] 1700000100000 true {}) (·.watermark = some 1700000100000) := by
      decide +kernel
    refine ⟨s', hs', hwatermark, fun hall => ?_⟩
    exact Bool.false_ne_true ((nothingSkipped_iff sized_liquidation hs').mp hall _
      List.mem_cons_self "OLD_USDT" (by decide +kernel) hunlisted)

end CryptoNav.History.Gate
