import Mathlib.Data.Prod.Lex
import Mathlib.Data.Rat.Defs
import Mathlib.Data.String.Basic
import CryptoNav.History.Fields
import CryptoNav.Lib.Runs
import CryptoNav.Lib.Sorting

/-!
# The inputs of the intra analysis

Synthesized maker/taker orders, fee, funding and interest events as `intra_analysis.rs` takes
them: symbols in upper case, every row validated before any is used, and each list sorted. `f64`
values are exact rationals, so what the source asks of `is_finite` always holds here.

Which rows the database returns is left out; they are whatever it returns, and a row that fails
its check refuses the whole request. The checks are those that the loops rely on later, such as
that a quantity is positive. Sorting is stable, so that rows which the sort key does not tell
apart stay in the order in which they were read.
-/

set_option autoImplicit false

namespace CryptoNav.Intra

open CryptoNav.Lib
open CryptoNav.History.Raw (trim uppercase)

inductive ArbDirection where
  | positive
  | reverse
  deriving DecidableEq, Repr

namespace ArbDirection

def sign : ArbDirection → ℚ
  | .positive => 1
  | .reverse => -1

def opposite : ArbDirection → ArbDirection
  | .positive => .reverse
  | .reverse => .positive

@[simp] theorem sign_opposite (direction : ArbDirection) :
    direction.opposite.sign = -direction.sign := by
  cases direction with
  | positive => rfl
  | reverse => exact (neg_neg _).symm

end ArbDirection

structure PremiumIndexCandle where
  openRate : ℚ
  highRate : ℚ
  lowRate : ℚ
  closeRate : ℚ
  deriving DecidableEq, Repr

structure IntraAnalysisOrder where
  fkey : ℤ
  symbol : String
  direction : ArbDirection
  completedAtMs : ℤ
  spotPrice : ℚ
  futuresPrice : ℚ
  quantity : ℚ
  premium : Option PremiumIndexCandle := none
  deriving DecidableEq, Repr

structure IntraAnalysisFeeEvent where
  symbol : String
  ts : ℤ
  notionalUsdt : ℚ
  /-- Positive values are costs and negative values are rebates. -/
  feeUsdt : Option ℚ
  deriving DecidableEq, Repr

structure IntraAnalysisFundingEvent where
  symbol : String
  ts : ℤ
  /-- Positive values are income and negative values are costs. -/
  amountUsdt : ℚ
  deriving DecidableEq, Repr

structure IntraAnalysisInterestEvent where
  /-- `none` is stable quote borrowing shared by positive-direction open lots. -/
  symbol : Option String
  ts : ℤ
  /-- A positive cost; `none` could not be converted. -/
  costUsdt : Option ℚ
  deriving DecidableEq, Repr

structure IntraAnalysisRequest where
  strategySlug : String
  displayName : String
  premiumAdapter : String
  strategyStartMs : ℤ
  startMs : ℤ
  endMs : ℤ
  selectedSymbols : List String := []
  referenceFeeBps : ℚ
  maxPoints : ℕ
  maxMatches : ℕ
  deriving DecidableEq, Repr

namespace IntraAnalysisOrder

def basis (order : IntraAnalysisOrder) : ℚ := order.futuresPrice - order.spotPrice

def basisBps (order : IntraAnalysisOrder) : ℚ := order.basis / order.spotPrice * 10000

def marketBasis (order : IntraAnalysisOrder) : Option ℚ :=
  order.premium.map (order.spotPrice * ·.closeRate)

def executionEdgeBps (order : IntraAnalysisOrder) : Option ℚ :=
  order.premium.map (order.basisBps - ·.closeRate * 10000)

end IntraAnalysisOrder

/-! ## Validation -/

/-- A message; the number it ends with is kept as a number. -/
structure IntraError where
  text : String
  value : Option ℚ := none
  deriving DecidableEq, Repr

/-- `bail!` under a condition. -/
def bailIf (p : Prop) [Decidable p] (text : String) (value : Option ℚ := none) :
    Except IntraError Unit :=
  if p then .error ⟨text, value⟩ else .ok ()

theorem bailIf_eq_ok {p : Prop} [Decidable p] {text : String} {value : Option ℚ} {u : Unit} :
    bailIf p text value = .ok u ↔ ¬ p := by
  unfold bailIf
  split <;> simp_all

def orderText (fkey : ℤ) (complaint : String) : String :=
  "intra analysis order " ++ toString fkey ++ " has " ++ complaint

def validateOrder (order : IntraAnalysisOrder) : Except IntraError Unit := do
  bailIf (trim order.symbol = "") (orderText order.fkey "an empty symbol")
  bailIf (order.spotPrice ≤ 0) (orderText order.fkey "invalid spot_price: ") order.spotPrice
  bailIf (order.futuresPrice ≤ 0) (orderText order.fkey "invalid futures_price: ")
    order.futuresPrice
  bailIf (order.quantity ≤ 0) (orderText order.fkey "invalid quantity: ") order.quantity
  bailIf (∃ premium ∈ order.premium, premium.highRate < premium.openRate ∨
      premium.highRate < premium.closeRate ∨ premium.openRate < premium.lowRate ∨
      premium.closeRate < premium.lowRate)
    (orderText order.fkey "invalid premium OHLC")

def validateFeeEvent (event : IntraAnalysisFeeEvent) : Except IntraError Unit := do
  bailIf (trim event.symbol = "") "intra analysis fee event has an empty symbol"
  bailIf (event.ts ≤ 0) ("intra analysis fee event has invalid timestamp: " ++ toString event.ts)
  bailIf (event.notionalUsdt ≤ 0) "intra analysis fee event has invalid notional: "
    event.notionalUsdt

def validateFundingEvent (event : IntraAnalysisFundingEvent) : Except IntraError Unit := do
  bailIf (trim event.symbol = "") "intra analysis funding event has an empty symbol"
  bailIf (event.ts ≤ 0)
    ("intra analysis funding event has invalid timestamp: " ++ toString event.ts)

def validateInterestEvent (event : IntraAnalysisInterestEvent) : Except IntraError Unit := do
  bailIf (∃ symbol ∈ event.symbol, trim symbol = "")
    "intra analysis interest event has an empty symbol"
  bailIf (event.ts ≤ 0)
    ("intra analysis interest event has invalid timestamp: " ++ toString event.ts)
  bailIf (∃ cost ∈ event.costUsdt, cost < 0)
    "intra analysis interest event has an invalid USDT cost"

/-- What an accepted order is: tradable, with a premium candle whose rates are in order. Every order
    of a run that is answered is such. -/
structure ValidOrder (order : IntraAnalysisOrder) : Prop where
  symbol : trim order.symbol ≠ ""
  spotPrice : 0 < order.spotPrice
  futuresPrice : 0 < order.futuresPrice
  quantity : 0 < order.quantity
  premium : ∀ premium ∈ order.premium,
    max premium.openRate premium.closeRate ≤ premium.highRate ∧
      premium.lowRate ≤ min premium.openRate premium.closeRate

theorem validateOrder_eq_ok {order : IntraAnalysisOrder} {u : Unit}
    (h : validateOrder order = .ok u) : ValidOrder order := by
  obtain ⟨_, hsymbol, h⟩ := bind_eq_ok.mp h
  obtain ⟨_, hspot, h⟩ := bind_eq_ok.mp h
  obtain ⟨_, hfutures, h⟩ := bind_eq_ok.mp h
  obtain ⟨_, hquantity, h⟩ := bind_eq_ok.mp h
  refine ⟨bailIf_eq_ok.mp hsymbol, not_le.mp (bailIf_eq_ok.mp hspot),
    not_le.mp (bailIf_eq_ok.mp hfutures), not_le.mp (bailIf_eq_ok.mp hquantity), ?_⟩
  intro premium hpremium
  have hrates := fun hbad => bailIf_eq_ok.mp h ⟨premium, hpremium, hbad⟩
  simp only [not_or, not_lt, imp_false] at hrates
  exact ⟨max_le hrates.1 hrates.2.1, le_min hrates.2.2.1 hrates.2.2.2⟩

/-! ## Preparing -/

/-- The validated inputs, in the order the loops take them. -/
structure IntraInputs where
  orders : List IntraAnalysisOrder
  feeEvents : List IntraAnalysisFeeEvent
  fundingEvents : List IntraAnalysisFundingEvent
  interestEvents : List IntraAnalysisInterestEvent
  deriving DecidableEq, Repr

/-- The loops that put every row in normal form and validate it. -/
def checkAll {α : Type} (normalize : α → α) (validate : α → Except IntraError Unit)
    (rows : List α) : Except IntraError (List α) := do
  (rows.map normalize).forM validate
  return rows.map normalize

theorem checkAll_eq_ok {α : Type} {normalize : α → α} {validate : α → Except IntraError Unit}
    {rows checked : List α} (h : checkAll normalize validate rows = .ok checked) :
    checked = rows.map normalize ∧ ∀ row ∈ checked, validate row = .ok () := by
  obtain ⟨_, hall, h⟩ := bind_eq_ok.mp h
  obtain rfl := pure_eq_ok.mp h
  refine ⟨rfl, ?_⟩
  generalize rows.map normalize = rows at hall
  induction rows with
  | nil => exact fun _ hrow => (List.not_mem_nil hrow).elim
  | cons row rows ih =>
    obtain ⟨_, hrow, hrest⟩ := bind_eq_ok.mp hall
    exact List.forall_mem_cons.mpr ⟨hrow, ih hrest⟩

def IntraInputs.prepare (orders : List IntraAnalysisOrder) (feeEvents : List IntraAnalysisFeeEvent)
    (fundingEvents : List IntraAnalysisFundingEvent)
    (interestEvents : List IntraAnalysisInterestEvent) : Except IntraError IntraInputs := do
  let orders ← checkAll (fun order => { order with symbol := uppercase order.symbol })
    validateOrder orders
  let feeEvents ← checkAll (fun event => { event with symbol := uppercase event.symbol })
    validateFeeEvent feeEvents
  let fundingEvents ← checkAll (fun event => { event with symbol := uppercase event.symbol })
    validateFundingEvent fundingEvents
  let interestEvents ← checkAll (fun event => { event with symbol := event.symbol.map uppercase })
    validateInterestEvent interestEvents
  return {
    orders := sortByKey (fun order => toLex (order.completedAtMs, order.fkey)) orders
    feeEvents := sortByKey (fun event => toLex (event.ts, event.symbol)) feeEvents
    fundingEvents := sortByKey (fun event => toLex (event.ts, event.symbol)) fundingEvents
    -- `None` sorts before every symbol.
    interestEvents := sortByKey (fun event =>
      toLex (event.ts, toLex (event.symbol.isSome, event.symbol.getD ""))) interestEvents }

def IntraInputs.availableSymbols (inputs : IntraInputs) : List String :=
  sortedSet (inputs.orders.map IntraAnalysisOrder.symbol)

def selectedSymbols (available requested : List String) : Except IntraError (List String) :=
  if requested = [] then .ok available
  else
    let selected := sortedSet ((requested.map uppercase).filter (· ∈ available))
    if selected = [] ∧ available ≠ [] then
      .error ⟨"none of the requested symbols exist in the selected range", none⟩
    else .ok selected

/-- What `prepare` makes of the orders. -/
theorem prepare_orders {orders : List IntraAnalysisOrder} {feeEvents : List IntraAnalysisFeeEvent}
    {fundingEvents : List IntraAnalysisFundingEvent}
    {interestEvents : List IntraAnalysisInterestEvent} {inputs : IntraInputs}
    (h : IntraInputs.prepare orders feeEvents fundingEvents interestEvents = .ok inputs) :
    inputs.orders.Perm
        (orders.map fun order => { order with symbol := uppercase order.symbol }) ∧
      ∀ order ∈ inputs.orders, ValidOrder order := by
  obtain ⟨checked, hchecked, h⟩ := bind_eq_ok.mp h
  obtain ⟨_, -, h⟩ := bind_eq_ok.mp h
  obtain ⟨_, -, h⟩ := bind_eq_ok.mp h
  obtain ⟨_, -, h⟩ := bind_eq_ok.mp h
  obtain rfl := pure_eq_ok.mp h
  obtain ⟨hmap, hvalid⟩ := checkAll_eq_ok hchecked
  refine ⟨hmap ▸ sortByKey_perm _ _, fun order horder => ?_⟩
  exact validateOrder_eq_ok (hvalid order (mem_sortByKey.mp horder))

theorem selectedSymbols_subset {available requested selected : List String}
    (h : selectedSymbols available requested = .ok selected) : selected ⊆ available := by
  unfold selectedSymbols at h
  split at h
  · rw [← Except.ok.inj h]
    exact fun _ hsymbol => hsymbol
  · simp only at h
    split at h
    · cases h
    · rw [← Except.ok.inj h]
      intro symbol hsymbol
      rw [mem_sortedSet, List.mem_filter] at hsymbol
      simpa using hsymbol.2

theorem selectedSymbols_nodup {available requested selected : List String}
    (havailable : available.Nodup) (h : selectedSymbols available requested = .ok selected) :
    selected.Nodup := by
  unfold selectedSymbols at h
  split at h
  · rw [← Except.ok.inj h]
    exact havailable
  · simp only at h
    split at h
    · cases h
    · rw [← Except.ok.inj h]
      exact sortedSet_nodup _

end CryptoNav.Intra
