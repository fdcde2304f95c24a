import CryptoNav.Intra.Calculate
import CryptoNav.Lib.Balance

/-!
# The open lots of a symbol

What an order closes and opens is its quantity up to one `QUANTITY_EPSILON`: the matching loop is
the clearing of a queue. What a lot carries goes to its closes and stays on the lot up to the
rounding of both. An allocation divides its amount among the open lots and changes nothing else.

The queue is an instance of `Lib.Clearing` with plain subtraction, so its amounts are exact and
its dust is as there. The lemmas come in pairs, one about sizes and one about what lots carry,
because the loop rounds what is carried and never rounds a size. Nothing here knows about
requests, curves or summaries; it is about one symbol between two steps.
-/

set_option autoImplicit false

namespace CryptoNav.Intra

open CryptoNav.Lib

theorem abs_cleanZero_sub_le (value : ℚ) : |cleanZero value - value| ≤ 1 / 10 ^ 9 := by
  unfold cleanZero
  split
  · rename_i h
    rwa [zero_sub, abs_neg]
  · rw [sub_self, abs_zero]
    positivity

theorem quantityEpsilon_nonneg : 0 ≤ quantityEpsilon := by
  unfold quantityEpsilon
  positivity

/-! ## The matching loop -/

/-- A close as a bite of the clearing. -/
def lotBite (fees : FeeAccumulator) (referenceFeeBps : ℚ) (order : IntraAnalysisOrder) :
    Bite OpenLot ℚ where
  size := OpenLot.remainingQuantity
  take lot quantity := Closing.lotAfter ⟨lot, order, quantity, fees, referenceFeeBps⟩
  less left quantity := left - quantity

section

variable (fees : FeeAccumulator) (referenceFeeBps : ℚ) (order : IntraAnalysisOrder)

theorem lotBite_lawful :
    (lotBite fees referenceFeeBps order).Lawful quantityEpsilon fun _ => True where
  zero := trivial
  sub := fun _ _ _ => trivial
  less := fun _ _ _ => rfl
  size_take := fun _ _ _ => rfl

theorem closeLots_clear (remaining : ℚ) (lots : List OpenLot) :
    (closeLots fees referenceFeeBps order remaining lots).remaining =
        ((lotBite fees referenceFeeBps order).clear quantityEpsilon remaining lots).left ∧
      (closeLots fees referenceFeeBps order remaining lots).lots =
        ((lotBite fees referenceFeeBps order).clear quantityEpsilon remaining lots).queue := by
  induction lots generalizing remaining with
  | nil => exact ⟨rfl, rfl⟩
  | cons lot lots ih =>
    by_cases hdone : remaining ≤ quantityEpsilon
    · rw [Bite.clear_of_le hdone, closeLots, if_pos hdone]
      exact ⟨rfl, rfl⟩
    · by_cases hpop : (Closing.lotAfter ⟨lot, order, min remaining lot.remainingQuantity, fees,
          referenceFeeBps⟩).remainingQuantity ≤ quantityEpsilon
      · rw [Bite.clear_of_pop hdone hpop, closeLots, if_neg hdone]
        simp only [if_pos hpop]
        exact ih _
      · rw [Bite.clear_of_stop hdone hpop, closeLots, if_neg hdone]
        simp only [if_neg hpop]
        exact ⟨rfl, rfl⟩

variable {fees referenceFeeBps order}

/-- Every close is of one of the lots and of this order. -/
theorem mem_closings {remaining : ℚ} {lots : List OpenLot} {c : Closing}
    (h : c ∈ (closeLots fees referenceFeeBps order remaining lots).closings) :
    c.lot ∈ lots ∧ c.order = order := by
  induction lots generalizing remaining with
  | nil => cases h
  | cons lot lots ih =>
    rw [closeLots] at h
    split at h
    · cases h
    · simp only at h
      split at h
      · rcases List.mem_cons.mp h with rfl | hlater
        · exact ⟨List.mem_cons_self, rfl⟩
        · exact ⟨List.mem_cons_of_mem _ (ih hlater).1, (ih hlater).2⟩
      · rw [List.mem_singleton.mp h]
        exact ⟨List.mem_cons_self, rfl⟩

/-- Something a lot carries, and the part of it that a closed match reports. The lot keeps what the
    match does not take, before the match is rounded. -/
structure Carried (carried : OpenLot → ℚ) (reported : IntraClosedMatch → ℚ) : Prop where
  reported : ∀ c : Closing, reported c.row = cleanZero (c.share (carried c.lot))
  after : ∀ c : Closing,
    carried c.lotAfter = cleanZero (carried c.lot - c.share (carried c.lot))
  opened : ∀ (order : IntraAnalysisOrder) remaining, carried (order.lot remaining) = 0

theorem carried_funding : Carried OpenLot.fundingPnlUsdt IntraClosedMatch.fundingPnlUsdt :=
  ⟨fun _ => rfl, fun _ => rfl, fun _ _ => rfl⟩

theorem carried_interest : Carried OpenLot.interestCostUsdt IntraClosedMatch.interestCostUsdt :=
  ⟨fun _ => rfl, fun _ => rfl, fun _ _ => rfl⟩

/-- A lot leaves the queue exactly when its last part goes with the close. -/
theorem share_of_closed (c : Closing) (h : c.lotAfter.remainingQuantity ≤ quantityEpsilon)
    (carried : ℚ) : c.share carried = carried := by
  refine if_pos ?_
  change cleanQuantity (c.lot.remainingQuantity - c.matchedQuantity) ≤ quantityEpsilon at h
  rcases clampZero_cases (c.lot.remainingQuantity - c.matchedQuantity) quantityEpsilon with
    hc | hc
  · have hle : c.lot.remainingQuantity - c.matchedQuantity ≤ quantityEpsilon := hc ▸ h
    linarith
  · have hle := (le_abs_self _).trans hc.2
    linarith

variable {carried : OpenLot → ℚ} {reported : IntraClosedMatch → ℚ}

/-- **What the closes report and the lots still carry.** -/
theorem Carried.closeLots (h : Carried carried reported) (fees : FeeAccumulator)
    (referenceFeeBps : ℚ) (order : IntraAnalysisOrder) (remaining : ℚ) (lots : List OpenLot) :
    let r := closeLots fees referenceFeeBps order remaining lots
    |(r.lots.map carried).sum - (lots.map carried).sum -
        -(r.closings.map fun c => reported c.row).sum| ≤
      2 / 10 ^ 9 * r.closings.length := by
  induction lots generalizing remaining with
  | nil => simp [Intra.closeLots]
  | cons lot lots ih =>
    rw [Intra.closeLots]
    split
    · simp
    · set c : Closing :=
        ⟨lot, order, min remaining lot.remainingQuantity, fees, referenceFeeBps⟩
      have hfront : c.lot = lot := rfl
      have hrow := abs_le.mp (abs_cleanZero_sub_le (c.share (carried lot)))
      simp only
      split
      · rename_i hclosed
        have hrest := abs_le.mp (ih (cleanQuantity (remaining - c.matchedQuantity)))
        rw [share_of_closed c hclosed] at hrow
        simp only [List.map_cons, List.sum_cons, List.length_cons, h.reported c, hfront,
          share_of_closed c hclosed, Nat.cast_add, Nat.cast_one]
        rw [abs_le]
        constructor <;> linarith [hrow.1, hrow.2, hrest.1, hrest.2]
      · have hlot := abs_le.mp (abs_cleanZero_sub_le (carried lot - c.share (carried lot)))
        simp only [List.map_cons, List.sum_cons, List.length_cons, List.map_nil, List.sum_nil,
          List.length_nil, h.reported c, h.after c, hfront, Nat.cast_add, Nat.cast_one, Nat.cast_zero]
        rw [abs_le]
        constructor <;> linarith [hrow.1, hrow.2, hlot.1, hlot.2]

end

/-! ## The lots of a symbol -/

namespace SymbolState

@[simp] theorem lots_setLots_self (state : SymbolState) (direction : ArbDirection)
    (lots : List OpenLot) : (state.setLots direction lots).lots direction = lots := by
  cases direction <;> rfl

@[simp] theorem lots_setLots_opposite (state : SymbolState) (direction : ArbDirection)
    (lots : List OpenLot) :
    (state.setLots direction lots).lots direction.opposite = state.lots direction.opposite := by
  cases direction <;> rfl

@[simp] theorem lots_setLots_of_opposite (state : SymbolState) (direction : ArbDirection)
    (lots : List OpenLot) :
    (state.setLots direction.opposite lots).lots direction = state.lots direction := by
  cases direction <;> rfl

/-- What stays of the lots an order met. -/
theorem lots_settle_opposite (state : SymbolState) (order : IntraAnalysisOrder)
    (closed : Closed) : (state.settle order closed).lots order.direction.opposite = closed.lots := by
  unfold settle
  simp only
  split
  · rw [lots_setLots_opposite, lots_setLots_self]
  · rw [lots_setLots_self]

theorem lots_settle (state : SymbolState) (order : IntraAnalysisOrder) (closed : Closed) :
    (state.settle order closed).lots order.direction =
      state.lots order.direction ++
        if quantityEpsilon < closed.remaining then [order.lot closed.remaining] else [] := by
  unfold settle
  simp only
  split
  · rw [lots_setLots_self, lots_setLots_of_opposite]
  · rw [lots_setLots_of_opposite, List.append_nil]

/-- A sum over all open lots, by side. -/
def sumOver (state : SymbolState) (value : OpenLot → ℚ) : ℚ :=
  ((state.positive ++ state.reverse).map value).sum

theorem sumOver_eq (state : SymbolState) (value : OpenLot → ℚ) (direction : ArbDirection) :
    state.sumOver value = ((state.lots direction).map value).sum +
      ((state.lots direction.opposite).map value).sum := by
  unfold sumOver
  rw [List.map_append, List.sum_append]
  cases direction with
  | positive => rfl
  | reverse => exact add_comm _ _

/-- Open positive less open reverse quantity. -/
def openBalance (state : SymbolState) : ℚ :=
  (state.positive.map OpenLot.remainingQuantity).sum -
    (state.reverse.map OpenLot.remainingQuantity).sum

theorem openBalance_eq (state : SymbolState) (direction : ArbDirection) :
    state.openBalance = direction.sign *
      (((state.lots direction).map OpenLot.remainingQuantity).sum -
        ((state.lots direction.opposite).map OpenLot.remainingQuantity).sum) := by
  cases direction with
  | positive => exact (one_mul _).symm
  | reverse =>
    show _ = -1 * (_ - _)
    rw [neg_one_mul, neg_sub]
    rfl

/-- One side is empty, and every lot lies on its own side and is not dust. It is what the loops rely
    on when they close one side and open the other. -/
structure Sound (state : SymbolState) : Prop where
  oneSided : ∃ direction, state.lots direction = []
  lots : ∀ direction, ∀ lot ∈ state.lots direction,
    lot.direction = direction ∧ quantityEpsilon < lot.remainingQuantity

theorem sound_empty : Sound {} where
  oneSided := ⟨.positive, rfl⟩
  lots direction lot hlot := by cases direction <;> cases hlot

theorem Sound.direction_cases {state : SymbolState} (h : state.Sound) (direction : ArbDirection) :
    state.lots direction = [] ∨ state.lots direction.opposite = [] := by
  obtain ⟨side, hside⟩ := h.oneSided
  cases side <;> cases direction
  · exact .inl hside
  · exact .inr hside
  · exact .inr hside
  · exact .inl hside

/-- **An order keeps one side empty.** Something is left of it only when it met all lots of the
other side. -/
theorem Sound.settle {state : SymbolState} (h : state.Sound) (fees : FeeAccumulator)
    (referenceFeeBps : ℚ) (order : IntraAnalysisOrder) :
    (state.settle order (closeLots fees referenceFeeBps order order.quantity
      (state.lots order.direction.opposite))).Sound := by
  obtain ⟨hleft, hqueue⟩ := closeLots_clear fees referenceFeeBps order order.quantity
    (state.lots order.direction.opposite)
  set closed := closeLots fees referenceFeeBps order order.quantity
    (state.lots order.direction.opposite)
  have hmet := h.lots order.direction.opposite
  constructor
  · by_cases hkept : quantityEpsilon < closed.remaining
    · refine ⟨order.direction.opposite, ?_⟩
      rw [lots_settle_opposite]
      by_contra hnone
      rw [hqueue] at hnone
      rw [hleft] at hkept
      exact absurd ((lotBite_lawful fees referenceFeeBps order).clear_left_le
        quantityEpsilon_nonneg trivial (fun _ _ => trivial) hnone) (not_le.mpr hkept)
    · rcases h.direction_cases order.direction with hown | hother
      · refine ⟨order.direction, ?_⟩
        rw [lots_settle, if_neg hkept, List.append_nil, hown]
      · refine ⟨order.direction.opposite, ?_⟩
        rw [lots_settle_opposite, hqueue, hother]
        rfl
  · intro direction lot hlot
    by_cases hown : direction = order.direction
    · subst hown
      rw [lots_settle] at hlot
      rcases List.mem_append.mp hlot with hold | hnew
      · exact h.lots _ lot hold
      · split at hnew
        · rename_i hkept
          rw [List.mem_singleton.mp hnew]
          exact ⟨rfl, hkept⟩
        · cases hnew
    · have hother : direction = order.direction.opposite := by
        cases direction <;> cases hd : order.direction <;> simp_all [ArbDirection.opposite]
      subst hother
      rw [lots_settle_opposite, hqueue] at hlot
      refine ⟨?_, Bite.clear_queue (b := lotBite fees referenceFeeBps order)
        (fun a ha => (hmet a ha).2) lot hlot⟩
      exact ((lotBite_lawful fees referenceFeeBps order).clear_forall
        (P := fun a => a.direction = order.direction.opposite ∧ quantityEpsilon < a.remainingQuantity)
        (Q := fun a => a.direction = order.direction.opposite) (fun a ha => ha.1)
        (fun a _ ha _ _ _ => ha.1) (fun a ha => quantityEpsilon_nonneg.trans ha.2.le)
        quantityEpsilon_nonneg trivial (fun _ _ => trivial) hmet).2 lot hlot

/-- **An order moves the balance by its quantity**, up to one dust. -/
theorem openBalance_settle (state : SymbolState) (fees : FeeAccumulator)
    (referenceFeeBps : ℚ) {order : IntraAnalysisOrder} (hquantity : 0 ≤ order.quantity) :
    |(state.settle order (closeLots fees referenceFeeBps order order.quantity
        (state.lots order.direction.opposite))).openBalance - state.openBalance -
      order.direction.sign * order.quantity| ≤ quantityEpsilon := by
  obtain ⟨hleft, hqueue⟩ := closeLots_clear fees referenceFeeBps order order.quantity
    (state.lots order.direction.opposite)
  set closed := closeLots fees referenceFeeBps order order.quantity
    (state.lots order.direction.opposite)
  have hlots : ∀ a ∈ state.lots order.direction.opposite, True := fun _ _ => trivial
  have hbalance := ((lotBite_lawful fees referenceFeeBps order).clear_balance
    quantityEpsilon_nonneg hquantity trivial hlots).1
  rw [← hleft, ← hqueue] at hbalance
  have hkept : ((if quantityEpsilon < closed.remaining then [order.lot closed.remaining]
      else []).map OpenLot.remainingQuantity).sum =
        if quantityEpsilon < closed.remaining then closed.remaining else 0 := by
    split
    · exact List.sum_singleton
    · rfl
  rw [openBalance_eq _ order.direction, openBalance_eq state order.direction, lots_settle,
    lots_settle_opposite, List.map_append, List.sum_append, hkept, ← mul_sub, ← mul_sub, abs_mul]
  have hsign : |order.direction.sign| = 1 := by
    cases order.direction
    · exact abs_one
    · exact (abs_neg _).trans abs_one
  rw [hsign, one_mul]
  refine le_of_eq_of_le (congrArg abs ?_) hbalance
  show _ = _ - (closed.lots.map OpenLot.remainingQuantity).sum -
    (order.quantity - ((state.lots order.direction.opposite).map OpenLot.remainingQuantity).sum)
  ring

/-- **What an order does to what the lots carry**: it goes to the closes, up to their rounding. -/
theorem sumOver_settle {carried : OpenLot → ℚ} {reported : IntraClosedMatch → ℚ}
    (h : Carried carried reported) (state : SymbolState) (fees : FeeAccumulator)
    (referenceFeeBps : ℚ) (order : IntraAnalysisOrder) :
    let closed := closeLots fees referenceFeeBps order order.quantity
      (state.lots order.direction.opposite)
    |(state.settle order closed).sumOver carried - state.sumOver carried -
        -(closed.closings.map fun c => reported c.row).sum| ≤
      2 / 10 ^ 9 * closed.closings.length := by
  intro closed
  have hclose := h.closeLots fees referenceFeeBps order order.quantity
    (state.lots order.direction.opposite)
  have hopened : ((if quantityEpsilon < closed.remaining then [order.lot closed.remaining]
      else []).map carried).sum = 0 := by
    split
    · rw [List.map_singleton, List.sum_singleton, h.opened]
    · rfl
  rw [sumOver_eq _ carried order.direction, sumOver_eq state carried order.direction, lots_settle,
    lots_settle_opposite, List.map_append, List.sum_append, hopened, add_zero,
    add_sub_add_left_eq_sub]
  exact hclose

/-- Two states with the same lots but for what the lots carry. Funding and interest change what is
    carried, and leave sizes and sides alone. -/
def SameLots (state state' : SymbolState) : Prop :=
  ∀ direction, (state'.lots direction).map (fun lot => (lot.direction, lot.remainingQuantity)) =
    (state.lots direction).map fun lot => (lot.direction, lot.remainingQuantity)

theorem SameLots.sound {state state' : SymbolState} (h : SameLots state state')
    (hsound : state.Sound) : state'.Sound := by
  constructor
  · obtain ⟨direction, hnone⟩ := hsound.oneSided
    refine ⟨direction, ?_⟩
    have hlots := h direction
    rw [hnone] at hlots
    exact List.map_eq_nil_iff.mp hlots
  · intro direction lot hlot
    have hmem := List.mem_map_of_mem (f := fun lot : OpenLot =>
      (lot.direction, lot.remainingQuantity)) hlot
    rw [h direction] at hmem
    obtain ⟨old, hold, heq⟩ := List.mem_map.mp hmem
    obtain ⟨hdirection, hquantity⟩ := Prod.mk.injEq .. ▸ heq
    rw [← hdirection, ← hquantity]
    exact hsound.lots direction old hold

theorem SameLots.openBalance {state state' : SymbolState} (h : SameLots state state') :
    state'.openBalance = state.openBalance := by
  have hside : ∀ direction, (state'.lots direction).map OpenLot.remainingQuantity =
      (state.lots direction).map OpenLot.remainingQuantity := by
    intro direction
    have hlots := congrArg (List.map Prod.snd) (h direction)
    rwa [List.map_map, List.map_map] at hlots
  rw [openBalance_eq _ .positive, openBalance_eq state .positive, hside, hside]

end SymbolState

/-! ## Funding and interest -/

/-- **Funding is divided among the open lots**, and nothing else of them changes. -/
theorem allocateFunding_eq_some {state state' : SymbolState} {amountUsdt : ℚ}
    (h : allocateFunding state amountUsdt = some state') :
    state.SameLots state' ∧ state'.stats = state.stats ∧
      state'.sumOver OpenLot.fundingPnlUsdt = state.sumOver OpenLot.fundingPnlUsdt + amountUsdt ∧
      state'.sumOver OpenLot.interestCostUsdt = state.sumOver OpenLot.interestCostUsdt := by
  unfold allocateFunding at h
  simp only at h
  split at h
  · cases h
  rename_i htotal
  set total := ((state.positive ++ state.reverse).map OpenLot.futuresNotional).sum with htotalDef
  obtain rfl := Option.some.inj h
  refine ⟨?_, rfl, ?_, ?_⟩
  · intro direction
    cases direction <;> exact List.map_map ..
  · have hne : total ≠ 0 := fun h0 => htotal (h0 ▸ (by unfold f64Epsilon; positivity))
    have hshares := sum_shares hne amountUsdt
    unfold SymbolState.sumOver
    simp only
    refine Eq.trans ?_ (congrArg (((state.positive ++ state.reverse).map
      OpenLot.fundingPnlUsdt).sum + ·) hshares)
    rw [← List.map_append, List.map_map, ← List.sum_map_add]
    rfl
  · unfold SymbolState.sumOver
    simp only
    rw [← List.map_append, List.map_map]
    rfl

theorem sum_spreadInterest (costUsdt total : ℚ) (lots : List OpenLot) :
    ((spreadInterest costUsdt total lots).map OpenLot.interestCostUsdt).sum =
      (lots.map OpenLot.interestCostUsdt).sum +
        (lots.map fun lot => costUsdt * lot.spotNotional / total).sum := by
  unfold spreadInterest
  rw [List.map_map, ← List.sum_map_add]
  rfl

theorem map_spreadInterest {β : Type} {value : OpenLot → β}
    (h : ∀ lot cost, value { lot with interestCostUsdt := cost } = value lot)
    (costUsdt total : ℚ) (lots : List OpenLot) :
    (spreadInterest costUsdt total lots).map value = lots.map value := by
  unfold spreadInterest
  rw [List.map_map]
  exact List.map_congr_left fun lot _ => h lot _

theorem SymbolState.SameLots.refl (state : SymbolState) : state.SameLots state := fun _ => rfl

/-- Spreading interest over one side. -/
theorem spreadInterest_sameLots (state : SymbolState) (costUsdt total : ℚ) :
    state.SameLots
        { state with positive := spreadInterest costUsdt total state.positive } ∧
      state.SameLots
        { state with reverse := spreadInterest costUsdt total state.reverse } := by
  constructor <;> intro direction <;> cases direction
  · exact map_spreadInterest (fun _ _ => rfl) costUsdt total _
  · rfl
  · rfl
  · exact map_spreadInterest (fun _ _ => rfl) costUsdt total _

/-- **Interest is divided among the open lots of one side**, and nothing else changes. -/
theorem allocateInterest_eq_some {available selected : List String}
    {states states' : String → SymbolState} {event : IntraAnalysisInterestEvent} {received : Bool}
    (hnodup : available.Nodup)
    (h : allocateInterest available selected states event = some (states', received)) :
    (∀ symbol, (states symbol).SameLots (states' symbol) ∧
      (states' symbol).stats = (states symbol).stats ∧
      (states' symbol).sumOver OpenLot.fundingPnlUsdt =
        (states symbol).sumOver OpenLot.fundingPnlUsdt) ∧
    (available.map fun symbol => (states' symbol).sumOver OpenLot.interestCostUsdt).sum =
      (available.map fun symbol => (states symbol).sumOver OpenLot.interestCostUsdt).sum +
        event.costUsdt.getD 0 := by
  unfold allocateInterest at h
  split at h
  · cases h
  rename_i costUsdt hcost
  have hevent : event.costUsdt = some costUsdt := (Option.filter_eq_some_iff.mp hcost).1
  have hpositive : ∀ total : ℚ, ¬ total ≤ f64Epsilon → total ≠ 0 :=
    fun total htotal h0 => htotal (h0 ▸ (by unfold f64Epsilon; positivity))
  have hfunding : ∀ cost total lots, (spreadInterest cost total lots).map OpenLot.fundingPnlUsdt =
      lots.map OpenLot.fundingPnlUsdt := map_spreadInterest fun _ _ => rfl
  rw [hevent, Option.getD_some]
  split at h
  · rename_i symbol _
    simp only at h
    split at h
    swap
    · cases h
    rename_i hmem
    split at h
    · cases h
    rename_i htotal
    obtain ⟨rfl, -⟩ := Prod.mk.injEq .. ▸ Option.some.inj h
    have hshares := sum_shares (hpositive _ htotal) costUsdt
    constructor
    · intro other
      by_cases he : other = symbol
      · subst he
        rw [Function.update_self]
        refine ⟨(spreadInterest_sameLots _ _ _).2, rfl, ?_⟩
        simp only [SymbolState.sumOver, List.map_append,
          hfunding]
      · rw [Function.update_of_ne he]
        exact ⟨.refl _, rfl, rfl⟩
    · rw [sum_update (fun state : SymbolState => state.sumOver OpenLot.interestCostUsdt) states _
        hnodup hmem]
      simp only [SymbolState.sumOver, List.map_append, List.sum_append, sum_spreadInterest, hshares]
      ring
  · simp only at h
    split at h
    · cases h
    rename_i htotal
    obtain ⟨rfl, -⟩ := Prod.mk.injEq .. ▸ Option.some.inj h
    have hshares := sum_shares (hpositive _ htotal) costUsdt
    set total := ((available.flatMap fun symbol => (states symbol).positive).map
      OpenLot.spotNotional).sum
    constructor
    · intro symbol
      by_cases hsymbol : symbol ∈ available
      · simp only [if_pos hsymbol]
        refine ⟨(spreadInterest_sameLots _ _ _).1, trivial, ?_⟩
        simp only [SymbolState.sumOver, List.map_append,
          hfunding]
      · simp only [if_neg hsymbol]
        exact ⟨.refl _, trivial, trivial⟩
    · refine Eq.trans ?_ (congrArg ((available.map fun symbol =>
        (states symbol).sumOver OpenLot.interestCostUsdt).sum + ·) hshares)
      rw [sum_flatMap_map, ← List.sum_map_add]
      congr 1
      refine List.map_congr_left fun symbol hsymbol => ?_
      simp only [if_pos hsymbol]
      simp only [SymbolState.sumOver, List.map_append, List.sum_append, sum_spreadInterest]
      ring

end CryptoNav.Intra
