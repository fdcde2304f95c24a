import CryptoNav.Intra.Records

/-!
# The views of the intra analysis agree

A response reports the same money five times: in its summary, at the end of the aggregate curve,
at the ends of the symbol curves, in the two direction slices, and in its matches. Each of these
adds up the closes of the run; what they add differs by the rounding of the rows only, and what
they show by one more rounding. `Measure` names what is compared, and a `View` is its values.

How many roundings lie between a view and the close it adds up is counted, and the distance that
is allowed is a multiple of that; a bound that also took the rounding of binary64 sums into
account would have to grow with the amounts, and is left out. The matches of a response are cut
off after so many, so they agree with the other views only while there is room for all of them.
-/

set_option autoImplicit false

namespace CryptoNav.Intra

open CryptoNav.Lib

inductive Measure where
  | matchCount
  | matchedNotional
  | realizedPnl
  | fundingPnl
  | interestCost
  | grossPnl
  | feeAfterPnl
  | referenceFeeAfterPnl
  deriving DecidableEq, Repr

abbrev View := Measure → ℚ

/-- What one rounding may change: money by 1e-9, a count by nothing. -/
def rounding : View
  | .matchCount => 0
  | _ => 1 / 10 ^ 9

theorem rounding_nonneg (m : Measure) : 0 ≤ rounding m := by
  cases m <;> simp [rounding]

/-! ## The views of a response -/

def IntraAnalysisSummary.view (s : IntraAnalysisSummary) : View
  | .matchCount => s.closedMatchCount
  | .matchedNotional => s.matchedNotionalUsdt
  | .realizedPnl => s.realizedPnlUsdt
  | .fundingPnl => s.fundingPnlUsdt
  | .interestCost => s.interestCostUsdt
  | .grossPnl => s.grossPnlUsdt
  | .feeAfterPnl => s.feeAfterPnlUsdt
  | .referenceFeeAfterPnl => s.referenceFeeAfterPnlUsdt

def IntraAnalysisPoint.view (p : IntraAnalysisPoint) : View
  | .matchCount => p.closedMatchCount
  | .matchedNotional => p.matchedNotionalUsdt
  | .realizedPnl => p.realizedPnlUsdt
  | .fundingPnl => p.fundingPnlUsdt
  | .interestCost => p.interestCostUsdt
  | .grossPnl => p.grossPnlUsdt
  | .feeAfterPnl => p.feeAfterPnlUsdt
  | .referenceFeeAfterPnl => p.referenceFeeAfterPnlUsdt

/-- The notional of a match is that of its two spot prices. -/
def IntraClosedMatch.view (row : IntraClosedMatch) : View
  | .matchCount => 1
  | .matchedNotional => row.quantity * (row.openSpotPrice + row.closeSpotPrice) / 2
  | .realizedPnl => row.pnlUsdt
  | .fundingPnl => row.fundingPnlUsdt
  | .interestCost => row.interestCostUsdt
  | .grossPnl => row.grossPnlUsdt
  | .feeAfterPnl => row.feeAfterPnlUsdt
  | .referenceFeeAfterPnl => row.referenceFeeAfterPnlUsdt

/-- What a direction slice reports. -/
def sliceMeasures : List Measure :=
  [.matchCount, .matchedNotional, .grossPnl, .feeAfterPnl, .referenceFeeAfterPnl]

def IntraDirectionSlice.view (s : IntraDirectionSlice) : View
  | .matchCount => s.closedMatchCount
  | .matchedNotional => s.matchedNotionalUsdt
  | .grossPnl => s.grossPnlUsdt
  | .feeAfterPnl => s.feeAfterPnlUsdt
  | .referenceFeeAfterPnl => s.referenceFeeAfterPnlUsdt
  | _ => 0

/-- The last point of a curve. -/
def lastView (points : List IntraAnalysisPoint) : View := (points.getLast?.getD {}).view

/-! ## What a close adds -/

def Closing.view (c : Closing) : View
  | .matchCount => 1
  | .matchedNotional => c.matchedNotional
  | .realizedPnl => c.pnlUsdt
  | .fundingPnl => c.fundingPnlUsdt
  | .interestCost => c.interestCostUsdt
  | .grossPnl => c.grossPnlUsdt
  | .feeAfterPnl => c.grossPnlUsdt - c.tradingFeeUsdt
  | .referenceFeeAfterPnl => c.grossPnlUsdt - c.referenceTradingFeeUsdt

/-- What the statistics add: the rounded parts of its row. -/
def Closing.recorded (c : Closing) : View
  | .matchCount => 1
  | .matchedNotional => c.matchedNotional
  | .realizedPnl => c.row.pnlUsdt
  | .fundingPnl => c.row.fundingPnlUsdt
  | .interestCost => c.row.interestCostUsdt
  | .grossPnl => c.row.pnlUsdt + c.row.fundingPnlUsdt - c.row.interestCostUsdt
  | .feeAfterPnl =>
    c.row.pnlUsdt + c.row.fundingPnlUsdt - c.row.interestCostUsdt - c.row.tradingFeeUsdt
  | .referenceFeeAfterPnl =>
    c.row.pnlUsdt + c.row.fundingPnlUsdt - c.row.interestCostUsdt - c.row.referenceTradingFeeUsdt

/-- What the slices add. -/
def Closing.sliced (c : Closing) : View
  | .matchCount => 1
  | .matchedNotional => c.matchedNotional
  | .grossPnl => c.row.grossPnlUsdt
  | .feeAfterPnl => c.row.grossPnlUsdt - c.row.tradingFeeUsdt
  | .referenceFeeAfterPnl => c.row.grossPnlUsdt - c.row.referenceTradingFeeUsdt
  | _ => 0

theorem row_view_within (c : Closing) (m : Measure) : |c.row.view m - c.view m| ≤ rounding m := by
  cases m with
  | matchCount => exact (abs_nonpos_iff.mpr (sub_self _))
  | matchedNotional => exact (abs_nonpos_iff.mpr (sub_self _)).trans (rounding_nonneg _)
  | realizedPnl => exact (abs_nonpos_iff.mpr (sub_self _)).trans (rounding_nonneg _)
  | fundingPnl => exact abs_cleanZero_sub_le _
  | interestCost => exact abs_cleanZero_sub_le _
  | grossPnl => exact abs_cleanZero_sub_le _
  | feeAfterPnl => exact abs_cleanZero_sub_le _
  | referenceFeeAfterPnl => exact abs_cleanZero_sub_le _

theorem recorded_within (c : Closing) (m : Measure) :
    |c.recorded m - c.view m| ≤ 3 * rounding m := by
  have hfunding := abs_le.mp (abs_cleanZero_sub_le c.fundingPnlUsdt)
  have hinterest := abs_le.mp (abs_cleanZero_sub_le c.interestCostUsdt)
  have hfee := abs_le.mp (abs_cleanZero_sub_le c.tradingFeeUsdt)
  have hreference := abs_le.mp (abs_cleanZero_sub_le c.referenceTradingFeeUsdt)
  rw [abs_le]
  cases m <;> simp only [Closing.recorded, Closing.view, Closing.row, Closing.grossPnlUsdt,
    rounding] <;> constructor <;> linarith [hfunding.1, hfunding.2, hinterest.1, hinterest.2,
    hfee.1, hfee.2, hreference.1, hreference.2]

theorem sliced_within (c : Closing) {m : Measure} (hm : m ∈ sliceMeasures) :
    |c.sliced m - c.view m| ≤ 2 * rounding m := by
  have hgross := abs_le.mp (abs_cleanZero_sub_le c.grossPnlUsdt)
  have hfee := abs_le.mp (abs_cleanZero_sub_le c.tradingFeeUsdt)
  have hreference := abs_le.mp (abs_cleanZero_sub_le c.referenceTradingFeeUsdt)
  rw [abs_le]
  cases m <;> simp only [sliceMeasures, List.mem_cons, reduceCtorEq, List.not_mem_nil, or_false]
    at hm <;> simp only [Closing.sliced, Closing.view, Closing.row, rounding] <;>
    constructor <;> linarith [hgross.1, hgross.2, hfee.1, hfee.2, hreference.1, hreference.2]

/-! ## What adds them up -/

def PointTotals.view (t : PointTotals) : View
  | .matchCount => t.matchCount
  | .matchedNotional => t.notional
  | .realizedPnl => t.pnl
  | .fundingPnl => t.fundingPnl
  | .interestCost => t.interestCost
  | .grossPnl => t.pnl + t.fundingPnl - t.interestCost
  | .feeAfterPnl => t.pnl + t.fundingPnl - t.interestCost - t.tradingFee
  | .referenceFeeAfterPnl => t.pnl + t.fundingPnl - t.interestCost - t.referenceTradingFee

/-- A premium and the direction of the lot change the other variables only. -/
theorem PointTotals.add_fields (t : PointTotals) (c : Closing) :
    (t.add c).matchCount = t.matchCount + 1 ∧ (t.add c).notional = t.notional + c.matchedNotional ∧
      (t.add c).pnl = t.pnl + c.pnlUsdt ∧ (t.add c).fundingPnl = t.fundingPnl + c.fundingPnlUsdt ∧
      (t.add c).interestCost = t.interestCost + c.interestCostUsdt ∧
      (t.add c).tradingFee = t.tradingFee + c.tradingFeeUsdt ∧
      (t.add c).referenceTradingFee = t.referenceTradingFee + c.referenceTradingFeeUsdt := by
  unfold PointTotals.add
  cases c.marketPnlUsdt <;> cases c.executionPnlUsdt <;> cases c.lot.direction <;>
    exact ⟨rfl, rfl, rfl, rfl, rfl, rfl, rfl⟩

theorem PointTotals.view_add (t : PointTotals) (c : Closing) (m : Measure) :
    (t.add c).view m = t.view m + c.view m := by
  obtain ⟨hcount, hnotional, hpnl, hfunding, hinterest, hfee, hreference⟩ := t.add_fields c
  cases m <;> simp only [PointTotals.view, Closing.view, Closing.grossPnlUsdt, hcount, hnotional,
    hpnl, hfunding, hinterest, hfee, hreference, Nat.cast_add, Nat.cast_one] <;> ring

theorem PointTotals.point_within (t : PointTotals) (ts : ℤ) (m : Measure) :
    |(t.point ts).view m - t.view m| ≤ rounding m := by
  cases m with
  | matchCount => exact (abs_nonpos_iff.mpr (sub_self _))
  | matchedNotional => exact abs_cleanZero_sub_le _
  | realizedPnl => exact abs_cleanZero_sub_le _
  | fundingPnl => exact abs_cleanZero_sub_le _
  | interestCost => exact abs_cleanZero_sub_le _
  | grossPnl => exact abs_cleanZero_sub_le _
  | feeAfterPnl => exact abs_cleanZero_sub_le _
  | referenceFeeAfterPnl => exact abs_cleanZero_sub_le _

def SummaryAccumulator.view (a : SummaryAccumulator) : View
  | .matchCount => a.closedMatchCount
  | .matchedNotional => a.matchedNotionalUsdt
  | .realizedPnl => a.realizedPnlUsdt
  | .fundingPnl => a.fundingPnlUsdt
  | .interestCost => a.interestCostUsdt
  | .grossPnl => a.realizedPnlUsdt + a.fundingPnlUsdt - a.interestCostUsdt
  | .feeAfterPnl =>
    a.realizedPnlUsdt + a.fundingPnlUsdt - a.interestCostUsdt - a.tradingFeeUsdt
  | .referenceFeeAfterPnl =>
    a.realizedPnlUsdt + a.fundingPnlUsdt - a.interestCostUsdt - a.referenceTradingFeeUsdt

def DirectionAccumulator.view (a : DirectionAccumulator) : View
  | .matchCount => a.closedMatchCount
  | .matchedNotional => a.matchedNotionalUsdt
  | .grossPnl => a.grossPnlUsdt
  | .feeAfterPnl => a.grossPnlUsdt - a.tradingFeeUsdt
  | .referenceFeeAfterPnl => a.grossPnlUsdt - a.referenceTradingFeeUsdt
  | _ => 0

namespace DirectionAccumulator

theorem view_record (a : DirectionAccumulator) (c : Closing) (m : Measure) :
    (a.record c.row c.matchedNotional).view m = a.view m + c.sliced m := by
  unfold record
  simp only
  split_ifs <;> cases m <;>
    simp only [DirectionAccumulator.view, Closing.sliced, Nat.cast_add, Nat.cast_one] <;> ring

theorem view_add (a b : DirectionAccumulator) (m : Measure) :
    (a.add b).view m = a.view m + b.view m := by
  cases m <;> simp only [DirectionAccumulator.view, add, Nat.cast_add] <;> ring

theorem finish_within (a : DirectionAccumulator) (m : Measure) :
    |a.finish.view m - a.view m| ≤ rounding m := by
  cases m with
  | matchCount => exact (abs_nonpos_iff.mpr (sub_self _))
  | matchedNotional => exact abs_cleanZero_sub_le _
  | realizedPnl => exact (abs_nonpos_iff.mpr (sub_self _)).trans (rounding_nonneg _)
  | fundingPnl => exact (abs_nonpos_iff.mpr (sub_self _)).trans (rounding_nonneg _)
  | interestCost => exact (abs_nonpos_iff.mpr (sub_self _)).trans (rounding_nonneg _)
  | grossPnl => exact abs_cleanZero_sub_le _
  | feeAfterPnl => exact abs_cleanZero_sub_le _
  | referenceFeeAfterPnl => exact abs_cleanZero_sub_le _

end DirectionAccumulator

namespace SummaryAccumulator

/-- What both direction slices report together. -/
def slices (a : SummaryAccumulator) : View := fun m => a.positive.view m + a.reverse.view m

theorem recordMatch_fields (a : SummaryAccumulator) (row : IntraClosedMatch) (notional : ℚ) :
    (a.recordMatch row notional).closedMatchCount = a.closedMatchCount + 1 ∧
      (a.recordMatch row notional).matchedNotionalUsdt = a.matchedNotionalUsdt + notional ∧
      (a.recordMatch row notional).realizedPnlUsdt = a.realizedPnlUsdt + row.pnlUsdt ∧
      (a.recordMatch row notional).fundingPnlUsdt = a.fundingPnlUsdt + row.fundingPnlUsdt ∧
      (a.recordMatch row notional).interestCostUsdt = a.interestCostUsdt + row.interestCostUsdt ∧
      (a.recordMatch row notional).tradingFeeUsdt = a.tradingFeeUsdt + row.tradingFeeUsdt ∧
      (a.recordMatch row notional).referenceTradingFeeUsdt =
        a.referenceTradingFeeUsdt + row.referenceTradingFeeUsdt := by
  unfold recordMatch
  cases row.marketPnlUsdt <;> cases row.executionPnlUsdt <;> cases row.openDirection <;>
    exact ⟨rfl, rfl, rfl, rfl, rfl, rfl, rfl⟩

/-- A match goes to the slice of its direction. -/
theorem recordMatch_slices (a : SummaryAccumulator) (row : IntraClosedMatch) (notional : ℚ) :
    ((a.recordMatch row notional).positive = a.positive.record row notional ∧
        (a.recordMatch row notional).reverse = a.reverse) ∨
      ((a.recordMatch row notional).positive = a.positive ∧
        (a.recordMatch row notional).reverse = a.reverse.record row notional) := by
  unfold recordMatch
  cases row.openDirection with
  | positive =>
    left
    cases row.marketPnlUsdt <;> cases row.executionPnlUsdt <;> exact ⟨rfl, rfl⟩
  | reverse =>
    right
    cases row.marketPnlUsdt <;> cases row.executionPnlUsdt <;> exact ⟨rfl, rfl⟩

theorem view_recordMatch (a : SummaryAccumulator) (c : Closing) (m : Measure) :
    (a.recordMatch c.row c.matchedNotional).view m = a.view m + c.recorded m := by
  obtain ⟨hcount, hnotional, hpnl, hfunding, hinterest, hfee, hreference⟩ :=
    a.recordMatch_fields c.row c.matchedNotional
  cases m <;> simp only [SummaryAccumulator.view, Closing.recorded, hcount, hnotional, hpnl,
    hfunding, hinterest, hfee, hreference, Nat.cast_add, Nat.cast_one] <;> ring

theorem slices_recordMatch (a : SummaryAccumulator) (c : Closing) (m : Measure) :
    (a.recordMatch c.row c.matchedNotional).slices m = a.slices m + c.sliced m := by
  unfold slices
  rcases a.recordMatch_slices c.row c.matchedNotional with ⟨hp, hr⟩ | ⟨hp, hr⟩
  · rw [hp, hr, DirectionAccumulator.view_record]
    ring
  · rw [hp, hr, DirectionAccumulator.view_record]
    ring

theorem view_add (a b : SummaryAccumulator) (m : Measure) :
    (a.add b).view m = a.view m + b.view m := by
  cases m <;> simp only [SummaryAccumulator.view, add, Nat.cast_add] <;> ring

theorem slices_add (a b : SummaryAccumulator) (m : Measure) :
    (a.add b).slices m = a.slices m + b.slices m := by
  unfold slices
  show (a.positive.add b.positive).view m + (a.reverse.add b.reverse).view m = _
  rw [DirectionAccumulator.view_add, DirectionAccumulator.view_add]
  ring

theorem finish_within (a : SummaryAccumulator) (opened : OpenSummary) (m : Measure) :
    |(a.finish opened).view m - a.view m| ≤ rounding m := by
  cases m with
  | matchCount => exact (abs_nonpos_iff.mpr (sub_self _))
  | matchedNotional => exact abs_cleanZero_sub_le _
  | realizedPnl => exact abs_cleanZero_sub_le _
  | fundingPnl => exact abs_cleanZero_sub_le _
  | interestCost => exact abs_cleanZero_sub_le _
  | grossPnl => exact abs_cleanZero_sub_le _
  | feeAfterPnl => exact abs_cleanZero_sub_le _
  | referenceFeeAfterPnl => exact abs_cleanZero_sub_le _

theorem view_empty (m : Measure) : ({} : SummaryAccumulator).view m = 0 := by
  cases m <;> simp [SummaryAccumulator.view]

theorem slices_empty (m : Measure) : ({} : SummaryAccumulator).slices m = 0 := by
  cases m <;> simp [slices, DirectionAccumulator.view]

end SummaryAccumulator

/-! ## The totals of one symbol -/

/-- The derived fields of a running total follow its sums. They are computed when a point is made,
    and this is what ties them to what was added up. -/
structure IntraAnalysisPoint.Derived (p : IntraAnalysisPoint) : Prop where
  gross : p.grossPnlUsdt = p.realizedPnlUsdt + p.fundingPnlUsdt - p.interestCostUsdt
  feeAfter : p.feeAfterPnlUsdt = p.grossPnlUsdt - p.tradingFeeUsdt
  referenceFeeAfter : p.referenceFeeAfterPnlUsdt = p.grossPnlUsdt - p.referenceTradingFeeUsdt

namespace IntraAnalysisPoint

theorem addClose_fields (p : IntraAnalysisPoint) (c : Closing) :
    (p.addClose c).closedMatchCount = p.closedMatchCount + 1 ∧
      (p.addClose c).matchedNotionalUsdt = p.matchedNotionalUsdt + c.matchedNotional ∧
      (p.addClose c).realizedPnlUsdt = p.realizedPnlUsdt + c.pnlUsdt ∧
      (p.addClose c).fundingPnlUsdt = p.fundingPnlUsdt + c.fundingPnlUsdt ∧
      (p.addClose c).interestCostUsdt = p.interestCostUsdt + c.interestCostUsdt ∧
      (p.addClose c).tradingFeeUsdt = p.tradingFeeUsdt + c.tradingFeeUsdt ∧
      (p.addClose c).referenceTradingFeeUsdt =
        p.referenceTradingFeeUsdt + c.referenceTradingFeeUsdt ∧
      (p.addClose c).Derived := by
  unfold addClose addDirectionClose
  cases c.marketPnlUsdt <;> cases c.executionPnlUsdt <;> cases c.lot.direction <;>
    exact ⟨rfl, rfl, rfl, rfl, rfl, rfl, rfl, ⟨rfl, rfl, rfl⟩⟩

theorem view_addClose {p : IntraAnalysisPoint} (h : p.Derived) (c : Closing) (m : Measure) :
    (p.addClose c).view m = p.view m + c.view m := by
  obtain ⟨hcount, hnotional, hpnl, hfunding, hinterest, hfee, hreference, hderived⟩ :=
    p.addClose_fields c
  cases m <;> simp only [IntraAnalysisPoint.view, Closing.view, Closing.grossPnlUsdt,
    hderived.feeAfter, hderived.referenceFeeAfter, hderived.gross, h.feeAfter,
    h.referenceFeeAfter, h.gross, hcount, hnotional, hpnl, hfunding, hinterest, hfee, hreference,
    Nat.cast_add, Nat.cast_one] <;> ring

theorem derived_empty : ({} : IntraAnalysisPoint).Derived := ⟨by simp, by simp, by simp⟩

theorem view_empty (m : Measure) : ({} : IntraAnalysisPoint).view m = 0 := by
  cases m <;> simp [IntraAnalysisPoint.view]

/-- **A symbol's total adds up its closes.** -/
theorem view_foldl_addClose (closings : List Closing) (m : Measure) :
    (closings.foldl addClose {}).view m = (closings.map fun c => c.view m).sum := by
  suffices h : ∀ p : IntraAnalysisPoint, p.Derived →
      (closings.foldl addClose p).view m = p.view m + (closings.map fun c => c.view m).sum by
    rw [h {} derived_empty, view_empty, zero_add]
  intro p hp
  induction closings generalizing p with
  | nil => exact (add_zero _).symm
  | cons c closings ih =>
    rw [List.foldl_cons, ih _ (p.addClose_fields c).2.2.2.2.2.2.2, view_addClose hp, List.map_cons,
      List.sum_cons, add_assoc]

end IntraAnalysisPoint

/-! ## The views of a run -/

section

variable (inputs : IntraInputs) (request : IntraAnalysisRequest) (selected : List String)

/-- The closed matches of the selected symbols. -/
def IntraInputs.selectedMatches : List Closing :=
  (inputs.closedMatches request selected).filter (·.order.symbol ∈ selected)

theorem analyze_curves :
    (analyze inputs request selected).curves = (inputs.selectedMatches request selected).foldl
      (Curves.record request.maxMatches) (Walk.start request).curves :=
  run_curves (Walk.start request) (inputs.schedule request)

theorem analyze_stats (symbol : String) :
    ((analyze inputs request selected).states symbol).stats =
      recordAll {} ((inputs.closedMatches request selected).filter (·.order.symbol = symbol)) :=
  @run_stats (settings inputs request selected) (availableSymbols_nodup inputs)
    (Walk.start request) (inputs.schedule request) symbol

variable {selected}

/-- Whatever the statistics add up, the aggregate adds up over the selected matches. -/
theorem aggregateStats_sum (hselected : selected ⊆ inputs.availableSymbols)
    {f : SummaryAccumulator → ℚ} {g : Closing → ℚ} (hempty : f {} = 0)
    (hadd : ∀ a b, f (a.add b) = f a + f b)
    (hrecord : ∀ a c, f (a.recordMatch c.row c.matchedNotional) = f a + g c) :
    f (aggregateStats inputs.availableSymbols selected (analyze inputs request selected).states) =
      ((inputs.selectedMatches request selected).map g).sum := by
  have hsymbol : ∀ symbol, f ((analyze inputs request selected).states symbol).stats =
      (((inputs.closedMatches request selected).filter (·.order.symbol = symbol)).map g).sum := by
    intro symbol
    rw [analyze_stats, recordAll, foldl_sum hrecord, hempty, zero_add]
  have hnodup : (inputs.availableSymbols.filter (· ∈ selected)).Nodup :=
    (availableSymbols_nodup inputs).filter _
  unfold aggregateStats
  rw [foldl_sum hadd, hempty, zero_add, List.map_map]
  simp only [Function.comp_def, hsymbol]
  rw [sum_fibers (fun c : Closing => c.order.symbol) g hnodup]
  unfold IntraInputs.selectedMatches
  congr 2
  refine List.filter_congr fun c _ => decide_eq_decide.mpr ?_
  rw [List.mem_filter, decide_eq_true_eq]
  exact ⟨fun h => h.2, fun h => ⟨hselected h, h⟩⟩

variable (selected)

/-- The last point of the aggregate curve is that of its totals. -/
theorem lastView_points : ∃ totals : PointTotals,
    (report inputs request selected (analyze inputs request selected)).points.getLast? =
        some (totals.point request.endMs) ∧
      ∀ m, totals.view m =
        ((inputs.selectedMatches request selected).map fun c => c.view m).sum := by
  refine ⟨(analyze inputs request selected).curves.totals, ?_, fun m => ?_⟩
  · obtain ⟨ts, hlast⟩ := ((ends_start request).foldl request.maxMatches
      (inputs.selectedMatches request selected)).points
    rw [← analyze_curves] at hlast
    show (downsamplePoints (ensureFinalPoint _ _) _).getLast? = _
    rw [getLast?_downsamplePoints (lt_of_lt_of_le Nat.two_pos (le_max_right _ _)),
      getLast?_ensureFinalPoint hlast]
    rfl
  · rw [analyze_curves, foldl_record_totals,
      foldl_sum (f := fun t : PointTotals => t.view m) fun t c => t.view_add c m]
    have hzero : ({} : PointTotals).view m = 0 := by cases m <;> simp [PointTotals.view]
    show ({} : PointTotals).view m + _ = _
    rw [hzero, zero_add]

/-- The last point of a symbol's curve is its running total. -/
theorem getLast?_symbolPoints : ∀ series ∈ (report inputs request selected
      (analyze inputs request selected)).symbolPoints,
    series.points.getLast? = some { (((inputs.selectedMatches request selected).filter
      (·.order.symbol = series.symbol)).foldl IntraAnalysisPoint.addClose {}) with
        ts := request.endMs } := by
  intro series hseries
  obtain ⟨symbol, -, rfl⟩ := List.mem_map.mp hseries
  obtain ⟨ts, hlast⟩ := ((ends_start request).foldl request.maxMatches
    (inputs.selectedMatches request selected)).symbolPoints symbol
  rw [foldl_record_symbolTotals, ← analyze_curves] at hlast
  show (downsamplePoints (ensureFinalPoint _ _) _).getLast? = _
  rw [getLast?_downsamplePoints (lt_of_lt_of_le (by decide) (le_max_left _ _)),
    getLast?_ensureFinalPoint hlast]
  rfl

theorem symbolPoints_sum (hnodup : selected.Nodup) (m : Measure) :
    ((report inputs request selected (analyze inputs request selected)).symbolPoints.map
        fun series => lastView series.points m).sum =
      ((inputs.selectedMatches request selected).map fun c => c.view m).sum := by
  have hts : ∀ (p : IntraAnalysisPoint) (ts : ℤ), ({ p with ts := ts } : IntraAnalysisPoint).view m =
      p.view m := fun p ts => by cases m <;> rfl
  have hlast : ∀ series ∈ (report inputs request selected
      (analyze inputs request selected)).symbolPoints, lastView series.points m =
        (((inputs.selectedMatches request selected).filter
          (·.order.symbol = series.symbol)).map fun c => c.view m).sum := by
    intro series hseries
    unfold lastView
    rw [getLast?_symbolPoints inputs request selected series hseries, Option.getD_some, hts,
      IntraAnalysisPoint.view_foldl_addClose]
  rw [List.map_congr_left hlast]
  show ((selected.map _).map _).sum = _
  rw [List.map_map]
  have hfibers := sum_fibers (fun c : Closing => c.order.symbol) (fun c => c.view m) hnodup
    (inputs.selectedMatches request selected)
  refine hfibers.trans ?_
  unfold IntraInputs.selectedMatches
  rw [List.filter_filter]
  simp only [Bool.and_self]

/-- With room for all of them the matches are the rows of the selected closes, latest first. -/
theorem matched_eq (hroom : (inputs.selectedMatches request selected).length ≤ request.maxMatches) :
    (report inputs request selected (analyze inputs request selected)).matched =
      ((inputs.selectedMatches request selected).map Closing.row).reverse := by
  show (analyze inputs request selected).curves.recentMatches.reverse = _
  rw [analyze_curves, foldl_record_recentMatches request.maxMatches (by
    show 0 + _ ≤ _
    rwa [zero_add])]
  rfl

end

/-! ## The response -/

/-- The direction slices of a response: those of its summary and of its symbol rows. -/
def IntraAnalysisResponse.slices (response : IntraAnalysisResponse) : List IntraDirectionSlice :=
  response.summary.positive :: response.summary.reverse ::
    response.symbols.flatMap fun row => [row.summary.positive, row.summary.reverse]

/-- What a slice classifies is what it matched. Each match is above the fee, below it or cannot be
    classified for want of a premium. -/
def IntraDirectionSlice.Partitions (s : IntraDirectionSlice) : Prop :=
  |s.capturedAboveFeeNotionalUsdt + s.capturedBelowFeeNotionalUsdt + s.uncapturedNotionalUsdt -
    s.matchedNotionalUsdt| ≤ 4 / 10 ^ 9

/-- A match between two ends with a premium divides its PnL. One part is the market's, the other the
    execution's, each rounded by itself. -/
def IntraClosedMatch.Decomposes (row : IntraClosedMatch) : Prop :=
  row.entryPremiumBps.isSome → row.exitPremiumBps.isSome →
    ∃ market execution, row.marketPnlUsdt = some market ∧ row.executionPnlUsdt = some execution ∧
      market + execution = row.pnlUsdt

def DirectionAccumulator.Partitioned (a : DirectionAccumulator) : Prop :=
  a.capturedAboveFeeNotionalUsdt + a.capturedBelowFeeNotionalUsdt + a.uncapturedNotionalUsdt =
    a.matchedNotionalUsdt

namespace DirectionAccumulator

theorem partitioned_empty : ({} : DirectionAccumulator).Partitioned := by
  simp [Partitioned]

theorem Partitioned.record {a : DirectionAccumulator} (h : a.Partitioned) (row : IntraClosedMatch)
    (notional : ℚ) : (a.record row notional).Partitioned := by
  unfold Partitioned at h ⊢
  unfold DirectionAccumulator.record
  simp only
  split_ifs <;> simp only <;> linarith

theorem Partitioned.add {a b : DirectionAccumulator} (ha : a.Partitioned) (hb : b.Partitioned) :
    (a.add b).Partitioned := by
  unfold Partitioned at ha hb ⊢
  simp only [DirectionAccumulator.add]
  linarith

theorem Partitioned.finish {a : DirectionAccumulator} (h : a.Partitioned) :
    a.finish.Partitions := by
  unfold Partitioned at h
  have habove := abs_le.mp (abs_cleanZero_sub_le a.capturedAboveFeeNotionalUsdt)
  have hbelow := abs_le.mp (abs_cleanZero_sub_le a.capturedBelowFeeNotionalUsdt)
  have hnone := abs_le.mp (abs_cleanZero_sub_le a.uncapturedNotionalUsdt)
  have hall := abs_le.mp (abs_cleanZero_sub_le a.matchedNotionalUsdt)
  unfold IntraDirectionSlice.Partitions
  simp only [DirectionAccumulator.finish]
  rw [abs_le]
  constructor <;> linarith [habove.1, habove.2, hbelow.1, hbelow.2, hnone.1, hnone.2, hall.1,
    hall.2]

end DirectionAccumulator

/-- Both directions of the statistics classify what they matched. -/
def SummaryAccumulator.Partitioned (a : SummaryAccumulator) : Prop :=
  a.positive.Partitioned ∧ a.reverse.Partitioned

namespace SummaryAccumulator

theorem partitioned_empty : ({} : SummaryAccumulator).Partitioned :=
  ⟨DirectionAccumulator.partitioned_empty, DirectionAccumulator.partitioned_empty⟩

theorem Partitioned.recordAll {a : SummaryAccumulator} (h : a.Partitioned)
    (closings : List Closing) : (recordAll a closings).Partitioned := by
  refine fold_invariant (P := SummaryAccumulator.Partitioned) (fun c _ a ha => ?_) h
  rcases a.recordMatch_slices c.row c.matchedNotional with ⟨hp, hr⟩ | ⟨hp, hr⟩
  · exact ⟨hp ▸ ha.1.record _ _, hr ▸ ha.2⟩
  · exact ⟨hp ▸ ha.1, hr ▸ ha.2.record _ _⟩

end SummaryAccumulator

theorem stats_partitioned (inputs : IntraInputs) (request : IntraAnalysisRequest)
    (selected : List String) (symbol : String) :
    ((analyze inputs request selected).states symbol).stats.Partitioned := by
  rw [analyze_stats]
  exact SummaryAccumulator.partitioned_empty.recordAll _

theorem slices_partition (inputs : IntraInputs) (request : IntraAnalysisRequest)
    (selected : List String) :
    ∀ s ∈ (report inputs request selected (analyze inputs request selected)).slices,
      s.Partitions := by
  have hstats := stats_partitioned inputs request selected
  have haggregate : (aggregateStats inputs.availableSymbols selected
      (analyze inputs request selected).states).Partitioned := by
    refine fold_invariant (P := SummaryAccumulator.Partitioned) (fun b hb a ha => ?_)
      SummaryAccumulator.partitioned_empty
    obtain ⟨symbol, -, rfl⟩ := List.mem_map.mp hb
    exact ⟨ha.1.add (hstats symbol).1, ha.2.add (hstats symbol).2⟩
  intro s hs
  rcases List.mem_cons.mp hs with rfl | hs
  · exact haggregate.1.finish
  rcases List.mem_cons.mp hs with rfl | hs
  · exact haggregate.2.finish
  obtain ⟨row, hrow, hslice⟩ := List.mem_flatMap.mp hs
  obtain ⟨symbol, -, rfl⟩ := List.mem_map.mp (mem_sortByKey.mp hrow)
  rcases List.mem_cons.mp hslice with rfl | hslice
  · exact (hstats symbol).1.finish
  · rw [List.mem_singleton.mp hslice]
    exact (hstats symbol).2.finish

/-- **A premium at both ends divides the PnL.** -/
theorem Closing.decomposes {c : Closing} (h : c.lot.direction = c.order.direction.opposite) :
    c.row.Decomposes := by
  intro hentry hexit
  obtain ⟨entry, hentry⟩ : ∃ premium, c.lot.premium = some premium :=
    Option.isSome_iff_exists.mp (by simpa [Closing.row] using hentry)
  obtain ⟨exit, hexit⟩ : ∃ premium, c.order.premium = some premium :=
    Option.isSome_iff_exists.mp (by simpa [Closing.row] using hexit)
  have hopen : c.lot.marketBasis = some (c.lot.spotPrice * entry.closeRate) := by
    unfold OpenLot.marketBasis
    rw [hentry, Option.map_some]
  have hclose : c.order.marketBasis = some (c.order.spotPrice * exit.closeRate) := by
    unfold IntraAnalysisOrder.marketBasis
    rw [hexit, Option.map_some]
  have hsign : c.lot.direction.sign = -c.order.direction.sign := by
    rw [h, ArbDirection.sign_opposite]
  refine ⟨c.matchedQuantity * c.lot.direction.sign *
      (c.lot.spotPrice * entry.closeRate - c.order.spotPrice * exit.closeRate),
    c.matchedQuantity * c.lot.direction.sign * (c.lot.basis - c.lot.spotPrice * entry.closeRate) +
      c.matchedQuantity * c.order.direction.sign *
        (c.order.basis - c.order.spotPrice * exit.closeRate), ?_, ?_, ?_⟩
  · show c.marketPnlUsdt = _
    unfold Closing.marketPnlUsdt
    rw [hopen, hclose]
  · show c.executionPnlUsdt = _
    unfold Closing.executionPnlUsdt Closing.entryExecutionPnlUsdt Closing.exitExecutionPnlUsdt
      OpenLot.executionCaptureUsdt
    rw [hopen, hclose]
    rfl
  · show _ = c.pnlUsdt
    unfold Closing.pnlUsdt
    rw [hsign]
    ring

theorem matched_decompose (inputs : IntraInputs) (request : IntraAnalysisRequest)
    (selected : List String) :
    ∀ row ∈ (report inputs request selected (analyze inputs request selected)).matched,
      row.Decomposes := by
  intro row hrow
  have hrecent := List.mem_reverse.mp hrow
  rw [analyze_curves] at hrecent
  rcases mem_recentMatches _ _ _ hrecent with hnone | ⟨c, hc, rfl⟩
  · exact (List.not_mem_nil hnone).elim
  · refine Closing.decomposes (closedMatches_opposite
      (settings inputs request selected) (availableSymbols_nodup inputs)
      (w := Walk.start request) (fun _ => SymbolState.sound_empty) (inputs.schedule request) c ?_)
    exact (List.mem_filter.mp hc).1

/-- What the ends of the symbol curves report together; nothing in it is rounded. -/
def IntraAnalysisResponse.total (response : IntraAnalysisResponse) : View := fun m =>
  (response.symbolPoints.map fun series => lastView series.points m).sum

/-- The rounding that `n` rows and the views of them may add up to. -/
def viewTolerance (n : ℕ) : View := fun m => (3 * n + 2) * rounding m

/-- The views of a response agree: on the match count exactly, on money up to rounding. How far
    money may differ is a number for each view, and counts roundings. -/
structure Agree (request : IntraAnalysisRequest) (response : IntraAnalysisResponse) : Prop where
  summary : ∀ m, |response.summary.view m - response.total m| ≤
    viewTolerance response.summary.closedMatchCount m
  points : ∀ m, |lastView response.points m - response.total m| ≤
    viewTolerance response.summary.closedMatchCount m
  slices : ∀ m ∈ sliceMeasures,
    |response.summary.positive.view m + response.summary.reverse.view m - response.total m| ≤
      viewTolerance response.summary.closedMatchCount m
  matched : response.summary.closedMatchCount ≤ request.maxMatches →
    ∀ m, |(response.matched.map fun row => row.view m).sum - response.total m| ≤
      viewTolerance response.summary.closedMatchCount m

/-- One part of the tolerance is within all of it. -/
theorem le_viewTolerance {n : ℕ} {m : Measure} {a b : ℚ} (ha : a ≤ 3) (hb : b ≤ 2) :
    n * (a * rounding m) + b * rounding m ≤ viewTolerance n m := by
  have hrounding := rounding_nonneg m
  have hn : (0 : ℚ) ≤ n := Nat.cast_nonneg n
  have hrows : n * (a * rounding m) ≤ n * (3 * rounding m) :=
    mul_le_mul_of_nonneg_left (mul_le_mul_of_nonneg_right ha hrounding) hn
  have hviews : b * rounding m ≤ 2 * rounding m := mul_le_mul_of_nonneg_right hb hrounding
  unfold viewTolerance
  linarith

/-- A view that rounds what it adds up of rounded rows. -/
theorem view_within {closings : List Closing} {m : Measure} {a b view sum : ℚ} {g : Closing → ℚ}
    (hsum : sum = (closings.map g).sum) (hview : |view - sum| ≤ b * rounding m)
    (hrows : ∀ c ∈ closings, |g c - c.view m| ≤ a * rounding m) (ha : a ≤ 3) (hb : b ≤ 2) :
    |view - (closings.map fun c => c.view m).sum| ≤ viewTolerance closings.length m := by
  have hwithin := sum_within hrows
  rw [← hsum] at hwithin
  have htriangle := abs_sub_le view sum (closings.map fun c => c.view m).sum
  have htolerance := le_viewTolerance (n := closings.length) (m := m) ha hb
  linarith

section

variable {inputs : IntraInputs} {request : IntraAnalysisRequest} {selected : List String}

theorem view_applyMetadata (fees : FeeAccumulator) (summary : IntraAnalysisSummary)
    (referenceFeeBps : ℚ) (m : Measure) :
    (fees.applyMetadataToSummary summary referenceFeeBps).view m = summary.view m := by
  cases m <;> rfl

theorem summary_count (hselected : selected ⊆ inputs.availableSymbols) :
    (report inputs request selected (analyze inputs request selected)).summary.closedMatchCount =
      (inputs.selectedMatches request selected).length := by
  have hcount := aggregateStats_sum inputs request hselected
    (f := fun a => a.view .matchCount) (g := fun _ => 1)
    (SummaryAccumulator.view_empty _) (fun a b => a.view_add b _)
    (fun a c => a.view_recordMatch c .matchCount)
  rw [List.map_const', List.sum_replicate, nsmul_eq_mul, mul_one] at hcount
  exact Nat.cast_injective (R := ℚ) hcount

theorem summary_within (hselected : selected ⊆ inputs.availableSymbols) (m : Measure) :
    |(report inputs request selected (analyze inputs request selected)).summary.view m -
        ((inputs.selectedMatches request selected).map fun c => c.view m).sum| ≤
      viewTolerance (inputs.selectedMatches request selected).length m := by
  have hsum := aggregateStats_sum inputs request hselected (f := fun a => a.view m)
    (SummaryAccumulator.view_empty m) (fun a b => a.view_add b m) fun a c => a.view_recordMatch c m
  refine view_within (a := 3) (b := 1) hsum ?_ (fun c _ => recorded_within c m) le_rfl (by norm_num)
  unfold report
  simp only
  rw [view_applyMetadata, one_mul]
  exact SummaryAccumulator.finish_within _ _ m

theorem slices_within (hselected : selected ⊆ inputs.availableSymbols) {m : Measure}
    (hm : m ∈ sliceMeasures) :
    |(report inputs request selected (analyze inputs request selected)).summary.positive.view m +
        (report inputs request selected (analyze inputs request selected)).summary.reverse.view m -
        ((inputs.selectedMatches request selected).map fun c => c.view m).sum| ≤
      viewTolerance (inputs.selectedMatches request selected).length m := by
  have hsum := aggregateStats_sum inputs request hselected (f := fun a => a.slices m)
    (SummaryAccumulator.slices_empty m) (fun a b => a.slices_add b m)
    fun a c => a.slices_recordMatch c m
  refine view_within (a := 2) (b := 2) hsum ?_ (fun c _ => sliced_within c hm) (by norm_num) le_rfl
  unfold report SummaryAccumulator.slices
  simp only [FeeAccumulator.applyMetadataToSummary, SummaryAccumulator.finish, settings]
  generalize aggregateStats inputs.availableSymbols selected
    (analyze inputs request selected).states = stats
  have hpositive := abs_le.mp (stats.positive.finish_within m)
  have hreverse := abs_le.mp (stats.reverse.finish_within m)
  rw [abs_le]
  constructor <;> linarith [hpositive.1, hpositive.2, hreverse.1, hreverse.2]

theorem points_within (m : Measure) :
    |lastView (report inputs request selected (analyze inputs request selected)).points m -
        ((inputs.selectedMatches request selected).map fun c => c.view m).sum| ≤
      viewTolerance (inputs.selectedMatches request selected).length m := by
  obtain ⟨totals, hlast, hview⟩ := lastView_points inputs request selected
  unfold lastView
  rw [hlast, Option.getD_some]
  refine view_within (a := 0) (b := 1) (hview m) ?_ (fun c _ => ?_) (by norm_num) (by norm_num)
  · rw [one_mul]
    exact totals.point_within _ m
  · rw [sub_self, abs_zero, zero_mul]

theorem matched_within (hroom : (inputs.selectedMatches request selected).length ≤
    request.maxMatches) (m : Measure) :
    |((report inputs request selected (analyze inputs request selected)).matched.map
          fun row => row.view m).sum -
        ((inputs.selectedMatches request selected).map fun c => c.view m).sum| ≤
      viewTolerance (inputs.selectedMatches request selected).length m := by
  rw [matched_eq inputs request selected hroom, List.map_reverse, List.sum_reverse, List.map_map]
  refine view_within (a := 1) (b := 0) (g := fun c => c.row.view m) rfl ?_ (fun c _ => ?_) (by norm_num) (by norm_num)
  · rw [Function.comp_def, sub_self, abs_zero, zero_mul]
  · rw [one_mul]
    exact row_view_within c m

theorem report_agrees (hselected : selected ⊆ inputs.availableSymbols) (hnodup : selected.Nodup) :
    Agree request (report inputs request selected (analyze inputs request selected)) := by
  have htotal : ∀ m, (report inputs request selected (analyze inputs request selected)).total m =
      ((inputs.selectedMatches request selected).map fun c => c.view m).sum :=
    symbolPoints_sum inputs request selected hnodup
  constructor
  · intro m
    rw [htotal, summary_count hselected]
    exact summary_within hselected m
  · intro m
    rw [htotal, summary_count hselected]
    exact points_within m
  · intro m hm
    rw [htotal, summary_count hselected]
    exact slices_within hselected hm
  · intro hroom m
    rw [summary_count hselected] at hroom ⊢
    rw [htotal]
    exact matched_within hroom m

end

/-- **The views agree.** Of every accepted calculation, the summary, the ends of the curves, the
direction slices and, with room for all of them, the matches report the same; every slice
classifies what it matched; and a match with a premium at both ends divides its PnL. -/
theorem views_agree {orders : List IntraAnalysisOrder} {feeEvents : List IntraAnalysisFeeEvent}
    {fundingEvents : List IntraAnalysisFundingEvent}
    {interestEvents : List IntraAnalysisInterestEvent} {request : IntraAnalysisRequest}
    {response : IntraAnalysisResponse}
    (h : calculateWithFeesFundingAndInterest orders feeEvents fundingEvents interestEvents request =
      .ok response) :
    Agree request response ∧ response.points ≠ [] ∧
      (response.symbolPoints.map IntraSymbolSeries.symbol = response.selectedSymbols ∧
        ∀ series ∈ response.symbolPoints, series.points ≠ []) ∧
      (∀ s ∈ response.slices, s.Partitions) ∧ ∀ row ∈ response.matched, row.Decomposes := by
  obtain ⟨inputs, selected, -, hselected, rfl⟩ := calculate_eq_ok h
  refine ⟨report_agrees (selectedSymbols_subset hselected)
    (selectedSymbols_nodup (availableSymbols_nodup inputs) hselected), ?_, ⟨?_, ?_⟩,
    slices_partition inputs request selected, matched_decompose inputs request selected⟩
  · obtain ⟨totals, hlast, -⟩ := lastView_points inputs request selected
    intro hnone
    rw [hnone] at hlast
    cases hlast
  · show (selected.map _).map _ = selected
    rw [List.map_map]
    exact List.map_id _
  · intro series hseries hnone
    have hlast := getLast?_symbolPoints inputs request selected series hseries
    rw [hnone] at hlast
    cases hlast

/-- Closes in both directions, with premiums, a rebate and funding. -/
def bothDirections : List IntraAnalysisOrder :=
  [⟨1, "BTCUSDT", .positive, 10, 100, 101, 2, some ⟨1 / 1000, 2 / 1000, 0, 1 / 1000⟩⟩,
    ⟨2, "BTCUSDT", .reverse, 20, 100, 100, 3, some ⟨0, 1 / 1000, 0, 1 / 2000⟩⟩,
    ⟨3, "BTCUSDT", .positive, 25, 101, 102, 1, none⟩]

theorem views_agree_both_directions :
    Yields (calculateWithFeesFundingAndInterest bothDirections [⟨"btcusdt", 12, 400, some (-1)⟩]
      [⟨"BTCUSDT", 15, 4⟩] [] dailyRequest) fun response =>
      response.summary.closedMatchCount = 2 ∧ Agree dailyRequest response ∧ response.points ≠ [] ∧
        (response.symbolPoints.map IntraSymbolSeries.symbol = response.selectedSymbols ∧
          ∀ series ∈ response.symbolPoints, series.points ≠ []) ∧
        (∀ s ∈ response.slices, s.Partitions) ∧ ∀ row ∈ response.matched, row.Decomposes := by
  obtain ⟨response, hresponse, hcount⟩ : Yields (calculateWithFeesFundingAndInterest bothDirections
      [⟨"btcusdt", 12, 400, some (-1)⟩] [⟨"BTCUSDT", 15, 4⟩] [] dailyRequest) fun response =>
        response.summary.closedMatchCount = 2 := by decide +kernel
  exact ⟨response, hresponse, hcount, views_agree hresponse⟩

end CryptoNav.Intra
