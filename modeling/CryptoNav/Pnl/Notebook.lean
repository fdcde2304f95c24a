import Mathlib.Algebra.BigOperators.Group.List.Basic
import CryptoNav.Pnl.Fifo

/-!
# The deque engine and the notebook

The notebook keeps one list of lots in time order and scans all of it at each fill; `fifo_pnl.rs`
keeps the longs and the shorts in two deques and their amounts in two totals beside them. A list of
lots is mirrored by an engine whose deques are its longs and its shorts; every fill keeps it so, and
then the two report the same.

The notebook's algorithm is in the program as `reference_apply`, which its tests compare the
engine with on a few fills, and is translated from there. Prices and amounts are exact, as in
`Fifo`: the two add the same numbers in different orders, so that in rounded arithmetic they
need not be the same.
-/

set_option autoImplicit false

namespace CryptoNav.Pnl

open CryptoNav.Lib

/-! ## The notebook's list -/

structure ReferenceLot where
  side : Side
  price : ℚ
  amountU : ℚ
  deriving DecidableEq, Repr

namespace ReferenceLot

def view : LotView ReferenceLot ℚ where
  size := ReferenceLot.amountU
  price := ReferenceLot.price
  resize lot amount := { lot with amountU := amount }
  size_resize _ _ := rfl
  price_resize _ _ := rfl

/-- The lot as the deque of its side holds it. -/
def lot (l : ReferenceLot) : AmountLot := ⟨l.price, l.amountU⟩

/-- What closing `matched` of the lot at `price` gains. -/
def gain (price : ℚ) (l : ReferenceLot) (matched : ℚ) : ℚ :=
  match l.side with
  | .buy => (price - l.price) / l.price * matched
  | .sell => (l.price - price) / l.price * matched

end ReferenceLot

/-- The variables of the loop of `reference_apply`. -/
structure ReferenceScan where
  remaining : ℚ
  realized : ℚ := 0
  next : List ReferenceLot := []

def ReferenceScan.step (side : Side) (price : ℚ) (scan : ReferenceScan) (lot : ReferenceLot) :
    ReferenceScan :=
  if lot.side = side ∨ scan.remaining = 0 then { scan with next := scan.next ++ [lot] }
  else
    let matched := min scan.remaining lot.amountU
    let left := lot.amountU - matched
    { remaining := scan.remaining - matched
      realized := scan.realized + lot.gain price matched
      next := if 0 < left then scan.next ++ [{ lot with amountU := left }] else scan.next }

/-- `reference_apply`: the realized PnL of a fill, and the list after it. -/
def referenceApply (lots : List ReferenceLot) (side : Side) (price amountU : ℚ) :
    ℚ × List ReferenceLot :=
  let scan := lots.foldl (ReferenceScan.step side price) { remaining := amountU }
  (scan.realized,
    if 0 < scan.remaining then scan.next ++ [⟨side, price, scan.remaining⟩] else scan.next)

def referenceFloating (lots : List ReferenceLot) (bid ask : ℚ) : ℚ :=
  (lots.map fun lot => match lot.side with
    | .buy => (ask - lot.price) / lot.price * lot.amountU
    | .sell => (lot.price - bid) / lot.price * lot.amountU).sum

/-- The net open amount the test sums up from the list. -/
def referenceNet (lots : List ReferenceLot) : ℚ :=
  (lots.map fun lot => match lot.side with
    | .buy => lot.amountU
    | .sell => -lot.amountU).sum

/-! ## One fill -/

def Side.other : Side → Side
  | .buy => .sell
  | .sell => .buy

theorem Side.ne_iff {side side' : Side} : side' ≠ side ↔ side' = side.other := by
  cases side <;> cases side' <;> decide

/-- The lots of one side in time order, as a deque holds them. -/
def queueOf (lots : List ReferenceLot) (side : Side) : List AmountLot :=
  (lots.filter (·.side = side)).map ReferenceLot.lot

theorem queueOf_append (lots lots' : List ReferenceLot) (side : Side) :
    queueOf (lots ++ lots') side = queueOf lots side ++ queueOf lots' side := by
  rw [queueOf, List.filter_append, List.map_append]
  rfl

theorem queueOf_own (side : Side) (price amountU : ℚ) :
    queueOf [⟨side, price, amountU⟩] side = [⟨price, amountU⟩] := by
  cases side <;> rfl

theorem queueOf_other (side : Side) (price amountU : ℚ) :
    queueOf [⟨side, price, amountU⟩] side.other = [] := by
  cases side <;> rfl

/-- A fill closes the lots of the other side. -/
def closedBy (side : Side) (lot : ReferenceLot) : Bool := lot.side = side.other

/-- The loop is the scan that closes the lots of the other side. -/
theorem foldl_step_eq (side : Side) (price : ℚ) (lots : List ReferenceLot) (s : ReferenceScan) :
    lots.foldl (ReferenceScan.step side price) s =
      let scanned := ReferenceLot.view.scan (closedBy side) (ReferenceLot.gain price) s.remaining lots
      ⟨scanned.left, s.realized + scanned.gain, s.next ++ scanned.lots⟩ := by
  induction lots generalizing s with
  | nil => simp [LotView.scan]
  | cons lot rest ih =>
    rw [List.foldl_cons, ih, LotView.scan]
    by_cases hskip : lot.side = side ∨ s.remaining = 0
    · have hskip' : closedBy side lot = false ∨ s.remaining = 0 := by simpa [closedBy, ← Side.ne_iff] using hskip
      rw [if_pos hskip', ReferenceScan.step, if_pos hskip]
      simp only [List.append_assoc, List.singleton_append]
    · have hskip' : ¬(closedBy side lot = false ∨ s.remaining = 0) := by simpa [closedBy, ← Side.ne_iff] using hskip
      have hsize : ReferenceLot.view.size lot = lot.amountU := rfl
      have hresize : ∀ amount, ReferenceLot.view.resize lot amount = { lot with amountU := amount } :=
        fun _ => rfl
      rw [if_neg hskip', ReferenceScan.step, if_neg hskip, hsize, hresize]
      by_cases hleft : 0 < lot.amountU - min s.remaining lot.amountU
      · simp only [if_pos hleft, List.append_assoc, List.singleton_append, add_assoc]
      · simp only [if_neg hleft, add_assoc]

/-- The engine and the list book the same gain on a lot that a fill closes. -/
theorem gain_eq {side : Side} {lot : ReferenceLot} (h : closedBy side lot = true) (price matched : ℚ) :
    -side.sign * (price - lot.lot.entryPrice) / lot.lot.entryPrice * matched =
      lot.gain price matched := by
  obtain ⟨lotSide, entryPrice, amountU⟩ := lot
  obtain rfl : lotSide = side.other := of_decide_eq_true h
  cases side with
  | buy => simp only [ReferenceLot.gain, ReferenceLot.lot, Side.other, Side.sign]; ring
  | sell => simp only [ReferenceLot.gain, ReferenceLot.lot, Side.other, Side.sign]; ring

theorem closeAmountFifo_map {side : Side} {lots : List ReferenceLot}
    (h : ∀ lot ∈ lots, closedBy side lot = true) (price amountU : ℚ) :
    closeAmountFifo (lots.map ReferenceLot.lot) price amountU (-side.sign) =
      let drained := ReferenceLot.view.drain (ReferenceLot.gain price) amountU lots
      ⟨drained.gain, drained.left, drained.lots.map ReferenceLot.lot⟩ := by
  have hsize : ∀ lot, AmountLot.view.size (ReferenceLot.lot lot) = ReferenceLot.view.size lot :=
    fun _ => rfl
  have hresize : ∀ lot amount, ReferenceLot.lot (ReferenceLot.view.resize lot amount) =
      AmountLot.view.resize (ReferenceLot.lot lot) amount := fun _ _ => rfl
  exact LotView.drain_map ReferenceLot.view hsize hresize fun lot hlot matched =>
    gain_eq (h lot hlot) price matched

/-- The list scan of a fill closes the deque of the other side and leaves the lots of its own. -/
theorem scan_eq_close (side : Side) (price : ℚ) {amountU : ℚ} (hamount : 0 < amountU)
    {lots : List ReferenceLot} (hpositive : ∀ lot ∈ lots, 0 < lot.amountU) :
    let scanned := ReferenceLot.view.scan (closedBy side) (ReferenceLot.gain price) amountU lots
    closeAmountFifo (queueOf lots side.other) price amountU (-side.sign) =
        ⟨scanned.gain, scanned.left, queueOf scanned.lots side.other⟩ ∧
      queueOf scanned.lots side = queueOf lots side := by
  intro scanned
  have hresize : ∀ lot amount,
      closedBy side (ReferenceLot.view.resize lot amount) = closedBy side lot := fun _ _ => rfl
  obtain ⟨hgain, hleft, hclosed, hkept⟩ := ReferenceLot.view.scan_drain hresize
    (ReferenceLot.gain price) hamount.le hpositive
  have hother : ∀ lots, queueOf lots side.other = (lots.filter (closedBy side)).map ReferenceLot.lot :=
    fun _ => rfl
  have hown : (fun lot => !closedBy side lot) = fun lot => decide (lot.side = side) := by
    funext ⟨lotSide, _, _⟩
    cases lotSide <;> cases side <;> rfl
  constructor
  · rw [hother, hother, closeAmountFifo_map fun lot hlot => (List.mem_filter.mp hlot).2]
    simp only [scanned]
    rw [hgain, hleft, hclosed]
  · rw [hown] at hkept
    rw [queueOf, hkept]
    rfl

/-- The lot that what is left of a fill opens. -/
def opened (price left : ℚ) : List AmountLot := if 0 < left then [⟨price, left⟩] else []

/-! ## The mirror -/

/-- The engine `f` mirrors the list `lots`. -/
structure Mirrors (f : FifoPnl) (lots : List ReferenceLot) : Prop where
  longs : f.longs = queueOf lots .buy
  shorts : f.shorts = queueOf lots .sell
  positive : ∀ lot ∈ lots, 0 < lot.amountU

/-- What the engine keeps of its own: deques of open lots, one of them empty, and their totals. -/
structure FifoPnl.Sound (f : FifoPnl) : Prop where
  positive : ∀ lot ∈ f.longs ++ f.shorts, 0 < lot.amountU
  longAmountU : f.longAmountU = (f.longs.map AmountLot.amountU).sum
  shortAmountU : f.shortAmountU = (f.shorts.map AmountLot.amountU).sum
  oneSided : f.longs = [] ∨ f.shorts = []

theorem mirrors_empty : Mirrors {} [] where
  longs := rfl
  shorts := rfl
  positive _ h := by cases h

theorem sound_empty : FifoPnl.Sound {} where
  positive _ h := by cases h
  longAmountU := rfl
  shortAmountU := rfl
  oneSided := .inl rfl

/-- What a valid fill makes of the list, in terms of the deques it mirrors. -/
theorem referenceApply_spec (side : Side) (price : ℚ) {amountU : ℚ} (hamount : 0 < amountU)
    {lots : List ReferenceLot} (hpositive : ∀ lot ∈ lots, 0 < lot.amountU) :
    let closed := closeAmountFifo (queueOf lots side.other) price amountU (-side.sign)
    let result := referenceApply lots side price amountU
    result.1 = closed.gain ∧ queueOf result.2 side.other = closed.lots ∧
      queueOf result.2 side =
        queueOf lots side ++ opened price closed.left ∧
      ∀ lot ∈ result.2, 0 < lot.amountU := by
  obtain ⟨hclose, hown⟩ := scan_eq_close side price hamount hpositive
  have hresize : ∀ lot amount,
      closedBy side (ReferenceLot.view.resize lot amount) = closedBy side lot := fun _ _ => rfl
  have hscanned := ReferenceLot.view.scan_pos hresize (ReferenceLot.gain price) hamount.le hpositive
  simp only [hclose, referenceApply, foldl_step_eq, List.nil_append, zero_add]
  generalize ReferenceLot.view.scan (closedBy side) (ReferenceLot.gain price) amountU lots = scanned
    at hown hscanned
  by_cases hleft : 0 < scanned.left
  · simp only [opened, if_pos hleft, queueOf_append, hown, queueOf_own, queueOf_other, List.append_nil]
    refine ⟨trivial, trivial, trivial, fun lot hlot => ?_⟩
    rcases List.mem_append.mp hlot with hlot | hlot
    · exact hscanned lot hlot
    · rw [List.mem_singleton.mp hlot]
      exact hleft
  · simp only [opened, if_neg hleft, hown, List.append_nil]
    exact ⟨trivial, trivial, trivial, hscanned⟩

/-! ## One fill of the engine -/

theorem closeAmountFifo_left_nonneg (lots : List AmountLot) (price direction : ℚ) {amountU : ℚ}
    (hamount : 0 < amountU) : 0 ≤ (closeAmountFifo lots price amountU direction).left :=
  LotView.drain_left_nonneg _ _ hamount.le lots

/-- The two branches of `apply_fill` on what is left of the fill. -/
theorem applyFill_buy (f : FifoPnl) {price amountU : ℚ} (fee : ℚ) (hprice : 0 < price)
    (hamount : 0 < amountU) :
    let closed := closeAmountFifo f.shorts price amountU (-1)
    let f' : FifoPnl :=
      { longs := f.longs ++ opened price closed.left
        shorts := closed.lots
        longAmountU := f.longAmountU + closed.left
        shortAmountU := f.shortAmountU - (amountU - closed.left)
        grossRealizedPnl := f.grossRealizedPnl + closed.gain
        cumulativeFees := f.cumulativeFees + fee }
    f.applyFill .buy price amountU fee = .ok (⟨closed.gain, amountU - closed.left, closed.left,
      f'.grossRealizedPnl - f'.cumulativeFees, f'.netOpenAmountU⟩, f') := by
  have hnonneg := closeAmountFifo_left_nonneg f.shorts price (-1) hamount
  simp only [FifoPnl.applyFill, validatePositive_ok hprice, validatePositive_ok hamount, bind,
    Except.bind, pure, Except.pure]
  generalize closeAmountFifo f.shorts price amountU (-1) = closed at hnonneg ⊢
  by_cases hleft : 0 < closed.left
  · simp only [opened, if_pos hleft]
  · have hzero : closed.left = 0 := le_antisymm (not_lt.mp hleft) hnonneg
    simp only [opened, if_neg hleft, List.append_nil]
    rw [hzero, add_zero]

theorem applyFill_sell (f : FifoPnl) {price amountU : ℚ} (fee : ℚ) (hprice : 0 < price)
    (hamount : 0 < amountU) :
    let closed := closeAmountFifo f.longs price amountU 1
    let f' : FifoPnl :=
      { longs := closed.lots
        shorts := f.shorts ++ opened price closed.left
        longAmountU := f.longAmountU - (amountU - closed.left)
        shortAmountU := f.shortAmountU + closed.left
        grossRealizedPnl := f.grossRealizedPnl + closed.gain
        cumulativeFees := f.cumulativeFees + fee }
    f.applyFill .sell price amountU fee = .ok (⟨closed.gain, amountU - closed.left, closed.left,
      f'.grossRealizedPnl - f'.cumulativeFees, f'.netOpenAmountU⟩, f') := by
  have hnonneg := closeAmountFifo_left_nonneg f.longs price 1 hamount
  simp only [FifoPnl.applyFill, validatePositive_ok hprice, validatePositive_ok hamount, bind,
    Except.bind, pure, Except.pure]
  generalize closeAmountFifo f.longs price amountU 1 = closed at hnonneg ⊢
  by_cases hleft : 0 < closed.left
  · simp only [opened, if_pos hleft]
  · have hzero : closed.left = 0 := le_antisymm (not_lt.mp hleft) hnonneg
    simp only [opened, if_neg hleft, List.append_nil]
    rw [hzero, add_zero]

/-- A deque that a fill opens a lot in and the deque that it closes, with their totals. -/
structure Sides (own other : List AmountLot) (ownAmountU otherAmountU : ℚ) : Prop where
  own_positive : ∀ lot ∈ own, 0 < lot.amountU
  other_positive : ∀ lot ∈ other, 0 < lot.amountU
  own_total : ownAmountU = (own.map AmountLot.amountU).sum
  other_total : otherAmountU = (other.map AmountLot.amountU).sum
  oneSided : own = [] ∨ other = []

theorem FifoPnl.sound_iff_buy {f : FifoPnl} :
    f.Sound ↔ Sides f.longs f.shorts f.longAmountU f.shortAmountU := by
  constructor
  · intro h
    obtain ⟨hlongs, hshorts⟩ := List.forall_mem_append.mp h.positive
    exact ⟨hlongs, hshorts, h.longAmountU, h.shortAmountU, h.oneSided⟩
  · intro h
    exact ⟨List.forall_mem_append.mpr ⟨h.own_positive, h.other_positive⟩, h.own_total,
      h.other_total, h.oneSided⟩

theorem FifoPnl.sound_iff_sell {f : FifoPnl} :
    f.Sound ↔ Sides f.shorts f.longs f.shortAmountU f.longAmountU := by
  constructor
  · intro h
    obtain ⟨hlongs, hshorts⟩ := List.forall_mem_append.mp h.positive
    exact ⟨hshorts, hlongs, h.shortAmountU, h.longAmountU, h.oneSided.symm⟩
  · intro h
    exact ⟨List.forall_mem_append.mpr ⟨h.other_positive, h.own_positive⟩, h.other_total,
      h.own_total, h.oneSided.symm⟩

/-- A fill keeps its two deques in order. -/
theorem Sides.fill {own other : List AmountLot} {ownAmountU otherAmountU : ℚ}
    (h : Sides own other ownAmountU otherAmountU) (price direction : ℚ) {amountU : ℚ}
    (hamount : 0 < amountU) :
    let closed := closeAmountFifo other price amountU direction
    Sides (own ++ opened price closed.left) closed.lots (ownAmountU + closed.left)
      (otherAmountU - (amountU - closed.left)) := by
  intro closed
  have hnonneg : 0 ≤ closed.left := closeAmountFifo_left_nonneg other price direction hamount
  have hsize : (closed.lots.map AmountLot.amountU).sum + amountU
      = (other.map AmountLot.amountU).sum + closed.left :=
    LotView.drain_size AmountLot.view _ amountU other
  have hpositive : ∀ lot ∈ closed.lots, 0 < lot.amountU :=
    LotView.drain_pos AmountLot.view _ h.other_positive
  have hother : otherAmountU - (amountU - closed.left) = (closed.lots.map AmountLot.amountU).sum := by
    rw [h.other_total]
    linear_combination -hsize
  by_cases hleft : 0 < closed.left
  · have hempty : closed.lots = [] := LotView.drain_lots_of_left_pos AmountLot.view _ hleft
    refine ⟨?_, hpositive, ?_, hother, .inr hempty⟩
    · rw [opened, if_pos hleft]
      refine List.forall_mem_append.mpr ⟨h.own_positive, fun lot hlot => ?_⟩
      rw [List.mem_singleton.mp hlot]
      exact hleft
    · rw [opened, if_pos hleft, List.map_append, List.sum_append, ← h.own_total]
      simp
  · have hzero : closed.left = 0 := le_antisymm (not_lt.mp hleft) hnonneg
    rw [opened, if_neg hleft, List.append_nil, hzero, add_zero]
    rw [hzero] at hother
    refine ⟨h.own_positive, hpositive, h.own_total, hother, h.oneSided.imp_right fun hnil => ?_⟩
    simp only [closed]
    rw [hnil]
    rfl

/-- **A valid fill is applied alike**: the engine takes it, books the same realized PnL, and mirrors
    the list after it. -/
theorem Mirrors.applyFill {f : FifoPnl} {lots : List ReferenceLot} (h : Mirrors f lots)
    (hsound : f.Sound) (side : Side) {price amountU : ℚ} (fee : ℚ) (hprice : 0 < price)
    (hamount : 0 < amountU) :
    ∃ result f', f.applyFill side price amountU fee = .ok (result, f') ∧
      result.realizedPnl = (referenceApply lots side price amountU).1 ∧
      result.netOpenAmountU = f'.netOpenAmountU ∧
      Mirrors f' (referenceApply lots side price amountU).2 ∧ f'.Sound := by
  obtain ⟨hgain, hother, hown, hpositive⟩ := referenceApply_spec side price hamount h.positive
  cases side with
  | buy =>
    have hfill := applyFill_buy f fee hprice hamount
    have hshorts : queueOf lots Side.buy.other = f.shorts := h.shorts.symm
    rw [hshorts] at hgain hother hown
    refine ⟨_, _, hfill, hgain.symm, rfl, ⟨?_, hother.symm, hpositive⟩, ?_⟩
    · rw [hown, h.longs]
      rfl
    · exact FifoPnl.sound_iff_buy.mpr ((FifoPnl.sound_iff_buy.mp hsound).fill price (-1) hamount)
  | sell =>
    have hfill := applyFill_sell f fee hprice hamount
    have hlongs : queueOf lots Side.sell.other = f.longs := h.longs.symm
    have hdirection : -Side.sell.sign = 1 := neg_neg 1
    rw [hlongs, hdirection] at hgain hother hown
    refine ⟨_, _, hfill, hgain.symm, rfl, ⟨hother.symm, ?_, hpositive⟩, ?_⟩
    · rw [hown, h.shorts]
    · exact FifoPnl.sound_iff_sell.mpr ((FifoPnl.sound_iff_sell.mp hsound).fill price 1 hamount)

/-! ## What the two report -/

/-- A sum over the list is taken deque by deque. -/
theorem sum_by_side (long short : AmountLot → ℚ) (lots : List ReferenceLot) :
    (lots.map fun l => match l.side with
      | .buy => long l.lot
      | .sell => short l.lot).sum =
      ((queueOf lots .buy).map long).sum + ((queueOf lots .sell).map short).sum := by
  induction lots with
  | nil => simp [queueOf]
  | cons l rest ih =>
    have hsplit : ∀ side, queueOf (l :: rest) side = queueOf [l] side ++ queueOf rest side :=
      queueOf_append [l] rest
    rw [List.map_cons, List.sum_cons, ih, hsplit, hsplit]
    obtain ⟨side, price, amountU⟩ := l
    cases side with
    | buy =>
      have hshort : queueOf [⟨.buy, price, amountU⟩] .sell = [] := rfl
      rw [queueOf_own, hshort, List.nil_append, List.singleton_append, List.map_cons, List.sum_cons]
      exact (add_assoc _ _ _).symm
    | sell =>
      have hlong : queueOf [⟨.sell, price, amountU⟩] .buy = [] := rfl
      rw [queueOf_own, hlong, List.nil_append, List.singleton_append, List.map_cons, List.sum_cons]
      exact add_left_comm _ _ _

theorem Mirrors.floatingPnl {f : FifoPnl} {lots : List ReferenceLot} (h : Mirrors f lots)
    {bid ask : ℚ} (hbid : 0 < bid) (hask : 0 < ask) :
    f.floatingPnl bid ask = .ok (referenceFloating lots bid ask) := by
  have hsum := sum_by_side (fun lot => (ask - lot.entryPrice) / lot.entryPrice * lot.amountU)
    (fun lot => (lot.entryPrice - bid) / lot.entryPrice * lot.amountU) lots
  rw [← h.longs, ← h.shorts] at hsum
  simp only [FifoPnl.floatingPnl, validatePositive_ok hbid, validatePositive_ok hask]
  exact congrArg Except.ok hsum.symm

theorem Mirrors.netOpenAmountU {f : FifoPnl} {lots : List ReferenceLot} (h : Mirrors f lots)
    (hsound : f.Sound) : f.netOpenAmountU = referenceNet lots := by
  have hsum := sum_by_side AmountLot.amountU (fun lot => -lot.amountU) lots
  rw [← h.longs, ← h.shorts] at hsum
  have hneg : (f.shorts.map fun lot => -lot.amountU).sum = -(f.shorts.map AmountLot.amountU).sum := by
    rw [List.sum_neg, List.map_map]
    rfl
  rw [FifoPnl.netOpenAmountU, hsound.longAmountU, hsound.shortAmountU, sub_eq_add_neg, ← hneg]
  exact hsum.symm

/-! ## Every sequence of fills -/

structure AmountFill where
  side : Side
  price : ℚ
  amountU : ℚ
  fee : ℚ
  deriving DecidableEq, Repr

def AmountFill.Valid (fill : AmountFill) : Prop := 0 < fill.price ∧ 0 < fill.amountU

instance (fill : AmountFill) : Decidable fill.Valid := inferInstanceAs (Decidable (_ ∧ _))

/-- The results of a sequence of fills, each with the engine after it. -/
def FifoPnl.applyFills (f : FifoPnl) : List AmountFill → Except FifoPnlError (List (FillResult × FifoPnl))
  | [] => .ok []
  | fill :: rest => do
    let (result, f) ← f.applyFill fill.side fill.price fill.amountU fill.fee
    let later ← f.applyFills rest
    return (result, f) :: later

/-- The realized PnL of each fill on the list, with the list after it. -/
def referenceApplyAll (lots : List ReferenceLot) : List AmountFill → List (ℚ × List ReferenceLot)
  | [] => []
  | fill :: rest =>
    let (realized, lots) := referenceApply lots fill.side fill.price fill.amountU
    (realized, lots) :: referenceApplyAll lots rest

/-- The engine and the list after one fill: they report the same, and the engine is in order. -/
structure Agrees (engine : FillResult × FifoPnl) (reference : ℚ × List ReferenceLot) : Prop where
  realized : engine.1.realizedPnl = reference.1
  floating : ∀ bid ask, 0 < bid → 0 < ask →
    engine.2.floatingPnl bid ask = .ok (referenceFloating reference.2 bid ask)
  reported : engine.1.netOpenAmountU = referenceNet reference.2
  netOpen : engine.2.netOpenAmountU = referenceNet reference.2
  sound : engine.2.Sound

theorem Mirrors.applyFills {f : FifoPnl} {lots : List ReferenceLot} (h : Mirrors f lots)
    (hsound : f.Sound) {fills : List AmountFill} (hvalid : ∀ fill ∈ fills, fill.Valid) :
    ∃ trace, f.applyFills fills = .ok trace ∧
      List.Forall₂ Agrees trace (referenceApplyAll lots fills) := by
  induction fills generalizing f lots with
  | nil => exact ⟨[], rfl, .nil⟩
  | cons fill rest ih =>
    obtain ⟨⟨hprice, hamount⟩, hrest⟩ := List.forall_mem_cons.mp hvalid
    obtain ⟨result, f', hfill, hrealized, hreported, hmirrors, hsound'⟩ :=
      h.applyFill hsound fill.side fill.fee hprice hamount
    obtain ⟨later, hlater, hagrees⟩ := ih hmirrors hsound' hrest
    have hnet := hmirrors.netOpenAmountU hsound'
    refine ⟨(result, f') :: later, ?_, .cons ?_ hagrees⟩
    · rw [FifoPnl.applyFills, hfill]
      simp only [bind, Except.bind, hlater]
      rfl
    · exact ⟨hrealized, fun bid ask => hmirrors.floatingPnl, hreported.trans hnet, hnet, hsound'⟩

/-- **The deque engine matches the notebook's list scan** at every fill of every valid sequence:
    what the fill realizes, the net open amount, and the floating PnL at whatever bid and ask. -/
theorem applyFills_matches_reference {fills : List AmountFill} (hvalid : ∀ fill ∈ fills, fill.Valid) :
    ∃ trace, FifoPnl.applyFills {} fills = .ok trace ∧
      List.Forall₂ Agrees trace (referenceApplyAll [] fills) :=
  mirrors_empty.applyFills sound_empty hvalid

/-- The seven fills of the source's test. -/
theorem applyFills_matches_reference_seven :
    let fills : List AmountFill := [⟨.buy, 100, 1000, 0⟩, ⟨.buy, 105, 700, 0⟩, ⟨.sell, 110, 600, 0⟩,
      ⟨.sell, 95, 1500, 0⟩, ⟨.buy, 90, 800, 0⟩, ⟨.buy, 120, 900, 0⟩, ⟨.sell, 125, 500, 0⟩]
    ∃ trace, FifoPnl.applyFills {} fills = .ok trace ∧
      List.Forall₂ Agrees trace (referenceApplyAll [] fills) :=
  applyFills_matches_reference (by decide +kernel)

end CryptoNav.Pnl
