import CryptoNav.Lib.Lots
import Mathlib.Algebra.Order.Field.Rat

/-!
# The two FIFO engines of the PnL

`fifo_pnl.rs` closes lots measured in quote amount (`amountu`), `quantity_fifo_pnl.rs` lots
measured in base quantity. Both keep a deque of longs and a deque of shorts, never merge lots
and close the opposite deque from the front, so both `close_fifo` loops are one `drain`
(`Lib/Lots.lean`) at different lots and gains. Amounts are exact rationals: every finite `f64`
is one, and the engines only add, subtract, multiply and divide.

The notebook's version of the first engine, which is not in the program, is in `Notebook`. How
fees enter is left to `SymbolState`, which books them beside the engines: neither engine sees
one.
-/

set_option autoImplicit false

namespace CryptoNav.Pnl

open CryptoNav.Lib

inductive Side where
  | buy
  | sell
  deriving DecidableEq, Repr

inductive FifoPnlError where
  | invalidPositiveValue (field : String) (value : ℚ)
  | invalidFee (fee : ℚ)
  deriving DecidableEq, Repr

/-- A rational is always finite, so of `value.is_finite() && value > 0.0` the sign test stays. -/
def validatePositive (field : String) (value : ℚ) : Except FifoPnlError Unit :=
  if 0 < value then .ok () else .error (.invalidPositiveValue field value)

theorem validatePositive_ok {field : String} {value : ℚ} (h : 0 < value) :
    validatePositive field value = .ok () := if_pos h

/-! ## `fifo_pnl.rs`: lots in quote amount -/

structure AmountLot where
  entryPrice : ℚ
  amountU : ℚ
  deriving DecidableEq, Repr

def AmountLot.view : LotView AmountLot ℚ where
  size := AmountLot.amountU
  price := AmountLot.entryPrice
  resize lot amount := { lot with amountU := amount }
  size_resize _ _ := rfl
  price_resize _ _ := rfl

structure PnlSnapshot where
  grossRealizedPnl : ℚ
  cumulativeFees : ℚ
  realizedPnl : ℚ
  floatingPnl : ℚ
  totalPnl : ℚ
  longAmountU : ℚ
  shortAmountU : ℚ
  netOpenAmountU : ℚ
  deriving DecidableEq, Repr

structure FillResult where
  realizedPnl : ℚ
  matchedAmountU : ℚ
  openedAmountU : ℚ
  cumulativeRealizedPnl : ℚ
  netOpenAmountU : ℚ
  deriving DecidableEq, Repr

structure FifoPnl where
  longs : List AmountLot := []
  shorts : List AmountLot := []
  longAmountU : ℚ := 0
  shortAmountU : ℚ := 0
  grossRealizedPnl : ℚ := 0
  cumulativeFees : ℚ := 0
  deriving DecidableEq, Repr

/-- `close_fifo` of `fifo_pnl.rs`: the gain of a bite is the entry-to-exit return on its
    amount. -/
def closeAmountFifo (lots : List AmountLot) (closePrice amountU direction : ℚ) :
    Drained AmountLot ℚ :=
  AmountLot.view.drain
    (fun lot matched => direction * (closePrice - lot.entryPrice) / lot.entryPrice * matched)
    amountU lots

def FifoPnl.netOpenAmountU (f : FifoPnl) : ℚ := f.longAmountU - f.shortAmountU

def FifoPnl.applyFill (f : FifoPnl) (side : Side) (price amountU fee : ℚ) :
    Except FifoPnlError (FillResult × FifoPnl) := do
  validatePositive "price" price
  validatePositive "amount_u" amountU
  let closed := match side with
    | .buy => closeAmountFifo f.shorts price amountU (-1)
    | .sell => closeAmountFifo f.longs price amountU 1
  let matched := amountU - closed.left
  let f := match side with
    | .buy => { f with shorts := closed.lots, shortAmountU := f.shortAmountU - matched }
    | .sell => { f with longs := closed.lots, longAmountU := f.longAmountU - matched }
  let f := if 0 < closed.left then
      match side with
      | .buy => { f with longs := f.longs ++ [⟨price, closed.left⟩],
                         longAmountU := f.longAmountU + closed.left }
      | .sell => { f with shorts := f.shorts ++ [⟨price, closed.left⟩],
                          shortAmountU := f.shortAmountU + closed.left }
    else f
  let f := { f with grossRealizedPnl := f.grossRealizedPnl + closed.gain,
                    cumulativeFees := f.cumulativeFees + fee }
  return (⟨closed.gain, matched, closed.left, f.grossRealizedPnl - f.cumulativeFees,
    f.netOpenAmountU⟩, f)

def FifoPnl.floatingPnl (f : FifoPnl) (bid ask : ℚ) : Except FifoPnlError ℚ := do
  validatePositive "bid" bid
  validatePositive "ask" ask
  return (f.longs.map fun lot => (ask - lot.entryPrice) / lot.entryPrice * lot.amountU).sum
    + (f.shorts.map fun lot => (lot.entryPrice - bid) / lot.entryPrice * lot.amountU).sum

def FifoPnl.snapshot (f : FifoPnl) (bid ask : ℚ) : Except FifoPnlError PnlSnapshot := do
  let floating ← f.floatingPnl bid ask
  let realized := f.grossRealizedPnl - f.cumulativeFees
  return ⟨f.grossRealizedPnl, f.cumulativeFees, realized, floating, realized + floating,
    f.longAmountU, f.shortAmountU, f.longAmountU - f.shortAmountU⟩

/-! ## `quantity_fifo_pnl.rs`: lots in base quantity -/

structure QuantityLot where
  entryPrice : ℚ
  quantity : ℚ
  deriving DecidableEq, Repr

def QuantityLot.view : LotView QuantityLot ℚ where
  size := QuantityLot.quantity
  price := QuantityLot.entryPrice
  resize lot quantity := { lot with quantity := quantity }
  size_resize _ _ := rfl
  price_resize _ _ := rfl

structure QuantityPnlSnapshot where
  grossRealizedPnl : ℚ
  cumulativeFees : ℚ
  realizedPnl : ℚ
  floatingPnl : ℚ
  totalPnl : ℚ
  deriving DecidableEq, Repr

structure QuantityFifoPnl where
  longs : List QuantityLot := []
  shorts : List QuantityLot := []
  grossRealizedPnl : ℚ := 0
  cumulativeFees : ℚ := 0
  deriving DecidableEq, Repr

/-- `close_fifo` of `quantity_fifo_pnl.rs`: the gain of a bite is the price move on its
    quantity. -/
def closeQuantityFifo (lots : List QuantityLot) (closePrice quantity direction : ℚ) :
    Drained QuantityLot ℚ :=
  QuantityLot.view.drain
    (fun lot matched => direction * (closePrice - lot.entryPrice) * matched) quantity lots

def QuantityFifoPnl.applyFill (f : QuantityFifoPnl) (side : Side) (price quantity fee : ℚ) :
    Except FifoPnlError QuantityFifoPnl := do
  validatePositive "price" price
  validatePositive "quantity" quantity
  let closed := match side with
    | .buy => closeQuantityFifo f.shorts price quantity (-1)
    | .sell => closeQuantityFifo f.longs price quantity 1
  let f := match side with
    | .buy => { f with shorts := closed.lots }
    | .sell => { f with longs := closed.lots }
  let f := if 0 < closed.left then
      match side with
      | .buy => { f with longs := f.longs ++ [⟨price, closed.left⟩] }
      | .sell => { f with shorts := f.shorts ++ [⟨price, closed.left⟩] }
    else f
  return { f with grossRealizedPnl := f.grossRealizedPnl + closed.gain,
                  cumulativeFees := f.cumulativeFees + fee }

def QuantityFifoPnl.snapshot (f : QuantityFifoPnl) (bid ask : ℚ) :
    Except FifoPnlError QuantityPnlSnapshot := do
  validatePositive "bid" bid
  validatePositive "ask" ask
  let floating := (f.longs.map fun lot => (ask - lot.entryPrice) * lot.quantity).sum
    + (f.shorts.map fun lot => (lot.entryPrice - bid) * lot.quantity).sum
  let realized := f.grossRealizedPnl - f.cumulativeFees
  return ⟨f.grossRealizedPnl, f.cumulativeFees, realized, floating, realized + floating⟩

/-! ## What a quantity fill does, in one place

A fill moves the signed open quantity by its own signed quantity, and moves `gross realized −
entry cost` by minus the money it paid. Nothing else about lots is needed to value a leg. -/

/-- `1` for a buy, `-1` for a sell: the sign `apply_trade` gives a quantity. -/
def Side.sign : Side → ℚ
  | .buy => 1
  | .sell => -1

namespace QuantityFifoPnl

/-- Signed open quantity: longs minus shorts. -/
def netQuantity (f : QuantityFifoPnl) : ℚ :=
  QuantityLot.view.total f.longs - QuantityLot.view.total f.shorts

/-- Signed entry cost of the open quantity. -/
def entryCost (f : QuantityFifoPnl) : ℚ :=
  QuantityLot.view.cost f.longs - QuantityLot.view.cost f.shorts

@[simp] theorem total_snoc (lots : List QuantityLot) (price quantity : ℚ) :
    QuantityLot.view.total (lots ++ [⟨price, quantity⟩])
      = QuantityLot.view.total lots + quantity := by
  simp [QuantityLot.view]

@[simp] theorem cost_snoc (lots : List QuantityLot) (price quantity : ℚ) :
    QuantityLot.view.cost (lots ++ [⟨price, quantity⟩])
      = QuantityLot.view.cost lots + price * quantity := by
  simp [QuantityLot.view]

/-- One `close_fifo` against the opposite deque, as accounting. -/
theorem closeQuantityFifo_spec (lots : List QuantityLot) (price direction : ℚ) {quantity : ℚ}
    (hq : 0 ≤ quantity) :
    let r := closeQuantityFifo lots price quantity direction
    0 ≤ r.left ∧
      QuantityLot.view.total r.lots + quantity = QuantityLot.view.total lots + r.left ∧
      r.gain = direction * (price * (quantity - r.left)
        - (QuantityLot.view.cost lots - QuantityLot.view.cost r.lots)) :=
  ⟨LotView.drain_left_nonneg _ _ hq _, LotView.drain_size _ _ _ _,
    LotView.drain_gain QuantityLot.view direction price quantity lots⟩

/-- What `snapshot` computes once its prices are positive: the gross realized gain, the fees,
    and the open quantity marked against its entry cost. -/
def markedAt (f : QuantityFifoPnl) (price : ℚ) : QuantityPnlSnapshot :=
  let floating := price * f.netQuantity - f.entryCost
  let realized := f.grossRealizedPnl - f.cumulativeFees
  ⟨f.grossRealizedPnl, f.cumulativeFees, realized, floating, realized + floating⟩

theorem floating_longs (price : ℚ) (lots : List QuantityLot) :
    (lots.map fun lot => (price - lot.entryPrice) * lot.quantity).sum
      = price * QuantityLot.view.total lots - QuantityLot.view.cost lots := by
  induction lots with
  | nil => simp
  | cons lot rest ih =>
    simp only [List.map_cons, List.sum_cons, ih, LotView.total_cons, LotView.cost_cons]
    simp only [QuantityLot.view]
    ring

theorem floating_shorts (price : ℚ) (lots : List QuantityLot) :
    (lots.map fun lot => (lot.entryPrice - price) * lot.quantity).sum
      = QuantityLot.view.cost lots - price * QuantityLot.view.total lots := by
  induction lots with
  | nil => simp
  | cons lot rest ih =>
    simp only [List.map_cons, List.sum_cons, ih, LotView.total_cons, LotView.cost_cons]
    simp only [QuantityLot.view]
    ring

/-- **A snapshot at one price is the marked position.** -/
theorem snapshot_eq {f : QuantityFifoPnl} {price : ℚ} (h : 0 < price) :
    f.snapshot price price = .ok (f.markedAt price) := by
  have hfl : price * QuantityLot.view.total f.longs - QuantityLot.view.cost f.longs
      + (QuantityLot.view.cost f.shorts - price * QuantityLot.view.total f.shorts)
      = price * f.netQuantity - f.entryCost := by
    simp only [netQuantity, entryCost]; ring
  simp only [snapshot, validatePositive_ok h, floating_longs, floating_shorts, hfl, markedAt]
  rfl

theorem snapshot_eq_ok {f : QuantityFifoPnl} {price : ℚ} {s : QuantityPnlSnapshot}
    (h : f.snapshot price price = .ok s) : 0 < price ∧ s = f.markedAt price := by
  have hp : 0 < price := by
    by_contra hn
    simp [snapshot, validatePositive, hn] at h
    exact absurd h (by simp [bind, Except.bind])
  rw [snapshot_eq hp] at h
  exact ⟨hp, (Except.ok.inj h).symm⟩

/-- **One fill, in full.** An accepted fill has a positive price and quantity; it moves the net
    quantity by its signed quantity, the gross-minus-cost balance by the money paid, and the
    fees by its fee. -/
theorem applyFill_spec {f f' : QuantityFifoPnl} {side : Side} {price quantity fee : ℚ}
    (h : f.applyFill side price quantity fee = .ok f') :
    0 < price ∧ 0 < quantity ∧
      f'.netQuantity = f.netQuantity + side.sign * quantity ∧
      f'.grossRealizedPnl - f'.entryCost
        = f.grossRealizedPnl - f.entryCost - side.sign * quantity * price ∧
      f'.cumulativeFees = f.cumulativeFees + fee := by
  by_cases hp : 0 < price
  swap
  · exact absurd h (by simp [applyFill, validatePositive, hp, bind, Except.bind])
  by_cases hq : 0 < quantity
  swap
  · exact absurd h (by simp [applyFill, validatePositive, hp, hq, bind, Except.bind])
  refine ⟨hp, hq, ?_⟩
  simp only [applyFill, validatePositive_ok hp, validatePositive_ok hq, bind, Except.bind, pure,
    Except.pure, Except.ok.injEq] at h
  subst h
  cases side with
  | buy =>
    obtain ⟨hleft, hsize, hgain⟩ := closeQuantityFifo_spec f.shorts price (-1) hq.le
    simp only [netQuantity, entryCost, Side.sign]
    generalize closeQuantityFifo f.shorts price quantity (-1) = closed at hleft hsize hgain ⊢
    by_cases hl : 0 < closed.left
    · simp only [if_pos hl, total_snoc, cost_snoc]
      exact ⟨by linear_combination -hsize, by linear_combination hgain, trivial⟩
    · have hz : closed.left = 0 := le_antisymm (not_lt.mp hl) hleft
      simp only [if_neg hl]
      exact ⟨by linear_combination -hsize - hz, by linear_combination hgain + price * hz, trivial⟩
  | sell =>
    obtain ⟨hleft, hsize, hgain⟩ := closeQuantityFifo_spec f.longs price 1 hq.le
    simp only [netQuantity, entryCost, Side.sign]
    generalize closeQuantityFifo f.longs price quantity 1 = closed at hleft hsize hgain ⊢
    by_cases hl : 0 < closed.left
    · simp only [if_pos hl, total_snoc, cost_snoc]
      exact ⟨by linear_combination hsize, by linear_combination hgain, trivial⟩
    · have hz : closed.left = 0 := le_antisymm (not_lt.mp hl) hleft
      simp only [if_neg hl]
      exact ⟨by linear_combination hsize + hz, by linear_combination hgain - price * hz, trivial⟩

end QuantityFifoPnl
end CryptoNav.Pnl
