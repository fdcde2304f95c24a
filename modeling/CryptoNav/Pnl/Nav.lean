import CryptoNav.Lib.Runs
import CryptoNav.Pnl.SymbolState

/-!
# The NAV identity

What the PnL engine is for, without its lots: a **journal** of the fills that were booked on a
symbol, with its fees, funding and interest. A leg is worth its cash — minus the money its
fills paid — plus its quantity at the mark. `Balanced` says that a `SymbolState` is the FIFO
shadow of a journal, every operation keeps it, and `nav_identity` reads the total PnL off it.

One place in the source does not fit the plain statement. `seed_fifo` leaves the FIFO alone for
an initial quantity of at most one `f64::EPSILON`, while `seed_position` stores that quantity as
the position all the same. The journal books such a quantity as `skipped`, and the identity
holds for the position less what was skipped; `dust_seed_breaks_nav` is the smallest state
where the difference shows.
-/

set_option autoImplicit false

namespace CryptoNav.Pnl

open CryptoNav.Lib

/-! ## The journal -/

structure Fill where
  leg : PositionLeg
  signedQuantity : ℚ
  price : ℚ
  deriving DecidableEq, Repr

structure Journal where
  fills : List Fill := []
  fees : ℚ := 0
  funding : ℚ := 0
  interestCost : ℚ := 0
  /-- Initial quantity that was too small for `seed_fifo` to book. -/
  skipped : PositionLeg → ℚ := fun _ => 0

namespace Journal

/-- Minus the money the fills of a leg paid, each at its own price. -/
def cash (j : Journal) (leg : PositionLeg) : ℚ :=
  -((j.fills.filter (·.leg = leg)).map fun f => f.signedQuantity * f.price).sum

/-- The quantity the fills of a leg add up to. -/
def quantity (j : Journal) (leg : PositionLeg) : ℚ :=
  ((j.fills.filter (·.leg = leg)).map Fill.signedQuantity).sum

def post (j : Journal) (f : Fill) (fee : ℚ) : Journal :=
  { j with fills := j.fills ++ [f], fees := j.fees + fee }

def addFunding (j : Journal) (amount : ℚ) : Journal := { j with funding := j.funding + amount }

def addInterest (j : Journal) (cost : ℚ) : Journal :=
  { j with interestCost := j.interestCost + cost }

@[simp] theorem cash_post (j : Journal) (f : Fill) (fee : ℚ) (leg : PositionLeg) :
    (j.post f fee).cash leg = j.cash leg - if f.leg = leg then f.signedQuantity * f.price else 0 := by
  by_cases h : f.leg = leg
  · simp [cash, post, h]
    ring
  · simp [cash, post, h]

@[simp] theorem quantity_post (j : Journal) (f : Fill) (fee : ℚ) (leg : PositionLeg) :
    (j.post f fee).quantity leg = j.quantity leg + if f.leg = leg then f.signedQuantity else 0 := by
  by_cases h : f.leg = leg <;> simp [quantity, post, h]

/-- What `seed_fifo` books for one leg of an initial position. -/
def seedLeg (j : Journal) (leg : PositionLeg) (quantity price : ℚ) : Journal :=
  if |quantity| ≤ f64Epsilon then
    { j with skipped := Function.update j.skipped leg (j.skipped leg + quantity) }
  else j.post ⟨leg, quantity, price⟩ 0

def seed (j : Journal) (position : InitialPosition) : Journal :=
  (j.seedLeg .spot position.spotQuantity position.markPrice).seedLeg .futures
    position.futuresQuantity position.markPrice

/-- The fill an interest event books on a symbol, if it books one. -/
def interestFill (s : SymbolState) (interest : InterestEvent) : Option Fill :=
  if interest.spotQuantityDelta ≠ 0 ∧ s.spotFifo.usesQuantity then
    (s.interestPrice interest).map (⟨.spot, interest.spotQuantityDelta, ·⟩)
  else none

/-- What an event adds to the journal of its symbol, whose state it finds as `s`. -/
def record (j : Journal) (s : SymbolState) : PnlEvent → Journal
  | .trade trade =>
    j.post ⟨trade.leg, trade.side.sign * trade.quantity, trade.price⟩ (trade.feeUsdt.getD 0)
  | .funding funding => j.addFunding funding.amountUsdt
  | .interest interest =>
    ((interestFill s interest).elim j (j.post · 0)).addInterest (interest.costUsdt.getD 0)

/-- Seeding a leg puts its whole quantity somewhere: into a fill, or among the skipped. -/
theorem held_seedLeg (j : Journal) (leg l : PositionLeg) (q price : ℚ) :
    (j.seedLeg leg q price).quantity l + (j.seedLeg leg q price).skipped l
      = j.quantity l + j.skipped l + if leg = l then q else 0 := by
  unfold seedLeg
  split
  · show j.quantity l + Function.update j.skipped leg (j.skipped leg + q) l = _
    by_cases h : leg = l
    · subst h; simp [add_assoc]
    · simp [h, Ne.symm h]
  · rw [quantity_post]
    show _ + j.skipped l = _
    by_cases h : leg = l
    · simp [h, add_right_comm]
    · simp [h]

@[simp] theorem funding_seedLeg (j : Journal) (leg : PositionLeg) (q price : ℚ) :
    (j.seedLeg leg q price).funding = j.funding := by
  unfold seedLeg; split <;> rfl

@[simp] theorem interestCost_seedLeg (j : Journal) (leg : PositionLeg) (q price : ℚ) :
    (j.seedLeg leg q price).interestCost = j.interestCost := by
  unfold seedLeg; split <;> rfl

end Journal

/-! ## The invariant -/

/-- The two FIFOs carry the journal `j`: `f` is what they hold, and each leg's open quantity
    and gross-minus-cost balance are the journal's. -/
structure Shadows (v : PositionLeg → VenueFifo) (j : Journal) (f : PositionLeg → QuantityFifoPnl) :
    Prop where
  fifo : ∀ leg, v leg = .quantity (f leg)
  net : ∀ leg, (f leg).netQuantity = j.quantity leg
  cash : ∀ leg, (f leg).grossRealizedPnl - (f leg).entryCost = j.cash leg
  fees : (f .spot).cumulativeFees + (f .futures).cumulativeFees = j.fees

/-- The whole state carries the journal. Each leg has its own FIFO and its own part of the journal.
    -/
structure Balanced (s : SymbolState) (j : Journal) (f : PositionLeg → QuantityFifoPnl) : Prop where
  fifos : Shadows s.fifo j f
  position : ∀ leg, s.positionQty leg = j.quantity leg + j.skipped leg
  funding : s.fundingPnlUsdt = j.funding
  interest : s.interestCostUsdt = j.interestCost

/-- The cached snapshots are the ones the FIFOs would give now, at the current mark. Before the
    first mark there is nothing to cache: the FIFOs are untouched. -/
def SymbolState.SnapshotsFresh (s : SymbolState) : Prop :=
  ∀ leg, match s.markPrice with
    | none => s.snapshotOf leg = none ∧ s.fifo leg = .quantity {}
    | some price => ∃ snap, (s.fifo leg).snapshot price price = .ok snap ∧
        s.snapshotOf leg = some snap

theorem inContext_eq_ok {α : Type} {c : Option String} {x : Except FifoPnlError α} {a : α}
    (h : inContext c x = .ok a) : x = .ok a := by
  cases x with
  | error e => exact absurd h (by simp [inContext])
  | ok b => simpa [inContext] using h

/-- Marking is all-or-nothing: it prices both legs, and touches nothing else. -/
theorem markAt_spec {s t : SymbolState} {price : ℚ} {c c' : Option String}
    (h : s.markAt price c c' = .ok t) :
    t.SnapshotsFresh ∧ t.markPrice = some price ∧ t.fifo = s.fifo ∧
      t.positionQty = s.positionQty ∧
      t.fundingPnlUsdt = s.fundingPnlUsdt ∧ t.interestCostUsdt = s.interestCostUsdt := by
  unfold SymbolState.markAt at h
  obtain ⟨spot, hspot, h⟩ := bind_eq_ok.mp h
  obtain ⟨futures, hfutures, h⟩ := bind_eq_ok.mp h
  rw [← pure_eq_ok.mp h]
  refine ⟨?_, rfl, ?_, ?_, rfl, rfl⟩
  · intro leg
    cases leg with
    | spot => exact ⟨spot, inContext_eq_ok hspot, rfl⟩
    | futures => exact ⟨futures, inContext_eq_ok hfutures, rfl⟩
  · funext leg; cases leg <;> rfl
  · funext leg; cases leg <;> rfl

@[simp] theorem fifo_setFifo (s : SymbolState) (leg : PositionLeg) (v : VenueFifo) :
    (s.setFifo leg v).fifo = Function.update s.fifo leg v := by
  funext l
  cases leg <;> cases l <;> rfl

@[simp] theorem positionQty_setFifo (s : SymbolState) (leg : PositionLeg) (v : VenueFifo) :
    (s.setFifo leg v).positionQty = s.positionQty := by
  funext l
  cases leg <;> cases l <;> rfl

@[simp] theorem fifo_addPosition (s : SymbolState) (leg : PositionLeg) (q : ℚ) :
    (s.addPosition leg q).fifo = s.fifo := by
  funext l
  cases leg <;> cases l <;> rfl

@[simp] theorem positionQty_addPosition (s : SymbolState) (leg : PositionLeg) (q : ℚ) :
    (s.addPosition leg q).positionQty
      = Function.update s.positionQty leg (s.positionQty leg + q) := by
  funext l
  cases leg <;> cases l <;> rfl

/-! ## One fill keeps the shadow -/

theorem Shadows.fill {v : PositionLeg → VenueFifo} {j : Journal}
    {f : PositionLeg → QuantityFifoPnl} (h : Shadows v j f) (leg : PositionLeg) {side : Side}
    {price amountU quantity fee : ℚ} {w : VenueFifo}
    (hfill : (v leg).applyFill side price amountU quantity fee = .ok w) :
    ∃ g, Shadows (Function.update v leg w) (j.post ⟨leg, side.sign * quantity, price⟩ fee)
      (Function.update f leg g) := by
  rw [h.fifo leg] at hfill
  obtain ⟨g, hg, rfl⟩ := map_eq_ok.mp hfill
  obtain ⟨-, -, hnet, hcash, hfees⟩ := QuantityFifoPnl.applyFill_spec hg
  refine ⟨g, ?_, ?_, ?_, ?_⟩
  · intro l
    by_cases hl : l = leg
    · subst hl; simp
    · simp [hl, h.fifo l]
  · intro l
    rw [Journal.quantity_post]
    by_cases hl : l = leg
    · subst hl; simp [hnet, h.net l]
    · simp [hl, h.net l, Ne.symm hl]
  · intro l
    rw [Journal.cash_post]
    by_cases hl : l = leg
    · subst hl; simp [hcash, h.cash l]
    · simp [hl, h.cash l, Ne.symm hl]
  · show _ = j.fees + fee
    rw [← h.fees]
    cases leg with
    | spot => simp [hfees]; ring
    | futures => simp [hfees]; ring

theorem sideOf_sign_mul_abs {q : ℚ} (h : q ≠ 0) : (sideOf q).sign * |q| = q := by
  unfold sideOf
  split
  · rename_i hq; rw [abs_of_pos hq]; exact one_mul q
  · rename_i hq
    rw [abs_of_neg (lt_of_le_of_ne (not_lt.mp hq) h)]
    simp [Side.sign]

theorem Shadows.seed {v : PositionLeg → VenueFifo} {j : Journal}
    {f : PositionLeg → QuantityFifoPnl} (h : Shadows v j f) (leg : PositionLeg)
    {quantity price : ℚ} {w : VenueFifo} (hseed : seedFifo (v leg) quantity price = .ok w) :
    ∃ g, Shadows (Function.update v leg w) (j.seedLeg leg quantity price)
      (Function.update f leg g) := by
  unfold seedFifo at hseed
  unfold Journal.seedLeg
  split at hseed
  · rename_i hd
    cases hseed
    rw [if_pos hd, Function.update_eq_self]
    refine ⟨f leg, ?_⟩
    rw [Function.update_eq_self]
    exact ⟨h.fifo, h.net, h.cash, h.fees⟩
  · rename_i hd
    have hq : quantity ≠ 0 := by
      rintro rfl
      exact hd (by norm_num [f64Epsilon])
    obtain ⟨g, hg⟩ := h.fill leg (inContext_eq_ok hseed)
    rw [sideOf_sign_mul_abs hq] at hg
    rw [if_neg hd]
    exact ⟨g, hg⟩

/-! ## Every operation keeps the state balanced and its snapshots fresh -/

/-- A state that carries the journal `j`, with nothing stale in its cache. -/
def Carries (s : SymbolState) (j : Journal) : Prop :=
  (∃ f, Balanced s j f) ∧ s.SnapshotsFresh

theorem forSource_quantity {source : PnlSourceKind} (h : source ≠ .marketMaking) :
    VenueFifo.forSource source = .quantity {} := by
  cases source with
  | marketMaking => exact absurd rfl h
  | _ => rfl

/-- A fresh state of a quantity source carries the empty journal. -/
theorem carries_forSource {source : PnlSourceKind} (h : source ≠ .marketMaking) :
    Carries (SymbolState.forSource source) {} := by
  have hfifo : ∀ leg, (SymbolState.forSource source).fifo leg = .quantity {} := by
    intro leg
    cases leg with
    | spot => exact forSource_quantity h
    | futures => exact forSource_quantity h
  refine ⟨⟨fun _ => {}, ⟨hfifo, ?_, ?_, add_zero 0⟩, ?_, rfl, rfl⟩, ?_⟩
  · intro leg
    simp [QuantityFifoPnl.netQuantity, Journal.quantity]
  · intro leg
    simp [QuantityFifoPnl.entryCost, Journal.cash]
  · intro leg
    cases leg with
    | spot => exact (add_zero 0).symm
    | futures => exact (add_zero 0).symm
  · intro leg
    refine ⟨?_, hfifo leg⟩
    cases leg with
    | spot => rfl
    | futures => rfl

/-- Seeding a state that has booked nothing books exactly the two legs of the position. -/
theorem Carries.seedPosition {s t : SymbolState} {position : InitialPosition}
    (h : Carries s {}) (hs : s.seedPosition position = .ok t) :
    Carries t (({} : Journal).seed position) := by
  obtain ⟨⟨f, hb⟩, -⟩ := h
  unfold SymbolState.seedPosition at hs
  split at hs
  · exact absurd hs (by simp)
  obtain ⟨spot, hspot, hs⟩ := bind_eq_ok.mp hs
  obtain ⟨futures, hfutures, hs⟩ := bind_eq_ok.mp hs
  obtain ⟨hfresh, -, hfifo, hpos, hfund, hint⟩ := markAt_spec hs
  obtain ⟨g, hg⟩ := hb.fifos.seed .spot hspot
  obtain ⟨g', hg'⟩ := hg.seed .futures (w := futures) hfutures
  have hfifo' : t.fifo = Function.update (Function.update s.fifo .spot spot) .futures futures := by
    rw [hfifo]
    funext leg
    cases leg <;> rfl
  refine ⟨⟨Function.update (Function.update f .spot g) .futures g', ?_, ?_, ?_, ?_⟩, hfresh⟩
  · rw [hfifo']
    exact hg'
  · intro leg
    rw [hpos, Journal.seed, Journal.held_seedLeg, Journal.held_seedLeg]
    cases leg with
    | spot => simp [SymbolState.positionQty, Journal.quantity]
    | futures => simp [SymbolState.positionQty, Journal.quantity]
  · rw [hfund, Journal.seed, Journal.funding_seedLeg, Journal.funding_seedLeg]
    exact hb.funding
  · rw [hint, Journal.seed, Journal.interestCost_seedLeg, Journal.interestCost_seedLeg]
    exact hb.interest

/-- A fill on one leg, from the FIFO up: the leg's FIFO takes the fill, the leg's position the
    signed quantity, and the journal both. -/
theorem Balanced.fill {s t : SymbolState} {j : Journal} {f : PositionLeg → QuantityFifoPnl}
    (h : Balanced s j f) (leg : PositionLeg) {side : Side} {price amountU quantity fee : ℚ}
    {v : VenueFifo} (hv : (s.fifo leg).applyFill side price amountU quantity fee = .ok v)
    (hfifo : t.fifo = (s.setFifo leg v).fifo)
    (hpos : t.positionQty = (s.addPosition leg (side.sign * quantity)).positionQty)
    (hfund : t.fundingPnlUsdt = s.fundingPnlUsdt)
    (hint : t.interestCostUsdt = s.interestCostUsdt) :
    ∃ g, Balanced t (j.post ⟨leg, side.sign * quantity, price⟩ fee) g := by
  obtain ⟨g, hg⟩ := h.fifos.fill leg hv
  refine ⟨Function.update f leg g, ?_, ?_, hfund.trans h.funding, hint.trans h.interest⟩
  · rw [hfifo, fifo_setFifo]
    exact hg
  · intro l
    rw [hpos, positionQty_addPosition, Journal.quantity_post]
    have hl := h.position l
    show _ = _ + j.skipped l
    by_cases he : leg = l
    · subst he
      simp only [Function.update_self, if_true]
      linarith
    · simp [he, Ne.symm he, hl]

theorem Carries.applyTrade {s t : SymbolState} {j : Journal} {trade : NormalizedTrade}
    (h : Carries s j) (ht : s.applyTrade trade = .ok t) : Carries t (j.record s (.trade trade)) := by
  obtain ⟨⟨f, hb⟩, -⟩ := h
  unfold SymbolState.applyTrade at ht
  obtain ⟨v, hv, ht⟩ := bind_eq_ok.mp ht
  obtain ⟨hfresh, -, hfifo, hpos, hfund, hint⟩ := markAt_spec ht
  refine ⟨hb.fill trade.leg (inContext_eq_ok hv) ?_ ?_ ?_ ?_, hfresh⟩
  · rw [hfifo]; cases trade.leg <;> rfl
  · rw [hpos]; cases trade.leg <;> rfl
  · rw [hfund]; cases trade.leg <;> rfl
  · rw [hint]; cases trade.leg <;> rfl

theorem Carries.addFunding {s : SymbolState} {j : Journal} (h : Carries s j) (amount : ℚ) :
    Carries { s with fundingPnlUsdt := s.fundingPnlUsdt + amount } (j.addFunding amount) := by
  obtain ⟨⟨f, hb⟩, hfresh⟩ := h
  refine ⟨⟨f, ⟨hb.fifos.fifo, hb.fifos.net, hb.fifos.cash, hb.fifos.fees⟩, hb.position, ?_,
    hb.interest⟩, hfresh⟩
  show s.fundingPnlUsdt + amount = j.funding + amount
  rw [hb.funding]

theorem bookInterestCost_eq (s : SymbolState) (interest : InterestEvent) :
    ∃ n, s.bookInterestCost interest = { s with
      interestCostUsdt := s.interestCostUsdt + interest.costUsdt.getD 0
      unconvertedInterestCount := n } := by
  unfold SymbolState.bookInterestCost
  cases interest.costUsdt with
  | none => exact ⟨s.unconvertedInterestCount + 1, by simp⟩
  | some cost => exact ⟨s.unconvertedInterestCount, rfl⟩

theorem Carries.bookInterestCost {s : SymbolState} {j : Journal} (h : Carries s j)
    (interest : InterestEvent) :
    Carries (s.bookInterestCost interest) (j.addInterest (interest.costUsdt.getD 0)) := by
  obtain ⟨⟨f, hb⟩, hfresh⟩ := h
  obtain ⟨n, hn⟩ := bookInterestCost_eq s interest
  rw [hn]
  refine ⟨⟨f, ⟨hb.fifos.fifo, hb.fifos.net, hb.fifos.cash, hb.fifos.fees⟩, hb.position, hb.funding,
    ?_⟩, hfresh⟩
  show s.interestCostUsdt + _ = j.interestCost + _
  rw [hb.interest]

theorem Carries.usesQuantity {s : SymbolState} {j : Journal} (h : Carries s j) :
    s.spotFifo.usesQuantity = true := by
  obtain ⟨⟨f, hb⟩, -⟩ := h
  rw [show s.spotFifo = .quantity (f .spot) from hb.fifos.fifo .spot]
  rfl

theorem Carries.applyInterest {s t : SymbolState} {j : Journal} {interest : InterestEvent}
    (h : Carries s j) (ht : s.applyInterest interest = .ok t) :
    Carries t (j.record s (.interest interest)) := by
  unfold SymbolState.applyInterest at ht
  rw [Journal.record, Journal.interestFill]
  by_cases hc : interest.spotQuantityDelta ≠ 0 ∧ s.spotFifo.usesQuantity
  · rw [if_pos hc]
    simp only [if_pos hc] at ht
    cases hp : s.interestPrice interest with
    | none =>
      -- No price: neither the FIFO nor the position moves.
      rw [hp] at ht
      rw [← pure_eq_ok.mp ht]
      exact h.bookInterestCost interest
    | some price =>
      rw [hp] at ht
      obtain ⟨⟨f, hb⟩, -⟩ := h
      obtain ⟨v, hv, ht⟩ := bind_eq_ok.mp ht
      obtain ⟨u, hu, ht⟩ := bind_eq_ok.mp ht
      obtain ⟨hfresh, hmark, hfifo, hpos, hfund, hint⟩ := markAt_spec hu
      obtain ⟨g, hg⟩ := hb.fill .spot (inContext_eq_ok hv)
        (t := u.addPosition .spot interest.spotQuantityDelta)
        (by rw [fifo_addPosition, hfifo])
        (by rw [positionQty_addPosition, positionQty_addPosition, hpos, positionQty_setFifo,
              sideOf_sign_mul_abs hc.1])
        hfund hint
      rw [sideOf_sign_mul_abs hc.1] at hg
      rw [← pure_eq_ok.mp ht]
      refine Carries.bookInterestCost ⟨⟨g, hg⟩, ?_⟩ interest
      intro leg
      have := hfresh leg
      cases leg <;> exact this
  · -- The quantity branch is off only for a zero delta, which leaves the position alone.
    have hz : interest.spotQuantityDelta = 0 := by
      by_contra hne
      exact hc ⟨hne, h.usesQuantity⟩
    simp only [if_neg hc] at ht
    rw [if_neg hc, ← pure_eq_ok.mp ht]
    have hs : s.addPosition .spot interest.spotQuantityDelta = s := by
      simp [SymbolState.addPosition, hz]
    rw [hs]
    exact h.bookInterestCost interest

/-- **One accepted event keeps the state balanced and fresh.** -/
theorem Carries.applyEvent {s t : SymbolState} {j : Journal} {event : PnlEvent}
    (h : Carries s j) (ht : s.applyEvent event = .ok t) : Carries t (j.record s event) := by
  cases event with
  | trade trade => exact h.applyTrade ht
  | funding funding =>
    cases ht
    exact h.addFunding funding.amountUsdt
  | interest interest => exact h.applyInterest ht

/-! ## Reading the NAV off a balanced state -/

/-- The worth of one leg at the mark: its cash, and its position less the skipped dust. -/
def legWorth (s : SymbolState) (j : Journal) (leg : PositionLeg) : ℚ :=
  j.cash leg + (s.positionQty leg - j.skipped leg) * s.markPrice.getD 0

theorem Carries.snapshotTotal {s : SymbolState} {f : PositionLeg → QuantityFifoPnl} {j : Journal}
    (hb : Balanced s j f) (hfresh : s.SnapshotsFresh) (leg : PositionLeg) :
    ((s.snapshotOf leg).getD {}).totalPnl = legWorth s j leg - (f leg).cumulativeFees := by
  have hl := hfresh leg
  have hpos := hb.position leg
  have hnet := hb.fifos.net leg
  have hcash := hb.fifos.cash leg
  unfold legWorth
  cases hm : s.markPrice with
  | none =>
    rw [hm] at hl
    have hf : f leg = {} := by
      have := (hb.fifos.fifo leg).symm.trans hl.2
      exact VenueFifo.quantity.inj this
    rw [hf] at hcash
    rw [hl.1, hf, ← hcash]
    simp [QuantityFifoPnl.entryCost]
  | some price =>
    rw [hm] at hl
    obtain ⟨snap, hs, hsnap⟩ := hl
    rw [hb.fifos.fifo leg] at hs
    obtain ⟨q, hq, rfl⟩ := map_eq_ok.mp hs
    obtain ⟨-, rfl⟩ := QuantityFifoPnl.snapshot_eq_ok hq
    rw [hsnap]
    show (f leg).grossRealizedPnl - (f leg).cumulativeFees
      + (price * (f leg).netQuantity - (f leg).entryCost) = _
    simp only [Option.getD_some]
    rw [hpos, hnet, ← hcash]
    ring

/-- **A balanced state reports its NAV.** -/
theorem Carries.totalPnl {s : SymbolState} {j : Journal} (h : Carries s j) :
    s.metrics.totalPnlUsdt
      = legWorth s j .spot + legWorth s j .futures - j.fees + j.funding - j.interestCost := by
  obtain ⟨⟨f, hb⟩, hfresh⟩ := h
  have hspot := Carries.snapshotTotal hb hfresh .spot
  have hfutures := Carries.snapshotTotal hb hfresh .futures
  show (s.spotSnapshot.getD {}).totalPnl + (s.futuresSnapshot.getD {}).totalPnl
    + s.fundingPnlUsdt - s.interestCostUsdt = _
  rw [show s.spotSnapshot = s.snapshotOf .spot from rfl,
    show s.futuresSnapshot = s.snapshotOf .futures from rfl, hspot, hfutures, hb.funding,
    hb.interest, ← hb.fifos.fees]
  ring

/-! ## Runs

The engine's state map, with the journal of every symbol kept beside it. The states move by
`seedInitial` and `applyEvent` alone; the journals only watch. -/

structure Booked where
  states : States
  journals : String → Journal

namespace Booked

def start (source : PnlSourceKind) (available : List String) : Booked :=
  ⟨initialStates source available, fun _ => {}⟩

def seed (b : Booked) (position : InitialPosition) : Except PnlError Booked := do
  let states ← seedInitial b.states position
  return ⟨states, Function.update b.journals position.symbol
    ((b.journals position.symbol).seed position)⟩

def apply (b : Booked) (event : PnlEvent) : Except PnlError Booked := do
  let states ← applyEvent b.states event
  return ⟨states, Function.update b.journals event.symbol
    ((b.states event.symbol).elim (b.journals event.symbol)
      fun s => (b.journals event.symbol).record s event)⟩

/-- Seed every initial position, then apply every event. -/
def run (source : PnlSourceKind) (available : List String) (positions : List InitialPosition)
    (events : List PnlEvent) : Except PnlError Booked := do
  let b ← positions.foldlM seed (start source available)
  events.foldlM apply b

/-- Every symbol's state carries its journal. -/
def AllCarry (b : Booked) : Prop := ∀ symbol s, b.states symbol = some s →
  Carries s (b.journals symbol)

theorem allCarry_start {source : PnlSourceKind} (h : source ≠ .marketMaking)
    (available : List String) : (start source available).AllCarry := by
  intro symbol s hs
  simp only [start, initialStates] at hs
  split at hs
  · cases hs
    exact carries_forSource h
  · exact absurd hs (by simp)

/-- Replacing one symbol's state and journal by a pair that carries keeps `AllCarry`. -/
theorem AllCarry.update {b : Booked} (h : b.AllCarry) {symbol : String} {s : SymbolState}
    {j : Journal} (hs : Carries s j) :
    AllCarry ⟨Function.update b.states symbol (some s), Function.update b.journals symbol j⟩ := by
  intro x t ht
  by_cases hx : x = symbol
  · subst hx
    simp only [Function.update_self, Option.some.injEq] at ht ⊢
    exact ht ▸ hs
  · simp only [Function.update_of_ne hx] at ht ⊢
    exact h x t ht

theorem AllCarry.seed {b b' : Booked} (h : b.AllCarry) {position : InitialPosition}
    (hj : b.journals position.symbol = {}) (hb : b.seed position = .ok b') : b'.AllCarry := by
  obtain ⟨states, hstates, hb⟩ := bind_eq_ok.mp hb
  rw [← pure_eq_ok.mp hb]
  unfold seedInitial at hstates
  split at hstates
  · exact absurd hstates (by simp)
  · rename_i s hs
    obtain ⟨t, ht, hstates⟩ := bind_eq_ok.mp hstates
    rw [← pure_eq_ok.mp hstates]
    have hc := h position.symbol s hs
    rw [hj] at hc ⊢
    exact h.update (hc.seedPosition ht)

theorem AllCarry.apply {b b' : Booked} (h : b.AllCarry) {event : PnlEvent}
    (hb : b.apply event = .ok b') : b'.AllCarry := by
  obtain ⟨states, hstates, hb⟩ := bind_eq_ok.mp hb
  rw [← pure_eq_ok.mp hb]
  unfold applyEvent at hstates
  split at hstates
  · exact absurd hstates (by simp)
  · rename_i s hs
    obtain ⟨t, ht, hstates⟩ := bind_eq_ok.mp hstates
    rw [← pure_eq_ok.mp hstates, hs]
    exact h.update ((h event.symbol s hs).applyEvent ht)

/-- Seeding one position per symbol: each position finds an empty journal. -/
theorem AllCarry.seeds {positions : List InitialPosition} {b b' : Booked} (h : b.AllCarry)
    (hone : (positions.map InitialPosition.symbol).Nodup)
    (hj : ∀ p ∈ positions, b.journals p.symbol = {})
    (hb : positions.foldlM Booked.seed b = .ok b') : b'.AllCarry := by
  induction positions generalizing b with
  | nil => exact run_nil.mp hb ▸ h
  | cons p rest ih =>
    obtain ⟨c, hc, hrest⟩ := run_cons.mp hb
    obtain ⟨hnot, hone⟩ := List.nodup_cons.mp hone
    refine ih (h.seed (hj p List.mem_cons_self) hc) hone ?_ hrest
    intro q hq
    have hne : q.symbol ≠ p.symbol := fun he => hnot (he ▸ List.mem_map_of_mem hq)
    obtain ⟨states, -, hc⟩ := bind_eq_ok.mp hc
    rw [← pure_eq_ok.mp hc]
    simp only [Function.update_of_ne hne]
    exact hj q (List.mem_cons_of_mem _ hq)

theorem AllCarry.run {source : PnlSourceKind} (h : source ≠ .marketMaking)
    {available : List String} {positions : List InitialPosition} {events : List PnlEvent}
    (hone : (positions.map InitialPosition.symbol).Nodup) {b : Booked}
    (hb : Booked.run source available positions events = .ok b) : b.AllCarry := by
  obtain ⟨c, hc, hb⟩ := bind_eq_ok.mp hb
  refine run_invariant (P := AllCarry) ?_ ((allCarry_start h available).seeds hone ?_ hc) hb
  · intro event _ s t hs ht
    exact hs.apply ht
  · intro p _
    rfl

end Booked

/-- **The NAV identity.** For every run over a quantity source with at most one initial position
    per symbol, each symbol's total PnL is the worth of its two legs, less fees, plus funding,
    less interest; and no cached snapshot is stale. -/
theorem nav_identity {source : PnlSourceKind} (hsource : source ≠ .marketMaking)
    {available : List String} {positions : List InitialPosition} {events : List PnlEvent}
    (hone : (positions.map InitialPosition.symbol).Nodup) {b : Booked}
    (hrun : Booked.run source available positions events = .ok b) {symbol : String}
    {s : SymbolState} (hs : b.states symbol = some s) :
    s.metrics.totalPnlUsdt
        = legWorth s (b.journals symbol) .spot + legWorth s (b.journals symbol) .futures
          - (b.journals symbol).fees + (b.journals symbol).funding
          - (b.journals symbol).interestCost ∧
      s.SnapshotsFresh := by
  have h := Booked.AllCarry.run hsource hone hrun symbol s hs
  exact ⟨h.totalPnl, h.2⟩

/-- A seeded short, a fill that closes it and reverses, funding, and an interest event priced by
    its own cost. -/
theorem nav_identity_reversal :
    Yields (Booked.run .fundingRate ["BTCUSDT"] [⟨"BTCUSDT", -1, 1, 100⟩]
      [.trade ⟨"BTCUSDT", .buy, .spot, 110, 330, 3, some 2, 1⟩,
       .funding ⟨"BTCUSDT", 5, 2⟩,
       .interest ⟨"BTCUSDT", some 6, none, -1 / 20, 3⟩])
      fun b => ∃ s ∈ b.states "BTCUSDT", s.metrics.totalPnlUsdt
        = legWorth s (b.journals "BTCUSDT") .spot + legWorth s (b.journals "BTCUSDT") .futures
          - (b.journals "BTCUSDT").fees + (b.journals "BTCUSDT").funding
          - (b.journals "BTCUSDT").interestCost := by
  obtain ⟨b, hb, s, hs, -⟩ : Yields (Booked.run .fundingRate ["BTCUSDT"]
      [⟨"BTCUSDT", -1, 1, 100⟩]
      [.trade ⟨"BTCUSDT", .buy, .spot, 110, 330, 3, some 2, 1⟩,
       .funding ⟨"BTCUSDT", 5, 2⟩,
       .interest ⟨"BTCUSDT", some 6, none, -1 / 20, 3⟩])
      fun b => ∃ s ∈ b.states "BTCUSDT", True := by decide +kernel
  exact ⟨b, hb, s, hs, (nav_identity (by decide) (by decide) hb hs).1⟩

/-- **The plain identity fails on dust.** An initial spot quantity of one `f64::EPSILON` is
    stored as the position but not booked in the FIFO, so the reported total misses it. -/
theorem dust_seed_breaks_nav :
    Yields (Booked.run .intra ["BTCUSDT"] [⟨"BTCUSDT", f64Epsilon, 1, 100⟩] [])
      fun b => ∃ s ∈ b.states "BTCUSDT", s.metrics.totalPnlUsdt
        ≠ ((b.journals "BTCUSDT").cash .spot + s.positionQty .spot * s.markPrice.getD 0)
          + ((b.journals "BTCUSDT").cash .futures + s.positionQty .futures * s.markPrice.getD 0)
          - (b.journals "BTCUSDT").fees + (b.journals "BTCUSDT").funding
          - (b.journals "BTCUSDT").interestCost := by
  decide +kernel

end CryptoNav.Pnl
