import Mathlib.Algebra.BigOperators.Ring.List
import Mathlib.Tactic.LinearCombination
import CryptoNav.Matching.Refinement

/-!
# No quantity is made or lost

Every quantity the engine moves is taken from what is left of an order and added to what was
hedged or netted of it. The only loss is dust: a rest of at most `ε` is dropped when an order
closes. A closed order leaves its queue for good, so this happens to an order once.

The invariant is one of the book (`Conserved`): a queued order is accounted for exactly, a
settled one up to `ε`, and netting credits both sides of a symbol with the same amount. Rounding
loses quantity, too, so the book's amounts are on a `Grid`: in exact arithmetic the nonnegative
numbers, in the machine's the multiples of a unit.

What is left out is any bound on how far the machine's sums are off where the amounts are on no
grid. It would be one of the accumulated rounding of a run and say nothing about the tolerance
`ε`, and for some amounts the tolerance is exceeded.
-/

set_option autoImplicit false

namespace CryptoNav.Matching

open CryptoNav.Lib

/-! ## One order -/

/-- What an order's fill is not accounted for by. -/
def MarginOrder.lost (o : MarginOrder) : ℚ :=
  o.openFillAmount - (o.remainingAmount + o.camount + o.nettedAmount)

/-- The amounts that matching moves are on the grid. Prices are not moved by anything and need not
    be. -/
structure MarginOrder.On (G : ℚ → Prop) (o : MarginOrder) : Prop where
  fill : G o.openFillAmount
  remaining : G o.remainingAmount
  camount : G o.camount
  netted : G o.nettedAmount

/-- An order that has lost nothing. A queued order is such, as what matching takes from it is
    credited to it. -/
structure Exact (G : ℚ → Prop) (o : MarginOrder) : Prop where
  amounts : o.On G
  lost : o.lost = 0

/-- An order that has lost dust at most, and nothing as long as it is pending. What it has lost is
    the dust that was dropped when it was closed. -/
structure Accounted (G : ℚ → Prop) (ε : ℚ) (o : MarginOrder) : Prop where
  amounts : o.On G
  lost_nonneg : 0 ≤ o.lost
  lost_le : o.lost ≤ ε
  exact_of_pending : ε < o.remainingAmount → o.lost = 0

section

variable {G : ℚ → Prop} {ε q : ℚ} {o : MarginOrder}

theorem Exact.accounted (h : Exact G o) (hε : 0 ≤ ε) : Accounted G ε o :=
  ⟨h.amounts, h.lost.ge, h.lost.trans_le hε, fun _ => h.lost⟩

theorem Accounted.exact (h : Accounted G ε o) (hpending : ε < o.remainingAmount) : Exact G o :=
  ⟨h.amounts, h.exact_of_pending hpending⟩

theorem Accounted.abs_le (h : Accounted G ε o) : |o.lost| ≤ ε := by
  rw [abs_of_nonneg h.lost_nonneg]
  exact h.lost_le

/-- Taking `q` from what remains and adding it to what is matched. -/
theorem accounted_of_take {o' : MarginOrder} (h : Exact G o) (hε : 0 ≤ ε)
    (hq : q ≤ o.remainingAmount) (hamounts : o'.On G) (hfill : o'.openFillAmount = o.openFillAmount)
    (hrem : o'.remainingAmount = clampZero (o.remainingAmount - q) ε)
    (hmatched : o'.camount + o'.nettedAmount = o.camount + o.nettedAmount + q) :
    Accounted G ε o' := by
  have hleft : 0 ≤ o.remainingAmount - q := sub_nonneg.mpr hq
  have hlost := h.lost
  have hlost' : o'.lost = (o.remainingAmount - q) - o'.remainingAmount := by
    unfold MarginOrder.lost at hlost ⊢
    linarith
  rcases clampZero_cases (o.remainingAmount - q) ε with hc | ⟨hc, hdust⟩
  · rw [hc] at hrem
    have hzero : o'.lost = 0 := by
      rw [hlost', hrem, sub_self]
    exact ⟨hamounts, hzero.ge, hzero.trans_le hε, fun _ => hzero⟩
  · rw [hc] at hrem
    rw [hrem, sub_zero] at hlost'
    rw [abs_of_nonneg hleft] at hdust
    refine ⟨hamounts, hlost' ▸ hleft, hlost' ▸ hdust, fun hp => ?_⟩
    rw [hrem] at hp
    exact absurd hp (not_lt.mpr hε)

variable [Rounding] (hG : Grid G)

include hG

/-- What is matched of an order that lost nothing stays on the grid, being part of its fill. -/
theorem Exact.add_le (h : Exact G o) (hq : q ≤ o.remainingAmount) :
    o.nettedAmount + q ≤ o.openFillAmount ∧ o.camount + q ≤ o.openFillAmount := by
  have hlost := h.lost
  have hcamount := hG.nonneg h.amounts.camount
  have hnetted := hG.nonneg h.amounts.netted
  unfold MarginOrder.lost at hlost
  constructor <;> linarith

theorem Exact.remaining_sub (h : Exact G o) (hmem : G q) (hq : q ≤ o.remainingAmount) :
    clampZero (Rounding.fl (o.remainingAmount - q)) ε = clampZero (o.remainingAmount - q) ε ∧
      G (clampZero (Rounding.fl (o.remainingAmount - q)) ε) := by
  rw [hG.fl_sub h.amounts.remaining hmem hq]
  exact ⟨rfl, (nettingBite_lawful hG ε).clamp h.amounts.remaining hmem hq⟩

theorem Exact.net_netted (h : Exact G o) (hmem : G q) (hq : q ≤ o.remainingAmount) :
    (o.net q ε).nettedAmount = o.nettedAmount + q ∧ G (o.nettedAmount + q) :=
  ⟨hG.fl_add h.amounts.netted hmem h.amounts.fill (h.add_le hG hq).1,
    hG.add h.amounts.netted hmem h.amounts.fill (h.add_le hG hq).1⟩

theorem Exact.close_camount (h : Exact G o) (hmem : G q) (hq : q ≤ o.remainingAmount)
    (cprice : Option ℚ) :
    (o.close q cprice ε).camount = o.camount + q ∧ G (o.camount + q) :=
  ⟨hG.fl_add h.amounts.camount hmem h.amounts.fill (h.add_le hG hq).2,
    hG.add h.amounts.camount hmem h.amounts.fill (h.add_le hG hq).2⟩

theorem Exact.net (h : Exact G o) (hε : 0 ≤ ε) (hmem : G q) (hq : q ≤ o.remainingAmount) :
    Accounted G ε (o.net q ε) := by
  obtain ⟨hrem, hremG⟩ := h.remaining_sub (ε := ε) hG hmem hq
  obtain ⟨hnetted, hnettedG⟩ := h.net_netted (ε := ε) hG hmem hq
  refine accounted_of_take h hε hq ⟨h.amounts.fill, hremG, h.amounts.camount, ?_⟩ rfl hrem ?_
  · rwa [hnetted]
  · rw [hnetted]
    exact (add_assoc _ _ _).symm

theorem Exact.close {cprice : Option ℚ} (h : Exact G o) (hε : 0 ≤ ε) (hmem : G q)
    (hq : q ≤ o.remainingAmount) : Accounted G ε (o.close q cprice ε) := by
  obtain ⟨hrem, hremG⟩ := h.remaining_sub (ε := ε) hG hmem hq
  obtain ⟨hcamount, hcamountG⟩ := h.close_camount (ε := ε) hG hmem hq cprice
  refine accounted_of_take h hε hq ⟨h.amounts.fill, hremG, ?_, h.amounts.netted⟩ rfl hrem ?_
  · rwa [hcamount]
  · rw [hcamount]
    exact add_right_comm _ _ _

end

/-! ## One symbol -/

def Side.sign : Side → ℚ
  | .buy => 1
  | .sell => -1

theorem Side.sign_opposite (s : Side) : s.opposite.sign = -s.sign := by
  cases s with
  | buy => rfl
  | sell => exact (neg_neg _).symm

/-- Netted amounts, counted against each other. -/
def MarginOrder.signedNetted (o : MarginOrder) : ℚ := o.side.sign * o.nettedAmount

/-- The invariant of a symbol's book. Netting credits a buy and a sell at once, so with their signs
    the credits cancel. -/
structure SymbolBook.Conserved (G : ℚ → Prop) (ε : ℚ) (b : SymbolBook) : Prop where
  accounted : ∀ o ∈ b.rows, Accounted G ε o
  netted : (b.rows.map MarginOrder.signedNetted).sum = 0

namespace SymbolBook

variable {G : ℚ → Prop} {ε : ℚ} {symbol : String} {b : SymbolBook}

theorem mem_rows {o : MarginOrder} (side : Side) : o ∈ b.rows ↔
    o ∈ b.queue side.opposite ∨ o ∈ b.queue side ∨ o ∈ b.settled := by
  rw [(b.rows_perm side).mem_iff, List.mem_append, List.mem_append]

/-- Queued orders have lost nothing. -/
theorem Conserved.queue_exact (h : b.Conserved G ε) (hproper : b.Proper ε symbol) {side : Side}
    {o : MarginOrder} (ho : o ∈ b.queue side) : Exact G o :=
  (h.accounted o (mem_rows_of_queue ho)).exact (hproper.queued side o ho).remaining

/-- The orders of a queue all count with the sign of its side. -/
theorem signedNetted_sum {l : List MarginOrder} {side : Side} (h : ∀ o ∈ l, o.side = side) :
    (l.map MarginOrder.signedNetted).sum = side.sign * (l.map MarginOrder.nettedAmount).sum := by
  rw [← List.sum_map_mul_left]
  refine congrArg List.sum (List.map_congr_left fun o ho => ?_)
  rw [MarginOrder.signedNetted, h o ho]

section

variable [Rounding] (hG : Grid G)

include hG

/-- What the arriving order netted is what was taken. -/
theorem afterNetting_netted {order : MarginOrder} {c : Cleared MarginOrder ℚ}
    (hnetted : order.nettedAmount = 0) (hfill : G order.openFillAmount)
    (hbites : ∀ q ∈ c.bites, G q) (htaken : c.taken ≤ order.openFillAmount) :
    (order.afterNetting c ε).nettedAmount = c.taken ∧ G c.taken := by
  have hsum : 0 + c.bites.sum ≤ order.openFillAmount := by
    rwa [zero_add]
  obtain ⟨hfold, hmem⟩ := hG.foldl_fl_add hG.zero hbites hfill hsum
  rw [zero_add] at hfold hmem
  refine ⟨?_, hmem⟩
  show c.bites.foldl (fun sum q => Rounding.fl (sum + q)) order.nettedAmount = c.taken
  rw [hnetted]
  exact hfold

/-- The arriving order: its fill is what the opposite queue took and what is left of it. -/
theorem afterNetting_accounted {order : MarginOrder} {c : Cleared MarginOrder ℚ} (hε : 0 ≤ ε)
    (hfill : G order.openFillAmount) (hcamount : order.camount = 0)
    (hnetted : order.nettedAmount = 0) (hbites : ∀ q ∈ c.bites, G q) (hleft : G c.left)
    (htaken : c.taken ≤ order.openFillAmount)
    (hc : c.left = order.openFillAmount - c.taken ∨
      (c.left = 0 ∧ order.openFillAmount - c.taken ≤ ε)) :
    Accounted G ε (order.afterNetting c ε) := by
  obtain ⟨hsum, hmem⟩ := afterNetting_netted (ε := ε) hG hnetted hfill hbites htaken
  have hamounts : (order.afterNetting c ε).On G := by
    refine ⟨hfill, hleft, ?_, hsum ▸ hmem⟩
    show G order.camount
    rw [hcamount]
    exact hG.zero
  have hlost : (order.afterNetting c ε).lost = order.openFillAmount - c.taken - c.left := by
    show order.openFillAmount
      - (c.left + order.camount + (order.afterNetting c ε).nettedAmount) = _
    rw [hcamount, hsum]
    ring
  rcases hc with hc | ⟨hc, hdust⟩
  · have hzero : (order.afterNetting c ε).lost = 0 := by
      rw [hlost, hc, sub_self]
    exact ⟨hamounts, hzero.ge, hzero.trans_le hε, fun _ => hzero⟩
  · rw [hc, sub_zero] at hlost
    refine ⟨hamounts, hlost ▸ sub_nonneg.mpr htaken, hlost ▸ hdust, fun hp => ?_⟩
    replace hp : ε < c.left := hp
    rw [hc] at hp
    exact absurd hp (not_lt.mpr hε)

/-- **An arriving Margin order conserves quantity.** -/
theorem Conserved.margin (h : b.Conserved G ε) (hproper : b.Proper ε symbol) (hε : 0 ≤ ε)
    {order : MarginOrder} (hfill : G order.openFillAmount) (hcamount : order.camount = 0)
    (hnetted : order.nettedAmount = 0) : (b.margin ε order).Conserved G ε := by
  have hlawful := nettingBite_lawful hG ε
  have hexact : ∀ o ∈ b.queue order.side.opposite, Exact G o :=
    fun o ho => h.queue_exact hproper ho
  have hsize : ∀ o ∈ b.queue order.side.opposite, G o.remainingAmount :=
    fun o ho => (hexact o ho).amounts.remaining
  have hrows := b.rows_perm order.side
  have hrows' := b.margin_rows_perm ε order
  set c := b.netAgainst ε order with hc
  obtain ⟨hclosed, hqueue⟩ : (∀ o ∈ c.closed, Accounted G ε o) ∧ ∀ o ∈ c.queue, Accounted G ε o :=
    hlawful.clear_forall (fun o ho => ho.accounted hε)
      (fun o q ho hmem _ hq => ho.net hG hε hmem hq) (fun o ho => hG.nonneg ho.amounts.remaining)
      hε hfill hsize hexact
  have hbites : ∀ q ∈ c.bites, G q := hlawful.clear_bites hfill hsize
  have hleft : G c.left := hlawful.clear_mem hfill hsize
  obtain ⟨-, -, htaken, hleft'⟩ : 0 ≤ c.left ∧ 0 ≤ c.taken ∧ c.taken ≤ order.openFillAmount ∧
      (c.left = order.openFillAmount - c.taken ∨
        (c.left = 0 ∧ order.openFillAmount - c.taken ≤ ε)) :=
    hlawful.clear_left hG.nonneg hfill hsize
  constructor
  · intro o ho
    rcases List.mem_append.mp (hrows'.mem_iff.mp ho) with ho | ho
    · rcases List.mem_cons.mp ho with rfl | ho
      · exact afterNetting_accounted hG hε hfill hcamount hnetted hbites hleft htaken hleft'
      · rcases List.mem_append.mp ho with ho | ho
        · exact hclosed o ho
        · exact hqueue o ho
    · exact h.accounted o (hrows.mem_iff.mpr (List.mem_append_right _ ho))
  · have hside : ∀ o ∈ c.closed ++ c.queue, o.side = order.side.opposite := by
      intro o ho
      have hmap : (c.closed ++ c.queue).map MarginOrder.side
          = (b.queue order.side.opposite).map MarginOrder.side := Bite.clear_map (fun _ _ => rfl) _ _
      have hmem := hmap ▸ List.mem_map_of_mem (f := MarginOrder.side) ho
      obtain ⟨o', ho', hs⟩ := List.mem_map.mp hmem
      rw [← hs]
      exact (hproper.queued _ o' ho').side
    have hsum : ((c.closed ++ c.queue).map MarginOrder.nettedAmount).sum
        = ((b.queue order.side.opposite).map MarginOrder.nettedAmount).sum + c.taken :=
      hlawful.clear_sum (fun o q ho hmem hq => (ho.net_netted hG hmem hq).1) hfill hsize hexact
    have hold := h.netted
    rw [(hrows.map _).sum_eq, List.map_append, List.sum_append,
      signedNetted_sum fun o ho => (hproper.queued _ o ho).side] at hold
    have hcurrent : (order.afterNetting c ε).signedNetted = order.side.sign * c.taken := by
      unfold MarginOrder.signedNetted
      rw [(afterNetting_netted hG hnetted hfill hbites htaken).1]
      rfl
    rw [(hrows'.map _).sum_eq, List.map_append, List.sum_append, List.map_cons, List.sum_cons,
      signedNetted_sum hside, hsum, hcurrent]
    rw [Side.sign_opposite] at hold ⊢
    linear_combination hold

/-- **A hedge conserves quantity.** -/
theorem Conserved.hedge (h : b.Conserved G ε) (hproper : b.Proper ε symbol) (hε : 0 ≤ ε)
    {order : FuturesOrder} (hamount : G (max order.amount 0)) :
    (b.hedge ε order).Conserved G ε := by
  have hrows := b.rows_perm order.side
  have hrows' := b.hedge_rows_perm ε order
  set c := b.hedgeAgainst ε order with hc
  obtain ⟨hclosed, hqueue⟩ : (∀ o ∈ c.closed, Accounted G ε o) ∧ ∀ o ∈ c.queue, Accounted G ε o :=
    (hedgingBite_lawful hG ε order.cprice).clear_forall (fun o ho => ho.accounted hε)
      (fun o q ho hmem _ hq => ho.close hG hε hmem hq) (fun o ho => hG.nonneg ho.amounts.remaining)
      hε hamount (fun o ho => (h.queue_exact hproper ho).amounts.remaining)
      fun o ho => h.queue_exact hproper ho
  constructor
  · intro o ho
    rcases List.mem_append.mp (hrows'.mem_iff.mp ho) with ho | ho
    · rcases List.mem_append.mp ho with ho | ho
      · exact hclosed o ho
      · exact hqueue o ho
    · exact h.accounted o (hrows.mem_iff.mpr (List.mem_append_right _ ho))
  · have hmap : (c.closed ++ c.queue).map MarginOrder.signedNetted
        = (b.queue order.side.opposite).map MarginOrder.signedNetted :=
      Bite.clear_map (fun _ _ => rfl) _ _
    rw [(hrows'.map _).sum_eq, List.map_append, hmap, ← List.map_append, ← (hrows.map _).sum_eq]
    exact h.netted

/-- What a hedge takes from the orders of a symbol is added to what was hedged of them. -/
theorem hedge_added (h : b.Conserved G ε) (hproper : b.Proper ε symbol) {order : FuturesOrder}
    (hamount : G (max order.amount 0)) :
    ((b.hedge ε order).rows.map MarginOrder.camount).sum
      = (b.rows.map MarginOrder.camount).sum + (b.hedgeAgainst ε order).taken := by
  have hsum : (((b.hedgeAgainst ε order).closed ++ (b.hedgeAgainst ε order).queue).map
      MarginOrder.camount).sum = ((b.queue order.side.opposite).map MarginOrder.camount).sum
        + (b.hedgeAgainst ε order).taken :=
    (hedgingBite_lawful hG ε order.cprice).clear_sum
      (fun o q ho hmem hq => (ho.close_camount hG hmem hq order.cprice).1) hamount
      (fun o ho => (h.queue_exact hproper ho).amounts.remaining)
      fun o ho => h.queue_exact hproper ho
  rw [((b.hedge_rows_perm ε order).map _).sum_eq, ((b.rows_perm order.side).map _).sum_eq,
    List.map_append, List.sum_append, hsum]
  simp only [List.map_append, List.sum_append]
  ring

end

/-- What a Futures order was allocated, and what that added to the orders it hedged. -/
theorem hedge_allocates (h : b.Conserved (0 ≤ ·) ε) (hproper : b.Proper ε symbol) (hε : 0 ≤ ε)
    {order : FuturesOrder} (hamount : -ε ≤ order.amount) :
    |(((b.hedge ε order).rows.map MarginOrder.camount).sum - (b.rows.map MarginOrder.camount).sum)
      - (b.hedgeResult ε order).allocatedAmount| ≤ ε := by
  obtain ⟨hleft, htaken, htaken', hleft'⟩ : 0 ≤ (b.hedgeAgainst ε order).left ∧
      0 ≤ (b.hedgeAgainst ε order).taken ∧ (b.hedgeAgainst ε order).taken ≤ max order.amount 0 ∧
      ((b.hedgeAgainst ε order).left = max order.amount 0 - (b.hedgeAgainst ε order).taken ∨
        ((b.hedgeAgainst ε order).left = 0 ∧
          max order.amount 0 - (b.hedgeAgainst ε order).taken ≤ ε)) :=
    (hedgingBite_lawful grid_unrounded ε order.cprice).clear_left id (le_max_right _ _)
      fun o ho => (h.queue_exact hproper ho).amounts.remaining
  have hadded : ((b.hedge ε order).rows.map MarginOrder.camount).sum
      - (b.rows.map MarginOrder.camount).sum = (b.hedgeAgainst ε order).taken := by
    rw [hedge_added grid_unrounded h hproper (le_max_right _ _), add_sub_cancel_left]
  rw [hadded, show (b.hedgeResult ε order).allocatedAmount
    = order.amount - (b.hedgeAgainst ε order).left from rfl]
  generalize (b.hedgeAgainst ε order).taken = taken at *
  generalize (b.hedgeAgainst ε order).left = left at *
  rw [abs_le]
  rcases le_total order.amount 0 with hneg | hpos
  · rw [max_eq_right hneg] at htaken' hleft'
    rcases hleft' with hl | ⟨hl, -⟩
    · constructor <;> linarith
    · constructor <;> linarith
  · rw [max_eq_left hpos] at htaken' hleft'
    rcases hleft' with hl | ⟨hl, hdust⟩
    · constructor <;> linarith
    · constructor <;> linarith

/-- A hedge leaves alone every row that is not queued on the side it hedges. -/
theorem mem_hedge_rows [Rounding] (order : FuturesOrder) {o : MarginOrder} (ho : o ∈ b.rows)
    (hne : o ∉ b.queue order.side.opposite) : o ∈ (b.hedge ε order).rows := by
  refine (b.hedge_rows_perm ε order).mem_iff.mpr (List.mem_append_right _ ?_)
  exact (List.mem_append.mp ((b.rows_perm order.side).mem_iff.mp ho)).resolve_left hne

end SymbolBook

/-! ## The engine -/

/-- The engines that grow out of an empty one. Margin orders arrive as `lifecycle_events` makes
    them: nothing of them is matched yet. -/
inductive Reachable (ε : ℚ) : MatchEngine → Prop where
  | new {e : MatchEngine} (h : MatchEngine.new [] ε = .ok e) : Reachable ε e
  | seed {e : MatchEngine} (h : Reachable ε e) (history : List HedgeHistory) :
      Reachable ε (e.seedHedgeHistory history)
  | margin {e e' : MatchEngine} {order : MarginOrder} (h : Reachable ε e)
      (hcamount : order.camount = 0) (hnetted : order.nettedAmount = 0)
      (hstep : e.applyMargin order = .ok e') : Reachable ε e'
  | futures {e e' : MatchEngine} {order : FuturesOrder} {result : HedgeResult}
      (h : Reachable ε e) (hstep : e.applyFutures order = .ok (e', result)) : Reachable ε e'

/-- The engine stands for a market that conserves quantity. It is said of an engine that has seen
    all orders since it was empty. -/
def Sound (ε : ℚ) (e : MatchEngine) : Prop :=
  ∃ B, Refines ε (fun _ => none) e B ∧ ∀ symbol, (B symbol).Conserved (0 ≤ ·) ε

theorem applyMargin_accepted [Rounding] {e e' : MatchEngine} {order : MarginOrder}
    (h : e.applyMargin order = .ok e') :
    e.epsilon < order.openFillAmount ∧ e.orders.get order.fkey = none := by
  unfold MatchEngine.applyMargin at h
  split at h
  · cases h
  · rename_i hfill
    split at h
    · cases h
    · rename_i hget
      exact ⟨not_le.mp hfill, by simpa using hget⟩

theorem applyFutures_accepted [Rounding] {e : MatchEngine} {order : FuturesOrder}
    {r : MatchEngine × HedgeResult} (h : e.applyFutures order = .ok r) :
    ¬order.amount < -e.epsilon ∧ ¬(e.epsilon < order.amount ∧ order.fillTsUs = none) := by
  unfold MatchEngine.applyFutures at h
  split at h
  · cases h
  · rename_i hamount
    split at h
    · cases h
    · rename_i hfill
      exact ⟨hamount, hfill⟩

section

variable {ε : ℚ} {e : MatchEngine} {B : Book}

theorem Refines.holds_iff (h : Refines ε (fun _ => none) e B) {o : MarginOrder} :
    B.Holds o ↔ coreAt e.orders o.fkey = some o := by
  rw [← Option.or_none (o := coreAt e.orders o.fkey), h.rows]
  simp

theorem Refines.fresh (h : Refines ε (fun _ => none) e B) {fkey : ℤ}
    (hget : e.orders.get fkey = none) (o : MarginOrder) (ho : B.Holds o) : o.fkey ≠ fkey := by
  intro hk
  have hcore := h.holds_iff.mp ho
  unfold coreAt at hcore
  rw [hk, hget] at hcore
  cases hcore

theorem Sound.seed (h : Sound ε e) (history : List HedgeHistory) :
    Sound ε (e.seedHedgeHistory history) := by
  obtain ⟨B, href, hcons⟩ := h
  exact ⟨B, href.seed history, hcons⟩

theorem conserved_update {G : ℚ → Prop} {symbol : String} {b' : SymbolBook}
    (hB : ∀ symbol, (B symbol).Conserved G ε) (hb' : b'.Conserved G ε) (t : String) :
    (Function.update B symbol b' t).Conserved G ε := by
  by_cases ht : t = symbol
  · rw [ht, Function.update_self]
    exact hb'
  · rw [Function.update_of_ne ht]
    exact hB t

theorem Sound.margin (h : Sound ε e) (hε : 0 ≤ ε) {order : MarginOrder} {e' : MatchEngine}
    (hcamount : order.camount = 0) (hnetted : order.nettedAmount = 0)
    (hstep : e.applyMargin order = .ok e') : Sound ε e' := by
  obtain ⟨B, href, hcons⟩ := h
  obtain ⟨hfill, hget⟩ := applyMargin_accepted hstep
  rw [href.epsilon] at hfill
  obtain ⟨e'', he'', href'⟩ := href.applyMargin (href.fresh hget) hfill
  cases he''.symm.trans hstep
  have hcore : 0 ≤ order.core.openFillAmount := hε.trans hfill.le
  exact ⟨_, href', conserved_update hcons ((hcons order.symbol).margin grid_unrounded
    (href.proper order.symbol) hε hcore hcamount hnetted)⟩

theorem Sound.futures (h : Sound ε e) (hε : 0 ≤ ε) {order : FuturesOrder} {e' : MatchEngine}
    {result : HedgeResult} (hstep : e.applyFutures order = .ok (e', result)) : Sound ε e' := by
  obtain ⟨B, href, hcons⟩ := h
  obtain ⟨hamount, hfill⟩ := applyFutures_accepted hstep
  rw [href.epsilon] at hamount hfill
  obtain ⟨e'', he'', href'⟩ := href.applyFutures hamount hfill
  cases he''.symm.trans hstep
  exact ⟨_, href', conserved_update hcons ((hcons order.symbol).hedge grid_unrounded
    (href.proper order.symbol) hε (le_max_right _ _))⟩

/-- Every reachable engine is sound. -/
theorem Reachable.sound (h : Reachable ε e) (hε : 0 ≤ ε) : Sound ε e := by
  induction h with
  | new h =>
    unfold MatchEngine.new at h
    rw [if_neg (not_lt.mpr hε)] at h
    cases h
    refine ⟨fun _ => {}, refines_empty ε, fun _ => ⟨?_, rfl⟩⟩
    intro o ho
    exact absurd ho List.not_mem_nil
  | seed _ history ih => exact ih.seed history
  | margin _ hcamount hnetted hstep ih => exact ih.margin hε hcamount hnetted hstep
  | futures _ hstep ih => exact ih.futures hε hstep

/-- An applied batch stays within the reachable engines. -/
theorem Reachable.apply (h : Reachable ε e) {events : List MatchEvent}
    (hevents : ∀ order, .margin order ∈ events → order.camount = 0 ∧ order.nettedAmount = 0)
    {e' : MatchEngine} {hedges : List HedgeResult} (hrun : e.apply events = .ok (e', hedges)) :
    Reachable ε e' := by
  refine run_invariant (P := fun s => Reachable ε s.1) ?_ h hrun
  intro event hmem s t hs hstep
  rw [mem_sortByKey] at hmem
  cases event with
  | margin order =>
    obtain ⟨hcamount, hnetted⟩ := hevents order hmem
    obtain ⟨e₁, he₁, rfl⟩ := map_eq_ok.mp hstep
    exact hs.margin hcamount hnetted he₁
  | futures order =>
    obtain ⟨⟨e₁, r⟩, he₁, rfl⟩ := map_eq_ok.mp hstep
    exact hs.futures he₁

/-! ### Sums over the engine's rows -/

theorem cores_nodup (e : MatchEngine) (p : String → Bool) :
    ((e.orders.rows.filter (p ·.symbol)).map MarginOrder.core).Nodup := by
  have hkeys : (e.orders.rows.map MarginOrder.fkey).Nodup :=
    List.pairwise_map.mpr (e.orders.sorted.imp ne_of_lt)
  refine List.Nodup.of_map (f := MarginOrder.fkey) ?_
  rw [List.map_map]
  exact hkeys.sublist (List.filter_sublist.map _)

/-- The engine's rows of some symbols are the market's. -/
theorem Refines.mem_cores (h : Refines ε (fun _ => none) e B) (p : String → Bool)
    {o : MarginOrder} : o ∈ (e.orders.rows.filter (p ·.symbol)).map MarginOrder.core ↔
      B.Holds o ∧ p o.symbol := by
  rw [h.holds_iff, List.mem_map]
  constructor
  · rintro ⟨row, hrow, rfl⟩
    obtain ⟨hmem, hp⟩ := List.mem_filter.mp hrow
    refine ⟨?_, hp⟩
    unfold coreAt
    rw [MarginOrder.core_fkey, Table.mem_rows.mp hmem]
    rfl
  · rintro ⟨hcore, hp⟩
    obtain ⟨row, hrow, rfl⟩ := Option.map_eq_some_iff.mp hcore
    exact ⟨row, List.mem_filter.mpr ⟨(Table.get_eq_some.mp hrow).1, hp⟩, rfl⟩

theorem Refines.symbol_rows (h : Refines ε (fun _ => none) e B) (symbol : String) :
    ((e.orders.rows.filter (·.symbol = symbol)).map MarginOrder.core).Perm (B symbol).rows := by
  refine (List.perm_ext_iff_of_nodup (cores_nodup e fun s => decide (s = symbol))
    (h.proper symbol).nodup.of_map).mpr fun o => ?_
  refine (h.mem_cores fun s => decide (s = symbol)).trans ?_
  constructor
  · rintro ⟨ho, hs⟩
    unfold Book.Holds at ho
    rwa [of_decide_eq_true hs] at ho
  · intro ho
    have hs := (h.proper symbol).mem_symbol ho
    unfold Book.Holds
    rw [hs]
    exact ⟨ho, decide_eq_true rfl⟩

/-- `camount` over all rows. -/
def camountSum (e : MatchEngine) : ℚ := (e.orders.rows.map MarginOrder.camount).sum

/-- `netted_amount` over the rows of one symbol and side. -/
def nettedSum (e : MatchEngine) (symbol : String) (side : Side) : ℚ :=
  (((e.orders.rows.filter (·.symbol = symbol)).filter (·.side = side)).map
    MarginOrder.nettedAmount).sum

theorem signedNetted_split (l : List MarginOrder) : (l.map MarginOrder.signedNetted).sum
    = ((l.filter (·.side = .buy)).map MarginOrder.nettedAmount).sum
      - ((l.filter (·.side = .sell)).map MarginOrder.nettedAmount).sum := by
  induction l with
  | nil => simp
  | cons o l ih =>
    cases hside : o.side with
    | buy =>
      simp only [List.map_cons, List.sum_cons, List.filter_cons, MarginOrder.signedNetted, hside,
        Side.sign, ih]
      simp
      ring
    | sell =>
      simp only [List.map_cons, List.sum_cons, List.filter_cons, MarginOrder.signedNetted, hside,
        Side.sign, ih]
      simp
      ring

theorem Refines.nettedSum_eq (h : Refines ε (fun _ => none) e B) {symbol : String}
    (hcons : (B symbol).Conserved (0 ≤ ·) ε) :
    nettedSum e symbol .buy = nettedSum e symbol .sell := by
  have hzero := hcons.netted
  rw [← ((h.symbol_rows symbol).map _).sum_eq, List.map_map] at hzero
  replace hzero : ((e.orders.rows.filter (·.symbol = symbol)).map
    MarginOrder.signedNetted).sum = 0 := hzero
  rw [signedNetted_split] at hzero
  exact sub_eq_zero.mp hzero

/-- Rows of the other symbols count as before when one symbol's book is replaced. -/
theorem Refines.camountSum_sub (h : Refines ε (fun _ => none) e B) {e' : MatchEngine}
    {symbol : String} {b' : SymbolBook}
    (h' : Refines ε (fun _ => none) e' (Function.update B symbol b')) :
    camountSum e' - camountSum e
      = (b'.rows.map MarginOrder.camount).sum
        - ((B symbol).rows.map MarginOrder.camount).sum := by
  have hsplit : ∀ e : MatchEngine, camountSum e
      = (((e.orders.rows.filter (·.symbol = symbol)).map MarginOrder.core).map
          MarginOrder.camount).sum
        + (((e.orders.rows.filter (fun o => !decide (o.symbol = symbol))).map
          MarginOrder.core).map MarginOrder.camount).sum := by
    intro e
    have hperm := List.filter_append_perm (fun o : MarginOrder => decide (o.symbol = symbol))
      e.orders.rows
    rw [camountSum, ← (hperm.map _).sum_eq, List.map_append, List.sum_append, List.map_map,
      List.map_map]
    rfl
  have hothers : ((e'.orders.rows.filter (fun o => !decide (o.symbol = symbol))).map
      MarginOrder.core).Perm ((e.orders.rows.filter (fun o => !decide (o.symbol = symbol))).map
        MarginOrder.core) := by
    refine (List.perm_ext_iff_of_nodup (cores_nodup e' fun s => !decide (s = symbol))
      (cores_nodup e fun s => !decide (s = symbol))).mpr fun o => ?_
    refine (h'.mem_cores fun s => !decide (s = symbol)).trans
      (Iff.trans ?_ (h.mem_cores fun s => !decide (s = symbol)).symm)
    refine and_congr_left fun hs => ?_
    have hne : o.symbol ≠ symbol := by simpa using hs
    unfold Book.Holds
    rw [Function.update_of_ne hne]
  rw [hsplit e, hsplit e', (hothers.map _).sum_eq, ((h.symbol_rows symbol).map _).sum_eq,
    ((h'.symbol_rows symbol).map _).sum_eq, Function.update_self]
  ring

/-- A hedge changes `camount` on the side it hedges only. -/
theorem Refines.camount_frame (h : Refines ε (fun _ => none) e B) {order : FuturesOrder}
    {e' : MatchEngine} (h' : Refines ε (fun _ => none) e'
      (Function.update B order.symbol ((B order.symbol).hedge ε order)))
    {fkey : ℤ} {o : MarginOrder} (hget : e.orders.get fkey = some o) :
    ∃ o', e'.orders.get fkey = some o' ∧ (o'.camount ≠ o.camount →
      o.symbol = order.symbol ∧ o.side = order.side.opposite) := by
  have hkey : o.fkey = fkey := Table.key_of_get hget
  have hheld : B.Holds o.core := by
    refine h.holds_iff.mpr ?_
    unfold coreAt
    rw [MarginOrder.core_fkey, hkey, hget]
    rfl
  -- A row that the market still holds is the engine's row.
  have hsame : Book.Holds (Function.update B order.symbol ((B order.symbol).hedge ε order)) o.core →
      ∃ o', e'.orders.get fkey = some o' ∧ o'.camount = o.camount := by
    intro hheld'
    have hcore := h'.holds_iff.mp hheld'
    rw [MarginOrder.core_fkey, hkey] at hcore
    obtain ⟨o', hget', hcore'⟩ := Option.map_eq_some_iff.mp hcore
    have hcamount : o'.core.camount = o.core.camount := congrArg MarginOrder.camount hcore'
    exact ⟨o', hget', hcamount⟩
  by_cases hs : o.symbol = order.symbol
  · have hrow : o.core ∈ (B order.symbol).rows := hs ▸ hheld
    by_cases hqueue : o.core ∈ (B order.symbol).queue order.side.opposite
    · have hside : o.side = order.side.opposite :=
        ((h.proper order.symbol).queued _ _ hqueue).side
      have hfkey := ((B order.symbol).hedge_fkeys ε order).mem_iff.mpr
        (List.mem_map_of_mem (f := MarginOrder.fkey) hrow)
      obtain ⟨x, hx, hxkey⟩ := List.mem_map.mp hfkey
      have hxheld : Book.Holds (Function.update B order.symbol ((B order.symbol).hedge ε order)) x := by
        unfold Book.Holds
        rw [((h.proper order.symbol).hedge order).mem_symbol hx, Function.update_self]
        exact hx
      have hcore := h'.holds_iff.mp hxheld
      rw [hxkey, MarginOrder.core_fkey, hkey] at hcore
      obtain ⟨o', hget', -⟩ := Option.map_eq_some_iff.mp hcore
      exact ⟨o', hget', fun _ => ⟨hs, hside⟩⟩
    · obtain ⟨o', hget', hcamount⟩ := hsame (by
        unfold Book.Holds
        rw [show o.core.symbol = order.symbol from hs, Function.update_self]
        exact SymbolBook.mem_hedge_rows order hrow hqueue)
      exact ⟨o', hget', fun hne => absurd hcamount hne⟩
  · have hs' : o.core.symbol ≠ order.symbol := hs
    obtain ⟨o', hget', hcamount⟩ := hsame (by
      unfold Book.Holds
      rw [Function.update_of_ne hs']
      exact hheld)
    exact ⟨o', hget', fun hne => absurd hcamount hne⟩

/-- **Quantity conservation.** In every reachable engine each order is accounted for up to `ε`
    and the two sides of a symbol netted the same amount; a further Futures order splits into
    what it was allocated and what it was not, and what it was allocated is, up to `ε`, what it
    added to orders of its symbol's other side. -/
theorem quantity_conserved (hε : 0 ≤ ε) (h : Reachable ε e) :
    (∀ o ∈ e.orders.rows, 0 ≤ o.remainingAmount ∧
      |o.openFillAmount - (o.remainingAmount + o.camount + o.nettedAmount)| ≤ ε) ∧
    (∀ symbol, nettedSum e symbol .buy = nettedSum e symbol .sell) ∧
    ∀ order e' result, e.applyFutures order = .ok (e', result) →
      result.allocatedAmount + result.unallocatedAmount = order.amount ∧
      |(camountSum e' - camountSum e) - result.allocatedAmount| ≤ ε ∧
      ∀ fkey o, e.orders.get fkey = some o → ∃ o', e'.orders.get fkey = some o' ∧
        (o'.camount ≠ o.camount → o.symbol = order.symbol ∧ o.side = order.side.opposite) := by
  obtain ⟨B, href, hcons⟩ := h.sound hε
  refine ⟨?_, fun symbol => href.nettedSum_eq (hcons symbol), ?_⟩
  · intro o ho
    have hheld : B.Holds o.core := by
      refine href.holds_iff.mpr ?_
      unfold coreAt
      rw [MarginOrder.core_fkey, Table.mem_rows.mp ho]
      rfl
    have haccounted := (hcons o.symbol).accounted o.core hheld
    exact ⟨haccounted.amounts.remaining, haccounted.abs_le⟩
  · intro order e' result hstep
    obtain ⟨hamount, hfill⟩ := applyFutures_accepted hstep
    rw [href.epsilon] at hamount hfill
    obtain ⟨e'', he'', href'⟩ := href.applyFutures hamount hfill
    cases he''.symm.trans hstep
    refine ⟨sub_add_cancel _ _, ?_, fun fkey o hget => href.camount_frame href' hget⟩
    rw [href.camountSum_sub href']
    exact SymbolBook.hedge_allocates (hcons order.symbol) (href.proper order.symbol) hε
      (not_lt.mp hamount)

end

/-- A buy of 5 and a sell of 2, and a hedge of the 3 that are left. -/
def sampleOrders : List MatchEvent :=
  let margin (fkey : ℤ) (side : Side) (amount : ℚ) : MatchEvent :=
    .margin { fkey, symbol := "ETHUSDT", side, cts := fkey, openUts := fkey, price := 100, amount
              range := 0, openFillAmount := amount, remainingAmount := amount
              openSourceTsUs := fkey }
  [margin 1 .buy 5, margin 2 .sell 2]

def sampleHedge : FuturesOrder :=
  ⟨7, some 1, "ETHUSDT", .sell, 30, 30, some 30, some 30, some 30, 30, 4, some 101, 1⟩

theorem quantity_conserved_sample :
    ∃ e e' result, e.applyFutures sampleHedge = .ok (e', result) ∧
      (result.allocatedAmount, result.unallocatedAmount) = (3, 1) ∧
      nettedSum e "ETHUSDT" .buy = nettedSum e "ETHUSDT" .sell ∧
      |(camountSum e' - camountSum e) - result.allocatedAmount| ≤ 0 := by
  have hok : Yields (do (← MatchEngine.new [] 0).apply sampleOrders) fun r =>
      Yields (r.1.applyFutures sampleHedge) fun f =>
        (f.2.allocatedAmount, f.2.unallocatedAmount) = (3, 1) := by
    decide +kernel
  obtain ⟨⟨e, hedges⟩, hrun, ⟨e', result⟩, hstep, hamounts⟩ := hok
  have hempty : MatchEngine.new [] 0 = .ok { epsilon := 0 } := rfl
  rw [hempty] at hrun
  have hreachable : Reachable 0 e := by
    refine (Reachable.new hempty).apply ?_ hrun
    intro order ho
    simp only [sampleOrders, List.mem_cons, MatchEvent.margin.injEq, List.not_mem_nil,
      or_false] at ho
    rcases ho with rfl | rfl
    · exact ⟨rfl, rfl⟩
    · exact ⟨rfl, rfl⟩
  obtain ⟨-, hnetted, hfutures⟩ := quantity_conserved le_rfl hreachable
  exact ⟨e, e', result, hstep, hamounts, hnetted _, (hfutures _ _ _ hstep).2.1⟩

end CryptoNav.Matching
