import CryptoNav.Lib.Runs
import CryptoNav.Matching.Engine

/-!
# The book of a symbol

What matching does, without the engine's maps: for one symbol, the pending Margin orders of each
side in queue order, and the orders that are settled for good. An arriving order clears the
opposite queue (`Lib/Clearing.lean`), a Futures order clears the queue of the side it hedges.
Symbols never meet, so the whole market is a book for each symbol.

Rows here are `core`s: a Margin order without the hedge metadata, which matching never reads.
`Matching/Refinement.lean` ties the engine to this machine.

The book keeps no maps, no errors other than the engine's and no hedge metadata, so it is
smaller than the engine by everything that a theorem about quantities does not need. It is no
specification in another style: it clears its queues by the same rounded steps, in the same
order, and what is gained is that symbols are apart and queues are plain lists.
-/

set_option autoImplicit false

namespace CryptoNav.Matching

open CryptoNav.Lib

/-- A Margin order without its hedge metadata. -/
def MarginOrder.core (o : MarginOrder) : MarginOrder :=
  { o with hts := none, hedgeNewTsUs := none, hedgeTerminalTsUs := none, fts := none
           closeCount := 0 }

def MatchEvent.core : MatchEvent → MatchEvent
  | .margin order => .margin order.core
  | .futures order => .futures order

def MatchEvent.symbol : MatchEvent → String
  | .margin order => order.symbol
  | .futures order => order.symbol

@[simp] theorem MarginOrder.core_fkey (o : MarginOrder) : o.core.fkey = o.fkey := rfl

@[simp] theorem MarginOrder.core_remaining (o : MarginOrder) :
    o.core.remainingAmount = o.remainingAmount := rfl

theorem Side.opposite_ne (s : Side) : s.opposite ≠ s := by
  cases s <;> decide

theorem Side.eq_or_opposite (s t : Side) : t = s ∨ t = s.opposite := by
  cases s <;> cases t <;> decide

/-! ## The two bites -/

section

variable [Rounding]

def nettingBite (ε : ℚ) : Bite MarginOrder ℚ where
  size := MarginOrder.remainingAmount
  take := fun o q => o.net q ε
  less := fun left q => Rounding.fl (left - q)

def hedgingBite (ε : ℚ) (cprice : Option ℚ) : Bite MarginOrder ℚ where
  size := MarginOrder.remainingAmount
  take := fun o q => o.close q cprice ε
  less := fun left q => Rounding.fl (left - q)

variable {G : ℚ → Prop} (hG : Grid G) (ε : ℚ)

include hG

theorem nettingBite_lawful : (nettingBite ε).Lawful ε G where
  zero := hG.zero
  sub := hG.sub
  less := hG.fl_sub
  size_take := fun ha hq hle => congrArg (clampZero · ε) (hG.fl_sub ha hq hle)

theorem hedgingBite_lawful (cprice : Option ℚ) : (hedgingBite ε cprice).Lawful ε G where
  zero := hG.zero
  sub := hG.sub
  less := hG.fl_sub
  size_take := fun ha hq hle => congrArg (clampZero · ε) (hG.fl_sub ha hq hle)

end

theorem refreshState_pending {o : MarginOrder} {ε : ℚ} (h : ε < o.remainingAmount) :
    (o.refreshState ε).matchingState = .pending := if_pos h

theorem refreshState_ne_pending {o : MarginOrder} {ε : ℚ} (h : o.remainingAmount ≤ ε) :
    (o.refreshState ε).matchingState ≠ .pending := by
  simp only [MarginOrder.refreshState, if_neg (not_lt.mpr h)]
  split
  · decide
  · split <;> decide

/-! ## The machine -/

structure SymbolBook where
  queue : Side → List MarginOrder := fun _ => []
  settled : List MarginOrder := []

/-- The arriving order after it took `c.bites` from the opposite queue. -/
def MarginOrder.afterNetting [Rounding] (order : MarginOrder) (c : Cleared MarginOrder ℚ) (ε : ℚ) :
    MarginOrder :=
  refreshState { order with
    remainingAmount := c.left
    nettedAmount := c.bites.foldl (fun sum q => Rounding.fl (sum + q)) order.nettedAmount } ε

namespace SymbolBook

def rows (b : SymbolBook) : List MarginOrder := b.queue .buy ++ b.queue .sell ++ b.settled

section

variable [Rounding]

def netAgainst (b : SymbolBook) (ε : ℚ) (order : MarginOrder) : Cleared MarginOrder ℚ :=
  (nettingBite ε).clear ε order.openFillAmount (b.queue order.side.opposite)

def hedgeAgainst (b : SymbolBook) (ε : ℚ) (order : FuturesOrder) : Cleared MarginOrder ℚ :=
  (hedgingBite ε order.cprice).clear ε (max order.amount 0) (b.queue order.side.opposite)

def margin (b : SymbolBook) (ε : ℚ) (order : MarginOrder) : SymbolBook :=
  let c := b.netAgainst ε order
  let queue := Function.update b.queue order.side.opposite c.queue
  let current := order.afterNetting c ε
  if ε < c.left then
    { queue := Function.update queue order.side (queue order.side ++ [current])
      settled := b.settled ++ c.closed }
  else { queue, settled := b.settled ++ c.closed ++ [current] }

def hedge (b : SymbolBook) (ε : ℚ) (order : FuturesOrder) : SymbolBook :=
  let c := b.hedgeAgainst ε order
  { queue := Function.update b.queue order.side.opposite c.queue
    settled := b.settled ++ c.closed }

def hedgeResult (b : SymbolBook) (ε : ℚ) (order : FuturesOrder) : HedgeResult :=
  let c := b.hedgeAgainst ε order
  ⟨order, Rounding.fl (order.amount - c.left), c.left,
    decide (order.amount ≤ ε) || c.touched.any fun o => order.mainFkey = some o.fkey⟩

def applyEvent (ε : ℚ) (s : SymbolBook × List HedgeResult) :
    MatchEvent → Except String (SymbolBook × List HedgeResult)
  | .margin order =>
    if order.openFillAmount ≤ ε then .error s!"Margin order {order.fkey} has no real fill"
    else .ok (s.1.margin ε order, s.2)
  | .futures order =>
    if order.amount < -ε then
      .error s!"Futures order {order.clientOrderId} has invalid fill amount"
    else if ε < order.amount ∧ order.fillTsUs = none then
      .error s!"filled Futures order {order.clientOrderId} has no actual fill timestamp"
    else .ok (s.1.hedge ε order, s.2 ++ [s.1.hedgeResult ε order])

/-! ### Where an arriving order leaves the book -/

theorem margin_queue_opposite (b : SymbolBook) (ε : ℚ) (order : MarginOrder) :
    (b.margin ε order).queue order.side.opposite = (b.netAgainst ε order).queue := by
  by_cases h : ε < (b.netAgainst ε order).left
  · simp [margin, h, order.side.opposite_ne]
  · simp [margin, h]

theorem margin_queue_side (b : SymbolBook) (ε : ℚ) (order : MarginOrder) :
    (b.margin ε order).queue order.side = b.queue order.side
      ++ if ε < (b.netAgainst ε order).left then
          [order.afterNetting (b.netAgainst ε order) ε] else [] := by
  by_cases h : ε < (b.netAgainst ε order).left
  · simp [margin, h, order.side.opposite_ne.symm]
  · simp [margin, h, order.side.opposite_ne.symm]

theorem margin_settled (b : SymbolBook) (ε : ℚ) (order : MarginOrder) :
    (b.margin ε order).settled = b.settled ++ (b.netAgainst ε order).closed
      ++ if ε < (b.netAgainst ε order).left then []
          else [order.afterNetting (b.netAgainst ε order) ε] := by
  by_cases h : ε < (b.netAgainst ε order).left
  · simp [margin, h]
  · simp [margin, h]

theorem hedge_queue_opposite (b : SymbolBook) (ε : ℚ) (order : FuturesOrder) :
    (b.hedge ε order).queue order.side.opposite = (b.hedgeAgainst ε order).queue :=
  Function.update_self ..

theorem hedge_queue_side (b : SymbolBook) (ε : ℚ) (order : FuturesOrder) :
    (b.hedge ε order).queue order.side = b.queue order.side :=
  Function.update_of_ne order.side.opposite_ne.symm ..

end

/-! ### Rows, up to order -/

theorem rows_perm (b : SymbolBook) (side : Side) :
    b.rows.Perm (b.queue side.opposite ++ (b.queue side ++ b.settled)) := by
  unfold rows
  rw [← List.append_assoc]
  refine List.Perm.append_right _ ?_
  cases side with
  | buy => exact List.perm_append_comm
  | sell => exact List.Perm.refl _

theorem margin_rows_perm [Rounding] (b : SymbolBook) (ε : ℚ) (order : MarginOrder) :
    (b.margin ε order).rows.Perm (order.afterNetting (b.netAgainst ε order) ε ::
      ((b.netAgainst ε order).closed ++ (b.netAgainst ε order).queue)
        ++ (b.queue order.side ++ b.settled)) := by
  refine ((b.margin ε order).rows_perm order.side).trans ?_
  rw [margin_queue_opposite, margin_queue_side, margin_settled, List.perm_iff_count]
  intro o
  by_cases h : ε < (b.netAgainst ε order).left
  · simp only [if_pos h, List.count_append, List.count_cons, List.count_nil]
    omega
  · simp only [if_neg h, List.count_append, List.count_cons, List.count_nil]
    omega

theorem hedge_rows_perm [Rounding] (b : SymbolBook) (ε : ℚ) (order : FuturesOrder) :
    (b.hedge ε order).rows.Perm
      (((b.hedgeAgainst ε order).closed ++ (b.hedgeAgainst ε order).queue)
        ++ (b.queue order.side ++ b.settled)) := by
  refine ((b.hedge ε order).rows_perm order.side).trans ?_
  rw [hedge_queue_opposite, hedge_queue_side, List.perm_iff_count]
  intro o
  simp only [hedge, List.count_append]
  omega

theorem netAgainst_fkeys [Rounding] (b : SymbolBook) (ε : ℚ) (order : MarginOrder) :
    ((b.netAgainst ε order).closed ++ (b.netAgainst ε order).queue).map MarginOrder.fkey
      = (b.queue order.side.opposite).map MarginOrder.fkey :=
  Bite.clear_map (fun _ _ => rfl) _ _

theorem hedgeAgainst_fkeys [Rounding] (b : SymbolBook) (ε : ℚ) (order : FuturesOrder) :
    ((b.hedgeAgainst ε order).closed ++ (b.hedgeAgainst ε order).queue).map MarginOrder.fkey
      = (b.queue order.side.opposite).map MarginOrder.fkey :=
  Bite.clear_map (fun _ _ => rfl) _ _

/-- An arriving order adds its key to the book, and no other. -/
theorem margin_fkeys [Rounding] (b : SymbolBook) (ε : ℚ) (order : MarginOrder) :
    ((b.margin ε order).rows.map MarginOrder.fkey).Perm
      (order.fkey :: b.rows.map MarginOrder.fkey) := by
  refine ((b.margin_rows_perm ε order).map _).trans ?_
  rw [List.map_append, List.map_cons, netAgainst_fkeys, List.cons_append, ← List.map_append]
  exact ((b.rows_perm order.side).map _).symm.cons _

/-- A hedge adds no key. -/
theorem hedge_fkeys [Rounding] (b : SymbolBook) (ε : ℚ) (order : FuturesOrder) :
    ((b.hedge ε order).rows.map MarginOrder.fkey).Perm (b.rows.map MarginOrder.fkey) := by
  refine ((b.hedge_rows_perm ε order).map _).trans ?_
  rw [List.map_append, hedgeAgainst_fkeys, ← List.map_append]
  exact ((b.rows_perm order.side).map _).symm

/-! ## Proper books -/

/-- A pending order of a side's queue. More than the tolerance is left of it. -/
structure Queued (ε : ℚ) (symbol : String) (side : Side) (o : MarginOrder) : Prop where
  symbol : o.symbol = symbol
  side : o.side = side
  remaining : ε < o.remainingAmount
  pending : o.matchingState = .pending

/-- An order that nothing will touch again. What is left of it is dust, and the row says so. -/
structure Settled (ε : ℚ) (symbol : String) (o : MarginOrder) : Prop where
  symbol : o.symbol = symbol
  remaining : o.remainingAmount ≤ ε
  state : o.matchingState ≠ .pending

/-- Every row is where its remaining amount puts it. -/
structure Proper (ε : ℚ) (symbol : String) (b : SymbolBook) : Prop where
  queued : ∀ side, ∀ o ∈ b.queue side, Queued ε symbol side o
  settled : ∀ o ∈ b.settled, Settled ε symbol o
  nodup : (b.rows.map MarginOrder.fkey).Nodup

theorem proper_empty (ε : ℚ) (symbol : String) : Proper ε symbol {} :=
  ⟨fun _ _ h => absurd h List.not_mem_nil, fun _ h => absurd h List.not_mem_nil, List.nodup_nil⟩

/-- A cleared queue: the survivors are still queued, the closed rows are settled. -/
theorem clear_proper {ε : ℚ} {symbol : String} {side : Side} {b : Bite MarginOrder ℚ}
    (hsize : ∀ o, b.size o = o.remainingAmount)
    (hbite : ∀ o q, (b.take o q).symbol = o.symbol ∧ (b.take o q).side = o.side ∧
      (b.take o q).refreshState ε = b.take o q)
    (left : ℚ) {lots : List MarginOrder} (h : ∀ o ∈ lots, Queued ε symbol side o) :
    (∀ o ∈ (b.clear ε left lots).queue, Queued ε symbol side o) ∧
      ∀ o ∈ (b.clear ε left lots).closed, Settled ε symbol o := by
  have hpending : ∀ o q, ε < (b.take o q).remainingAmount →
      (b.take o q).matchingState = .pending := by
    intro o q hr
    rw [← (hbite o q).2.2]
    exact refreshState_pending hr
  have hclosed : ∀ o q, (b.take o q).remainingAmount ≤ ε →
      (b.take o q).matchingState ≠ .pending := by
    intro o q hr
    rw [← (hbite o q).2.2]
    exact refreshState_ne_pending hr
  refine Bite.clear_induction (P := fun _ lots r => (∀ o ∈ lots, Queued ε symbol side o) →
    (∀ o ∈ r.queue, Queued ε symbol side o) ∧ ∀ o ∈ r.closed, Settled ε symbol o)
    ?_ ?_ ?_ ?_ left lots h
  · intro _ h
    exact ⟨h, by simp⟩
  · intro _ _ _ _ h
    exact ⟨h, by simp⟩
  · intro left o rest r _ hpop ih h
    obtain ⟨ho, hrest⟩ := List.forall_mem_cons.mp h
    obtain ⟨hq, hc⟩ := ih hrest
    replace hpop := (hsize _).symm.trans_le hpop
    refine ⟨hq, List.forall_mem_cons.mpr ⟨⟨?_, hpop, hclosed _ _ hpop⟩, hc⟩⟩
    exact (hbite o _).1.trans ho.symbol
  · intro left o rest _ hstop h
    obtain ⟨ho, hrest⟩ := List.forall_mem_cons.mp h
    replace hstop := (not_le.mp hstop).trans_eq (hsize _)
    refine ⟨List.forall_mem_cons.mpr ⟨⟨?_, ?_, hstop, hpending _ _ hstop⟩, hrest⟩, by simp⟩
    · exact (hbite o _).1.trans ho.symbol
    · exact (hbite o _).2.1.trans ho.side

theorem Proper.margin [Rounding] {ε : ℚ} {symbol : String} {b : SymbolBook} (h : Proper ε symbol b)
    {order : MarginOrder} (hsymbol : order.symbol = symbol)
    (hfresh : order.fkey ∉ b.rows.map MarginOrder.fkey) : Proper ε symbol (b.margin ε order) := by
  obtain ⟨hq, hc⟩ := clear_proper (b := nettingBite ε) (fun _ => rfl) (fun _ _ => ⟨rfl, rfl, rfl⟩)
    order.openFillAmount (h.queued order.side.opposite)
  have hnodup : ((b.margin ε order).rows.map MarginOrder.fkey).Nodup :=
    (b.margin_fkeys ε order).nodup_iff.mpr (List.nodup_cons.mpr ⟨hfresh, h.nodup⟩)
  have hcurrent : ∀ h : ε < (b.netAgainst ε order).left,
      Queued ε symbol order.side (order.afterNetting (b.netAgainst ε order) ε) :=
    fun hleft => ⟨hsymbol, rfl, hleft, refreshState_pending hleft⟩
  refine ⟨?_, ?_, hnodup⟩
  · intro side
    rcases order.side.eq_or_opposite side with rfl | rfl
    · rw [margin_queue_side]
      intro o ho
      rcases List.mem_append.mp ho with ho | ho
      · exact h.queued _ o ho
      · split at ho
        · rename_i hleft
          rw [List.mem_singleton.mp ho]
          exact hcurrent hleft
        · cases ho
    · rw [margin_queue_opposite]
      exact hq
  · rw [margin_settled]
    intro o ho
    rcases List.mem_append.mp ho with ho | ho
    · rcases List.mem_append.mp ho with ho | ho
      · exact h.settled o ho
      · exact hc o ho
    · split at ho
      · cases ho
      · rename_i hleft
        have hleft := not_lt.mp hleft
        rw [List.mem_singleton.mp ho]
        exact ⟨hsymbol, hleft, refreshState_ne_pending hleft⟩

theorem Proper.hedge [Rounding] {ε : ℚ} {symbol : String} {b : SymbolBook} (h : Proper ε symbol b)
    (order : FuturesOrder) : Proper ε symbol (b.hedge ε order) := by
  obtain ⟨hq, hc⟩ := clear_proper (b := hedgingBite ε order.cprice) (fun _ => rfl)
    (fun _ _ => ⟨rfl, rfl, rfl⟩) (max order.amount 0) (h.queued order.side.opposite)
  refine ⟨?_, ?_, (b.hedge_fkeys ε order).nodup_iff.mpr h.nodup⟩
  · intro side
    rcases order.side.eq_or_opposite side with rfl | rfl
    · rw [hedge_queue_side]
      exact h.queued _
    · rw [hedge_queue_opposite]
      exact hq
  · intro o ho
    rcases List.mem_append.mp ho with ho | ho
    · exact h.settled o ho
    · exact hc o ho

end SymbolBook

/-! ## The market: a book for each symbol -/

abbrev Book := String → SymbolBook

namespace Book

def Proper (ε : ℚ) (B : Book) : Prop := ∀ symbol, (B symbol).Proper ε symbol

/-- The market's rows: an order sits in the book of its own symbol. -/
def Holds (B : Book) (o : MarginOrder) : Prop := o ∈ (B o.symbol).rows

def applyEvent [Rounding] (ε : ℚ) (s : Book × List HedgeResult) (event : MatchEvent) :
    Except String (Book × List HedgeResult) :=
  (SymbolBook.applyEvent ε (s.1 event.symbol, s.2) event).map
    fun r => (Function.update s.1 event.symbol r.1, r.2)

/-- What an accepted event does. -/
theorem step_cases [Rounding] {ε : ℚ} {t t' : Book × List HedgeResult} {event : MatchEvent}
    (h : applyEvent ε t event = .ok t') :
    (∃ order, event = .margin order ∧ ε < order.openFillAmount ∧
      t' = (Function.update t.1 order.symbol ((t.1 order.symbol).margin ε order), t.2)) ∨
    (∃ order, event = .futures order ∧ -ε ≤ order.amount ∧
      ¬(ε < order.amount ∧ order.fillTsUs = none) ∧
      t' = (Function.update t.1 order.symbol ((t.1 order.symbol).hedge ε order),
        t.2 ++ [(t.1 order.symbol).hedgeResult ε order])) := by
  obtain ⟨r, hr, rfl⟩ := map_eq_ok.mp h
  cases event with
  | margin order =>
    replace hr : (if order.openFillAmount ≤ ε then Except.error _ else .ok _) = .ok r := hr
    split at hr
    · cases hr
    · rename_i hfill
      cases hr
      exact .inl ⟨order, rfl, not_le.mp hfill, rfl⟩
  | futures order =>
    replace hr : (if order.amount < -ε then Except.error _
      else if ε < order.amount ∧ order.fillTsUs = none then .error _ else .ok _) = .ok r := hr
    split at hr
    · cases hr
    · rename_i hamount
      split at hr
      · cases hr
      · rename_i hfill
        cases hr
        exact .inr ⟨order, rfl, not_lt.mp hamount, hfill, rfl⟩

end Book
end CryptoNav.Matching
