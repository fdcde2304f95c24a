import CryptoNav.Matching.Conservation
import CryptoNav.Matching.Restart

/-!
# Hedged amounts and allocations

Over the Margin orders of a symbol `camount` adds up to what its Futures orders were allocated, up
to one tolerance for each order that is settled: dust of a Futures order is dropped only where a
Margin order is used up. The invariant does not see in which order a queue stands, so it survives a
restart that queues the pending rows anew. As in `Matching/Conservation.lean` the amounts are on a
grid, so that nothing is lost by rounding them.

The file is apart from `Conservation` because it is about two numbers of a symbol and not about
single orders: what was hedged and what was allocated are kept in different tables. The
tolerance is counted in settled orders, and an order that is not settled is exact.
-/

set_option autoImplicit false

namespace CryptoNav.Matching

open CryptoNav.Lib

/-! ## One symbol -/

namespace SymbolBook

variable {G : ℚ → Prop} {ε : ℚ} {b : SymbolBook} {symbol : String}

def Tallied (ε : ℚ) (b : SymbolBook) (allocated : ℚ) : Prop :=
  |(b.rows.map MarginOrder.camount).sum - allocated| ≤ ε * b.settled.length

/-- An arriving order moves no hedged amount. -/
theorem margin_camount [Rounding] (b : SymbolBook) (ε : ℚ) {order : MarginOrder}
    (h : order.camount = 0) :
    ((b.margin ε order).rows.map MarginOrder.camount).sum
      = (b.rows.map MarginOrder.camount).sum := by
  have hmap : ((b.netAgainst ε order).closed ++ (b.netAgainst ε order).queue).map
      MarginOrder.camount = (b.queue order.side.opposite).map MarginOrder.camount :=
    Bite.clear_map (fun _ _ => rfl) _ _
  have hcurrent : (order.afterNetting (b.netAgainst ε order) ε).camount = 0 := h
  rw [((b.margin_rows_perm ε order).map _).sum_eq, ((b.rows_perm order.side).map _).sum_eq,
    List.map_append, List.map_cons, hmap, hcurrent, List.cons_append, List.sum_cons,
    zero_add, ← List.map_append]

theorem margin_settled_length [Rounding] (b : SymbolBook) (ε : ℚ) (order : MarginOrder) :
    b.settled.length ≤ (b.margin ε order).settled.length := by
  rw [margin_settled, List.length_append, List.length_append]
  omega

theorem Tallied.margin [Rounding] {allocated : ℚ} (h : b.Tallied ε allocated) (hε : 0 ≤ ε)
    {order : MarginOrder} (hcamount : order.camount = 0) :
    (b.margin ε order).Tallied ε allocated := by
  unfold Tallied
  rw [margin_camount b ε hcamount]
  have hlength : (b.settled.length : ℚ) ≤ (b.margin ε order).settled.length :=
    Nat.cast_le.mpr (margin_settled_length b ε order)
  exact h.trans (mul_le_mul_of_nonneg_left hlength hε)

section

variable [Rounding] (hG : Grid G)

include hG

/-- What is allocated to a Futures order is what was taken, up to dust where an order closes. -/
theorem hedge_allocated (h : b.Conserved G ε) (hproper : b.Proper ε symbol) (hε : 0 ≤ ε)
    {order : FuturesOrder} (hamount : G order.amount) :
    |(b.hedgeAgainst ε order).taken - (b.hedgeResult ε order).allocatedAmount|
      ≤ ε * (b.hedgeAgainst ε order).closed.length := by
  have hmax : max order.amount 0 = order.amount := max_eq_left (hG.nonneg hamount)
  have hmem : G (max order.amount 0) := hmax.symm ▸ hamount
  have hlawful := hedgingBite_lawful hG ε order.cprice
  have hsize : ∀ o ∈ b.queue order.side.opposite, G o.remainingAmount :=
    fun o ho => (h.queue_exact hproper ho).amounts.remaining
  obtain ⟨hnonneg, htaken, htaken', hleft⟩ : 0 ≤ (b.hedgeAgainst ε order).left ∧
      0 ≤ (b.hedgeAgainst ε order).taken ∧ (b.hedgeAgainst ε order).taken ≤ max order.amount 0 ∧
      ((b.hedgeAgainst ε order).left = max order.amount 0 - (b.hedgeAgainst ε order).taken ∨
        ((b.hedgeAgainst ε order).left = 0 ∧
          max order.amount 0 - (b.hedgeAgainst ε order).taken ≤ ε)) :=
    hlawful.clear_left hG.nonneg hmem hsize
  have hle : (b.hedgeAgainst ε order).left ≤ order.amount := by
    rw [hmax] at htaken' hleft
    rcases hleft with hleft | ⟨hleft, -⟩
    · linarith
    · linarith [hG.nonneg hamount]
  have hresult : (b.hedgeResult ε order).allocatedAmount
      = order.amount - (b.hedgeAgainst ε order).left :=
    hG.fl_sub hamount (hlawful.clear_mem hmem hsize) hle
  rw [hresult]
  by_cases hclosed : (b.hedgeAgainst ε order).closed = []
  · have hexact : (b.hedgeAgainst ε order).left
        = max order.amount 0 - (b.hedgeAgainst ε order).taken :=
      hlawful.clear_exact hε hmem hsize hclosed
    rw [hexact, hmax, sub_sub_cancel, sub_self, abs_zero]
    exact mul_nonneg hε (Nat.cast_nonneg _)
  · have hone : (1 : ℚ) ≤ (b.hedgeAgainst ε order).closed.length :=
      Nat.one_le_cast.mpr (List.length_pos_iff.mpr hclosed)
    refine le_trans ?_ (le_mul_of_one_le_right hε hone)
    rw [hmax] at htaken' hleft
    rw [abs_le]
    rcases hleft with hleft | ⟨hleft, hdust⟩
    · constructor <;> linarith
    · constructor <;> linarith

theorem Tallied.hedge {allocated : ℚ} (htally : b.Tallied ε allocated) (h : b.Conserved G ε)
    (hproper : b.Proper ε symbol) (hε : 0 ≤ ε) {order : FuturesOrder} (hamount : G order.amount) :
    (b.hedge ε order).Tallied ε (allocated + (b.hedgeResult ε order).allocatedAmount) := by
  have hmem : G (max order.amount 0) := (max_eq_left (hG.nonneg hamount)).symm ▸ hamount
  have hstep := hedge_allocated hG h hproper hε hamount
  unfold Tallied at htally ⊢
  have hsettled : ((b.hedge ε order).settled.length : ℚ)
      = b.settled.length + (b.hedgeAgainst ε order).closed.length := by
    rw [← Nat.cast_add, ← List.length_append]
    rfl
  have hsplit : (b.rows.map MarginOrder.camount).sum + (b.hedgeAgainst ε order).taken
      - (allocated + (b.hedgeResult ε order).allocatedAmount)
        = ((b.rows.map MarginOrder.camount).sum - allocated)
          + ((b.hedgeAgainst ε order).taken - (b.hedgeResult ε order).allocatedAmount) := by
    ring
  rw [hedge_added hG h hproper hmem, hsettled, mul_add, hsplit]
  exact (abs_add_le _ _).trans (add_le_add htally hstep)

end

/-- A Futures order within the tolerance is allocated nothing. -/
theorem hedgeResult_dust [Rounding] (b : SymbolBook) {order : FuturesOrder}
    (hamount : 0 ≤ order.amount) (hdust : order.amount ≤ ε) :
    (b.hedgeResult ε order).allocatedAmount = 0 := by
  have hleft : (b.hedgeAgainst ε order).left = order.amount := by
    unfold hedgeAgainst
    rw [max_eq_left hamount, Bite.clear_dust hdust]
  show Rounding.fl (order.amount - (b.hedgeAgainst ε order).left) = 0
  rw [hleft, fl_sub_self]

/-! ## A restart -/

/-- The book as a restart queues it: by `(open_uts, open_source_ts_us, fkey)`. -/
def requeue (b : SymbolBook) : SymbolBook :=
  { b with queue := fun side => sortByKey MarginOrder.queueKey (b.queue side) }

theorem requeue_rows (b : SymbolBook) : b.requeue.rows.Perm b.rows :=
  ((sortByKey_perm _ _).append (sortByKey_perm _ _)).append_right _

theorem Proper.requeue (h : b.Proper ε symbol) : b.requeue.Proper ε symbol where
  queued := fun side o ho => h.queued side o (mem_sortByKey.mp ho)
  settled := h.settled
  nodup := (b.requeue_rows.map _).nodup_iff.mpr h.nodup

theorem Conserved.requeue (h : b.Conserved G ε) : b.requeue.Conserved G ε where
  accounted := fun o ho => h.accounted o (b.requeue_rows.mem_iff.mp ho)
  netted := ((b.requeue_rows.map _).sum_eq).trans h.netted

theorem Tallied.requeue {allocated : ℚ} (h : b.Tallied ε allocated) :
    b.requeue.Tallied ε allocated := by
  unfold Tallied
  rw [(b.requeue_rows.map _).sum_eq]
  exact h

theorem requeue_sorted (h : b.Proper ε symbol) (side : Side) :
    (b.requeue.queue side).Pairwise fun a b => a.queueKey < b.queueKey := by
  refine sortByKey_strict (List.Nodup.of_map (f := fun k : ℤ ×ₗ ℤ ×ₗ ℤ => (ofLex (ofLex k).2).2) ?_)
  rw [List.map_map]
  have hsub : (b.queue side).map MarginOrder.fkey |>.Sublist (b.rows.map MarginOrder.fkey) := by
    refine List.Sublist.map _ ?_
    unfold rows
    cases side with
    | buy => exact (List.sublist_append_left _ _).trans (List.sublist_append_left _ _)
    | sell => exact (List.sublist_append_right _ _).trans (List.sublist_append_left _ _)
  exact h.nodup.sublist hsub

end SymbolBook

/-! ## The market -/

/-- An event as `lifecycle_events` makes it of fills on the grid: nothing of a Margin order is
    matched yet. -/
def MatchEvent.Incoming (G : ℚ → Prop) : MatchEvent → Prop
  | .margin order => G order.openFillAmount ∧ order.camount = 0 ∧ order.nettedAmount = 0
  | .futures order => G order.amount

/-- `allocated_amount` over the hedges of a symbol. -/
def allocatedSum (hedges : List HedgeResult) (symbol : String) : ℚ :=
  ((hedges.filter (·.order.symbol = symbol)).map HedgeResult.allocatedAmount).sum

theorem allocatedSum_append (a b : List HedgeResult) (symbol : String) :
    allocatedSum (a ++ b) symbol = allocatedSum a symbol + allocatedSum b symbol := by
  unfold allocatedSum
  rw [List.filter_append, List.map_append, List.sum_append]

theorem allocatedSum_cons (h : HedgeResult) (l : List HedgeResult) (symbol : String) :
    allocatedSum (h :: l) symbol
      = (if h.order.symbol = symbol then h.allocatedAmount else 0) + allocatedSum l symbol := by
  unfold allocatedSum
  by_cases hs : h.order.symbol = symbol
  · rw [List.filter_cons_of_pos (by simpa using hs), if_pos hs, List.map_cons, List.sum_cons]
  · rw [List.filter_cons_of_neg (by simpa using hs), if_neg hs, zero_add]

theorem allocatedSum_perm {a b : List HedgeResult} (h : a.Perm b) (symbol : String) :
    allocatedSum a symbol = allocatedSum b symbol := ((h.filter _).map _).sum_eq

/-- The books of the market, and the hedges that were made against them. Which order a hedge was
    allocated to is not told, only how much of it was. -/
structure Book.Balanced (G : ℚ → Prop) (ε : ℚ) (B : Book) (hedges : List HedgeResult) : Prop where
  conserved : ∀ symbol, (B symbol).Conserved G ε
  tallied : ∀ symbol, (B symbol).Tallied ε (allocatedSum hedges symbol)
  dust : ∀ h ∈ hedges, h.order.amount ≤ ε → h.allocatedAmount = 0

section

variable {G : ℚ → Prop} {ε : ℚ}

theorem balanced_empty (G : ℚ → Prop) (ε : ℚ) : Book.Balanced G ε (fun _ => {}) [] where
  conserved := fun _ => ⟨fun _ h => absurd h List.not_mem_nil, rfl⟩
  tallied := fun _ => by simp [SymbolBook.Tallied, SymbolBook.rows, allocatedSum]
  dust := fun _ h => absurd h List.not_mem_nil

theorem tallied_update {B : Book} {allocated allocated' : String → ℚ} {symbol : String}
    {b' : SymbolBook} (h : ∀ t, (B t).Tallied ε (allocated t)) (hb' : b'.Tallied ε (allocated' symbol))
    (hother : ∀ t, t ≠ symbol → allocated' t = allocated t) (t : String) :
    (Function.update B symbol b' t).Tallied ε (allocated' t) := by
  by_cases ht : t = symbol
  · rw [ht, Function.update_self]
    exact hb'
  · rw [Function.update_of_ne ht, hother t ht]
    exact h t

/-- **One event** keeps the market balanced. -/
theorem Book.Balanced.applyEvent [Rounding] (hG : Grid G) {t t' : Book × List HedgeResult}
    (h : t.1.Balanced G ε t.2) (hproper : t.1.Proper ε) (hε : 0 ≤ ε) {event : MatchEvent}
    (hevent : event.Incoming G) (hstep : Book.applyEvent ε t event = .ok t') :
    t'.1.Balanced G ε t'.2 := by
  rcases Book.step_cases hstep with ⟨order, rfl, -, rfl⟩ | ⟨order, rfl, -, -, rfl⟩
  · obtain ⟨hfill, hcamount, hnetted⟩ :
        G order.openFillAmount ∧ order.camount = 0 ∧ order.nettedAmount = 0 := hevent
    exact {
      conserved := conserved_update h.conserved
        ((h.conserved _).margin hG (hproper _) hε hfill hcamount hnetted)
      tallied := tallied_update h.tallied ((h.tallied _).margin hε hcamount) fun _ _ => rfl
      dust := h.dust }
  · have hamount : G order.amount := hevent
    have hmem : G (max order.amount 0) := (max_eq_left (hG.nonneg hamount)).symm ▸ hamount
    have hadded : ∀ symbol,
        allocatedSum (t.2 ++ [(t.1 order.symbol).hedgeResult ε order]) symbol
          = allocatedSum t.2 symbol + if order.symbol = symbol then
              ((t.1 order.symbol).hedgeResult ε order).allocatedAmount else 0 := by
      intro symbol
      rw [allocatedSum_append, allocatedSum_cons]
      exact congrArg _ (add_zero _)
    refine {
      conserved := conserved_update h.conserved ((h.conserved _).hedge hG (hproper _) hε hmem)
      tallied := tallied_update h.tallied ?_ fun symbol hs => ?_
      dust := fun result hresult => ?_ }
    · rw [hadded, if_pos rfl]
      exact (h.tallied _).hedge hG (h.conserved _) (hproper _) hε hamount
    · rw [hadded, if_neg (Ne.symm hs), add_zero]
    · rcases List.mem_append.mp hresult with hresult | hresult
      · exact h.dust result hresult
      · rw [List.mem_singleton.mp hresult]
        exact fun hdust => SymbolBook.hedgeResult_dust _ (hG.nonneg hamount) hdust

/-- **One event of the engine.** -/
theorem Tracks.balanced_step [Rounding] (hG : Grid G) {base : ℤ → Option MarginOrder}
    {before : List HedgeResult} {s s' : MatchEngine × List HedgeResult}
    {t : Book × List HedgeResult} (h : Tracks ε base before s t)
    (hbalanced : t.1.Balanced G ε t.2) (hε : 0 ≤ ε) {event : MatchEvent}
    (hevent : event.Incoming G)
    (hfree : ∀ order, event = .margin order → s.1.orders.get order.fkey = none →
      base order.fkey = none) (hstep : MatchEngine.applyEvent s event = .ok s') :
    ∃ t', Tracks ε base before s' t' ∧ t'.1.Balanced G ε t'.2 := by
  have hfresh : ∀ y, event = .margin y → ∀ o, t.1.Holds o → o.fkey ≠ y.fkey := by
    rintro y rfl o ho hkey
    obtain ⟨e', he', -⟩ := map_eq_ok.mp hstep
    obtain ⟨-, hget⟩ := applyMargin_accepted he'
    have hrow := (h.1.rows y.fkey o).mpr ⟨hkey, ho⟩
    unfold coreAt at hrow
    rw [hget, hfree y rfl hget] at hrow
    cases hrow
  obtain ⟨t', ht', htracks⟩ := (h.applyEvent hfresh).left hstep
  refine ⟨t', htracks, hbalanced.applyEvent hG h.1.proper hε ?_ ht'⟩
  cases event with
  | margin order => exact hevent
  | futures order => exact hevent

/-! ### A restart -/

def Book.requeue (B : Book) : Book := fun symbol => (B symbol).requeue

theorem Book.Balanced.requeue {B : Book} {hedges : List HedgeResult}
    (h : B.Balanced G ε hedges) : B.requeue.Balanced G ε hedges where
  conserved := fun symbol => (h.conserved symbol).requeue
  tallied := fun symbol => (h.tallied symbol).requeue
  dust := h.dust

theorem Book.requeue_ready {B : Book} (h : B.Proper ε) : Ready ε B.requeue [] where
  proper := fun symbol => (h symbol).requeue
  sorted := fun symbol side => SymbolBook.requeue_sorted (h symbol) side
  ahead := fun _ hevent => absurd hevent List.not_mem_nil
  follow := List.Pairwise.nil

theorem Stores.requeue {stored : Orders} {B : Book} (h : Stores stored B) :
    Stores stored B.requeue := by
  intro fkey o
  rw [h fkey o]
  exact and_congr_right fun _ => ((B o.symbol).requeue_rows.mem_iff).symm

/-- The rows of a symbol are its book. -/
theorem Stores.symbol_rows {stored : Orders} {B : Book} (h : Stores stored B) (hB : B.Proper ε)
    (symbol : String) :
    ((stored.rows.filter (·.symbol = symbol)).map MarginOrder.core).Perm (B symbol).rows := by
  have hkeys : (stored.rows.map MarginOrder.fkey).Nodup :=
    List.pairwise_map.mpr (stored.sorted.imp ne_of_lt)
  have hnodup : ((stored.rows.filter (·.symbol = symbol)).map MarginOrder.core).Nodup := by
    refine List.Nodup.of_map (f := MarginOrder.fkey) ?_
    rw [List.map_map]
    exact hkeys.sublist (List.filter_sublist.map _)
  refine (List.perm_ext_iff_of_nodup hnodup (hB symbol).nodup.of_map).mpr fun o => ?_
  rw [List.mem_map]
  constructor
  · rintro ⟨row, hrow, rfl⟩
    obtain ⟨hmem, hs⟩ := List.mem_filter.mp hrow
    rw [← of_decide_eq_true hs]
    exact h.mem_rows hmem
  · intro ho
    obtain ⟨row, hrow, hcore⟩ := h.exists_row (Ready.holds_of_mem hB ho)
    refine ⟨row, List.mem_filter.mpr ⟨hrow, decide_eq_true ?_⟩, hcore⟩
    rw [← (hB symbol).mem_symbol ho, ← hcore]
    rfl

end

end CryptoNav.Matching
