import CryptoNav.Intra.Lots

/-!
# Nothing is lost in the combination FIFO

Each step of the loops balances: what it changes in the open lots of a symbol is what it takes of
the inputs less what it closes. `run_balance` carries this to whole runs, for the quantities and
the funding of a symbol and for the interest of all symbols together.

Sizes lose what is dropped as dust, amounts what `cleanZero` takes from a row or a lot, so each
balance has a tolerance that counts how often that may have happened: once for every order,
twice for every match. What the rounding of binary64 sums would add is not counted, since sums
are exact here. A balance says nothing about a single lot, and which lot an amount went to is
not asked.
-/

set_option autoImplicit false

namespace CryptoNav.Intra

open CryptoNav.Lib
open CryptoNav.History.Raw (uppercase)

/-! ## What a step closes and allocates -/

def closes (settings : Settings) (entry : Walk × Taken) : List Closing :=
  match entry.2 with
  | .order order => (entry.1.close settings order).closings
  | _ => []

def fundingAllocated (settings : Settings) (entry : Walk × Taken) :
    List IntraAnalysisFundingEvent :=
  match entry.2 with
  | .funding event =>
    if event.symbol ∈ settings.available ∧
        (allocateFunding (entry.1.states event.symbol) event.amountUsdt).isSome then [event]
    else []
  | _ => []

def interestAllocated (settings : Settings) (entry : Walk × Taken) :
    List IntraAnalysisInterestEvent :=
  match entry.2 with
  | .interest event =>
    if (allocateInterest settings.available settings.selected entry.1.states event).isSome then
      [event]
    else []
  | _ => []

/-! ## One step -/

/-- The state with its closes recorded. -/
def SymbolState.book (state : SymbolState) (closings : List Closing) : SymbolState :=
  { state with
    stats := closings.foldl (fun stats c => stats.recordMatch c.row c.matchedNotional) state.stats }

@[simp] theorem lots_book (state : SymbolState) (closings : List Closing)
    (direction : ArbDirection) : (state.book closings).lots direction = state.lots direction := by
  cases direction <;> rfl

theorem foldl_record_states (settings : Settings) (w : Walk) {closings : List Closing}
    {symbol : String} (h : ∀ c ∈ closings, c.order.symbol = symbol) :
    (closings.foldl (Walk.record settings) w).states =
      Function.update w.states symbol ((w.states symbol).book closings) := by
  induction closings generalizing w with
  | nil => exact (Function.update_eq_self _ _).symm
  | cons c closings ih =>
    obtain ⟨hc, hrest⟩ := List.forall_mem_cons.mp h
    rw [List.foldl_cons, ih _ hrest]
    simp only [Walk.record, hc, Function.update_idem, Function.update_self]
    rfl

namespace Walk

variable (settings : Settings) (w : Walk)

theorem take_order_states (order : IntraAnalysisOrder) :
    (w.take settings (.order order)).states = Function.update w.states order.symbol
      (((w.states order.symbol).book (w.close settings order).closings).settle order
        (w.close settings order)) := by
  have hbook := foldl_record_states settings w fun c
    (hc : c ∈ (w.close settings order).closings) => congrArg IntraAnalysisOrder.symbol
      (mem_closings hc).2
  show Function.update (((w.close settings order).closings.foldl (record settings) w).states) _ _ = _
  rw [hbook, Function.update_idem, Function.update_self]

theorem take_funding_states (event : IntraAnalysisFundingEvent) :
    (w.take settings (.funding event)).states =
      if event.symbol ∈ settings.available then
        Function.update w.states event.symbol
          ((allocateFunding (w.states event.symbol) event.amountUsdt).getD
            (w.states event.symbol))
      else w.states := by
  unfold take
  simp only
  split
  · cases allocateFunding (w.states event.symbol) event.amountUsdt with
    | none => exact (Function.update_eq_self _ _).symm
    | some state => rfl
  · rfl

theorem take_interest_states (event : IntraAnalysisInterestEvent) :
    (w.take settings (.interest event)).states =
      ((allocateInterest settings.available settings.selected w.states event).map
        Prod.fst).getD w.states := by
  unfold take
  simp only
  cases allocateInterest settings.available settings.selected w.states event with
  | none => rfl
  | some result => rfl

/-- Funding moves no quantity, at any symbol. -/
theorem take_funding_sameLots (event : IntraAnalysisFundingEvent) (symbol : String) :
    (w.states symbol).SameLots ((w.take settings (.funding event)).states symbol) ∧
      ((w.take settings (.funding event)).states symbol).stats = (w.states symbol).stats := by
  rw [take_funding_states]
  split
  · by_cases he : symbol = event.symbol
    · subst he
      rw [Function.update_self]
      cases hallocate : allocateFunding (w.states event.symbol) event.amountUsdt with
      | none => exact ⟨.refl _, rfl⟩
      | some state =>
        obtain ⟨hlots, hstats, -⟩ := allocateFunding_eq_some hallocate
        exact ⟨hlots, hstats⟩
    · rw [Function.update_of_ne he]
      exact ⟨.refl _, rfl⟩
  · exact ⟨.refl _, rfl⟩

/-- Neither does interest. -/
theorem take_interest_sameLots (hnodup : settings.available.Nodup)
    (event : IntraAnalysisInterestEvent) (symbol : String) :
    (w.states symbol).SameLots ((w.take settings (.interest event)).states symbol) ∧
      ((w.take settings (.interest event)).states symbol).stats = (w.states symbol).stats := by
  rw [take_interest_states]
  cases hallocate : allocateInterest settings.available settings.selected w.states event with
  | none => exact ⟨.refl _, rfl⟩
  | some result =>
    obtain ⟨hlots, hstats, -⟩ := (allocateInterest_eq_some hnodup hallocate).1 symbol
    exact ⟨hlots, hstats⟩

end Walk

/-- Every symbol has its lots in order. -/
def SoundStates (states : String → SymbolState) : Prop := ∀ symbol, (states symbol).Sound

theorem SymbolState.Sound.book {state : SymbolState} (h : state.Sound) (closings : List Closing) :
    (state.book closings).Sound := by
  constructor
  · obtain ⟨direction, hnone⟩ := h.oneSided
    exact ⟨direction, (lots_book ..).trans hnone⟩
  · intro direction lot hlot
    rw [lots_book] at hlot
    exact h.lots direction lot hlot

section

variable {settings : Settings} {w : Walk}

/-- The state of the order's symbol after an order, with the loop's closes made explicit. -/
theorem close_book (order : IntraAnalysisOrder) (closings : List Closing) :
    w.close settings order =
      closeLots (settings.symbolFees order.symbol) settings.referenceFeeBps order order.quantity
        (((w.states order.symbol).book closings).lots order.direction.opposite) := by
  rw [lots_book]
  rfl

theorem SoundStates.take (h : SoundStates w.states) (hnodup : settings.available.Nodup)
    (a : Taken) : SoundStates (w.take settings a).states := by
  intro symbol
  cases a with
  | funding event => exact (w.take_funding_sameLots settings event symbol).1.sound (h symbol)
  | interest event =>
    exact (w.take_interest_sameLots settings hnodup event symbol).1.sound (h symbol)
  | order order =>
    rw [Walk.take_order_states]
    by_cases he : symbol = order.symbol
    · subst he
      rw [Function.update_self, close_book order (w.close settings order).closings]
      exact ((h _).book _).settle _ _ order
    · rw [Function.update_of_ne he]
      exact h symbol

/-! ## The balance of each step -/

/-- What an input adds to the open quantity of a symbol. -/
def signedQuantity (symbol : String) : Taken → ℚ
  | .order order => if order.symbol = symbol then order.direction.sign * order.quantity else 0
  | _ => 0

def orderDust (symbol : String) : Taken → ℚ
  | .order order => if order.symbol = symbol then quantityEpsilon else 0
  | _ => 0

theorem openBalance_take (hnodup : settings.available.Nodup) (w : Walk) (symbol : String)
    {a : Taken} (ha : ∀ order, a = .order order → 0 ≤ order.quantity) :
    |((w.take settings a).states symbol).openBalance - (w.states symbol).openBalance -
      signedQuantity symbol a| ≤ orderDust symbol a := by
  have hsame : ∀ x : ℚ, |x - x - 0| ≤ 0 := fun x => by rw [sub_self, sub_zero, abs_zero]
  cases a with
  | funding event =>
    rw [(w.take_funding_sameLots settings event symbol).1.openBalance]
    exact hsame _
  | interest event =>
    rw [(w.take_interest_sameLots settings hnodup event symbol).1.openBalance]
    exact hsame _
  | order order =>
    rw [Walk.take_order_states, signedQuantity, orderDust]
    by_cases he : order.symbol = symbol
    · subst he
      rw [Function.update_self, if_pos rfl, if_pos rfl,
        close_book order (w.close settings order).closings]
      exact SymbolState.openBalance_settle _ _ _ (ha order rfl)
    · rw [Function.update_of_ne (Ne.symm he), if_neg he, if_neg he]
      exact hsame _

/-- What a step leaves of carried amounts, for one symbol: what it allocates less what it
closes. -/
theorem funding_take (hnodup : settings.available.Nodup) (symbol : String) (a : Taken) :
    |((w.take settings a).states symbol).sumOver OpenLot.fundingPnlUsdt -
        (w.states symbol).sumOver OpenLot.fundingPnlUsdt -
        ((((fundingAllocated settings (w, a)).filter (·.symbol = symbol)).map
            IntraAnalysisFundingEvent.amountUsdt).sum -
          (((closes settings (w, a)).filter (·.order.symbol = symbol)).map
            fun c => c.row.fundingPnlUsdt).sum)| ≤
      2 / 10 ^ 9 * ((closes settings (w, a)).filter (·.order.symbol = symbol)).length := by
  cases a with
  | funding event =>
    rw [Walk.take_funding_states]
    simp only [fundingAllocated, closes, List.filter_nil, List.map_nil, List.sum_nil, sub_zero,
      List.length_nil, Nat.cast_zero, mul_zero]
    refine (abs_nonpos_iff.mpr ?_)
    by_cases hmem : event.symbol ∈ settings.available
    · rw [if_pos hmem]
      by_cases he : event.symbol = symbol
      · subst he
        rw [Function.update_self]
        cases hallocate : allocateFunding (w.states event.symbol) event.amountUsdt with
        | none => simp
        | some state =>
          rw [Option.getD_some, (allocateFunding_eq_some hallocate).2.2.1]
          simp [hmem]
      · rw [Function.update_of_ne (Ne.symm he)]
        split <;> simp [he]
    · rw [if_neg hmem]
      simp [hmem]
  | interest event =>
    rw [Walk.take_interest_states]
    simp only [fundingAllocated, closes, List.filter_nil, List.map_nil, List.sum_nil, sub_zero,
      List.length_nil, Nat.cast_zero, mul_zero]
    refine (abs_nonpos_iff.mpr ?_)
    cases hallocate : allocateInterest settings.available settings.selected w.states event with
    | none => exact sub_self _
    | some result =>
      rw [Option.map_some, Option.getD_some,
        ((allocateInterest_eq_some hnodup hallocate).1 symbol).2.2]
      exact sub_self _
  | order order =>
    rw [Walk.take_order_states]
    simp only [fundingAllocated, closes, List.filter_nil, List.map_nil, List.sum_nil, zero_sub]
    by_cases he : order.symbol = symbol
    · subst he
      have hall : (w.close settings order).closings.filter (·.order.symbol = order.symbol) =
          (w.close settings order).closings :=
        List.filter_eq_self.mpr fun c hc => by rw [(mem_closings hc).2]; exact decide_eq_true rfl
      rw [Function.update_self, hall]
      have hsettle := SymbolState.sumOver_settle carried_funding
        ((w.states order.symbol).book (w.close settings order).closings)
        (settings.symbolFees order.symbol) settings.referenceFeeBps order
      simp only [lots_book] at hsettle
      exact hsettle
    · have hnone : (w.close settings order).closings.filter (·.order.symbol = symbol) = [] :=
        List.filter_eq_nil_iff.mpr fun c hc => by rw [(mem_closings hc).2]; simpa using he
      rw [Function.update_of_ne (Ne.symm he), hnone]
      simp

/-- The interest on the open lots of all symbols. -/
def openInterest (available : List String) (states : String → SymbolState) : ℚ :=
  (available.map fun symbol => (states symbol).sumOver OpenLot.interestCostUsdt).sum

theorem interest_take (hnodup : settings.available.Nodup) {a : Taken}
    (ha : ∀ order, a = .order order → order.symbol ∈ settings.available) :
    |openInterest settings.available (w.take settings a).states -
        openInterest settings.available w.states -
        (((interestAllocated settings (w, a)).map fun event => event.costUsdt.getD 0).sum -
          ((closes settings (w, a)).map fun c => c.row.interestCostUsdt).sum)| ≤
      2 / 10 ^ 9 * (closes settings (w, a)).length := by
  unfold openInterest
  cases a with
  | funding event =>
    rw [Walk.take_funding_states]
    simp only [interestAllocated, closes, List.map_nil, List.sum_nil, sub_zero,
      List.length_nil, Nat.cast_zero, mul_zero]
    refine (abs_nonpos_iff.mpr ?_)
    by_cases hmem : event.symbol ∈ settings.available
    · rw [if_pos hmem, sum_update (fun state : SymbolState =>
        state.sumOver OpenLot.interestCostUsdt) w.states _ hnodup hmem]
      cases hallocate : allocateFunding (w.states event.symbol) event.amountUsdt with
      | none => simp
      | some state =>
        rw [Option.getD_some, (allocateFunding_eq_some hallocate).2.2.2]
        simp
    · rw [if_neg hmem]
      exact sub_self _
  | interest event =>
    rw [Walk.take_interest_states]
    simp only [interestAllocated, closes, List.map_nil, List.sum_nil, sub_zero,
      List.length_nil, Nat.cast_zero, mul_zero]
    refine (abs_nonpos_iff.mpr ?_)
    cases hallocate : allocateInterest settings.available settings.selected w.states event with
    | none => simp
    | some result =>
      rw [Option.map_some, Option.getD_some, (allocateInterest_eq_some hnodup hallocate).2]
      simp
  | order order =>
    rw [Walk.take_order_states, sum_update (fun state : SymbolState =>
      state.sumOver OpenLot.interestCostUsdt) w.states _ hnodup (ha order rfl)]
    simp only [interestAllocated, closes, List.map_nil, List.sum_nil, zero_sub]
    have hsettle := SymbolState.sumOver_settle carried_interest
      ((w.states order.symbol).book (w.close settings order).closings)
      (settings.symbolFees order.symbol) settings.referenceFeeBps order
    simp only [lots_book] at hsettle
    rw [add_sub_cancel_left]
    exact hsettle

end

/-! ## Runs -/

/-- The closed matches of a run, in their order. -/
def closedMatches (settings : Settings) (w : Walk) (l : List Taken) : List Closing :=
  (steps (Walk.take settings) w l).flatMap (closes settings)

/-- The funding events of a run that were allocated. -/
def allocatedFunding (settings : Settings) (w : Walk) (l : List Taken) :
    List IntraAnalysisFundingEvent :=
  (steps (Walk.take settings) w l).flatMap (fundingAllocated settings)

/-- The interest events of a run that were allocated. -/
def allocatedInterest (settings : Settings) (w : Walk) (l : List Taken) :
    List IntraAnalysisInterestEvent :=
  (steps (Walk.take settings) w l).flatMap (interestAllocated settings)

/-- What a run conserves, from a state where nothing is open. Tolerances grow with the number of
    orders and of matches, and with nothing else. -/
structure Conserved (settings : Settings) (w w' : Walk) (l : List Taken) : Prop where
  sound : SoundStates w'.states
  quantity : ∀ symbol, |(w'.states symbol).openBalance - (l.map (signedQuantity symbol)).sum| ≤
    (l.map (orderDust symbol)).sum
  funding : ∀ symbol,
    |(((closedMatches settings w l).filter (·.order.symbol = symbol)).map
        fun c => c.row.fundingPnlUsdt).sum + (w'.states symbol).sumOver OpenLot.fundingPnlUsdt -
      (((allocatedFunding settings w l).filter (·.symbol = symbol)).map
        IntraAnalysisFundingEvent.amountUsdt).sum| ≤
      2 / 10 ^ 9 * ((closedMatches settings w l).filter (·.order.symbol = symbol)).length
  interest :
    |((closedMatches settings w l).map fun c => c.row.interestCostUsdt).sum +
        openInterest settings.available w'.states -
      ((allocatedInterest settings w l).map fun event => event.costUsdt.getD 0).sum| ≤
      2 / 10 ^ 9 * (closedMatches settings w l).length

theorem sum_credit_flatMap {σ β : Type} (f : σ → List β) (p : β → Bool) (value : β → ℚ)
    (l : List σ) : (l.map fun a => (((f a).filter p).map value).sum).sum =
      (((l.flatMap f).filter p).map value).sum := by
  rw [List.filter_flatMap, sum_flatMap_map]

theorem sum_tolerance_flatMap {σ β : Type} (f : σ → List β) (p : β → Bool) (c : ℚ) (l : List σ) :
    (l.map fun a => c * ((f a).filter p).length).sum = c * ((l.flatMap f).filter p).length := by
  rw [List.filter_flatMap, length_flatMap_eq, List.sum_map_mul_left]

/-- **Every run conserves.** -/
theorem conserved (settings : Settings) (hnodup : settings.available.Nodup) {w : Walk}
    (hw : ∀ symbol, w.states symbol = {}) {l : List Taken}
    (hl : ∀ order, .order order ∈ l → 0 ≤ order.quantity ∧ order.symbol ∈ settings.available) :
    Conserved settings w (l.foldl (Walk.take settings) w) l := by
  have hsound : SoundStates w.states := fun symbol => hw symbol ▸ SymbolState.sound_empty
  have hkeep : ∀ a ∈ l, ∀ w : Walk, SoundStates w.states →
      SoundStates (w.take settings a).states := fun a _ w h => h.take hnodup a
  constructor
  · exact fold_invariant (P := fun w : Walk => SoundStates w.states) hkeep hsound
  · intro symbol
    have hrun := run_balance (Walk.take settings) (P := fun _ => True)
      (fun w => (w.states symbol).openBalance) (fun entry => signedQuantity symbol entry.2)
      (fun entry => orderDust symbol entry.2) (fun _ _ _ _ => trivial)
      (fun a ha w _ => openBalance_take hnodup w symbol fun order horder =>
        (hl order (horder ▸ ha)).1) trivial (s := w) (l := l)
    have hinput : ∀ f : Taken → ℚ,
        (steps (Walk.take settings) w l).map (fun entry => f entry.2) = l.map f := by
      intro f
      rw [← steps_snd (Walk.take settings) w l, List.map_map, steps_snd]
      rfl
    rw [hinput, hinput, hw symbol] at hrun
    refine le_of_eq_of_le (congrArg abs ?_) hrun
    show _ - _ = _ - (0 - 0 : ℚ) - _
    ring
  · intro symbol
    have hrun := run_balance (Walk.take settings) (P := fun _ => True)
      (fun w => (w.states symbol).sumOver OpenLot.fundingPnlUsdt)
      (fun entry => (((fundingAllocated settings entry).filter (·.symbol = symbol)).map
            IntraAnalysisFundingEvent.amountUsdt).sum -
          (((closes settings entry).filter (·.order.symbol = symbol)).map
            fun c => c.row.fundingPnlUsdt).sum)
      (fun entry => 2 / 10 ^ 9 * ((closes settings entry).filter (·.order.symbol = symbol)).length)
      (fun _ _ _ _ => trivial) (fun a _ w _ => funding_take hnodup symbol a) trivial (s := w) (l := l)
    rw [sum_map_sub, sum_credit_flatMap, sum_credit_flatMap, sum_tolerance_flatMap,
      hw symbol] at hrun
    unfold closedMatches allocatedFunding
    refine le_of_eq_of_le (congrArg abs ?_) hrun
    show _ + _ - _ = _ - (0 : ℚ) - (_ - _)
    ring
  · have hrun := run_balance (Walk.take settings) (P := fun _ => True)
      (fun w => openInterest settings.available w.states)
      (fun entry =>
        ((interestAllocated settings entry).map fun event => event.costUsdt.getD 0).sum -
          ((closes settings entry).map fun c => c.row.interestCostUsdt).sum)
      (fun entry => 2 / 10 ^ 9 * (closes settings entry).length)
      (fun _ _ _ _ => trivial) (fun a ha w _ => interest_take hnodup fun order horder =>
        (hl order (horder ▸ ha)).2) trivial (s := w) (l := l)
    have hnone : openInterest settings.available w.states = 0 := by
      unfold openInterest
      refine List.sum_eq_zero fun x hx => ?_
      obtain ⟨symbol, -, rfl⟩ := List.mem_map.mp hx
      rw [hw symbol]
      rfl
    rw [sum_map_sub, ← sum_flatMap_map, ← sum_flatMap_map, List.sum_map_mul_left,
      ← length_flatMap_eq, hnone] at hrun
    unfold closedMatches allocatedInterest
    refine le_of_eq_of_le (congrArg abs ?_) hrun
    show _ + _ - _ = _ - (0 : ℚ) - (_ - _)
    ring

/-! ## The orders of the window -/

theorem orders_of_schedule (orders : List IntraAnalysisOrder)
    (funding : List IntraAnalysisFundingEvent) (interest : List IntraAnalysisInterestEvent)
    {order : IntraAnalysisOrder} (h : .order order ∈ schedule orders funding interest) :
    order ∈ orders := by
  induction orders generalizing funding interest with
  | nil => simp [schedule] at h
  | cons first orders ih =>
    simp only [schedule, List.mem_append, List.mem_map, reduceCtorEq, and_false, exists_false,
      List.mem_cons, Taken.order.injEq, false_or] at h
    rcases h with rfl | hlater
    · exact List.mem_cons_self
    · exact List.mem_cons_of_mem _ (ih _ _ hlater)

/-- A sum over what the loops take that only orders add to. -/
theorem sum_schedule {value : Taken → ℚ} (hfunding : ∀ event, value (.funding event) = 0)
    (hinterest : ∀ event, value (.interest event) = 0) (orders : List IntraAnalysisOrder)
    (funding : List IntraAnalysisFundingEvent) (interest : List IntraAnalysisInterestEvent) :
    ((schedule orders funding interest).map value).sum =
      (orders.map fun order => value (.order order)).sum := by
  have hfundingSum : ∀ l : List IntraAnalysisFundingEvent,
      ((l.map Taken.funding).map value).sum = 0 := by
    intro l
    rw [List.map_map]
    exact List.sum_eq_zero fun x hx => by
      obtain ⟨event, -, rfl⟩ := List.mem_map.mp hx
      exact hfunding event
  have hinterestSum : ∀ l : List IntraAnalysisInterestEvent,
      ((l.map Taken.interest).map value).sum = 0 := by
    intro l
    rw [List.map_map]
    exact List.sum_eq_zero fun x hx => by
      obtain ⟨event, -, rfl⟩ := List.mem_map.mp hx
      exact hinterest event
  induction orders generalizing funding interest with
  | nil =>
    rw [schedule, List.map_append, List.sum_append, hfundingSum, hinterestSum, add_zero]
    rfl
  | cons order orders ih =>
    rw [schedule, List.map_append, List.sum_append, hfundingSum, List.map_append, List.sum_append,
      hinterestSum, List.map_cons, List.sum_cons, ih, List.map_cons, List.sum_cons, zero_add,
      zero_add]

/-- The orders of a symbol in the window, as they are given. -/
def windowOrders (orders : List IntraAnalysisOrder) (request : IntraAnalysisRequest)
    (symbol : String) : List IntraAnalysisOrder :=
  orders.filter fun order => decide (uppercase order.symbol = symbol) &&
    (decide (request.startMs ≤ order.completedAtMs) &&
      decide (order.completedAtMs ≤ request.endMs))

theorem sum_windowOrders {orders : List IntraAnalysisOrder}
    {feeEvents : List IntraAnalysisFeeEvent} {fundingEvents : List IntraAnalysisFundingEvent}
    {interestEvents : List IntraAnalysisInterestEvent} {inputs : IntraInputs}
    (h : IntraInputs.prepare orders feeEvents fundingEvents interestEvents = .ok inputs)
    (request : IntraAnalysisRequest) (symbol : String) {value : Taken → ℚ}
    (amount : IntraAnalysisOrder → ℚ) (hfunding : ∀ event, value (.funding event) = 0)
    (hinterest : ∀ event, value (.interest event) = 0)
    (horder : ∀ order, value (.order order) = if order.symbol = symbol then amount order else 0)
    (hamount : ∀ order name, amount { order with symbol := name } = amount order) :
    ((inputs.schedule request).map value).sum =
      ((windowOrders orders request symbol).map amount).sum := by
  unfold IntraInputs.schedule
  simp only
  rw [sum_schedule hfunding hinterest]
  rw [((prepare_orders h).1.filter _).map (fun order => value (.order order)) |>.sum_eq]
  clear h
  induction orders with
  | nil => rfl
  | cons order orders ih =>
    unfold windowOrders at ih ⊢
    rw [List.map_cons]
    by_cases hwindow : (decide (request.startMs ≤ order.completedAtMs) &&
        decide (order.completedAtMs ≤ request.endMs)) = true
    · rw [List.filter_cons_of_pos (by exact hwindow), List.map_cons, List.sum_cons, ih, horder,
        hamount]
      by_cases hsymbol : uppercase order.symbol = symbol
      · rw [if_pos hsymbol, List.filter_cons_of_pos (by rw [hwindow]; simpa using hsymbol),
          List.map_cons, List.sum_cons]
      · rw [if_neg hsymbol, zero_add, List.filter_cons_of_neg (by simp [hsymbol])]
    · rw [List.filter_cons_of_neg (by exact hwindow), ih,
        List.filter_cons_of_neg (by simp only [Bool.and_eq_true, not_and] at hwindow ⊢; exact fun _ => hwindow)]

theorem availableSymbols_nodup (inputs : IntraInputs) : inputs.availableSymbols.Nodup :=
  sortedSet_nodup _

theorem mem_availableSymbols {inputs : IntraInputs} {order : IntraAnalysisOrder}
    (h : order ∈ inputs.orders) : order.symbol ∈ inputs.availableSymbols :=
  mem_sortedSet.mpr (List.mem_map_of_mem h)

/-! ## The whole calculation -/

theorem calculate_eq_ok {orders : List IntraAnalysisOrder} {feeEvents : List IntraAnalysisFeeEvent}
    {fundingEvents : List IntraAnalysisFundingEvent}
    {interestEvents : List IntraAnalysisInterestEvent} {request : IntraAnalysisRequest}
    {response : IntraAnalysisResponse}
    (h : calculateWithFeesFundingAndInterest orders feeEvents fundingEvents interestEvents request =
      .ok response) :
    ∃ inputs selected,
      IntraInputs.prepare orders feeEvents fundingEvents interestEvents = .ok inputs ∧
      selectedSymbols inputs.availableSymbols request.selectedSymbols = .ok selected ∧
      response = report inputs request selected (analyze inputs request selected) := by
  obtain ⟨_, -, h⟩ := bind_eq_ok.mp h
  obtain ⟨_, -, h⟩ := bind_eq_ok.mp h
  obtain ⟨_, -, h⟩ := bind_eq_ok.mp h
  obtain ⟨inputs, hinputs, h⟩ := bind_eq_ok.mp h
  obtain ⟨selected, hselected, h⟩ := bind_eq_ok.mp h
  exact ⟨inputs, selected, hinputs, hselected, (pure_eq_ok.mp h).symm⟩

/-- The matches the loops close on the inputs of a window. -/
def IntraInputs.closedMatches (inputs : IntraInputs) (request : IntraAnalysisRequest)
    (selected : List String) : List Closing :=
  Intra.closedMatches (settings inputs request selected) (Walk.start request)
    (inputs.schedule request)

def IntraInputs.allocatedFunding (inputs : IntraInputs) (request : IntraAnalysisRequest)
    (selected : List String) : List IntraAnalysisFundingEvent :=
  Intra.allocatedFunding (settings inputs request selected) (Walk.start request)
    (inputs.schedule request)

def IntraInputs.allocatedInterest (inputs : IntraInputs) (request : IntraAnalysisRequest)
    (selected : List String) : List IntraAnalysisInterestEvent :=
  Intra.allocatedInterest (settings inputs request selected) (Walk.start request)
    (inputs.schedule request)

/-- What the final states of a calculation conserve of its orders and events. It is `Conserved`,
    read off the request and its inputs instead of the loops. -/
structure Conserves (orders : List IntraAnalysisOrder) (inputs : IntraInputs)
    (request : IntraAnalysisRequest) (selected : List String) (w : Walk) : Prop where
  oneSided : ∀ symbol, (w.states symbol).positive = [] ∨ (w.states symbol).reverse = []
  quantity : ∀ symbol,
    |((windowOrders orders request symbol).map fun order =>
        order.direction.sign * order.quantity).sum -
      (((w.states symbol).positive.map OpenLot.remainingQuantity).sum -
        ((w.states symbol).reverse.map OpenLot.remainingQuantity).sum)| ≤
      (windowOrders orders request symbol).length * quantityEpsilon
  funding : ∀ symbol,
    |(((inputs.closedMatches request selected).filter (·.order.symbol = symbol)).map
          fun c => c.row.fundingPnlUsdt).sum +
        (((w.states symbol).positive ++ (w.states symbol).reverse).map
          OpenLot.fundingPnlUsdt).sum -
      (((inputs.allocatedFunding request selected).filter (·.symbol = symbol)).map
        IntraAnalysisFundingEvent.amountUsdt).sum| ≤
      2 / 10 ^ 9 * ((inputs.closedMatches request selected).filter
        (·.order.symbol = symbol)).length
  interest :
    |((inputs.closedMatches request selected).map fun c => c.row.interestCostUsdt).sum +
        (inputs.availableSymbols.map fun symbol =>
          (((w.states symbol).positive ++ (w.states symbol).reverse).map
            OpenLot.interestCostUsdt).sum).sum -
      ((inputs.allocatedInterest request selected).map fun event => event.costUsdt.getD 0).sum| ≤
      2 / 10 ^ 9 * (inputs.closedMatches request selected).length

/-- **Conservation.** Of every accepted calculation: no symbol stays open on both sides, its open
quantity is what its orders sum to up to one dust an order, and the funding and the interest that
were allocated are reported by closed matches or still carried, up to the rounding of the match and
of the lot. -/
theorem calculate_conserves {orders : List IntraAnalysisOrder}
    {feeEvents : List IntraAnalysisFeeEvent} {fundingEvents : List IntraAnalysisFundingEvent}
    {interestEvents : List IntraAnalysisInterestEvent} {request : IntraAnalysisRequest}
    {response : IntraAnalysisResponse}
    (h : calculateWithFeesFundingAndInterest orders feeEvents fundingEvents interestEvents request =
      .ok response) :
    ∃ inputs selected,
      IntraInputs.prepare orders feeEvents fundingEvents interestEvents = .ok inputs ∧
      selectedSymbols inputs.availableSymbols request.selectedSymbols = .ok selected ∧
      response = report inputs request selected (analyze inputs request selected) ∧
      Conserves orders inputs request selected (analyze inputs request selected) := by
  obtain ⟨inputs, selected, hinputs, hselected, hresponse⟩ := calculate_eq_ok h
  refine ⟨inputs, selected, hinputs, hselected, hresponse, ?_⟩
  have hvalid : ∀ order, .order order ∈ inputs.schedule request →
      0 ≤ order.quantity ∧ order.symbol ∈ inputs.availableSymbols := by
    intro order horder
    have hmem := (List.mem_filter.mp (orders_of_schedule _ _ _ horder)).1
    exact ⟨((prepare_orders hinputs).2 order hmem).quantity.le, mem_availableSymbols hmem⟩
  have hrun := conserved (settings inputs request selected)
    (availableSymbols_nodup inputs) (w := Walk.start request) (fun _ => rfl) hvalid
  refine ⟨fun symbol => ?_, fun symbol => ?_, hrun.funding, hrun.interest⟩
  · obtain ⟨direction, hnone⟩ := (hrun.sound symbol).oneSided
    cases direction with
    | positive => exact .inl hnone
    | reverse => exact .inr hnone
  · have hquantity := hrun.quantity symbol
    rw [sum_windowOrders hinputs request symbol
        (fun order => order.direction.sign * order.quantity) (fun _ => rfl) (fun _ => rfl)
        (fun _ => rfl) fun _ _ => rfl,
      sum_windowOrders hinputs request symbol (fun _ => quantityEpsilon) (fun _ => rfl)
        (fun _ => rfl) (fun _ => rfl) fun _ _ => rfl, List.map_const', List.sum_replicate,
      nsmul_eq_mul, abs_sub_comm] at hquantity
    exact hquantity

/-- A lot of two, half of which is closed after a funding payment; and a lot of another symbol. -/
def halfClosed : List IntraAnalysisOrder :=
  [⟨1, "btcusdt", .positive, 10, 100, 101, 2, none⟩, ⟨2, "BTCUSDT", .reverse, 20, 100, 100, 1, none⟩,
    ⟨3, "ETHUSDT", .reverse, 12, 10, 11, 5, none⟩]

def dailyRequest : IntraAnalysisRequest where
  strategySlug := "binance-intra-arb01"
  displayName := "binance mt"
  premiumAdapter := "binance_premium_index_klines_1m"
  strategyStartMs := 0
  startMs := 5
  endMs := 30
  referenceFeeBps := 1
  maxPoints := 1000
  maxMatches := 200

/-- Funding on both lots, quote interest on the first and base interest on the second. -/
theorem half_closed_conserves :
    Yields (calculateWithFeesFundingAndInterest halfClosed [] [⟨"BTCUSDT", 15, 4⟩, ⟨"ETHUSDT", 25, 1⟩]
      [⟨none, 16, some 3⟩, ⟨some "ethusdt", 18, some 2⟩] dailyRequest) fun response =>
      ∃ inputs selected,
        IntraInputs.prepare halfClosed [] [⟨"BTCUSDT", 15, 4⟩, ⟨"ETHUSDT", 25, 1⟩]
          [⟨none, 16, some 3⟩, ⟨some "ethusdt", 18, some 2⟩] = .ok inputs ∧
        selectedSymbols inputs.availableSymbols dailyRequest.selectedSymbols = .ok selected ∧
        response = report inputs dailyRequest selected (analyze inputs dailyRequest selected) ∧
        Conserves halfClosed inputs dailyRequest selected
          (analyze inputs dailyRequest selected) := by
  obtain ⟨response, hresponse, -⟩ : Yields (calculateWithFeesFundingAndInterest halfClosed []
      [⟨"BTCUSDT", 15, 4⟩, ⟨"ETHUSDT", 25, 1⟩] [⟨none, 16, some 3⟩, ⟨some "ethusdt", 18, some 2⟩]
      dailyRequest) fun _ => True := by decide +kernel
  exact ⟨response, hresponse, calculate_conserves hresponse⟩

/-- The inputs of a half-closed lot that carries 18e-10. -/
def dustInputs : IntraInputs where
  orders := [⟨1, "BTCUSDT", .positive, 10, 100, 101, 2, none⟩,
    ⟨2, "BTCUSDT", .reverse, 20, 100, 100, 1, none⟩]
  feeEvents := []
  fundingEvents := [⟨"BTCUSDT", 15, 18 / 10 ^ 10⟩]
  interestEvents := []

/-- One match can lose more than 1e-9 of the funding: its row and the lot are rounded, each of
them to nothing. -/
theorem funding_rounded_twice :
    (Yields (IntraInputs.prepare dustInputs.orders [] dustInputs.fundingEvents [])
      fun inputs => inputs = dustInputs) ∧
    (Yields (calculateWithFeesFundingAndInterest dustInputs.orders [] dustInputs.fundingEvents []
      dailyRequest) fun response => response.summary.closedMatchCount = 1) ∧
    ((dustInputs.closedMatches dailyRequest ["BTCUSDT"]).length : ℚ) * (1 / 10 ^ 9) <
      |((dustInputs.closedMatches dailyRequest ["BTCUSDT"]).map
            fun c => c.row.fundingPnlUsdt).sum +
          ((analyze dustInputs dailyRequest ["BTCUSDT"]).states "BTCUSDT").sumOver
            OpenLot.fundingPnlUsdt -
        ((dustInputs.allocatedFunding dailyRequest ["BTCUSDT"]).map
          IntraAnalysisFundingEvent.amountUsdt).sum| := by
  decide +kernel

end CryptoNav.Intra
