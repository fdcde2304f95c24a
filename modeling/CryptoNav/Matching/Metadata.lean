import CryptoNav.Matching.Restart

/-!
# Hedge metadata

The engine keeps what it knows of the hedges of a Margin order twice: in four maps, and in the
hedge columns of the row once there is one. `Coherent` says that the columns of a row are what
the maps say, and every operation keeps it; the netting and hedging loops do not touch the
columns. What the maps say is then a matter of the Futures orders alone (`Recorded`).

The metadata is what is shown of a hedge, and no quantity depends on it. The maps exist because
a Futures order may come before the Margin order it names. Which of several hedges is the last
is a matter of the order of events, and the statements follow that order and do not ask whether
it is the order of time.
-/

set_option autoImplicit false

namespace CryptoNav.Matching

open CryptoNav.Lib

/-- The columns `hts`, `hedge_new_ts_us`, `hedge_terminal_ts_us`, `fts` and `close_count`. -/
structure HedgeColumns where
  hts : Option ℤ
  newTsUs : Option ℤ
  terminalTsUs : Option ℤ
  fts : Option ℤ
  closeCount : ℤ
  deriving DecidableEq

def MarginOrder.hedgeColumns (o : MarginOrder) : HedgeColumns :=
  ⟨o.hts, o.hedgeNewTsUs, o.hedgeTerminalTsUs, o.fts, o.closeCount⟩

/-- The columns of a row with these entries in the maps. -/
def hedgeColumnsOf (timing : Option HedgeTiming) (fts : Option ℤ) (count : Option ℤ) :
    HedgeColumns :=
  ⟨timing.map (·.createTsUs), timing.bind (·.newTsUs), timing.bind (·.terminalTsUs), fts,
    count.getD 0⟩

def MatchEngine.columnsOf (e : MatchEngine) (fkey : ℤ) : HedgeColumns :=
  hedgeColumnsOf (e.firstHedgeTiming fkey) (e.lastHedgeFillTsUs fkey) (e.hedgeOrderCounts fkey)

/-- The hedge columns an engine's table holds for a key. -/
def columnsAt (orders : Orders) (fkey : ℤ) : Option HedgeColumns :=
  (orders.get fkey).map MarginOrder.hedgeColumns

/-! ## What the loops leave alone -/

section

variable {β : Type} {π : MarginOrder → β}

theorem map_get_modify (orders : Orders) (k : ℤ) (f : MarginOrder → MarginOrder)
    (hkey : ∀ o, (f o).fkey = o.fkey) (hf : ∀ o, π (f o) = π o) (fkey : ℤ) :
    ((orders.modify k f).get fkey).map π = (orders.get fkey).map π := by
  rw [Table.get_modify orders k f hkey]
  split
  · rename_i h
    rw [h, Option.map_map]
    congr 1
    exact funext hf
  · rfl

theorem netLoop_keeps [Rounding] {ε : ℚ} (hnet : ∀ o q, π (o.net q ε) = π o) (k : ℤ)
    (orders : Orders) (queue : List ℤ) (fkey : ℤ) :
    ((netLoop ε k orders queue).1.get fkey).map π = (orders.get fkey).map π := by
  induction queue generalizing orders with
  | nil => rfl
  | cons other rest ih =>
    have hbite : ∀ q, (((orders.modify other (·.net q ε)).modify k (·.net q ε)).get fkey).map π
        = (orders.get fkey).map π := by
      intro q
      rw [map_get_modify _ k (·.net q ε) (fun _ => rfl) (fun o => hnet o q),
        map_get_modify _ other (·.net q ε) (fun _ => rfl) (fun o => hnet o q)]
    rw [netLoop]
    simp only
    split
    · rfl
    · split
      · rw [ih, hbite]
      · exact hbite _

theorem hedgeLoop_keeps [Rounding] {ε : ℚ} {order : FuturesOrder}
    (hclose : ∀ o q, π (o.close q order.cprice ε) = π o) (remaining : ℚ) (anchor : Bool)
    (orders : Orders) (queue : List ℤ) (fkey : ℤ) :
    ((hedgeLoop ε order remaining anchor orders queue).orders.get fkey).map π
      = (orders.get fkey).map π := by
  induction queue generalizing orders remaining anchor with
  | nil => rfl
  | cons k rest ih =>
    have hbite : ∀ q, ((orders.modify k (·.close q order.cprice ε)).get fkey).map π
        = (orders.get fkey).map π :=
      fun q => map_get_modify _ k (·.close q order.cprice ε) (fun _ => rfl) (fun o => hclose o q) fkey
    rw [hedgeLoop]
    simp only
    split
    · rfl
    · split
      · rw [ih, hbite]
      · exact hbite _

end

theorem netLoop_columns [Rounding] (ε : ℚ) (k : ℤ) (orders : Orders) (queue : List ℤ) (fkey : ℤ) :
    columnsAt (netLoop ε k orders queue).1 fkey = columnsAt orders fkey :=
  netLoop_keeps (fun _ _ => rfl) ..

theorem hedgeLoop_columns [Rounding] (ε : ℚ) (order : FuturesOrder) (remaining : ℚ) (anchor : Bool)
    (orders : Orders) (queue : List ℤ) (fkey : ℤ) :
    columnsAt (hedgeLoop ε order remaining anchor orders queue).orders fkey
      = columnsAt orders fkey :=
  hedgeLoop_keeps (fun _ _ => rfl) ..

/-! ## Rows and maps -/

/-- Every row's hedge columns are what the maps say. A key without a row may be known to the maps,
    as a hedge can come before its order. -/
def Coherent (e : MatchEngine) : Prop :=
  ∀ fkey c, columnsAt e.orders fkey = some c → c = e.columnsOf fkey

/-- A step that changes the maps at one key, and the row of that key with them. -/
theorem Coherent.record {e e' : MatchEngine} (h : Coherent e) {k : ℤ}
    (hother : ∀ fkey, fkey ≠ k → columnsAt e'.orders fkey = columnsAt e.orders fkey ∧
      e'.columnsOf fkey = e.columnsOf fkey)
    (hself : ∀ c, columnsAt e'.orders k = some c → c = e'.columnsOf k) : Coherent e' := by
  intro fkey c hc
  by_cases hk : fkey = k
  · subst hk
    exact hself c hc
  · obtain ⟨hcolumns, hmaps⟩ := hother fkey hk
    rw [hmaps]
    exact h fkey c (hcolumns ▸ hc)

namespace MatchEngine

/-- The first hedge of a key once another one is known. -/
def earlierTiming (current : Option HedgeTiming) (incoming : HedgeTiming) : HedgeTiming :=
  match current with
  | none => incoming
  | some current => if incoming.sortKey < current.sortKey then incoming else current

theorem recordFirstHedgeTiming_get (e : MatchEngine) (k : ℤ) (incoming : HedgeTiming) (fkey : ℤ) :
    (e.recordFirstHedgeTiming k incoming).orders.get fkey = if fkey = k then
      (e.orders.get k).map (·.withTiming (earlierTiming (e.firstHedgeTiming k) incoming))
    else e.orders.get fkey :=
  Table.get_modify e.orders k
    (·.withTiming (earlierTiming (e.firstHedgeTiming k) incoming)) (fun _ => rfl) fkey

theorem recordFill_self (fills : ℤ → Option ℤ) (k : ℤ) (fill : Option ℤ) :
    recordFill fills k fill k = match fill with
      | none => fills k
      | some ts => some ((fills k).elim ts (max · ts)) := by
  cases fill with
  | none => rfl
  | some ts => exact Function.update_self ..

theorem recordFill_of_ne (fills : ℤ → Option ℤ) {k fkey : ℤ} (h : fkey ≠ k) (fill : Option ℤ) :
    recordFill fills k fill fkey = fills fkey := by
  cases fill with
  | none => rfl
  | some ts => exact Function.update_of_ne h ..

/-- A hedge that was not counted before counts. -/
theorem countHedgeOrder_self {e : MatchEngine} {k id : ℤ} (h : (k, id) ∉ e.seenHedgeOrders) :
    (e.countHedgeOrder k id).hedgeOrderCounts k
      = some ((e.hedgeOrderCounts k).getD 0 + 1) := by
  unfold countHedgeOrder
  rw [if_neg h]
  exact Function.update_self ..

theorem countHedgeOrder_of_ne (e : MatchEngine) {k fkey : ℤ} (h : fkey ≠ k) (id : ℤ) :
    (e.countHedgeOrder k id).hedgeOrderCounts fkey = e.hedgeOrderCounts fkey := by
  unfold countHedgeOrder
  split
  · rfl
  · exact Function.update_of_ne h ..

theorem countHedgeOrder_maps (e : MatchEngine) (k id : ℤ) :
    (e.countHedgeOrder k id).firstHedgeTiming = e.firstHedgeTiming ∧
      (e.countHedgeOrder k id).lastHedgeFillTsUs = e.lastHedgeFillTsUs := by
  unfold countHedgeOrder
  split
  · exact ⟨rfl, rfl⟩
  · exact ⟨rfl, rfl⟩

/-! ### A hedge -/

theorem recordHedgeOrder_first (e : MatchEngine) (k : ℤ) (order : FuturesOrder) :
    (e.recordHedgeOrder k order).firstHedgeTiming
      = Function.update e.firstHedgeTiming k
          (some (earlierTiming (e.firstHedgeTiming k) order.timing)) :=
  (countHedgeOrder_maps _ _ _).1

theorem recordHedgeOrder_fills (e : MatchEngine) (k : ℤ) (order : FuturesOrder) :
    (e.recordHedgeOrder k order).lastHedgeFillTsUs
      = recordFill e.lastHedgeFillTsUs k order.fillTsUs :=
  congrArg (recordFill · k order.fillTsUs) (countHedgeOrder_maps _ _ _).2

theorem recordHedgeOrder_counts (e : MatchEngine) (k : ℤ) (order : FuturesOrder) :
    (e.recordHedgeOrder k order).hedgeOrderCounts
      = (e.countHedgeOrder k order.clientOrderId).hedgeOrderCounts := by
  show ((e.recordFirstHedgeTiming k order.timing).countHedgeOrder k _).hedgeOrderCounts = _
  unfold countHedgeOrder
  by_cases h : (k, order.clientOrderId) ∈ e.seenHedgeOrders
  · rw [if_pos h, if_pos (show _ ∈ (e.recordFirstHedgeTiming k order.timing).seenHedgeOrders from h)]
    rfl
  · rw [if_neg h, if_neg (show _ ∉ (e.recordFirstHedgeTiming k order.timing).seenHedgeOrders from h)]
    rfl

theorem recordHedgeOrder_seen (e : MatchEngine) (k : ℤ) (order : FuturesOrder) (x : ℤ × ℤ)
    (hx : x ∈ (e.recordHedgeOrder k order).seenHedgeOrders) :
    x = (k, order.clientOrderId) ∨ x ∈ e.seenHedgeOrders := by
  replace hx : x ∈ ((e.recordFirstHedgeTiming k order.timing).countHedgeOrder k
    order.clientOrderId).seenHedgeOrders := hx
  unfold countHedgeOrder at hx
  split at hx
  · exact .inr hx
  · exact List.mem_cons.mp hx

theorem recordHedgeOrder_get (e : MatchEngine) (k : ℤ) (order : FuturesOrder) (fkey : ℤ) :
    (e.recordHedgeOrder k order).orders.get fkey = if fkey = k then (e.orders.get k).map fun o =>
      (o.withTiming (earlierTiming (e.firstHedgeTiming k) order.timing)).withFills
        ((e.recordHedgeOrder k order).lastHedgeFillTsUs k)
        (((e.recordHedgeOrder k order).hedgeOrderCounts k).getD 0)
    else e.orders.get fkey := by
  have horders := (countHedgeOrder_frame (e.recordFirstHedgeTiming k order.timing) k
    order.clientOrderId).1
  have hget : (e.recordHedgeOrder k order).orders.get fkey = _ := Table.get_modify
    ((e.recordFirstHedgeTiming k order.timing).countHedgeOrder k order.clientOrderId).orders k
    (·.withFills ((e.recordHedgeOrder k order).lastHedgeFillTsUs k)
      (((e.recordHedgeOrder k order).hedgeOrderCounts k).getD 0)) (fun _ => rfl) fkey
  rw [hget, horders, recordFirstHedgeTiming_get, recordFirstHedgeTiming_get, if_pos rfl,
    Option.map_map]
  split
  · rfl
  · rfl

end MatchEngine

open MatchEngine

theorem Coherent.recordHedgeOrder {e : MatchEngine} (h : Coherent e) (k : ℤ)
    (order : FuturesOrder) : Coherent (e.recordHedgeOrder k order) := by
  refine h.record (k := k) ?_ ?_
  · intro fkey hne
    refine ⟨?_, ?_⟩
    · unfold columnsAt
      rw [recordHedgeOrder_get, if_neg hne]
    · unfold columnsOf
      rw [recordHedgeOrder_first, Function.update_of_ne hne, recordHedgeOrder_fills,
        recordFill_of_ne _ hne, recordHedgeOrder_counts, countHedgeOrder_of_ne _ hne]
  · intro c hc
    unfold columnsAt at hc
    rw [recordHedgeOrder_get, if_pos rfl, Option.map_map] at hc
    obtain ⟨o, -, rfl⟩ := Option.map_eq_some_iff.mp hc
    unfold columnsOf
    rw [recordHedgeOrder_first, Function.update_self]
    rfl

theorem MatchEngine.seedOne_first (e : MatchEngine) (history : HedgeHistory) :
    (e.seedOne history).firstHedgeTiming = Function.update e.firstHedgeTiming history.mainFkey
      (some (earlierTiming (e.firstHedgeTiming history.mainFkey) history.firstOrder)) := rfl

theorem MatchEngine.seedOne_fills (e : MatchEngine) (history : HedgeHistory) :
    (e.seedOne history).lastHedgeFillTsUs
      = recordFill e.lastHedgeFillTsUs history.mainFkey history.lastFillTsUs := rfl

theorem MatchEngine.seedOne_counts (e : MatchEngine) (history : HedgeHistory) :
    (e.seedOne history).hedgeOrderCounts = Function.update e.hedgeOrderCounts history.mainFkey
      (some (max ((e.hedgeOrderCounts history.mainFkey).getD 0) history.orderCount)) := rfl

theorem Coherent.seedOne {e : MatchEngine} (h : Coherent e) (history : HedgeHistory) :
    Coherent (e.seedOne history) := by
  have hget : ∀ fkey, (e.seedOne history).orders.get fkey = if fkey = history.mainFkey then
      (e.orders.get history.mainFkey).map fun o =>
        (o.withTiming (earlierTiming (e.firstHedgeTiming history.mainFkey)
          history.firstOrder)).withFills
            ((e.seedOne history).lastHedgeFillTsUs history.mainFkey)
            (max o.closeCount (max ((e.hedgeOrderCounts history.mainFkey).getD 0)
              history.orderCount))
    else e.orders.get fkey := by
    intro fkey
    have hmodify : (e.seedOne history).orders.get fkey = _ := Table.get_modify
      (e.recordFirstHedgeTiming history.mainFkey history.firstOrder).orders history.mainFkey
      (fun margin => margin.withFills ((e.seedOne history).lastHedgeFillTsUs history.mainFkey)
        (max margin.closeCount (max ((e.hedgeOrderCounts history.mainFkey).getD 0)
          history.orderCount))) (fun _ => rfl) fkey
    rw [hmodify, recordFirstHedgeTiming_get, recordFirstHedgeTiming_get, if_pos rfl,
      Option.map_map]
    split
    · rfl
    · rfl
  refine h.record (k := history.mainFkey) ?_ ?_
  · intro fkey hne
    refine ⟨?_, ?_⟩
    · unfold columnsAt
      rw [hget, if_neg hne]
    · unfold columnsOf
      rw [seedOne_first, seedOne_fills, seedOne_counts, Function.update_of_ne hne,
        recordFill_of_ne _ hne, Function.update_of_ne hne]
  · intro c hc
    unfold columnsAt at hc
    rw [hget, if_pos rfl, Option.map_map] at hc
    obtain ⟨o, ho, rfl⟩ := Option.map_eq_some_iff.mp hc
    -- The row's count is the map's, which the seed does not lower.
    have hcount : o.closeCount = (e.hedgeOrderCounts history.mainFkey).getD 0 := by
      have hold : columnsAt e.orders history.mainFkey = some o.hedgeColumns := by
        unfold columnsAt
        rw [ho]
        rfl
      exact congrArg HedgeColumns.closeCount (h _ _ hold)
    have hmax : max o.closeCount (max ((e.hedgeOrderCounts history.mainFkey).getD 0)
        history.orderCount)
          = max ((e.hedgeOrderCounts history.mainFkey).getD 0) history.orderCount := by
      rw [hcount, ← max_assoc, max_self]
    unfold columnsOf
    rw [seedOne_first, seedOne_counts, Function.update_self, Function.update_self]
    exact congrArg (HedgeColumns.mk _ _ _ _) hmax

/-- The hedge columns of a Margin order that has not met a hedge. -/
def HedgeColumns.blank : HedgeColumns := ⟨none, none, none, none, 0⟩

/-- The row of a newly inserted order takes its columns from the maps. -/
theorem withHedgeMaps_columns {e : MatchEngine} {order : MarginOrder}
    (hblank : order.hedgeColumns = .blank) (hcount : 0 ≤ (e.hedgeOrderCounts order.fkey).getD 0) :
    (e.withHedgeMaps order).hedgeColumns = e.columnsOf order.fkey := by
  simp only [MarginOrder.hedgeColumns, HedgeColumns.blank, HedgeColumns.mk.injEq] at hblank
  obtain ⟨hhts, hnew, hterminal, hfts, hclose⟩ := hblank
  unfold MatchEngine.withHedgeMaps columnsOf hedgeColumnsOf MarginOrder.hedgeColumns
  generalize e.firstHedgeTiming order.fkey = timing
  generalize e.lastHedgeFillTsUs order.fkey = fills
  generalize e.hedgeOrderCounts order.fkey = count at hcount ⊢
  cases timing <;> cases fills <;> cases count <;>
    simp_all [MarginOrder.withFills, MarginOrder.withTiming]

/-- What an accepted Margin order does to maps, keys and columns. -/
theorem applyMargin_metadata [Rounding] {e e' : MatchEngine} {order : MarginOrder}
    (hstep : e.applyMargin order = .ok e') :
    e'.firstHedgeTiming = e.firstHedgeTiming ∧ e'.lastHedgeFillTsUs = e.lastHedgeFillTsUs ∧
      e'.hedgeOrderCounts = e.hedgeOrderCounts ∧ e'.seenHedgeOrders = e.seenHedgeOrders ∧
      ∀ fkey, columnsAt e'.orders fkey = if fkey = order.fkey then
        some (e.withHedgeMaps order.arrive).hedgeColumns else columnsAt e.orders fkey := by
  unfold MatchEngine.applyMargin at hstep
  split at hstep
  · cases hstep
  · split at hstep
    · cases hstep
    · cases hstep
      refine ⟨rfl, rfl, rfl, rfl, fun fkey => ?_⟩
      have hkey : (e.withHedgeMaps order.arrive).fkey = order.fkey :=
        (congrArg MarginOrder.fkey (core_withHedgeMaps e order.arrive) :
          (e.withHedgeMaps order.arrive).core.fkey = order.arrive.core.fkey)
      rw [netLoop_columns]
      unfold columnsAt
      rw [Table.get_put, hkey]
      split
      · rfl
      · rfl

/-- What an accepted Futures order does to them: it is recorded. -/
theorem applyFutures_metadata [Rounding] {e e' : MatchEngine} {order : FuturesOrder}
    {result : HedgeResult} (hstep : e.applyFutures order = .ok (e', result)) :
    result.order = order ∧
      let recorded := order.mainFkey.elim e fun mainFkey => e.recordHedgeOrder mainFkey order
      e'.firstHedgeTiming = recorded.firstHedgeTiming ∧
        e'.lastHedgeFillTsUs = recorded.lastHedgeFillTsUs ∧
        e'.hedgeOrderCounts = recorded.hedgeOrderCounts ∧
        e'.seenHedgeOrders = recorded.seenHedgeOrders ∧
        ∀ fkey, columnsAt e'.orders fkey = columnsAt recorded.orders fkey := by
  unfold MatchEngine.applyFutures at hstep
  split at hstep
  · cases hstep
  · split at hstep
    · cases hstep
    · cases hstep
      exact ⟨rfl, rfl, rfl, rfl, rfl, fun fkey => hedgeLoop_columns ..⟩

/-- A step that changes no map and no column. -/
theorem Coherent.congr {e e' : MatchEngine} (h : Coherent e)
    (hfirst : e'.firstHedgeTiming = e.firstHedgeTiming)
    (hfills : e'.lastHedgeFillTsUs = e.lastHedgeFillTsUs)
    (hcounts : e'.hedgeOrderCounts = e.hedgeOrderCounts)
    (hcolumns : ∀ fkey, columnsAt e'.orders fkey = columnsAt e.orders fkey) : Coherent e' := by
  intro fkey c hc
  unfold columnsOf
  rw [hfirst, hfills, hcounts]
  exact h fkey c (hcolumns fkey ▸ hc)

theorem Coherent.margin [Rounding] {e e' : MatchEngine} (h : Coherent e) {order : MarginOrder}
    (hblank : order.hedgeColumns = .blank) (hcount : 0 ≤ (e.hedgeOrderCounts order.fkey).getD 0)
    (hstep : e.applyMargin order = .ok e') : Coherent e' := by
  obtain ⟨hfirst, hfills, hcounts, -, hcolumns⟩ := applyMargin_metadata hstep
  intro fkey c hc
  unfold columnsOf
  rw [hfirst, hfills, hcounts]
  rw [hcolumns] at hc
  split at hc
  · rename_i hk
    cases hc
    rw [hk]
    have harrive : order.arrive.hedgeColumns = .blank := hblank
    exact withHedgeMaps_columns harrive hcount
  · exact h fkey c hc

theorem Coherent.futures [Rounding] {e e' : MatchEngine} (h : Coherent e) {order : FuturesOrder}
    {result : HedgeResult} (hstep : e.applyFutures order = .ok (e', result)) : Coherent e' := by
  obtain ⟨-, hfirst, hfills, hcounts, -, hcolumns⟩ := applyFutures_metadata hstep
  refine Coherent.congr ?_ hfirst hfills hcounts hcolumns
  cases order.mainFkey with
  | none => exact h
  | some k => exact h.recordHedgeOrder k order

/-! ## What the maps say -/

/-- The hedges of one Margin order. -/
def hedgesOf (fkey : ℤ) (futures : List FuturesOrder) : List FuturesOrder :=
  futures.filter (·.mainFkey = some fkey)

theorem hedgesOf_append (fkey : ℤ) (a b : List FuturesOrder) :
    hedgesOf fkey (a ++ b) = hedgesOf fkey a ++ hedgesOf fkey b := List.filter_append ..

def NoLater (a b : HedgeTiming) : Prop := a.sortKey ≤ b.sortKey

theorem NoLater.refl (a : HedgeTiming) : NoLater a a := le_refl a.sortKey

theorem NoLater.trans (a b c : HedgeTiming) (hab : NoLater a b) (hbc : NoLater b c) : NoLater a c :=
  le_trans hab hbc

/-- The first of some hedges. -/
abbrev EarliestTiming : Option HedgeTiming → List HedgeTiming → Prop := Best NoLater

/-- The latest of some fill times. -/
abbrev LatestFill : Option ℤ → List ℤ → Prop := Best (· ≥ ·)

/-- What the maps of `e` say after the Futures orders `done`, when `start` is the engine before
    them. -/
structure Recorded (start : MatchEngine) (done : List FuturesOrder) (e : MatchEngine) : Prop where
  timing : ∀ k, EarliestTiming (e.firstHedgeTiming k)
    ((start.firstHedgeTiming k).toList ++ (hedgesOf k done).map FuturesOrder.timing)
  -- On a tie with what was there before, the first hedge stays what it was.
  kept : ∀ k t, start.firstHedgeTiming k = some t →
    (∀ order ∈ hedgesOf k done, NoLater t order.timing) → e.firstHedgeTiming k = some t
  fills : ∀ k, LatestFill (e.lastHedgeFillTsUs k)
    ((start.lastHedgeFillTsUs k).toList ++ (hedgesOf k done).filterMap FuturesOrder.fillTsUs)
  counts : ∀ k, (e.hedgeOrderCounts k).getD 0
    = (start.hedgeOrderCounts k).getD 0 + (hedgesOf k done).length
  seen : ∀ k id, (k, id) ∈ e.seenHedgeOrders → id ∈ done.map FuturesOrder.clientOrderId

theorem best_toList {α : Type} {r : α → α → Prop} (hrefl : ∀ a, r a a) (a : Option α) :
    Best r a (a.toList ++ []) := by
  cases a with
  | none => rfl
  | some a => exact Best.single hrefl a

theorem recorded_nil {e : MatchEngine} (hseen : e.seenHedgeOrders = []) : Recorded e [] e := by
  refine ⟨fun k => best_toList NoLater.refl _, fun k t ht _ => ht,
    fun k => best_toList (r := (· ≥ ·)) le_refl _, fun k => (add_zero _).symm, ?_⟩
  intro k id h
  rw [hseen] at h
  cases h

theorem earliestTiming_add {current : Option HedgeTiming} {l : List HedgeTiming}
    (h : EarliestTiming current l) (incoming : HedgeTiming) :
    EarliestTiming (some (earlierTiming current incoming)) (l ++ [incoming]) := by
  cases current with
  | none =>
    replace h : l = [] := h
    rw [h]
    exact Best.single NoLater.refl incoming
  | some t =>
    unfold earlierTiming
    by_cases hlt : incoming.sortKey < t.sortKey
    · simp only [if_pos hlt]
      exact Best.replace NoLater.refl NoLater.trans h hlt.le
    · simp only [if_neg hlt]
      exact Best.keep h (not_lt.mp hlt)

theorem latestFill_add {current : Option ℤ} {l : List ℤ} (h : LatestFill current l)
    (incoming : ℤ) : LatestFill (some (current.elim incoming (max · incoming))) (l ++ [incoming]) := by
  cases current with
  | none =>
    replace h : l = [] := h
    rw [h]
    exact Best.single (r := (· ≥ ·)) le_refl incoming
  | some t =>
    show LatestFill (some (max t incoming)) _
    rcases le_total incoming t with hle | hle
    · rw [max_eq_left hle]
      exact Best.keep h hle
    · rw [max_eq_right hle]
      exact Best.replace (r := (· ≥ ·)) le_refl (fun _ _ _ hab hbc => ge_trans hab hbc) h hle

/-- **A hedge is recorded.** Its client order id must be new. -/
theorem Recorded.futures [Rounding] {start e e' : MatchEngine} {done : List FuturesOrder}
    (h : Recorded start done e) {order : FuturesOrder} {result : HedgeResult}
    (hnew : order.clientOrderId ∉ done.map FuturesOrder.clientOrderId)
    (hstep : e.applyFutures order = .ok (e', result)) : Recorded start (done ++ [order]) e' := by
  obtain ⟨-, hfirst, hfills, hcounts, hseen, -⟩ := applyFutures_metadata hstep
  have hids : ∀ id ∈ done.map FuturesOrder.clientOrderId,
      id ∈ (done ++ [order]).map FuturesOrder.clientOrderId := by
    intro id hid
    rw [List.map_append]
    exact List.mem_append_left _ hid
  cases hmain : order.mainFkey with
  | none =>
    rw [hmain] at hfirst hfills hcounts hseen
    have hsame : ∀ k, hedgesOf k (done ++ [order]) = hedgesOf k done := by
      intro k
      rw [hedgesOf_append, hedgesOf, hedgesOf, List.filter_singleton, hmain]
      simp
    refine ⟨fun k => ?_, fun k t ht hall => ?_, fun k => ?_, fun k => ?_, fun k id hid => ?_⟩
    · rw [hfirst, hsame]
      exact h.timing k
    · rw [hfirst]
      rw [hsame] at hall
      exact h.kept k t ht hall
    · rw [hfills, hsame]
      exact h.fills k
    · rw [hcounts, hsame]
      exact h.counts k
    · rw [hseen] at hid
      exact hids id (h.seen k id hid)
  | some k =>
    rw [hmain] at hfirst hfills hcounts hseen
    replace hfirst : e'.firstHedgeTiming = (e.recordHedgeOrder k order).firstHedgeTiming := hfirst
    replace hfills : e'.lastHedgeFillTsUs = (e.recordHedgeOrder k order).lastHedgeFillTsUs := hfills
    replace hcounts : e'.hedgeOrderCounts = (e.recordHedgeOrder k order).hedgeOrderCounts := hcounts
    replace hseen : e'.seenHedgeOrders = (e.recordHedgeOrder k order).seenHedgeOrders := hseen
    have hself : hedgesOf k (done ++ [order]) = hedgesOf k done ++ [order] := by
      rw [hedgesOf_append, hedgesOf, hedgesOf, List.filter_singleton, hmain]
      simp
    have hother : ∀ k', k' ≠ k → hedgesOf k' (done ++ [order]) = hedgesOf k' done := by
      intro k' hne
      rw [hedgesOf_append, hedgesOf, hedgesOf, List.filter_singleton, hmain]
      simp [Ne.symm hne]
    refine ⟨fun k' => ?_, fun k' t ht hall => ?_, fun k' => ?_, fun k' => ?_, fun k' id hid => ?_⟩
    · rw [hfirst, recordHedgeOrder_first]
      by_cases hk : k' = k
      · rw [hk, Function.update_self, hself, List.map_append, ← List.append_assoc]
        exact earliestTiming_add (h.timing k) order.timing
      · rw [Function.update_of_ne hk, hother k' hk]
        exact h.timing k'
    · rw [hfirst, recordHedgeOrder_first]
      by_cases hk : k' = k
      · rw [hk] at ht hall ⊢
        rw [hself] at hall
        have hold := h.kept k t ht fun o ho => hall o (List.mem_append_left _ ho)
        have hle : NoLater t order.timing := hall order (List.mem_append_right _ List.mem_cons_self)
        rw [Function.update_self, hold]
        unfold earlierTiming
        simp only [if_neg (not_lt.mpr hle)]
      · rw [Function.update_of_ne hk]
        rw [hother k' hk] at hall
        exact h.kept k' t ht hall
    · rw [hfills, recordHedgeOrder_fills]
      by_cases hk : k' = k
      · rw [hk, recordFill_self, hself, List.filterMap_append, ← List.append_assoc]
        cases hfill : order.fillTsUs with
        | none =>
          rw [List.filterMap_cons_none hfill, List.filterMap_nil, List.append_nil]
          exact h.fills k
        | some ts =>
          rw [List.filterMap_cons_some hfill, List.filterMap_nil]
          exact latestFill_add (h.fills k) ts
      · rw [recordFill_of_ne _ hk, hother k' hk]
        exact h.fills k'
    · rw [hcounts, recordHedgeOrder_counts]
      by_cases hk : k' = k
      · have hunseen : (k, order.clientOrderId) ∉ e.seenHedgeOrders :=
          fun hmem => hnew (h.seen k _ hmem)
        rw [hk, countHedgeOrder_self hunseen, hself, List.length_append, Option.getD_some,
          h.counts k, List.length_singleton, Nat.cast_add, Nat.cast_one, add_assoc]
      · rw [countHedgeOrder_of_ne _ hk, hother k' hk]
        exact h.counts k'
    · rw [hseen] at hid
      rcases recordHedgeOrder_seen e k order _ hid with hid | hid
      · cases hid
        rw [List.map_append]
        exact List.mem_append_right _ (List.mem_singleton.mpr rfl)
      · exact hids id (h.seen k' id hid)

end CryptoNav.Matching
