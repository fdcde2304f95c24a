import CryptoNav.Matching.Metadata
import CryptoNav.Sync.Run

/-!
# What a run knows of the hedges

The hedge columns of a Margin order should be a function of all its hedges (`summary`). A run
knows these from three places: the placeholder and the counts restored from a pending row, the
summary of `intra_hedges` for the Margin orders it is about to insert, and its own events. The
last section says what comes of each: a seeded row ends with the summary, a restored one with
the summary up to the placeholder (`restarted`).

A summary is what the hedges of an order say, in whatever order they are given, but for the
client order of the last one. It can be had from the rows of `intra_hedges`, from the events of
a run or from the columns of a restored row, and each of these ways has its own section.
-/

set_option autoImplicit false

namespace CryptoNav.Sync

open CryptoNav.Lib CryptoNav.Matching CryptoNav.Matching.MatchEngine

/-! ## The summary of some hedges -/

def firstHedge (hedges : List FuturesOrder) : Option HedgeTiming :=
  (sortByKey HedgeTiming.sortKey (hedges.map FuturesOrder.timing)).head?

def lastFill (hedges : List FuturesOrder) : Option ℤ := (hedges.filterMap FuturesOrder.fillTsUs).max?

/-- The hedge columns of a Margin order with these hedges. -/
def summary (hedges : List FuturesOrder) : HedgeColumns :=
  hedgeColumnsOf (firstHedge hedges) (lastFill hedges) (some hedges.length)

theorem firstHedge_earliest (hedges : List FuturesOrder) :
    EarliestTiming (firstHedge hedges) (hedges.map FuturesOrder.timing) := best_head? _ _

theorem lastFill_latest (hedges : List FuturesOrder) :
    LatestFill (lastFill hedges) (hedges.filterMap FuturesOrder.fillTsUs) := best_max? _

/-- Among orders with their own ids there is one first hedge. -/
theorem firstHedge_unique {hedges : List FuturesOrder}
    (hids : (hedges.map FuturesOrder.clientOrderId).Nodup) {t : Option HedgeTiming}
    (h : EarliestTiming t (hedges.map FuturesOrder.timing)) : t = firstHedge hedges := by
  refine Best.unique ?_ h (firstHedge_earliest hedges)
  intro x hx y hy hxy hyx
  obtain ⟨a, ha, rfl⟩ := List.mem_map.mp hx
  obtain ⟨b, hb, rfl⟩ := List.mem_map.mp hy
  have hkey : a.timing.sortKey = b.timing.sortKey := le_antisymm hxy hyx
  have hid : a.clientOrderId = b.clientOrderId :=
    congrArg (fun k : ℤ ×ₗ ℤ ×ₗ ℤ => (ofLex (ofLex k).2).2) hkey
  rw [List.inj_on_of_nodup_map hids ha hb hid]

theorem lastFill_unique {hedges : List FuturesOrder} {t : Option ℤ}
    (h : LatestFill t (hedges.filterMap FuturesOrder.fillTsUs)) : t = lastFill hedges :=
  Best.unique (fun _ _ _ _ hxy hyx => le_antisymm hyx hxy) h (lastFill_latest hedges)

/-- The order in which the hedges are listed does not matter. -/
theorem firstHedge_perm {a b : List FuturesOrder} (h : a.Perm b)
    (hids : (b.map FuturesOrder.clientOrderId).Nodup) : firstHedge a = firstHedge b :=
  firstHedge_unique hids
    ((firstHedge_earliest a).congr fun _ => (h.map FuturesOrder.timing).mem_iff)

theorem summary_perm {a b : List FuturesOrder} (h : a.Perm b)
    (hids : (b.map FuturesOrder.clientOrderId).Nodup) : summary a = summary b := by
  have hfill : lastFill a = lastFill b :=
    lastFill_unique ((lastFill_latest a).congr fun _ =>
      (h.filterMap FuturesOrder.fillTsUs).mem_iff)
  unfold summary
  rw [firstHedge_perm h hids, hfill, h.length_eq]

/-! ## What is released -/

def futures? : MatchEvent → Option FuturesOrder
  | .margin _ => none
  | .futures order => some order

/-- The Futures orders of some events. -/
def futuresOf (events : List MatchEvent) : List FuturesOrder := events.filterMap futures?

theorem futuresOf_append (a b : List MatchEvent) :
    futuresOf (a ++ b) = futuresOf a ++ futuresOf b := List.filterMap_append ..

theorem mem_futuresOf {events : List MatchEvent} {order : FuturesOrder} :
    order ∈ futuresOf events ↔ .futures order ∈ events := by
  unfold futuresOf
  rw [List.mem_filterMap]
  constructor
  · rintro ⟨event, hmem, he⟩
    cases event with
    | margin _ => cases he
    | futures _ => cases he; exact hmem
  · intro h
    exact ⟨_, h, rfl⟩

/-- The released events: each order once, Margin orders with blank hedge columns as
    `lifecycle_events` makes them. -/
structure Distinct (events : List MatchEvent) : Prop where
  fkeys : (events.filterMap MatchEvent.marginFkey).Nodup
  ids : ((futuresOf events).map FuturesOrder.clientOrderId).Nodup
  blank : ∀ order, .margin order ∈ events → order.hedgeColumns = .blank

theorem Distinct.left {a b : List MatchEvent} (h : Distinct (a ++ b)) : Distinct a := by
  obtain ⟨hfkeys, hids, hblank⟩ := h
  rw [List.filterMap_append] at hfkeys
  rw [futuresOf_append, List.map_append] at hids
  exact ⟨(List.nodup_append.mp hfkeys).1, (List.nodup_append.mp hids).1,
    fun order ho => hblank order (List.mem_append_left _ ho)⟩

/-- The hedges of one key are among hedges with their own ids. -/
theorem Distinct.hedgesOf {events : List MatchEvent} (h : Distinct events) (fkey : ℤ) :
    ((hedgesOf fkey (futuresOf events)).map FuturesOrder.clientOrderId).Nodup :=
  h.ids.sublist (List.filter_sublist.map _)

/-- Every row says of its hedges what the released Futures orders say. Completed rows are included,
    although no run loads them again. -/
def MetadataComplete (stored : Orders) (released : List MatchEvent) : Prop :=
  ∀ row ∈ stored.rows, row.hedgeColumns = summary (hedgesOf row.fkey (futuresOf released))

instance (stored : Orders) (released : List MatchEvent) :
    Decidable (MetadataComplete stored released) :=
  inferInstanceAs (Decidable (∀ row ∈ stored.rows, _ = _))

/-- A run, as far as it concerns `intra_orders` and `intra_hedges`: a tolerance and what was
    released. -/
abbrev Batch := ℚ × List MatchEvent

def release [Rounding] (s : Orders × Hedges) (batch : Batch) : Except String (Orders × Hedges) :=
  matchReleased batch.1 s batch.2

def releasedBy (batches : List Batch) : List MatchEvent := batches.flatMap Prod.snd

theorem releasedBy_append (a b : List Batch) :
    releasedBy (a ++ b) = releasedBy a ++ releasedBy b := List.flatMap_append ..

/-! ## Loading -/

/-- The placeholder `MatchEngine::new` restores from a pending row. -/
def restoredTiming (o : MarginOrder) : Option HedgeTiming :=
  o.hts.map fun hts =>
    ⟨0, hts, o.hedgeNewTsUs, o.hedgeTerminalTsUs, MatchEngine.loadPending.i64Min⟩

/-- What the maps and rows of an engine say at a key whose loaded row is `row`. -/
structure LoadedAt (e : MatchEngine) (k : ℤ) (row : Option MarginOrder) : Prop where
  orders : e.orders.get k = row.map fun o => { o with matchingState := .pending }
  timing : e.firstHedgeTiming k = row.bind restoredTiming
  fills : e.lastHedgeFillTsUs k = row.bind MarginOrder.fts
  counts : e.hedgeOrderCounts k = row.map MarginOrder.closeCount

theorem LoadedAt.columns {e : MatchEngine} {k : ℤ} {row : Option MarginOrder}
    (h : LoadedAt e k row) : columnsAt e.orders k = row.map MarginOrder.hedgeColumns := by
  unfold columnsAt
  rw [h.orders, Option.map_map]
  rfl

theorem loadedAt_step {l : List MarginOrder} {e e' : MatchEngine} {o : MarginOrder}
    (h : ∀ k, LoadedAt e k (l.find? (·.fkey = k))) (hstep : e.loadPending o = .ok e') :
    (∀ k, LoadedAt e' k ((l ++ [o]).find? (·.fkey = k))) ∧ e'.seenHedgeOrders = e.seenHedgeOrders := by
  unfold MatchEngine.loadPending at hstep
  split at hstep
  · cases hstep
  · split at hstep
    · cases hstep
    · rename_i hfresh
      cases hstep
      refine ⟨fun k => ?_, rfl⟩
      rw [List.find?_append]
      by_cases hk : k = o.fkey
      · -- The row's own key was in no map.
        have hget : e.orders.get o.fkey = none := by simpa using hfresh
        have hold := h o.fkey
        have hnone : l.find? (·.fkey = o.fkey) = none := by
          have horders := hold.orders
          rw [hget] at horders
          exact Option.map_eq_none_iff.mp horders.symm
        rw [hnone] at hold
        rw [hk, hnone, List.find?_cons_of_pos (by simp)]
        refine ⟨?_, ?_, ?_, Function.update_self ..⟩
        · rw [Table.get_put, if_pos rfl]
          rfl
        · dsimp only
          unfold restoredTiming
          cases hhts : o.hts with
          | none => simpa [hhts] using hold.timing
          | some hts => simp [hhts]
        · dsimp only
          cases hfts : o.fts with
          | none => simpa [hfts] using hold.fills
          | some fts => simp [hfts]
      · have hold := h k
        rw [List.find?_cons_of_neg (by simpa using Ne.symm hk), List.find?_nil, Option.or_none]
        refine ⟨?_, ?_, ?_, (Function.update_of_ne hk ..).trans hold.counts⟩
        · rw [Table.get_put, if_neg hk]
          exact hold.orders
        · rw [← hold.timing]
          dsimp only
          cases o.hts with
          | none => rfl
          | some hts => exact Function.update_of_ne hk ..
        · rw [← hold.fills]
          dsimp only
          cases o.fts with
          | none => rfl
          | some fts => exact Function.update_of_ne hk ..

/-- The row of `intra_orders` that is loaded at a key. -/
def pendingAt (stored : Orders) (k : ℤ) : Option MarginOrder :=
  (stored.get k).filter (·.matchingState = .pending)

theorem find?_loadPendingOrders (stored : Orders) (k : ℤ) :
    (loadPendingOrders stored).find? (·.fkey = k) = pendingAt stored k := by
  unfold pendingAt
  rw [← Table.get_filter]
  exact Table.find?_of_perm (sortByKey_perm _ _) k

/-- What a run starts from. -/
theorem new_loadedAt {stored : Orders} {ε : ℚ} {e : MatchEngine}
    (h : MatchEngine.new (loadPendingOrders stored) ε = .ok e) :
    (∀ k, LoadedAt e k (pendingAt stored k)) ∧ e.seenHedgeOrders = [] := by
  unfold MatchEngine.new at h
  split at h
  · cases h
  · rw [sortByKey_of_sorted ((loadPendingOrders_sorted stored).imp le_of_lt)] at h
    have hrun := run_prefix (P := fun past e => (∀ k, LoadedAt e k (past.find? (·.fkey = k))) ∧
      e.seenHedgeOrders = []) ?_ ⟨fun k => ⟨rfl, rfl, rfl, rfl⟩, rfl⟩ h
    · refine ⟨fun k => ?_, hrun.2⟩
      rw [← find?_loadPendingOrders]
      exact hrun.1 k
    · intro past o _ _ s t hs hstep
      obtain ⟨hloaded, hseen⟩ := loadedAt_step hs.1 hstep
      exact ⟨hloaded, hseen.trans hs.2⟩

/-! ## Seeding -/

/-- What the maps of an engine say at a key. -/
def mapsAt (e : MatchEngine) (k : ℤ) : Option HedgeTiming × Option ℤ × ℤ :=
  (e.firstHedgeTiming k, e.lastHedgeFillTsUs k, (e.hedgeOrderCounts k).getD 0)

theorem columnsOf_eq {e : MatchEngine} {k : ℤ} {timing : Option HedgeTiming} {fts : Option ℤ}
    {count : ℤ} (h : mapsAt e k = (timing, fts, count)) :
    e.columnsOf k = hedgeColumnsOf timing fts (some count) := by
  simp only [mapsAt, Prod.mk.injEq] at h
  obtain ⟨htiming, hfts, hcount⟩ := h
  unfold MatchEngine.columnsOf hedgeColumnsOf
  rw [htiming, hfts, hcount]
  rfl

/-- The Futures orders `intra_hedges` holds. -/
def storedHedges (hedges : Hedges) : List FuturesOrder := hedges.rows.map HedgeResult.order

theorem seedOne_mapsAt_self {e : MatchEngine} {history : HedgeHistory}
    (h : mapsAt e history.mainFkey = (none, none, 0)) : mapsAt (e.seedOne history) history.mainFkey
      = (some history.firstOrder, history.lastFillTsUs, max 0 history.orderCount) := by
  simp only [mapsAt, Prod.mk.injEq] at h ⊢
  obtain ⟨htiming, hfts, hcount⟩ := h
  refine ⟨?_, ?_, ?_⟩
  · rw [seedOne_first, Function.update_self, htiming]
    rfl
  · rw [seedOne_fills, recordFill_self, hfts]
    cases history.lastFillTsUs with
    | none => rfl
    | some ts => rfl
  · rw [seedOne_counts, Function.update_self, hcount]
    rfl

theorem seedOne_mapsAt_of_ne {e : MatchEngine} {history : HedgeHistory} {k : ℤ}
    (h : k ≠ history.mainFkey) : mapsAt (e.seedOne history) k = mapsAt e k := by
  unfold mapsAt
  rw [seedOne_first, seedOne_fills, seedOne_counts, Function.update_of_ne h, recordFill_of_ne _ h,
    Function.update_of_ne h]

/-- Seeding keys nothing is known of with what `intra_hedges` knows of them. -/
theorem seed_mapsAt {e : MatchEngine} (hedges : Hedges) {keys : List ℤ} (hnodup : keys.Nodup)
    (hfree : ∀ k ∈ keys, mapsAt e k = (none, none, 0)) (k : ℤ) :
    mapsAt (e.seedHedgeHistory (keys.filterMap (hedgeHistory hedges))) k = if k ∈ keys then
      (firstHedge (hedgesOf k (storedHedges hedges)), lastFill (hedgesOf k (storedHedges hedges)),
        ((hedgesOf k (storedHedges hedges)).length : ℤ))
    else mapsAt e k := by
  unfold MatchEngine.seedHedgeHistory
  induction keys generalizing e with
  | nil => rfl
  | cons first rest ih =>
    obtain ⟨hnot, hnodup⟩ := List.nodup_cons.mp hnodup
    obtain ⟨hfirst, hrest⟩ := List.forall_mem_cons.mp hfree
    have hearliest := firstHedge_earliest (hedgesOf first (storedHedges hedges))
    cases hhead : firstHedge (hedgesOf first (storedHedges hedges)) with
    | none =>
      have hnone : hedgeHistory hedges first = none := Option.map_eq_none_iff.mpr hhead
      rw [List.filterMap_cons_none hnone, ih hnodup hrest]
      by_cases hk : k = first
      · -- No hedge is stored for the key.
        rw [hhead] at hearliest
        have hempty : hedgesOf first (storedHedges hedges) = [] := List.map_eq_nil_iff.mp hearliest
        rw [hk, if_neg hnot, if_pos List.mem_cons_self, hfirst, hempty]
        rfl
      · simp only [List.mem_cons, hk, false_or]
    | some t =>
      have hsome : hedgeHistory hedges first = some ⟨first, t,
          lastFill (hedgesOf first (storedHedges hedges)),
          (hedgesOf first (storedHedges hedges)).length⟩ :=
        Option.map_eq_some_iff.mpr ⟨t, hhead, rfl⟩
      rw [List.filterMap_cons_some hsome, List.foldl_cons, ih hnodup]
      · by_cases hk : k = first
        · rw [hk, if_neg hnot, if_pos List.mem_cons_self, seedOne_mapsAt_self hfirst, hhead,
            max_eq_right (Int.natCast_nonneg _)]
        · rw [seedOne_mapsAt_of_ne hk]
          simp only [List.mem_cons, hk, false_or]
      · intro k hk
        have hne : k ≠ first := fun he => hnot (he ▸ hk)
        rw [seedOne_mapsAt_of_ne hne]
        exact hrest k hk

theorem seed_coherent {e : MatchEngine} (h : Coherent e) (history : List HedgeHistory) :
    Coherent (e.seedHedgeHistory history) := by
  unfold MatchEngine.seedHedgeHistory
  induction history generalizing e with
  | nil => exact h
  | cons first rest ih => exact ih (h.seedOne first)

/-- Seeding inserts nothing and counts no hedge as seen. -/
theorem seed_frame (e : MatchEngine) (history : List HedgeHistory) :
    coreAt (e.seedHedgeHistory history).orders = coreAt e.orders ∧
      (e.seedHedgeHistory history).seenHedgeOrders = e.seenHedgeOrders := by
  unfold MatchEngine.seedHedgeHistory
  induction history generalizing e with
  | nil => exact ⟨rfl, rfl⟩
  | cons first rest ih =>
    obtain ⟨horders, hseen⟩ := ih (e.seedOne first)
    exact ⟨horders.trans (seedOne_frame e first).1, hseen⟩

theorem columnsAt_isSome {orders : Orders} {k : ℤ} :
    (columnsAt orders k).isSome = (coreAt orders k).isSome := by
  unfold columnsAt coreAt
  rw [Option.isSome_map, Option.isSome_map]

/-! ## The events of a run -/

/-- The rows and results of an engine after the events `past`. -/
structure Handled (start : MatchEngine) (past : List MatchEvent)
    (s : MatchEngine × List HedgeResult) : Prop where
  hedges : s.2.map HedgeResult.order = futuresOf past
  keys : ∀ k, (columnsAt s.1.orders k).isSome ↔
    (columnsAt start.orders k).isSome ∨ k ∈ past.filterMap MatchEvent.marginFkey

/-- What it says of their hedges, when `start` is the engine before them. -/
structure Progress (start : MatchEngine) (past : List MatchEvent)
    (s : MatchEngine × List HedgeResult) : Prop where
  recorded : Recorded start (futuresOf past) s.1
  coherent : Coherent s.1

theorem futuresOf_margin (past : List MatchEvent) (order : MarginOrder) :
    futuresOf (past ++ [.margin order]) = futuresOf past := by
  rw [futuresOf_append]
  exact List.append_nil _

theorem futuresOf_futures (past : List MatchEvent) (order : FuturesOrder) :
    futuresOf (past ++ [.futures order]) = futuresOf past ++ [order] := futuresOf_append ..

theorem columnsAt_recordHedgeOrder_isSome (e : MatchEngine) (order : FuturesOrder) (k : ℤ) :
    (columnsAt (order.mainFkey.elim e fun mainFkey =>
      e.recordHedgeOrder mainFkey order).orders k).isSome = (columnsAt e.orders k).isSome := by
  rw [columnsAt_isSome, columnsAt_isSome]
  cases order.mainFkey with
  | none => rfl
  | some main =>
    rw [Option.elim_some, (coreAt_recordHedgeOrder e main order).1]

theorem Handled.step [Rounding] {start : MatchEngine} {past : List MatchEvent} {event : MatchEvent}
    {s t : MatchEngine × List HedgeResult} (h : Handled start past s)
    (hstep : applyEvent s event = .ok t) : Handled start (past ++ [event]) t := by
  cases event with
  | margin order =>
    obtain ⟨e', he', rfl⟩ := map_eq_ok.mp hstep
    obtain ⟨-, -, -, -, hcolumns⟩ := applyMargin_metadata he'
    refine ⟨?_, fun k => ?_⟩
    · rw [futuresOf_margin]
      exact h.hedges
    · rw [hcolumns, List.filterMap_append, List.mem_append]
      by_cases hk : k = order.fkey
      · rw [if_pos hk, hk]
        simp [MatchEvent.marginFkey]
      · rw [if_neg hk, h.keys]
        simp [MatchEvent.marginFkey, hk]
  | futures order =>
    obtain ⟨⟨e', result⟩, he', rfl⟩ := map_eq_ok.mp hstep
    obtain ⟨horder, -, -, -, -, hcolumns⟩ := applyFutures_metadata he'
    refine ⟨?_, fun k => ?_⟩
    · rw [List.map_append, h.hedges, futuresOf_futures, List.map_singleton, horder]
    · rw [hcolumns, columnsAt_recordHedgeOrder_isSome, h.keys, List.filterMap_append,
        List.mem_append]
      simp [MatchEvent.marginFkey]

theorem handled_apply [Rounding] {start e : MatchEngine} {events : List MatchEvent}
    {results : List HedgeResult} (hrun : start.apply events = .ok (e, results)) :
    Handled start (sortByKey MatchEvent.sortKey events) (e, results) := by
  have hstart : Handled start [] (start, []) := ⟨rfl, fun k => by simp⟩
  exact run_prefix (P := Handled start) (fun _ _ _ _ _ _ hs => hs.step) hstart hrun

/-- The rows of a run's engine are the loaded ones and the inserted ones. -/
theorem columnsAt_engine [Rounding] {start e loaded : MatchEngine} {results : List HedgeResult}
    {stored : Orders} {events : List MatchEvent}
    (hloaded : ∀ k, LoadedAt loaded k (pendingAt stored k))
    (hframe : coreAt start.orders = coreAt loaded.orders)
    (happly : start.apply events = .ok (e, results)) (k : ℤ) :
    (columnsAt e.orders k).isSome ↔
      (pendingAt stored k).isSome ∨ k ∈ events.filterMap MatchEvent.marginFkey := by
  rw [(handled_apply happly).keys k, columnsAt_isSome, hframe, ← columnsAt_isSome,
    (hloaded k).columns, Option.isSome_map,
    ((sortByKey_perm MatchEvent.sortKey events).filterMap _).mem_iff]

theorem Progress.margin [Rounding] {start e' : MatchEngine} {past : List MatchEvent}
    {s : MatchEngine × List HedgeResult} (h : Progress start past s) {order : MarginOrder}
    (hblank : order.hedgeColumns = .blank) (hcount : 0 ≤ (start.hedgeOrderCounts order.fkey).getD 0)
    (hstep : s.1.applyMargin order = .ok e') : Progress start (past ++ [.margin order]) (e', s.2) := by
  obtain ⟨hfirst, hfills, hcounts, hseen, -⟩ := applyMargin_metadata hstep
  obtain ⟨htiming, hkept, hfill, hnumber, hids⟩ := h.recorded
  refine ⟨⟨?_, ?_, ?_, ?_, ?_⟩, ?_⟩
  · rw [hfirst, futuresOf_margin]
    exact htiming
  · rw [hfirst, futuresOf_margin]
    exact hkept
  · rw [hfills, futuresOf_margin]
    exact hfill
  · rw [hcounts, futuresOf_margin]
    exact hnumber
  · rw [hseen, futuresOf_margin]
    exact hids
  · refine h.coherent.margin hblank ?_ hstep
    rw [hnumber]
    omega

theorem Progress.futures [Rounding] {start e' : MatchEngine} {past : List MatchEvent}
    {s : MatchEngine × List HedgeResult} (h : Progress start past s) {order : FuturesOrder}
    {result : HedgeResult}
    (hnew : order.clientOrderId ∉ (futuresOf past).map FuturesOrder.clientOrderId)
    (hstep : s.1.applyFutures order = .ok (e', result)) :
    Progress start (past ++ [.futures order]) (e', s.2 ++ [result]) := by
  refine ⟨?_, h.coherent.futures hstep⟩
  rw [futuresOf_futures]
  exact h.recorded.futures hnew hstep

/-- **A run's events.** -/
theorem progress_apply [Rounding] {start e : MatchEngine} {events : List MatchEvent}
    {results : List HedgeResult} (hcoherent : Coherent start) (hseen : start.seenHedgeOrders = [])
    (hdistinct : Distinct events)
    (hcount : ∀ k ∈ events.filterMap MatchEvent.marginFkey,
      0 ≤ (start.hedgeOrderCounts k).getD 0)
    (hrun : start.apply events = .ok (e, results)) :
    Progress start (sortByKey MatchEvent.sortKey events) (e, results) := by
  have hperm := sortByKey_perm MatchEvent.sortKey events
  have hstart : Progress start [] (start, []) := ⟨recorded_nil hseen, hcoherent⟩
  refine run_prefix (P := Progress start) ?_ hstart hrun
  intro past event rest hsplit s t hs hstep
  have hmem : event ∈ events := by
    rw [← hperm.mem_iff, hsplit]
    exact List.mem_append_right _ List.mem_cons_self
  cases event with
  | margin order =>
    obtain ⟨e', he', rfl⟩ := map_eq_ok.mp hstep
    exact hs.margin (hdistinct.blank order hmem)
      (hcount _ (List.mem_filterMap.mpr ⟨_, hmem, rfl⟩)) he'
  | futures order =>
    obtain ⟨⟨e', result⟩, he', rfl⟩ := map_eq_ok.mp hstep
    refine hs.futures ?_ he'
    have hids : ((futuresOf (past ++ .futures order :: rest)).map
        FuturesOrder.clientOrderId).Nodup := by
      rw [← hsplit]
      exact ((hperm.filterMap futures?).map FuturesOrder.clientOrderId).nodup_iff.mpr
        hdistinct.ids
    rw [futuresOf_append, List.map_append, List.nodup_append] at hids
    exact fun hold => hids.2.2 _ hold _ List.mem_cons_self rfl

/-! ## First hedges -/

/-- A first hedge as it comes back from a pending row. -/
def restored (t : HedgeTiming) : HedgeTiming :=
  ⟨0, t.createTsUs, t.newTsUs, t.terminalTsUs, MatchEngine.loadPending.i64Min⟩

/-- What a row keeps of its first hedge. -/
def times (t : HedgeTiming) : ℤ × Option ℤ × Option ℤ := (t.createTsUs, t.newTsUs, t.terminalTsUs)

/-- The first hedge after a run, when the known one competes as `seen` makes it. -/
def firstOf (seen : HedgeTiming → HedgeTiming) :
    Option HedgeTiming → Option HedgeTiming → Option HedgeTiming
  | none, new => new
  | some old, none => some old
  | some old, some new => if new.sortKey < (seen old).sortKey then some new else some old

theorem hedgeColumnsOf_inj {t t' : Option HedgeTiming} {fts : Option ℤ} {count : Option ℤ} :
    hedgeColumnsOf t fts count = hedgeColumnsOf t' fts count ↔ t.map times = t'.map times := by
  unfold hedgeColumnsOf
  cases t with
  | none =>
    cases t' with
    | none => simp
    | some b => simp
  | some a =>
    cases t' with
    | none => simp
    | some b => simp [times]

theorem firstHedge_append {past new : List FuturesOrder}
    (hids : ((past ++ new).map FuturesOrder.clientOrderId).Nodup) :
    firstHedge (past ++ new) = firstOf id (firstHedge past) (firstHedge new) := by
  refine (firstHedge_unique hids ?_).symm
  have hpast := firstHedge_earliest past
  have hnew := firstHedge_earliest new
  rw [List.map_append]
  cases hp : firstHedge past with
  | none =>
    rw [hp] at hpast
    replace hpast : past.map FuturesOrder.timing = [] := hpast
    rw [hpast]
    exact hnew
  | some old =>
    rw [hp] at hpast
    cases hn : firstHedge new with
    | none =>
      rw [hn] at hnew
      replace hnew : new.map FuturesOrder.timing = [] := hnew
      rw [hnew, List.append_nil]
      exact hpast
    | some t =>
      rw [hn] at hnew
      show EarliestTiming (if t.sortKey < old.sortKey then some t else some old) _
      split
      · rename_i hlt
        refine ⟨List.mem_append_right _ hnew.1, fun x hx => ?_⟩
        rcases List.mem_append.mp hx with hx | hx
        · exact NoLater.trans t old x (le_of_lt hlt) (hpast.2 x hx)
        · exact hnew.2 x hx
      · rename_i hlt
        refine ⟨List.mem_append_left _ hpast.1, fun x hx => ?_⟩
        rcases List.mem_append.mp hx with hx | hx
        · exact hpast.2 x hx
        · exact NoLater.trans old t x (not_lt.mp hlt) (hnew.2 x hx)

/-- The placeholder shows only where it changes the outcome. -/
theorem firstOf_times_iff (past new : Option HedgeTiming) :
    (firstOf restored past new).map times = (firstOf id past new).map times ↔
      ∀ o n, past = some o → new = some n →
        (n.sortKey < o.sortKey ↔ n.sortKey < (restored o).sortKey) ∨ times n = times o := by
  cases past with
  | none => simp [firstOf]
  | some o =>
    cases new with
    | none => simp [firstOf]
    | some n =>
      simp only [firstOf, id_eq, Option.some.injEq]
      constructor
      · rintro h _ _ rfl rfl
        by_cases hr : n.sortKey < (restored o).sortKey
        · by_cases ho : n.sortKey < o.sortKey
          · exact .inl ⟨fun _ => hr, fun _ => ho⟩
          · rw [if_pos hr, if_neg ho] at h
            exact .inr (Option.some.inj h)
        · by_cases ho : n.sortKey < o.sortKey
          · rw [if_neg hr, if_pos ho] at h
            exact .inr (Option.some.inj h).symm
          · exact .inl ⟨fun h => absurd h ho, fun h => absurd h hr⟩
      · intro h
        rcases h o n rfl rfl with hiff | htimes
        · simp only [hiff]
        · split <;> split <;> simp [htimes]

/-- The columns of a pending row after a run, given its hedges before and in the run. -/
def restarted (past new : List FuturesOrder) : HedgeColumns :=
  hedgeColumnsOf (firstOf restored (firstHedge past) (firstHedge new)) (lastFill (past ++ new))
    (some (past ++ new).length)

/-- What an engine's counts and fill times say of hedges before and during its events. -/
theorem recorded_fills_counts {start e : MatchEngine} {done past new : List FuturesOrder} {k : ℤ}
    {timing : Option HedgeTiming} (h : Recorded start done e)
    (hstart : mapsAt start k = (timing, lastFill past, (past.length : ℤ)))
    (hnew : (hedgesOf k done).Perm new) :
    e.lastHedgeFillTsUs k = lastFill (past ++ new) ∧
      (e.hedgeOrderCounts k).getD 0 = (past ++ new).length := by
  simp only [mapsAt, Prod.mk.injEq] at hstart
  obtain ⟨-, hfts, hcount⟩ := hstart
  constructor
  · refine lastFill_unique ?_
    have hfills := h.fills k
    rw [hfts] at hfills
    rw [List.filterMap_append]
    refine Best.append (r := (· ≥ ·)) (fun _ _ _ hab hbc => ge_trans hab hbc)
      (lastFill_latest past) (hfills.congr fun x => ?_)
    rw [List.mem_append, List.mem_append, (hnew.filterMap FuturesOrder.fillTsUs).mem_iff]
  · rw [h.counts k, hcount, hnew.length_eq, List.length_append, Nat.cast_add]

/-- A row whose hedges were all summarised before: the columns are the summary. -/
theorem recorded_summary {start e : MatchEngine} {done past new : List FuturesOrder} {k : ℤ}
    (h : Recorded start done e)
    (hstart : mapsAt start k = (firstHedge past, lastFill past, (past.length : ℤ)))
    (hnew : (hedgesOf k done).Perm new)
    (hids : ((past ++ new).map FuturesOrder.clientOrderId).Nodup) :
    e.columnsOf k = summary (past ++ new) := by
  obtain ⟨hfts, hcount⟩ := recorded_fills_counts h hstart hnew
  have hfirst : e.firstHedgeTiming k = firstHedge (past ++ new) := by
    refine firstHedge_unique hids ?_
    have htiming := h.timing k
    have hstart : start.firstHedgeTiming k = firstHedge past := congrArg Prod.fst hstart
    rw [hstart] at htiming
    rw [List.map_append]
    refine Best.append NoLater.trans (firstHedge_earliest past) (htiming.congr fun x => ?_)
    rw [List.mem_append, List.mem_append, (hnew.map FuturesOrder.timing).mem_iff]
  refine columnsOf_eq ?_
  unfold mapsAt
  rw [hfts, hcount, hfirst]

/-- A row restored from its own columns: an earlier hedge may lose against the placeholder. -/
theorem recorded_restarted {start e : MatchEngine} {done past new : List FuturesOrder} {k : ℤ}
    (h : Recorded start done e)
    (hstart : mapsAt start k = ((firstHedge past).map restored, lastFill past, (past.length : ℤ)))
    (hnew : (hedgesOf k done).Perm new) (hids : (new.map FuturesOrder.clientOrderId).Nodup) :
    e.columnsOf k = restarted past new := by
  obtain ⟨hfts, hcount⟩ := recorded_fills_counts h hstart hnew
  have hmaps : mapsAt e k
      = (e.firstHedgeTiming k, lastFill (past ++ new), ((past ++ new).length : ℤ)) := by
    unfold mapsAt
    rw [hfts, hcount]
  rw [columnsOf_eq hmaps]
  refine hedgeColumnsOf_inj.mpr ?_
  have hstart : start.firstHedgeTiming k = (firstHedge past).map restored :=
    congrArg Prod.fst hstart
  have htiming := h.timing k
  rw [hstart] at htiming
  have hmem : ∀ x,
      x ∈ ((firstHedge past).map restored).toList ++ (hedgesOf k done).map FuturesOrder.timing
        ↔ x ∈ ((firstHedge past).map restored).toList ++ new.map FuturesOrder.timing := by
    intro x
    rw [List.mem_append, List.mem_append, (hnew.map FuturesOrder.timing).mem_iff]
  replace htiming := htiming.congr hmem
  have hearliest := firstHedge_earliest new
  cases hp : firstHedge past with
  | none =>
    rw [hp] at htiming
    rw [firstHedge_unique hids htiming]
    rfl
  | some old =>
    rw [hp] at htiming hstart
    replace hstart : start.firstHedgeTiming k = some (restored old) := hstart
    -- If no new hedge is before the placeholder it stays, and it has the times of `old`.
    have hkept : (∀ order ∈ new, NoLater (restored old) order.timing) →
        (e.firstHedgeTiming k).map times = some (times old) := by
      intro hall
      rw [h.kept k (restored old) hstart fun order ho => hall order (hnew.mem_iff.mp ho)]
      rfl
    cases hn : firstHedge new with
    | none =>
      rw [hn] at hearliest
      have hempty : new = [] := List.map_eq_nil_iff.mp hearliest
      refine hkept fun order ho => ?_
      rw [hempty] at ho
      cases ho
    | some t =>
      rw [hn] at hearliest
      show _ = (if t.sortKey < (restored old).sortKey then some t else some old).map times
      split
      · rename_i hlt
        have hbest : EarliestTiming (some t) (((firstHedge past).map restored).toList
            ++ new.map FuturesOrder.timing) := by
          rw [hp]
          refine ⟨List.mem_append_right _ hearliest.1, fun x hx => ?_⟩
          rcases List.mem_append.mp hx with hx | hx
          · rw [List.mem_singleton.mp hx]
            exact le_of_lt hlt
          · exact hearliest.2 x hx
        cases he : e.firstHedgeTiming k with
        | none =>
          rw [he] at htiming
          exact absurd (show [restored old] ++ _ = [] from htiming) (by simp)
        | some u =>
          rw [he] at htiming
          -- `u` is no later than `t`, hence not the placeholder, hence a new hedge: `t` itself.
          have hut : NoLater u t := htiming.2 t (List.mem_append_right _ hearliest.1)
          rcases List.mem_append.mp htiming.1 with hu | hu
          · rw [List.mem_singleton.mp hu] at hut
            exact absurd hut (not_le.mpr hlt)
          · have hunique : some u = firstHedge new := by
              refine firstHedge_unique hids ⟨hu, fun x hx => ?_⟩
              exact NoLater.trans u t x hut (hearliest.2 x hx)
            rw [hunique, hn]
      · rename_i hlt
        refine hkept fun order ho => ?_
        exact NoLater.trans (restored old) t _ (not_lt.mp hlt)
          (hearliest.2 _ (List.mem_map_of_mem ho))

end CryptoNav.Sync
