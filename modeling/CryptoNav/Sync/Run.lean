import CryptoNav.Matching.Restart
import CryptoNav.Sync.Events
import CryptoNav.Sync.Merge

/-!
# A run

`main` of `sync_intra_orders.rs`: read the log from the source cursor to the verified endpoint,
merge the lifecycles, release those that are terminal and older than the reorder window, match
them against the pending rows, and advance the watermarks. A run is one transaction: one that
fails leaves the store as it was.

The paths of the log and how its files are decoded are left out: a log is a list of rows, in the
order in which they lie in the files. That runs may overlap is in `Concurrent`, where the same
fold and the same matching are done under a lock; here a run has the store for itself. What is
printed at its end is left out.
-/

set_option autoImplicit false

namespace CryptoNav.Sync

open CryptoNav.Lib CryptoNav.Matching

abbrev Hedges := Table fun h : HedgeResult => h.order.clientOrderId

/-- The tables of a strategy, with the columns of `intra_match_watermark` that are read or
    that a theorem is about. -/
structure Store where
  lifecycles : Lifecycles := .empty
  orders : Orders := .empty
  hedges : Hedges := .empty
  sourceReadThroughUs : ℤ
  eventsReleasedThroughUs : ℤ
  marginFinalizedThroughUs : ℤ

structure Args where
  endMs : Option ℤ := none
  reorderMinutes : ℤ := 10
  qtyEpsilon : ℚ

/-! ## `intra_hedges` and `intra_orders` -/

/-- The summary `load_hedge_history` selects for one key. -/
def hedgeHistory (hedges : Hedges) (fkey : ℤ) : Option HedgeHistory :=
  let mine := (hedges.rows.map HedgeResult.order).filter (·.mainFkey = some fkey)
  (sortByKey HedgeTiming.sortKey (mine.map FuturesOrder.timing)).head?.map fun firstOrder =>
    { mainFkey := fkey, firstOrder, lastFillTsUs := (mine.filterMap (·.fillTsUs)).max?
      orderCount := mine.length }

def loadHedgeHistory (hedges : Hedges) (fkeys : List ℤ) : List HedgeHistory :=
  (sortedSet fkeys).filterMap (hedgeHistory hedges)

/-- The `CHECK` constraints of `intra_orders`. A row that fails one of them makes the statement fail
    and with it the run. -/
def satisfiesChecks (o : MarginOrder) : Prop :=
  0 < o.cts ∧ 0 ≤ o.amount ∧ 0 < o.openFillAmount ∧ 0 ≤ o.remainingAmount ∧ 0 ≤ o.camount ∧
    0 ≤ o.nettedAmount

instance (o : MarginOrder) : Decidable (satisfiesChecks o) :=
  inferInstanceAs (Decidable (_ ∧ _ ∧ _ ∧ _ ∧ _ ∧ _))

/-- `ON CONFLICT (fkey) DO UPDATE`: the columns that are not set keep their values. -/
def overwrite (stored row : MarginOrder) : MarginOrder :=
  { row with
    symbol := stored.symbol, side := stored.side, cts := stored.cts, openUts := stored.openUts
    price := stored.price, amount := stored.amount, range := stored.range, tlen := stored.tlen
    openFillAmount := stored.openFillAmount, openSourceTsUs := stored.openSourceTsUs }

def upsertOrders (stored : Orders) (rows : List MarginOrder) : Except String Orders :=
  rows.foldlM (fun stored row =>
    if satisfiesChecks row then .ok (stored.upsert overwrite row)
    else .error "upsert synthesized intra orders") stored

/-- `ON CONFLICT (client_order_id) DO NOTHING`. -/
def insertHedges (stored : Hedges) (rows : List HedgeResult) : Hedges :=
  rows.foldl (Table.upsert fun stored _ => stored) stored

/-- Every row given is there, with the columns that are not set from the row it met. -/
theorem get_upsertOrders {stored orders : Orders} {rows : List MarginOrder}
    (hnodup : (rows.map MarginOrder.fkey).Nodup) (h : upsertOrders stored rows = .ok orders)
    (fkey : ℤ) : orders.get fkey = (rows.find? (·.fkey = fkey)).elim (stored.get fkey)
      fun row => some ((stored.get fkey).elim row (overwrite · row)) := by
  refine run_prefix (P := fun past orders => ∀ fkey, orders.get fkey
    = (past.find? (·.fkey = fkey)).elim (stored.get fkey)
      fun row => some ((stored.get fkey).elim row (overwrite · row))) ?_ (fun _ => rfl) h fkey
  intro past row rest hrows s t hs hstep fkey
  split at hstep
  · cases hstep
    have hkey : ∀ stored row : MarginOrder, stored.fkey = row.fkey →
        (overwrite stored row).fkey = row.fkey := fun _ _ _ => rfl
    rw [Table.get_upsert hkey, hs, List.find?_append]
    by_cases hk : fkey = row.fkey
    · have hnone : past.find? (·.fkey = fkey) = none := by
        rw [List.find?_eq_none]
        intro x hx hkey
        rw [hrows, List.map_append, List.nodup_append] at hnodup
        exact hnodup.2.2 _ (List.mem_map_of_mem hx) _ List.mem_cons_self (by simpa [hk] using hkey)
      rw [if_pos hk, hnone, List.find?_cons_of_pos (by simpa using hk.symm)]
      rfl
    · rw [if_neg hk, List.find?_cons_of_neg (by simpa using Ne.symm hk), List.find?_nil,
        Option.or_none]
  · cases hstep

/-- Hedges with new ids are added, whatever there was. -/
theorem insertHedges_rows {stored : Hedges} {rows : List HedgeResult}
    (hnodup : ((stored.rows ++ rows).map fun h => h.order.clientOrderId).Nodup) :
    (insertHedges stored rows).rows.Perm (stored.rows ++ rows) := by
  induction rows generalizing stored with
  | nil => rw [List.append_nil]; exact List.Perm.refl _
  | cons row rest ih =>
    have hfree : stored.get row.order.clientOrderId = none := by
      rw [Table.get_eq_none]
      intro x hx hk
      rw [List.map_append, List.nodup_append] at hnodup
      exact hnodup.2.2 _ (List.mem_map_of_mem hx) _ List.mem_cons_self hk
    have hput : stored.upsert (fun stored _ => stored) row = stored.put row := by
      unfold Table.upsert
      rw [hfree]
      rfl
    have hmove : (row :: stored.rows ++ rest).Perm (stored.rows ++ row :: rest) :=
      List.perm_middle.symm
    have hperm : (stored.put row).rows.Perm (row :: stored.rows) := Table.put_perm hfree
    show (insertHedges (stored.upsert (fun stored _ => stored) row) rest).rows.Perm _
    rw [hput]
    refine (ih ?_).trans ((hperm.append_right rest).trans hmove)
    exact (((hperm.append_right rest).trans hmove).map _).nodup_iff.mpr hnodup

/-! ## Matching -/

/-- From `load_pending_orders` to `insert_hedges`. The keys `load_hedge_history` asks for are
    those of the Margin orders that `lifecycle_events` makes of the same rows. -/
def matchReleased [Rounding] (ε : ℚ) (s : Orders × Hedges) (events : List MatchEvent) :
    Except String (Orders × Hedges) := do
  let engine ← MatchEngine.new (loadPendingOrders s.1) ε
  let history := loadHedgeHistory s.2 (events.filterMap MatchEvent.marginFkey)
  let (engine, hedges) ← (engine.seedHedgeHistory history).apply events
  let orders ← upsertOrders s.1 engine.intoOrders
  pure (orders, insertHedges s.2 hedges)

/-- What an accepted batch of events went through. -/
theorem matchReleased_cases [Rounding] {ε : ℚ} {s s' : Orders × Hedges} {events : List MatchEvent}
    (h : matchReleased ε s events = .ok s') : ∃ loaded engine results,
      MatchEngine.new (loadPendingOrders s.1) ε = .ok loaded ∧
      (loaded.seedHedgeHistory (loadHedgeHistory s.2
        (events.filterMap MatchEvent.marginFkey))).apply events = .ok (engine, results) ∧
      upsertOrders s.1 engine.intoOrders = .ok s'.1 ∧ s'.2 = insertHedges s.2 results := by
  obtain ⟨loaded, hloaded, h⟩ := bind_eq_ok.mp h
  obtain ⟨⟨engine, results⟩, happly, h⟩ := bind_eq_ok.mp h
  obtain ⟨orders, horders, h⟩ := bind_eq_ok.mp h
  cases pure_eq_ok.mp h
  exact ⟨loaded, engine, results, hloaded, happly, horders, rfl⟩

/-! ## The run -/

/-- The rows from one cursor to another, in source order, folded. They are downloaded in windows
    of `source_chunk_minutes` that share one map, so the windows do not show. -/
def fetchLifecycleDeltas [Rounding] (log : List OrderRow) (startUs endUs : ℤ) :
    Except String (List Lifecycle) :=
  ((log.filter fun r => startUs ≤ r.source ∧ r.source < endUs).foldlM foldInto .empty).map
    Table.rows

/-- `terminal AND last_source_ts_us <= released_through_us` -/
def isReady (releasedThroughUs : ℤ) (l : Lifecycle) : Bool :=
  l.terminal && decide (l.lastSourceTsUs ≤ releasedThroughUs)

/-- `LEAST` of `released_through_us` and the last times before a pending fill and before an
    unreleased lifecycle with a fill. -/
def marginFinalizedWatermark (orders : Orders) (lifecycles : Lifecycles) (releasedThroughUs : ℤ) :
    ℤ :=
  let pending := (orders.rows.filter (·.matchingState = .pending)).map (·.openSourceTsUs - 1)
  let unreleased := (lifecycles.rows.filter (0 < ·.filledAmount)).map (·.firstSourceTsUs - 1)
  min (min (pending.min?.getD releasedThroughUs) (unreleased.min?.getD releasedThroughUs))
    releasedThroughUs

/-- The exclusive end of the rows to read: `--end-ms` can only lower the verified endpoint. -/
def Args.sourceEndUs (args : Args) (verifiedThroughMs : ℤ) : ℤ :=
  (min (args.endMs.getD verifiedThroughMs) verifiedThroughMs + 1) * 1000

def Args.reorderUs (args : Args) : ℤ := args.reorderMinutes * 60000000

/-- `validate_args`, as far as the run depends on it. -/
def Args.validate (args : Args) : Except String Unit :=
  if args.reorderMinutes < 0 then .error "--reorder-minutes must be non-negative"
  else if args.qtyEpsilon < 0 then .error "--qty-epsilon must be finite and non-negative"
  else .ok ()

def run [Rounding] (log : List OrderRow) (verifiedThroughMs : ℤ) (args : Args) (s : Store) :
    Except String Store := do
  args.validate
  let sourceEndUs := args.sourceEndUs verifiedThroughMs
  if sourceEndUs < s.sourceReadThroughUs then
    .error s!"requested endpoint {sourceEndUs} is behind source cursor {s.sourceReadThroughUs}"
  else
    let deltas ← fetchLifecycleDeltas log s.sourceReadThroughUs sourceEndUs
    let released := max (sourceEndUs - args.reorderUs - 1) s.eventsReleasedThroughUs
    let lifecycles := upsertLifecycles s.lifecycles deltas
    let ready := lifecycles.rows.filter (isReady released)
    let events ← lifecycleEvents args.qtyEpsilon ready
    let (orders, hedges) ← matchReleased args.qtyEpsilon (s.orders, s.hedges) events
    -- What was released is deleted; the statements share their condition, so the counts agree.
    let lifecycles := lifecycles.filter (!isReady released ·)
    pure {
      lifecycles, orders, hedges
      sourceReadThroughUs := sourceEndUs
      eventsReleasedThroughUs := released
      marginFinalizedThroughUs := marginFinalizedWatermark orders lifecycles released }

/-- The store of a strategy whose source starts at `startUs`. -/
def Store.start (startUs : ℤ) : Store where
  sourceReadThroughUs := startUs
  eventsReleasedThroughUs := startUs - 1
  marginFinalizedThroughUs := startUs - 1

end CryptoNav.Sync
