import CryptoNav.Lib.Balance
import CryptoNav.Lib.Rounding
import CryptoNav.Matching.Tally
import CryptoNav.Sync.Concurrent
import CryptoNav.Sync.Deltas
import CryptoNav.Sync.Rows

/-!
# The books after late rows

Rows may arrive for an order that was released and matched before; they make a new lifecycle, which
is released again. `upsert_orders` then overwrites the matched quantities of the stored Margin row
but not its fill, and `insert_hedges` drops a Futures row that is already there although the engine
has allocated it once more. Where neither happens (`FirstReleased`) the stored tables stay balanced
over every sequence of runs (`Books`).

The balance is one of the numbers that are stored, so it also takes that no sum of fills and no
difference of amounts is rounded. That fills are multiples of one unit, and none of the sums too
great for it (`FillsOn`), is enough: what matching moves is never more than a fill.
-/

set_option autoImplicit false

namespace CryptoNav.Sync

open CryptoNav.Lib CryptoNav.Matching CryptoNav.Matching.MatchEngine

/-! ## Runs, one after the other -/

/-- What the center holds at the time of a run, the checkpoint and the command line. -/
structure Request where
  log : List FrameRow
  verifiedThroughMs : ℤ
  args : CommandLine

namespace Request

/-- `--rebuild`. -/
def reset (alignedFromMs : ℤ) (r : Request) (s : Store) : Store :=
  if r.args.rebuild then .start (alignedFromMs * 1000) else s

/-- What the run commits, if it gets there. -/
def commit (r : Request) (s : Store) : Except String Commit :=
  (Download.start r.args r.verifiedThroughMs s).map fun d =>
    { d with frame := sourceWindow r.log d.startUs d.endUs }.commit

end Request

/-- A run that no other run meets. One that fails leaves what was committed, the reset included. -/
def syncIntraOrders [Rounding] (alignedFromMs : ℤ) (s : Store) (r : Request) : Store :=
  match r.args.validate with
  | .error _ => s
  | .ok _ =>
    let s := r.reset alignedFromMs s
    match r.commit s with
    | .error _ => s
    | .ok c => (synthesize s c).toOption.getD s

/-- The books of a store: each Margin row accounts for its fill, and for each symbol what was hedged
    is what was allocated, both up to `ε` for each Margin order. -/
def Balanced (ε : ℚ) (s : Store) : Prop :=
  (∀ o ∈ s.orders.rows,
    |o.openFillAmount - (o.remainingAmount + o.camount + o.nettedAmount)| ≤ ε) ∧
  ∀ symbol, |((s.orders.rows.filter (·.symbol = symbol)).map MarginOrder.camount).sum
      - allocatedSum s.hedges.rows symbol|
    ≤ ε * (s.orders.rows.filter (·.symbol = symbol)).length

/-! ## Orders released once -/

/-- The terminal lifecycles whose last row is old enough, among those stored and those that the rows
    of the commit make. -/
def releasing [Rounding] (s : Store) (c : Commit) : List Lifecycle :=
  match foldFrame c.frame .empty with
  | .error _ => []
  | .ok deltas => (mergedLifecycles s deltas).rows.filter (isReady c.releasedThroughUs)

/-- No filled order among them was matched before, and no filled Futures order shares its id. It is
    asked of what the run is about to release, before it does. -/
def FirstReleased [Rounding] (s : Store) (c : Commit) : Prop :=
  ∀ l ∈ releasing s c, c.qtyEpsilon < l.filledAmount →
    (isMargin l.venue → (s.orders.get l.clientOrderId).all (·.matchingState = .pending)) ∧
    (isFutures l.venue → (s.hedges.get l.clientOrderId).isNone ∧
      ∀ l' ∈ releasing s c, isFutures l'.venue → l'.clientOrderId = l.clientOrderId → l' = l)

instance {_ : Rounding} (s : Store) (c : Commit) : Decidable (FirstReleased s c) :=
  inferInstanceAs (Decidable (∀ l ∈ releasing s c, _ → (_ → _) ∧ (_ → _)))

/-! ## Amounts that are not rounded -/

/-- The rows that the commit folds. -/
def Commit.orderRows (c : Commit) : List OrderRow := c.frame.filterMap FrameRow.orderRow

/-- `filled_amount`, as stored. -/
def Store.filledOf (s : Store) (key : OrderKey) : ℚ :=
  (s.lifecycles.get key).elim 0 Lifecycle.filledAmount

/-- Every fill is on the grid, and so is all that is filled of its order, as stored and by the rows
    of the commit together. -/
def FillsOn (G : ℚ → Prop) (s : Store) (c : Commit) : Prop :=
  ∀ r ∈ c.orderRows, G r.fill ∧
    G (s.filledOf r.key + ((rowsOf r.key c.orderRows).map OrderRow.fill).sum)

instance (G : ℚ → Prop) [DecidablePred G] (s : Store) (c : Commit) : Decidable (FillsOn G s c) :=
  inferInstanceAs (Decidable (∀ r ∈ c.orderRows, _ ∧ _))

/-- The condition on a run. A run that is refused changes nothing, so nothing is asked of it. -/
def Regular [Rounding] (G : ℚ → Prop) (alignedFromMs : ℤ) (s : Store) (r : Request) : Prop :=
  match r.commit (r.reset alignedFromMs s) with
  | .error _ => True
  | .ok c => FirstReleased (r.reset alignedFromMs s) c ∧ FillsOn G (r.reset alignedFromMs s) c

instance {_ : Rounding} (G : ℚ → Prop) [DecidablePred G] (alignedFromMs : ℤ) (s : Store)
    (r : Request) : Decidable (Regular G alignedFromMs s r) := by
  unfold Regular
  split
  · infer_instance
  · infer_instance

section

variable [Rounding] {G : ℚ → Prop} (hG : Grid G)

include hG

/-- What a fold adds up for an order is on the grid, and nothing of it was rounded. -/
theorem fold_filled {rows : List OrderRow} {l : Option Lifecycle} (h : Folds rows l) {c : ℚ}
    (hfills : ∀ r ∈ rows, G r.fill) (hc : G c) (hsum : (rows.map OrderRow.fill).sum ≤ c) :
    ∀ m ∈ l, m.filledAmount = (rows.map OrderRow.fill).sum ∧ G m.filledAmount := by
  intro m hm
  obtain ⟨n, hn, hsteady⟩ := Option.map_eq_some_iff.mp ((congrArg (Option.map Lifecycle.steady)
    (Option.mem_def.mp hm)).symm.trans h.steady).symm
  obtain ⟨hrunning, hmem⟩ := hG.runningSum_eq (List.forall_mem_map.mpr hfills) hc hsum
  have hfilled : m.filledAmount = (rows.map OrderRow.fill).sum :=
    (steady_fields hsteady).2.2.1.symm.trans ((fold_sums hn).1.trans hrunning)
  exact ⟨hfilled, hfilled ▸ hmem⟩

/-- What is filled of an order after the upsert. -/
theorem merged_filled {s : Store} {c : Commit} (hstored : ∀ l ∈ s.lifecycles.rows, G l.filledAmount)
    (hfills : FillsOn G s c) {deltas : Lifecycles}
    (hdeltas : foldFrame c.frame .empty = .ok deltas) :
    ∀ l ∈ (mergedLifecycles s deltas).rows, G l.filledAmount := by
  intro l hl
  have hget : upsertLifecycle (s.lifecycles.get l.key) (deltas.get l.key) = some l :=
    (get_upsertLifecycles s.lifecycles deltas l.key).symm.trans (Table.mem_rows.mp hl)
  have hfolds : Folds (rowsOf l.key c.orderRows) (deltas.get l.key) :=
    deltas_get (foldFrame_orderRow hdeltas).2 l.key
  have hrows : ∀ r ∈ rowsOf l.key c.orderRows, G r.fill :=
    fun r hr => (hfills r (mem_rowsOf.mp hr).1).1
  have hold : G (s.filledOf l.key) := by
    unfold Store.filledOf
    cases hs : s.lifecycles.get l.key with
    | none => exact hG.zero
    | some stored => exact hstored stored (Table.get_eq_some.mp hs).1
  cases hd : deltas.get l.key with
  | none =>
    rw [hd, upsertLifecycle_none] at hget
    exact hstored l (Table.get_eq_some.mp hget).1
  | some delta =>
    -- There is a row, so the order's whole fill is on the grid.
    have htotal : G (s.filledOf l.key + ((rowsOf l.key c.orderRows).map OrderRow.fill).sum) := by
      obtain ⟨r, hr, -⟩ := hfolds.described delta hd
      obtain ⟨hr, hkey⟩ := mem_rowsOf.mp hr
      exact hkey ▸ (hfills r hr).2
    obtain ⟨hsum, hmem⟩ := fold_filled hG hfolds hrows htotal
      (le_add_of_nonneg_left (hG.nonneg hold)) delta hd
    cases hs : s.lifecycles.get l.key with
    | none =>
      rw [hs, hd] at hget
      cases hget
      exact hmem
    | some stored =>
      have hfilledOf : s.filledOf l.key = stored.filledAmount := by
        unfold Store.filledOf
        rw [hs]
        rfl
      rw [hs, hd] at hget
      cases hget
      rw [hfilledOf] at hold htotal
      show G (Rounding.fl (stored.filledAmount + delta.filledAmount))
      rw [hsum, hG.fl htotal]
      exact htotal

end

/-! ## What the tables take over -/

/-- Hedges that meet a stored one, or each other, are dropped; if these were allocated nothing, no
    allocation is. -/
theorem insertHedges_allocated {stored : Hedges} {rows : List HedgeResult}
    (hstored : ∀ h ∈ rows, stored.get h.order.clientOrderId ≠ none → h.allocatedAmount = 0)
    (hrows : rows.Pairwise fun a b =>
      a.order.clientOrderId = b.order.clientOrderId → b.allocatedAmount = 0) (symbol : String) :
    allocatedSum (insertHedges stored rows).rows symbol
      = allocatedSum (stored.rows ++ rows) symbol := by
  induction rows generalizing stored with
  | nil => rw [List.append_nil]; rfl
  | cons row rest ih =>
    obtain ⟨hrow, hrest⟩ := List.pairwise_cons.mp hrows
    obtain ⟨hfirst, hstored⟩ := List.forall_mem_cons.mp hstored
    show allocatedSum (insertHedges (stored.upsert (fun stored _ => stored) row) rest).rows symbol = _
    have hsplit : allocatedSum (stored.rows ++ row :: rest) symbol
        = (if row.order.symbol = symbol then row.allocatedAmount else 0)
          + allocatedSum (stored.rows ++ rest) symbol := by
      rw [allocatedSum_perm List.perm_middle, allocatedSum_cons]
    cases hget : stored.get row.order.clientOrderId with
    | none =>
      have hput : stored.upsert (fun stored _ => stored) row = stored.put row := by
        unfold Table.upsert
        rw [hget]
        rfl
      have hperm : (stored.put row).rows.Perm (row :: stored.rows) := Table.put_perm hget
      rw [hput, ih ?_ hrest, allocatedSum_perm (hperm.append_right rest), hsplit, List.cons_append,
        allocatedSum_cons]
      intro h hh hne
      rw [Table.get_put] at hne
      split at hne
      · rename_i hkey
        exact hrow h hh hkey.symm
      · exact hstored h hh hne
    | some old =>
      have hkeep : stored.upsert (fun stored _ => stored) row = stored := by
        refine Table.ext fun k => ?_
        rw [Table.get_upsert (fun _ _ hkey => hkey)]
        split
        · rename_i hk
          rw [hk, hget]
          rfl
        · rfl
      have hzero : row.allocatedAmount = 0 := hfirst (by rw [hget]; exact Option.some_ne_none _)
      rw [hkeep, ih hstored hrest, hsplit, hzero, ite_self, zero_add]

theorem insertHedges_mem {stored : Hedges} {rows : List HedgeResult} {h : HedgeResult}
    (hmem : h ∈ (insertHedges stored rows).rows) : h ∈ stored.rows ∨ h ∈ rows := by
  induction rows generalizing stored with
  | nil => exact .inl hmem
  | cons row rest ih =>
    rcases ih hmem with hmem | hmem
    · rcases Table.mem_put.mp hmem with rfl | ⟨hmem, -⟩
      · cases hget : stored.get row.order.clientOrderId with
        | none => exact .inr List.mem_cons_self
        | some old => exact .inl (Table.get_eq_some.mp hget).1
      · exact .inl hmem
    · exact .inr (List.mem_cons_of_mem _ hmem)

/-- What a loaded and seeded engine holds has the fixed columns of the pending row. -/
theorem seeded_fixed {stored : Orders} {ε : ℚ} {loaded : MatchEngine}
    (h : MatchEngine.new (loadPendingOrders stored) ε = .ok loaded) (history : List HedgeHistory)
    (k : ℤ) : ((loaded.seedHedgeHistory history).orders.get k).map fixed
      = (pendingAt stored k).map fixed := by
  rw [fixed_core, (seed_frame loaded history).1, ← fixed_core, ((new_loadedAt h).1 k).orders,
    Option.map_map]
  rfl

/-- If every event's order is new, what `upsert_orders` leaves is the engine's rows over the
    stored ones. -/
theorem upsertOrders_eq [Rounding] {stored orders : Orders} {start e : MatchEngine}
    {events : List MatchEvent} {results : List HedgeResult}
    (hstart : ∀ k, (start.orders.get k).map fixed = (pendingAt stored k).map fixed)
    (happly : start.apply events = .ok (e, results))
    (hnew : ∀ order, .margin order ∈ events → stored.get order.fkey = none)
    (h : upsertOrders stored e.intoOrders = .ok orders) : orders = stored.putAll e.intoOrders := by
  have hnodup : (e.intoOrders.map MarginOrder.fkey).Nodup :=
    List.pairwise_map.mpr (e.orders.sorted.imp ne_of_lt)
  refine Table.ext fun k => ?_
  rw [get_upsertOrders hnodup h, Table.get_putAll stored hnodup]
  show (e.orders.get k).elim _ _ = (e.orders.get k).or _
  cases hrow : e.orders.get k with
  | none => rfl
  | some row =>
    cases hold : stored.get k with
    | none => rfl
    | some old =>
      refine congrArg some (overwrite_eq ?_)
      rcases apply_fixed happly hrow with hfixed | ⟨order, horder, hkey, -⟩
      · rw [hstart] at hfixed
        obtain ⟨loaded, hloaded, hfixed⟩ := Option.map_eq_some_iff.mp hfixed
        cases hold.symm.trans (Option.filter_eq_some_iff.mp hloaded).1
        exact hfixed.symm
      · rw [← hkey, hnew order horder] at hold
        cases hold

/-! ## One release -/

/-- The events of orders that are released for the first time. -/
structure FirstEvents (G : ℚ → Prop) (ε : ℚ) (s : Orders × Hedges) (events : List MatchEvent) :
    Prop where
  incoming : ∀ event ∈ events, event.Incoming G
  margin : ∀ order, .margin order ∈ events →
    (s.1.get order.fkey).all (·.matchingState = .pending)
  futures : ∀ order, .futures order ∈ events → ε < order.amount →
    s.2.get order.clientOrderId = none
  distinct : (futuresOf events).Pairwise fun a b =>
    a.clientOrderId = b.clientOrderId → a.amount ≤ ε ∧ b.amount ≤ ε

/-- What is dropped of their hedges was allocated nothing. -/
theorem FirstEvents.insert_allocated {G : ℚ → Prop} {ε : ℚ} {s : Orders × Hedges}
    {events : List MatchEvent} (h : FirstEvents G ε s events) {results : List HedgeResult}
    (horders : results.map HedgeResult.order = futuresOf (sortByKey MatchEvent.sortKey events))
    (hdust : ∀ result ∈ results, result.order.amount ≤ ε → result.allocatedAmount = 0)
    (symbol : String) : allocatedSum (insertHedges s.2 results).rows symbol
      = allocatedSum (s.2.rows ++ results) symbol := by
  have hperm : (futuresOf (sortByKey MatchEvent.sortKey events)).Perm (futuresOf events) :=
    (sortByKey_perm MatchEvent.sortKey events).filterMap futures?
  refine insertHedges_allocated (fun result hresult hstored => ?_) ?_ symbol
  · have hmem : result.order ∈ futuresOf events := by
      rw [← hperm.mem_iff, ← horders]
      exact List.mem_map_of_mem hresult
    refine hdust result hresult (not_lt.mp fun hfilled => ?_)
    exact hstored (h.futures result.order (mem_futuresOf.mp hmem) hfilled)
  · have hdistinct : (results.map HedgeResult.order).Pairwise fun a b =>
        a.clientOrderId = b.clientOrderId → a.amount ≤ ε ∧ b.amount ≤ ε := by
      rw [horders]
      exact (hperm.pairwise_iff fun hab hba => (hab hba.symm).symm).mpr h.distinct
    refine (List.pairwise_map.mp hdistinct).imp_of_mem fun _ hb hab hkey => ?_
    exact hdust _ hb (hab hkey).2

/-- The market behind the tables of a strategy. The tables do not say in which order rows were
    queued, and the market is one that could have led to them. -/
structure Stands (G : ℚ → Prop) (ε : ℚ) (B : Book) (s : Orders × Hedges) : Prop where
  proper : B.Proper ε
  stores : Stores s.1 B
  balanced : B.Balanced G ε s.2.rows

/-- The engine of a run after the events `past`. -/
structure Progresses (G : ℚ → Prop) (ε : ℚ) (s : Orders × Hedges) (start : MatchEngine)
    (past : List MatchEvent) (r : MatchEngine × List HedgeResult) : Prop where
  handled : Handled start past r
  fresh : ∀ order, .margin order ∈ past → s.1.get order.fkey = none
  market : ∃ t, Tracks ε (coreAt s.1) s.2.rows r t ∧ t.1.Balanced G ε t.2

section

variable [Rounding] {G : ℚ → Prop} {ε : ℚ}

theorem Progresses.step (hG : Grid G) {s : Orders × Hedges} {start : MatchEngine}
    {past : List MatchEvent} {r r' : MatchEngine × List HedgeResult}
    (h : Progresses G ε s start past r) (hε : 0 ≤ ε)
    (hloaded : ∀ k, (columnsAt start.orders k).isSome = (pendingAt s.1 k).isSome)
    {event : MatchEvent} (hincoming : event.Incoming G)
    (hmargin : ∀ order, event = .margin order →
      (s.1.get order.fkey).all (·.matchingState = .pending))
    (hstep : applyEvent r event = .ok r') : Progresses G ε s start (past ++ [event]) r' := by
  -- What is pending was loaded, and the engine refuses a key it has.
  have hfree : ∀ order, event = .margin order → r.1.orders.get order.fkey = none →
      s.1.get order.fkey = none := by
    intro order he hget
    have hpending : pendingAt s.1 order.fkey = none := by
      rw [← Option.not_isSome_iff_eq_none, ← hloaded]
      intro hstart
      have hkey := (h.handled.keys order.fkey).mpr (.inl hstart)
      unfold columnsAt at hkey
      rw [hget] at hkey
      cases hkey
    cases hstored : s.1.get order.fkey with
    | none => rfl
    | some old =>
      have hstate : decide (old.matchingState = .pending) = true := by
        have hall := hmargin order he
        rwa [hstored] at hall
      unfold pendingAt at hpending
      rw [hstored, Option.filter_some, if_pos hstate] at hpending
      cases hpending
  obtain ⟨t, htracks, hbalanced⟩ := h.market
  refine ⟨h.handled.step hstep, fun order horder => ?_, ?_⟩
  · rcases List.mem_append.mp horder with horder | horder
    · exact h.fresh order horder
    · have he := (List.mem_singleton.mp horder).symm
      subst he
      obtain ⟨e', he', -⟩ := map_eq_ok.mp hstep
      exact hfree order rfl (applyMargin_accepted he').2
  · refine htracks.balanced_step hG hbalanced hε hincoming (fun order he hget => ?_) hstep
    unfold coreAt
    rw [hfree order he hget]
    rfl

/-- **One release** of first events leaves tables that a market stands behind. -/
theorem Stands.release (hG : Grid G) {B : Book} {s s' : Orders × Hedges} (h : Stands G ε B s)
    (hε : 0 ≤ ε) {events : List MatchEvent} (hfirst : FirstEvents G ε s events)
    (hok : matchReleased ε s events = .ok s') : ∃ B', Stands G ε B' s' := by
  obtain ⟨loaded, e, results, hnew, happly, horders, hhedges⟩ := matchReleased_cases hok
  obtain ⟨hloaded, -⟩ := new_loadedAt hnew
  -- The loaded engine stands for the market, queued anew.
  obtain ⟨_, hloaded', href⟩ := h.stores.requeue.new (Book.requeue_ready h.proper) hε
  cases hnew.symm.trans hloaded'
  generalize hhistory : loadHedgeHistory s.2 (events.filterMap MatchEvent.marginFkey) = history
    at happly
  have hframe := (seed_frame loaded history).1
  have hcolumns : ∀ k, (columnsAt (loaded.seedHedgeHistory history).orders k).isSome
      = (pendingAt s.1 k).isSome := by
    intro k
    rw [columnsAt_isSome, hframe, ← columnsAt_isSome, (hloaded k).columns, Option.isSome_map]
  have hstart : Progresses G ε s (loaded.seedHedgeHistory history) []
      (loaded.seedHedgeHistory history, []) :=
    ⟨⟨rfl, fun k => by simp⟩, fun _ horder => absurd horder List.not_mem_nil,
      ⟨(B.requeue, s.2.rows), ⟨href.seed history, (List.append_nil _).symm⟩, h.balanced.requeue⟩⟩
  have hrun : Progresses G ε s (loaded.seedHedgeHistory history)
      (sortByKey MatchEvent.sortKey events) (e, results) := by
    refine run_prefix (P := Progresses G ε s (loaded.seedHedgeHistory history)) ?_ hstart happly
    intro past event rest hsplit r r' hr hstep
    have hmem : event ∈ events :=
      mem_sortByKey.mp (hsplit ▸ List.mem_append_right past List.mem_cons_self)
    exact hr.step hG hε hcolumns (hfirst.incoming event hmem)
      (fun order he => hfirst.margin order (he ▸ hmem)) hstep
  obtain ⟨⟨B', hedges'⟩, ⟨href', htracked⟩, hbalanced⟩ := hrun.market
  have hfresh : ∀ order, .margin order ∈ events → s.1.get order.fkey = none :=
    fun order horder => hrun.fresh order (mem_sortByKey.mpr horder)
  have hstored : s'.1 = s.1.putAll e.intoOrders :=
    upsertOrders_eq (seeded_fixed hnew history) happly hfresh horders
  replace htracked : hedges' = s.2.rows ++ results := htracked
  rw [htracked] at hbalanced
  have hsum : ∀ symbol, allocatedSum s'.2.rows symbol = allocatedSum (s.2.rows ++ results) symbol :=
    fun symbol => hhedges ▸ hfirst.insert_allocated hrun.handled.hedges
      (fun result hresult => hbalanced.dust result (List.mem_append_right _ hresult)) symbol
  refine ⟨B', href'.proper, hstored ▸ href'.stores, hbalanced.conserved, fun symbol => ?_,
    fun result hresult => ?_⟩
  · rw [hsum symbol]
    exact hbalanced.tallied symbol
  · rw [hhedges] at hresult
    exact hbalanced.dust result (List.mem_append.mpr (insertHedges_mem hresult))

/-! ## One commit -/

/-- Every stored row and every stored hedge is the market's, and what is filled of the orders not
    yet released is on the grid. -/
structure Books (G : ℚ → Prop) (ε : ℚ) (s : Store) : Prop where
  market : ∃ B, Stands G ε B (s.orders, s.hedges)
  filled : ∀ l ∈ s.lifecycles.rows, G l.filledAmount

omit [Rounding] in
theorem books_start (G : ℚ → Prop) (ε : ℚ) (startUs : ℤ) : Books G ε (.start startUs) where
  market := by
    refine ⟨fun _ => {}, fun symbol => SymbolBook.proper_empty ε symbol, fun fkey o => ?_,
      balanced_empty G ε⟩
    rw [← (refines_empty ε).rows fkey o]
    rfl
  filled := fun _ hl => absurd hl List.not_mem_nil

/-- Rows released for the first time make events released for the first time. -/
theorem FirstReleased.events {s : Store} {c : Commit} (h : FirstReleased s c)
    (hfilled : ∀ l ∈ releasing s c, G l.filledAmount) (hnodup : (releasing s c).Nodup)
    {events : List MatchEvent} (hevents : lifecycleEvents c.qtyEpsilon (releasing s c) = .ok events) :
    FirstEvents G c.qtyEpsilon (s.orders, s.hedges) events where
  incoming := by
    intro event hevent
    obtain ⟨l, hl, hle⟩ := mem_lifecycleEvents hevents hevent
    cases event with
    | margin order =>
      obtain ⟨side, openUts, rfl, -⟩ := lifecycleEvent_margin hle
      exact ⟨hfilled l hl, rfl, rfl⟩
    | futures order =>
      obtain ⟨side, fillTsUs, rfl, -⟩ := lifecycleEvent_futures hle
      exact hfilled l hl
  margin := by
    intro order horder
    obtain ⟨l, hl, hle⟩ := mem_lifecycleEvents hevents horder
    obtain ⟨side, openUts, rfl, -, hvenue, hfill, -⟩ := lifecycleEvent_margin hle
    exact (h l hl hfill).1 hvenue
  futures := by
    intro order horder hfill
    obtain ⟨l, hl, hle⟩ := mem_lifecycleEvents hevents horder
    obtain ⟨side, fillTsUs, rfl, hvenue⟩ := lifecycleEvent_futures hle
    exact Option.isNone_iff_eq_none.mp ((h l hl hfill).2 hvenue).1
  distinct := by
    have hone : ∀ a ∈ releasing s c, ∀ x, ((lifecycleEvent c.qtyEpsilon a).toOption.join).bind futures?
        = some x → isFutures a.venue ∧ x.clientOrderId = a.clientOrderId ∧
          x.amount = a.filledAmount := by
      intro a _ x hx
      obtain ⟨event, hevent, hx⟩ := Option.bind_eq_some_iff.mp hx
      cases event with
      | margin order => cases hx
      | futures order =>
        cases hx
        obtain ⟨side, fillTsUs, rfl, hvenue⟩ := lifecycleEvent_futures (eq_ok_of_join hevent)
        exact ⟨hvenue, rfl, rfl⟩
    rw [lifecycleEvents_eq hevents, ← List.filterMap_eq_flatMap_toList]
    unfold futuresOf
    rw [List.filterMap_filterMap, List.pairwise_filterMap]
    refine hnodup.imp_of_mem fun {a b} ha hb hab x hx y hy hkey => ?_
    obtain ⟨hvenue, hid, hamount⟩ := hone a ha x hx
    obtain ⟨hvenue', hid', hamount'⟩ := hone b hb y hy
    rw [hid, hid'] at hkey
    rw [hamount, hamount']
    constructor
    · refine not_lt.mp fun hfill => hab ?_
      exact (((h a ha hfill).2 hvenue).2 b hb hvenue' hkey.symm).symm
    · refine not_lt.mp fun hfill => hab ?_
      exact ((h b hb hfill).2 hvenue').2 a ha hvenue hkey

/-- **One commit.** -/
theorem Books.commit (hG : Grid G) {s s' : Store} (h : Books G ε s) (hε : 0 ≤ ε) {c : Commit}
    (hc : c.qtyEpsilon = ε) (hfirst : FirstReleased s c) (hfills : FillsOn G s c)
    (hok : synthesize s c = .ok s') : Books G ε s' := by
  obtain ⟨deltas, hdeltas, hok⟩ := bind_eq_ok.mp hok
  obtain ⟨events, hevents, hok⟩ := bind_eq_ok.mp hok
  obtain ⟨⟨orders, hedges⟩, hmatched, hok⟩ := bind_eq_ok.mp hok
  cases pure_eq_ok.mp hok
  have hreleasing : releasing s c
      = (mergedLifecycles s deltas).rows.filter (isReady c.releasedThroughUs) := by
    unfold releasing
    rw [hdeltas]
  have hmerged := merged_filled hG h.filled hfills hdeltas
  obtain ⟨B, hB⟩ := h.market
  have hevents' : lifecycleEvents c.qtyEpsilon (releasing s c) = .ok events := hreleasing ▸ hevents
  have hfirst' := hfirst.events
    (fun l hl => hmerged l (List.mem_of_mem_filter (hreleasing ▸ hl)))
    (hreleasing ▸ (Table.rows_nodup _).filter _) hevents'
  rw [hc] at hfirst' hmatched
  exact ⟨hB.release hG hε hfirst' hmatched, fun l hl => hmerged l (List.mem_of_mem_filter hl)⟩

omit [Rounding] in
theorem validate_epsilon {args : CommandLine} {u : Unit} (h : args.validate = .ok u) :
    0 ≤ args.qtyEpsilon := by
  unfold CommandLine.validate Args.validate at h
  split at h
  · cases h
  · split at h
    · cases h
    · split at h
      · cases h
      · exact not_lt.mp ‹_›

omit [Rounding] in
theorem commit_epsilon {r : Request} {s : Store} {c : Commit} (h : r.commit s = .ok c) :
    c.qtyEpsilon = r.args.qtyEpsilon := by
  obtain ⟨d, hd, rfl⟩ := map_eq_ok.mp h
  unfold Download.start at hd
  dsimp only at hd
  split at hd
  · cases hd
  · cases hd
    rfl

omit [Rounding] in
/-- Behind balanced books. -/
theorem Books.balanced {s : Store} (h : Books G ε s) (hε : 0 ≤ ε) : Balanced ε s := by
  obtain ⟨B, hproper, hstores, hbalanced⟩ := h.market
  constructor
  · intro o ho
    exact ((hbalanced.conserved o.symbol).accounted o.core (hstores.mem_rows ho)).abs_le
  · intro symbol
    have hperm := hstores.symbol_rows hproper symbol
    have hsum : ((s.orders.rows.filter (·.symbol = symbol)).map MarginOrder.camount).sum
        = ((B symbol).rows.map MarginOrder.camount).sum := by
      rw [← (hperm.map _).sum_eq, List.map_map]
      rfl
    have hlength : ((B symbol).settled.length : ℚ)
        ≤ (s.orders.rows.filter (·.symbol = symbol)).length := by
      have hrows := hperm.length_eq
      rw [List.length_map] at hrows
      rw [Nat.cast_le, hrows]
      unfold SymbolBook.rows
      rw [List.length_append]
      exact Nat.le_add_left _ _
    rw [hsum]
    exact (hbalanced.tallied symbol).trans (mul_le_mul_of_nonneg_left hlength hε)

/-! ## Every sequence of runs -/

/-- **One run.** -/
theorem sync_keeps (hG : Grid G) {alignedFromMs : ℤ} {s : Store} {r : Request}
    (h : Books G ε s ∧ Balanced ε s) (hr : r.args.qtyEpsilon = ε)
    (hregular : Regular G alignedFromMs s r) :
    Books G ε (syncIntraOrders alignedFromMs s r) ∧
      Balanced ε (syncIntraOrders alignedFromMs s r) := by
  unfold syncIntraOrders
  split
  · exact h
  · rename_i hvalid
    have hε : 0 ≤ ε := hr ▸ validate_epsilon hvalid
    have hreset : Books G ε (r.reset alignedFromMs s) := by
      unfold Request.reset
      split
      · exact books_start G ε _
      · exact h.1
    refine (and_iff_left_of_imp fun hbooks => hbooks.balanced hε).mpr ?_
    unfold Regular at hregular
    dsimp only
    split
    · exact hreset
    · rename_i c hc
      rw [hc] at hregular
      cases hok : synthesize (r.reset alignedFromMs s) c with
      | error e => exact hreset
      | ok s' =>
        exact hreset.commit hG hε ((commit_epsilon hc).trans hr) hregular.1 hregular.2 hok

/-- **The books stay balanced** over every sequence of runs that release no filled order a second
    time and round no amount. The first part is about late rows, the second about the fills: it
    holds in exact arithmetic and, for binary64 numbers, wherever the fills are multiples of one
    unit and not too large. -/
theorem books_balanced (hG : Grid G) {alignedFromMs : ℤ} {runs : List Request}
    (hε : ∀ r ∈ runs, r.args.qtyEpsilon = ε)
    (hregular : ∀ entry ∈
      steps (syncIntraOrders alignedFromMs) (.start (alignedFromMs * 1000)) runs,
      Regular G alignedFromMs entry.1 entry.2) :
    ∀ entry ∈ steps (syncIntraOrders alignedFromMs) (.start (alignedFromMs * 1000)) runs,
      Balanced ε (syncIntraOrders alignedFromMs entry.1 entry.2) := by
  have hstart : Balanced ε (.start (alignedFromMs * 1000)) :=
    ⟨fun o ho => absurd ho List.not_mem_nil, fun symbol => by
      simp [Store.start, Table.empty, allocatedSum]⟩
  have hkeep := steps_keep (Q := fun s => Books G ε s ∧ Balanced ε s)
    (G := fun s r => r.args.qtyEpsilon = ε ∧ Regular G alignedFromMs s r)
    (fun s r hs hr => sync_keeps hG hs hr.1 hr.2) ⟨books_start G ε _, hstart⟩ (l := runs) ?_
  · exact fun entry hentry => (hkeep entry hentry).2.2
  · intro entry hentry
    refine ⟨hε _ ?_, hregular entry hentry⟩
    rw [← steps_snd (syncIntraOrders alignedFromMs) (.start (alignedFromMs * 1000)) runs]
    exact List.mem_map_of_mem hentry

end

/-- A row that fills an order at once, or once more. -/
def filledRow (venue : String) (clientOrderId : ℤ) (side : String) (ts : ℤ) (fill : ℚ) :
    FrameRow where
  tsUs := some ts
  clientOrderId := some clientOrderId
  tradingVenue := some venue
  mktTs := some ts
  createTs := some ts
  updateTs := some ts
  localTs := some ts
  symbol := some "BTCUSDT"
  side := some side
  price := some 100
  priceOffset := some 0
  amountInit := some 5
  amountUpdate := some fill
  status := some "FILLED"
  fromKey := some "1"

/-- Two runs, at 700 s and at 1500 s. -/
def twoSyncs (log : List FrameRow) : List Request :=
  [{ log, verifiedThroughMs := 700000, args := { qtyEpsilon := 1 / 10 ^ 8 } },
    { log, verifiedThroughMs := 1500000, args := { qtyEpsilon := 1 / 10 ^ 8 } }]

/-- A buy of 5, hedged by the second run. -/
def hedgedLog : List FrameRow :=
  [filledRow "BinanceMargin" 1 "buy" 1000000 5, filledRow "BinanceFutures" 7 "sell" 800000000 5]

theorem books_balanced_hedged :
    (steps (@syncIntraOrders binary64 1) (.start (1 * 1000)) (twoSyncs hedgedLog)).length = 2 ∧
      ∀ entry ∈ steps (@syncIntraOrders binary64 1) (.start (1 * 1000)) (twoSyncs hedgedLog),
        Balanced (1 / 10 ^ 8) (@syncIntraOrders binary64 1 entry.1 entry.2) :=
  ⟨rfl, @books_balanced binary64 (InUnits (-10)) _ (binary64_grid (by decide)) 1
    (twoSyncs hedgedLog) (by decide +kernel)
    (List.forall_mem_cons.mpr ⟨by decide +kernel, List.forall_mem_cons.mpr ⟨by decide +kernel,
      fun _ h => absurd h List.not_mem_nil⟩⟩)⟩

/-- A buy of 5 and its hedge, both matched by the first run; 800 s later another row of the buy. -/
def lateLog : List FrameRow :=
  [filledRow "BinanceMargin" 1 "buy" 1000000 5, filledRow "BinanceFutures" 7 "sell" 2000000 5,
    filledRow "BinanceMargin" 1 "buy" 800000000 2]

/-- The second run leaves the row with a fill of 5, 2 of it remaining and nothing hedged. -/
theorem late_fill_unbalances :
    ¬ Balanced (1 / 10 ^ 8)
      ((twoSyncs lateLog).foldl (@syncIntraOrders binary64 1) (.start (1 * 1000))) := by
  intro h
  have hrow : ∃ o ∈ ((twoSyncs lateLog).foldl (@syncIntraOrders binary64 1)
        (.start (1 * 1000))).orders.rows,
      ¬ |o.openFillAmount - (o.remainingAmount + o.camount + o.nettedAmount)| ≤ 1 / 10 ^ 8 := by
    decide +kernel
  obtain ⟨o, ho, hlost⟩ := hrow
  exact hlost (h.1 o ho)

end CryptoNav.Sync
