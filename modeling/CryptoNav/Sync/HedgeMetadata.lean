import CryptoNav.Sync.Hedges

/-!
# Hedge metadata across runs

After every run each row of `intra_orders` should carry the summary of all Futures orders
released so far that name it. A completed row is not loaded again, so a hedge released after its
order was completed is lost on it, and the placeholder a pending row comes back with wins every
tie on `create_ts`. `metadata_complete_iff` says that nothing else goes wrong.

The condition names two events and both are decided by the tables before the run and by what it
releases. Numbers have no part in it, so the theorem holds whatever is rounded. A row's other
columns are in `Rows`, and the summary that is meant is defined in `Hedges`.
-/

set_option autoImplicit false

namespace CryptoNav.Sync

open CryptoNav.Lib CryptoNav.Matching CryptoNav.Matching.MatchEngine

/-! ## One run -/

/-- What the tables hold after the releases `past`, whatever became of the hedge columns. The hedge
    columns are what the condition is about, so they are kept apart from the rest of the rows. -/
structure Ledger (past : List MatchEvent) (s : Orders × Hedges) : Prop where
  hedges : (storedHedges s.2).Perm (futuresOf past)
  fkeys : ∀ row ∈ s.1.rows, row.fkey ∈ past.filterMap MatchEvent.marginFkey

/-- When a run keeps the metadata complete: its hedges are for Margin orders that are new or
    pending, and the first of them competes with the placeholder of a pending row as it would
    with the first hedge the placeholder stands for. -/
structure Meets (s : Orders × Hedges) (events : List MatchEvent) : Prop where
  pending : ∀ order, .futures order ∈ events → ∀ row ∈ s.1.rows,
    order.mainFkey = some row.fkey → row.matchingState = .pending
  first : ∀ row ∈ s.1.rows, row.matchingState = .pending → ∀ old new,
    firstHedge (hedgesOf row.fkey (storedHedges s.2)) = some old →
    firstHedge (hedgesOf row.fkey (futuresOf events)) = some new →
    (new.sortKey < old.sortKey ↔ new.sortKey < (restored old).sortKey) ∨ times new = times old

theorem complete_iff {stored : Orders} {released : List MatchEvent} :
    MetadataComplete stored released ↔ ∀ k c, columnsAt stored k = some c →
      c = summary (hedgesOf k (futuresOf released)) := by
  constructor
  · intro h k c hc
    obtain ⟨row, hrow, rfl⟩ := Option.map_eq_some_iff.mp hc
    obtain ⟨hmem, rfl⟩ := Table.get_eq_some.mp hrow
    exact h row hmem
  · intro h row hrow
    refine h row.fkey _ ?_
    unfold columnsAt
    rw [Table.mem_rows.mp hrow]
    rfl

/-- A row whose columns are a summary is restored to that summary's maps. -/
theorem restoredTiming_of_summary {row : MarginOrder} {hedges : List FuturesOrder}
    (h : row.hedgeColumns = summary hedges) :
    restoredTiming row = (firstHedge hedges).map restored ∧ row.fts = lastFill hedges ∧
      row.closeCount = hedges.length := by
  simp only [MarginOrder.hedgeColumns, summary, hedgeColumnsOf, HedgeColumns.mk.injEq] at h
  obtain ⟨hhts, hnew, hterminal, hfts, hcount⟩ := h
  refine ⟨?_, hfts, hcount⟩
  unfold restoredTiming
  rw [hhts, hnew, hterminal]
  cases firstHedge hedges with
  | none => rfl
  | some t => rfl

section

variable {past : List MatchEvent} {s s' : Orders × Hedges} {batch : Batch}

theorem Ledger.stored_fresh (h : Ledger past s) (hdistinct : Distinct (past ++ batch.2)) {k : ℤ}
    (hk : k ∈ batch.2.filterMap MatchEvent.marginFkey) : s.1.get k = none := by
  rw [Table.get_eq_none]
  intro row hrow hkey
  have hfkeys := hdistinct.fkeys
  rw [List.filterMap_append, List.nodup_append] at hfkeys
  exact hfkeys.2.2 _ (h.fkeys row hrow) _ hk hkey

theorem Distinct.right {a b : List MatchEvent} (h : Distinct (a ++ b)) : Distinct b := by
  obtain ⟨hfkeys, hids, hblank⟩ := h
  rw [List.filterMap_append] at hfkeys
  rw [futuresOf_append, List.map_append] at hids
  exact ⟨(List.nodup_append.mp hfkeys).2.1, (List.nodup_append.mp hids).2.1,
    fun order ho => hblank order (List.mem_append_right _ ho)⟩

theorem hedgesOf_perm {a b : List FuturesOrder} (h : a.Perm b) (k : ℤ) :
    (hedgesOf k a).Perm (hedgesOf k b) := h.filter _

/-- The loaded engine, seeded, starts coherent from complete rows. -/
theorem loaded_coherent {e : MatchEngine} (hcomplete : MetadataComplete s.1 past)
    (hloaded : ∀ k, LoadedAt e k (pendingAt s.1 k)) : Coherent e := by
  intro k c hc
  have hat := hloaded k
  rw [hat.columns] at hc
  obtain ⟨row, hrow, rfl⟩ := Option.map_eq_some_iff.mp hc
  obtain ⟨hget, -⟩ := Option.filter_eq_some_iff.mp hrow
  have hsummary := hcomplete row (Table.get_eq_some.mp hget).1
  obtain ⟨htiming, -, -⟩ := restoredTiming_of_summary hsummary
  have hmaps : mapsAt e k = (restoredTiming row, row.fts, row.closeCount) := by
    unfold mapsAt
    rw [hat.timing, hat.fills, hat.counts, hrow]
    rfl
  rw [columnsOf_eq hmaps, hsummary, htiming]
  have hfts : row.fts = lastFill _ := congrArg HedgeColumns.fts hsummary
  have hcount : row.closeCount = _ := congrArg HedgeColumns.closeCount hsummary
  rw [hfts, hcount]
  refine hedgeColumnsOf_inj.mpr ?_
  rw [Option.map_map]
  rfl

/-- A row of the engine replaces the columns of the stored one. -/
theorem columnsAt_upsertOrders {stored orders : Orders} {e : MatchEngine}
    (h : upsertOrders stored e.intoOrders = .ok orders) (k : ℤ) :
    columnsAt orders k = (columnsAt e.orders k).or (columnsAt stored k) := by
  have hnodup : (e.intoOrders.map MarginOrder.fkey).Nodup :=
    List.pairwise_map.mpr (e.orders.sorted.imp ne_of_lt)
  unfold columnsAt
  rw [get_upsertOrders hnodup h k]
  show Option.map _ ((e.orders.get k).elim _ _) = _
  cases e.orders.get k with
  | none => rfl
  | some row =>
    cases stored.get k with
    | none => rfl
    | some stored => rfl

/-- **The columns a run leaves**, row by row. -/
theorem release_columns [Rounding] (hledger : Ledger past s)
    (hdistinct : Distinct (past ++ batch.2)) (hcomplete : MetadataComplete s.1 past)
    (hstep : release s batch = .ok s') (k : ℤ) :
    columnsAt s'.1 k = if k ∈ batch.2.filterMap MatchEvent.marginFkey then
        some (summary (hedgesOf k (futuresOf (past ++ batch.2))))
      else (s.1.get k).map fun row => if row.matchingState = .pending then
          restarted (hedgesOf k (futuresOf past)) (hedgesOf k (futuresOf batch.2))
        else row.hedgeColumns := by
  obtain ⟨loaded, e, results, hnew, happly, horders, -⟩ := matchReleased_cases hstep
  obtain ⟨hloaded, hseen⟩ := new_loadedAt hnew
  have hperm := sortByKey_perm MatchEvent.sortKey batch.2
  have hnewHedges : (hedgesOf k (futuresOf (sortByKey MatchEvent.sortKey batch.2))).Perm
      (hedgesOf k (futuresOf batch.2)) := hedgesOf_perm (hperm.filterMap futures?) k
  -- Nothing is loaded for a key that is about to be inserted.
  have hfree : ∀ k ∈ sortedSet (batch.2.filterMap MatchEvent.marginFkey),
      mapsAt loaded k = (none, none, 0) := by
    intro k hk
    have hat := hloaded k
    have hnone : pendingAt s.1 k = none := by
      unfold pendingAt
      rw [hledger.stored_fresh hdistinct (mem_sortedSet.mp hk)]
      rfl
    unfold mapsAt
    rw [hat.timing, hat.fills, hat.counts, hnone]
    rfl
  have hmaps := seed_mapsAt s.2 (sortedSet_nodup _) hfree
  obtain ⟨hframe, hseenFrame⟩ := seed_frame loaded (loadHedgeHistory s.2
    (batch.2.filterMap MatchEvent.marginFkey))
  have hstart := seed_coherent (loaded_coherent hcomplete hloaded) (loadHedgeHistory s.2
    (batch.2.filterMap MatchEvent.marginFkey))
  change ∀ k, mapsAt (loaded.seedHedgeHistory (loadHedgeHistory s.2
    (batch.2.filterMap MatchEvent.marginFkey))) k = _ at hmaps
  generalize loaded.seedHedgeHistory (loadHedgeHistory s.2
    (batch.2.filterMap MatchEvent.marginFkey)) = start at happly hmaps hframe hseenFrame hstart
  have hprogress : Progress start (sortByKey MatchEvent.sortKey batch.2) (e, results) := by
    refine progress_apply hstart (hseenFrame.trans hseen) (Distinct.right hdistinct) ?_ happly
    intro k hk
    have hcount := congrArg (fun m => m.2.2) (hmaps k)
    rw [if_pos (mem_sortedSet.mpr hk)] at hcount
    exact le_of_le_of_eq (Int.natCast_nonneg _) hcount.symm
  have hkeys := columnsAt_engine hloaded hframe happly k
  have hupsert := columnsAt_upsertOrders horders k
  -- What the engine says where it has a row.
  have hsays : (columnsAt e.orders k).isSome → columnsAt e.orders k = some (e.columnsOf k) := by
    intro hsome
    obtain ⟨c, hc⟩ := Option.isSome_iff_exists.mp hsome
    rw [hc, hprogress.coherent k c hc]
  have hold : (hedgesOf k (storedHedges s.2)).Perm (hedgesOf k (futuresOf past)) :=
    hedgesOf_perm hledger.hedges k
  have hids := hdistinct.hedgesOf k
  rw [futuresOf_append, hedgesOf_append] at hids
  split
  · rename_i hk
    have hat := hmaps k
    rw [if_pos (mem_sortedSet.mpr hk)] at hat
    have hall := hold.append_right (hedgesOf k (futuresOf batch.2))
    have hcolumns := recorded_summary hprogress.recorded hat hnewHedges
      ((hall.map FuturesOrder.clientOrderId).nodup_iff.mpr hids)
    rw [hupsert, hsays (hkeys.mpr (.inr hk)), hcolumns, summary_perm hall hids, futuresOf_append,
      hedgesOf_append]
    rfl
  · rename_i hk
    cases hget : s.1.get k with
    | none =>
      have hnone : pendingAt s.1 k = none := by
        unfold pendingAt
        rw [hget]
        rfl
      have hcolumns : columnsAt e.orders k = none := by
        rw [← Option.not_isSome_iff_eq_none, hkeys, hnone]
        simp [hk]
      rw [hupsert, hcolumns]
      unfold columnsAt
      rw [hget]
      rfl
    | some row =>
      by_cases hpending : row.matchingState = .pending
      · have hsome : pendingAt s.1 k = some row := by
          unfold pendingAt
          rw [hget, Option.filter_some, if_pos (decide_eq_true hpending)]
        have hat := hloaded k
        have hmapsAt := hmaps k
        rw [if_neg (fun h => hk (mem_sortedSet.mp h))] at hmapsAt
        obtain ⟨hrow, hkey⟩ := Table.get_eq_some.mp hget
        obtain ⟨htiming, hfts, hcount⟩ := restoredTiming_of_summary (hcomplete row hrow)
        rw [hkey] at htiming hfts hcount
        have hrestored : mapsAt start k = ((firstHedge (hedgesOf k (futuresOf past))).map restored,
            lastFill (hedgesOf k (futuresOf past)), ((hedgesOf k (futuresOf past)).length : ℤ)) := by
          rw [hmapsAt, ← htiming, ← hfts, ← hcount]
          unfold mapsAt
          rw [hat.timing, hat.fills, hat.counts, hsome]
          rfl
        have hcolumns := recorded_restarted hprogress.recorded hrestored hnewHedges
          ((Distinct.right hdistinct).hedgesOf k)
        rw [hupsert, hsays (hkeys.mpr (.inl (by rw [hsome]; rfl))), hcolumns, Option.map_some,
          if_pos hpending]
        rfl
      · have hnone : pendingAt s.1 k = none := by
          unfold pendingAt
          rw [hget, Option.filter_some, if_neg (by simpa using hpending)]
        have hcolumns : columnsAt e.orders k = none := by
          rw [← Option.not_isSome_iff_eq_none, hkeys, hnone]
          simp [hk]
        rw [hupsert, hcolumns, Option.map_some, if_neg hpending]
        unfold columnsAt
        rw [hget]
        rfl

/-- **The tables after a run**, whatever became of the columns. -/
theorem Ledger.release [Rounding] (h : Ledger past s) (hdistinct : Distinct (past ++ batch.2))
    (hstep : release s batch = .ok s') : Ledger (past ++ batch.2) s' := by
  obtain ⟨loaded, e, results, hnew, happly, horders, hhedges⟩ := matchReleased_cases hstep
  have hperm := sortByKey_perm MatchEvent.sortKey batch.2
  have hall : (storedHedges s.2 ++ results.map HedgeResult.order).Perm
      (futuresOf (past ++ batch.2)) := by
    rw [(handled_apply happly).hedges, futuresOf_append]
    exact h.hedges.append (hperm.filterMap futures?)
  constructor
  · rw [hhedges]
    have hids : ((s.2.rows ++ results).map fun h => h.order.clientOrderId).Nodup := by
      have := (hall.map FuturesOrder.clientOrderId).nodup_iff.mpr hdistinct.ids
      rwa [storedHedges, ← List.map_append, List.map_map] at this
    refine ((insertHedges_rows hids).map HedgeResult.order).trans ?_
    rw [List.map_append]
    exact hall
  · intro row hrow
    obtain ⟨hloaded, -⟩ := new_loadedAt hnew
    have hsome : (columnsAt s'.1 row.fkey).isSome := by
      unfold columnsAt
      rw [Table.mem_rows.mp hrow]
      rfl
    rw [columnsAt_upsertOrders horders, Option.isSome_or, Bool.or_eq_true,
      columnsAt_engine hloaded (seed_frame _ _).1 happly] at hsome
    rw [List.filterMap_append, List.mem_append]
    have hstored : (s.1.get row.fkey).isSome → row.fkey ∈ past.filterMap MatchEvent.marginFkey := by
      intro hget
      obtain ⟨old, hold⟩ := Option.isSome_iff_exists.mp hget
      obtain ⟨hmem, hkey⟩ := Table.get_eq_some.mp hold
      rw [← hkey]
      exact h.fkeys old hmem
    rcases hsome with (hpending | hk) | hget
    · obtain ⟨old, hold⟩ := Option.isSome_iff_exists.mp hpending
      exact .inl (hstored (by rw [(Option.filter_eq_some_iff.mp hold).1]; rfl))
    · exact .inr hk
    · unfold columnsAt at hget
      rw [Option.isSome_map] at hget
      exact .inl (hstored hget)

/-- **One run.** From complete metadata a run leaves complete metadata exactly when it meets the
    condition. -/
theorem release_complete_iff [Rounding] (h : Ledger past s) (hdistinct : Distinct (past ++ batch.2))
    (hcomplete : MetadataComplete s.1 past) (hstep : release s batch = .ok s') :
    MetadataComplete s'.1 (past ++ batch.2) ↔ Meets s batch.2 := by
  have hcolumns := release_columns h hdistinct hcomplete hstep
  have hids := fun k => hdistinct.hedgesOf k
  simp only [futuresOf_append, hedgesOf_append] at hids
  have hold : ∀ k, firstHedge (hedgesOf k (storedHedges s.2))
      = firstHedge (hedgesOf k (futuresOf past)) :=
    fun k => firstHedge_perm (hedgesOf_perm h.hedges k) (hdistinct.left.hedgesOf k)
  -- A pending row is right exactly when the first hedge is.
  have hrestarted : ∀ k, restarted (hedgesOf k (futuresOf past)) (hedgesOf k (futuresOf batch.2))
        = summary (hedgesOf k (futuresOf (past ++ batch.2))) ↔
      ∀ old new, firstHedge (hedgesOf k (futuresOf past)) = some old →
        firstHedge (hedgesOf k (futuresOf batch.2)) = some new →
        (new.sortKey < old.sortKey ↔ new.sortKey < (restored old).sortKey) ∨
          times new = times old := by
    intro k
    rw [futuresOf_append, hedgesOf_append]
    unfold restarted summary
    rw [hedgeColumnsOf_inj, firstHedge_append (hids k)]
    exact firstOf_times_iff _ _
  rw [complete_iff]
  constructor
  · intro hall
    have hrow : ∀ row ∈ s.1.rows, (if row.matchingState = .pending then
          restarted (hedgesOf row.fkey (futuresOf past)) (hedgesOf row.fkey (futuresOf batch.2))
        else row.hedgeColumns) = summary (hedgesOf row.fkey (futuresOf (past ++ batch.2))) := by
      intro row hrow
      have hget := Table.mem_rows.mp hrow
      refine hall row.fkey _ ?_
      rw [hcolumns, if_neg, hget]
      · rfl
      · intro hk
        rw [h.stored_fresh hdistinct hk] at hget
        cases hget
    refine ⟨fun order horder row hrowmem hmain => ?_, fun row hrowmem hpending old new ho hn => ?_⟩
    · by_contra hpending
      have hsame := hrow row hrowmem
      rw [if_neg hpending, hcomplete row hrowmem, futuresOf_append, hedgesOf_append] at hsame
      -- The stored count misses the hedge.
      have hcount : ((hedgesOf row.fkey (futuresOf past)).length : ℤ) =
          (hedgesOf row.fkey (futuresOf past) ++ hedgesOf row.fkey (futuresOf batch.2)).length :=
        congrArg HedgeColumns.closeCount hsame
      have hmem : order ∈ hedgesOf row.fkey (futuresOf batch.2) :=
        List.mem_filter.mpr ⟨mem_futuresOf.mpr horder, decide_eq_true hmain⟩
      have hpos := List.length_pos_of_mem hmem
      rw [List.length_append, Nat.cast_add] at hcount
      omega
    · have hsame := hrow row hrowmem
      rw [if_pos hpending] at hsame
      rw [hold] at ho
      exact (hrestarted row.fkey).mp hsame old new ho hn
  · intro hmeets k c hc
    rw [hcolumns] at hc
    split at hc
    · exact (Option.some.inj hc).symm
    · obtain ⟨row, hget, rfl⟩ := Option.map_eq_some_iff.mp hc
      obtain ⟨hrow, rfl⟩ := Table.get_eq_some.mp hget
      split
      · rename_i hpending
        refine (hrestarted row.fkey).mpr fun old new ho hn => ?_
        rw [← hold] at ho
        exact hmeets.first row hrow hpending old new ho hn
      · rename_i hpending
        -- No hedge of the run is for this row.
        have hnone : hedgesOf row.fkey (futuresOf batch.2) = [] := by
          refine List.filter_eq_nil_iff.mpr fun order horder hmain => ?_
          exact hpending (hmeets.pending order (mem_futuresOf.mp horder) row hrow
            (of_decide_eq_true hmain))
        rw [hcomplete row hrow, futuresOf_append, hedgesOf_append, hnone, List.append_nil]

end

/-! ## All runs -/

/-- The tables before the first run. -/
def unhedged : Orders × Hedges := (.empty, .empty)

/-- **Hedge metadata across runs.** Over any runs that are accepted, the metadata is complete after
    each of them exactly when each of them, in the tables it found, meets the condition. The
    condition is about one run at a time, so the first run that breaks it is the one that loses
    something. -/
theorem metadata_complete_iff [Rounding] {batches : List Batch}
    (hdistinct : Distinct (releasedBy batches)) {final : Orders × Hedges}
    (hrun : batches.foldlM release unhedged = .ok final) :
    (∀ past, past <+: batches → ∀ s, past.foldlM release unhedged = .ok s →
        MetadataComplete s.1 (releasedBy past)) ↔
      ∀ past batch, past ++ [batch] <+: batches → ∀ s, past.foldlM release unhedged = .ok s →
        Meets s batch.2 := by
  have hsplit : ∀ past batch, past ++ [batch] <+: batches →
      Distinct (releasedBy past ++ batch.2) := by
    rintro past batch ⟨rest, rfl⟩
    rw [releasedBy_append, releasedBy_append] at hdistinct
    simpa [releasedBy] using hdistinct.left
  -- The tables after any prefix.
  have hledger : ∀ past, past <+: batches → ∀ s, past.foldlM release unhedged = .ok s →
      Ledger (releasedBy past) s := by
    intro past hpast s hs
    refine run_prefix (P := fun past s => Ledger (releasedBy past) s) ?_ ?_ hs
    · intro before batch rest hbefore t t' ht hstep
      have hprefix : before ++ [batch] <+: batches := by
        refine List.IsPrefix.trans ⟨rest, ?_⟩ hpast
        rw [hbefore, List.append_assoc]
        rfl
      have := ht.release (hsplit before batch hprefix) hstep
      simpa [releasedBy] using this
    · exact ⟨List.Perm.refl _, fun row hrow => absurd hrow List.not_mem_nil⟩
  have hone : ∀ past batch, past ++ [batch] <+: batches → ∀ s s',
      past.foldlM release unhedged = .ok s → release s batch = .ok s' →
      MetadataComplete s.1 (releasedBy past) →
        (MetadataComplete s'.1 (releasedBy (past ++ [batch])) ↔ Meets s batch.2) := by
    intro past batch hprefix s s' hs hstep hcomplete
    have hpast : past <+: batches := (List.prefix_append past [batch]).trans hprefix
    have hreleased : releasedBy (past ++ [batch]) = releasedBy past ++ batch.2 := by
      simp [releasedBy]
    rw [hreleased]
    exact release_complete_iff (hledger past hpast s hs) (hsplit past batch hprefix) hcomplete hstep
  constructor
  · intro hall past batch hprefix s hs
    -- The run goes on beyond the prefix, so the batch was accepted.
    obtain ⟨rest, hrest⟩ := hprefix
    have hrun' := hrun
    rw [← hrest, List.append_assoc] at hrun'
    obtain ⟨t, ht, hmore⟩ := run_append.mp hrun'
    cases hs.symm.trans ht
    obtain ⟨s', hs', -⟩ := run_cons.mp hmore
    have hprefix : past ++ [batch] <+: batches := ⟨rest, hrest⟩
    refine (hone past batch hprefix s s' hs hs'
      (hall past ((List.prefix_append past [batch]).trans hprefix) s hs)).mp ?_
    exact hall (past ++ [batch]) hprefix s' (run_append.mpr ⟨s, hs, run_cons.mpr ⟨s', hs', rfl⟩⟩)
  · intro hmeets past
    -- Run by run, from the empty tables.
    induction past using List.reverseRecOn with
    | nil =>
      intro _ s hs
      cases run_nil.mp hs
      exact fun row hrow => absurd hrow List.not_mem_nil
    | append_singleton past batch ih =>
      intro hprefix s' hs'
      obtain ⟨s, hs, hmore⟩ := run_append.mp hs'
      obtain ⟨t, ht, hnil⟩ := run_cons.mp hmore
      cases run_nil.mp hnil
      have hcomplete := ih ((List.prefix_append past [batch]).trans hprefix) s hs
      exact (hone past batch hprefix s _ hs ht hcomplete).mpr (hmeets past batch hprefix s hs)

def sampleMargin (fkey at_ : ℤ) : MatchEvent :=
  .margin { fkey, symbol := "BTCUSDT", side := .buy, cts := at_, openUts := at_, price := 100
            amount := 5, range := 0, openFillAmount := 5, remainingAmount := 5
            openSourceTsUs := at_ }

def sampleFutures (id mainFkey at_ : ℤ) (amount : ℚ) : MatchEvent :=
  .futures ⟨id, some mainFkey, "BTCUSDT", .sell, at_, at_, some at_, some at_, some at_, at_, amount,
    some 101, 1⟩

/-- Two hedges of one order, a run apart, the first of which leaves it pending. -/
def hedgedTwice : List Batch :=
  [(0, [sampleMargin 1 10, sampleFutures 10 1 20 2]), (0, [sampleFutures 11 1 30 3])]

theorem metadata_complete_hedgedTwice :
    ∃ final, hedgedTwice.foldlM release unhedged = .ok final ∧
      ((∀ past, past <+: hedgedTwice → ∀ s, past.foldlM release unhedged = .ok s →
          MetadataComplete s.1 (releasedBy past)) ↔
        ∀ past batch, past ++ [batch] <+: hedgedTwice → ∀ s,
          past.foldlM release unhedged = .ok s → Meets s batch.2) := by
  have hok : Yields (hedgedTwice.foldlM release unhedged) fun _ => True := by decide +kernel
  obtain ⟨final, hrun, -⟩ := hok
  refine ⟨final, hrun, metadata_complete_iff ⟨by decide +kernel, by decide +kernel, ?_⟩ hrun⟩
  intro order horder
  have hmargin : MatchEvent.margin order = sampleMargin 1 10 := by
    simpa [hedgedTwice, releasedBy, sampleFutures] using horder
  cases hmargin
  rfl

/-- The order is completed by its first hedge; the second is released in the next run. -/
def hedgedAfterCompletion : List Batch :=
  [(0, [sampleMargin 1 10, sampleFutures 10 1 20 5]), (0, [sampleFutures 11 1 30 3])]

/-- A hedge that is released after its Margin order was completed is not counted. -/
theorem metadata_incomplete_after_completion :
    Distinct (releasedBy hedgedAfterCompletion) ∧
      ∃ final, hedgedAfterCompletion.foldlM release unhedged = .ok final ∧
        final.1.rows.map MarginOrder.closeCount = [1] ∧
        (hedgesOf 1 (futuresOf (releasedBy hedgedAfterCompletion))).length = 2 ∧
        ¬MetadataComplete final.1 (releasedBy hedgedAfterCompletion) := by
  refine ⟨⟨by decide +kernel, by decide +kernel, ?_⟩, ?_⟩
  · intro order horder
    have hmargin : MatchEvent.margin order = sampleMargin 1 10 := by
      simpa [hedgedAfterCompletion, releasedBy, sampleFutures] using horder
    cases hmargin
    rfl
  · have hok : Yields (hedgedAfterCompletion.foldlM release unhedged) fun final =>
        final.1.rows.map MarginOrder.closeCount = [1] ∧
        (hedgesOf 1 (futuresOf (releasedBy hedgedAfterCompletion))).length = 2 ∧
        ¬MetadataComplete final.1 (releasedBy hedgedAfterCompletion) := by
      decide +kernel
    exact hok

end CryptoNav.Sync
