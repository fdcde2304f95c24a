import CryptoNav.Sync.Hedges

/-!
# What a run does to `intra_orders`

A row is touched by a run if it was pending, or if the run released a Margin order with its key.
A touched row keeps the columns that `ON CONFLICT` does not set (`fixed`), and these are never
changed by matching; any other row is left alone.

The statement is about the columns and not about their values: what matching computes is in
`Matching`, and the hedge columns, which it also writes, are in `HedgeMetadata`. Rows are never
deleted except by a reset, which is in `Concurrent`.
-/

set_option autoImplicit false

namespace CryptoNav.Sync

open CryptoNav.Lib CryptoNav.Matching CryptoNav.Matching.MatchEngine

/-- The columns that `ON CONFLICT (fkey) DO UPDATE` does not set. -/
structure FixedColumns where
  symbol : String
  side : Side
  cts : ℤ
  openUts : ℤ
  price : ℚ
  amount : ℚ
  range : ℚ
  tlen : Option ℚ
  openFillAmount : ℚ
  openSourceTsUs : ℤ

def fixed (o : MarginOrder) : FixedColumns :=
  ⟨o.symbol, o.side, o.cts, o.openUts, o.price, o.amount, o.range, o.tlen, o.openFillAmount,
    o.openSourceTsUs⟩

/-- Overwriting a row with one that has its fixed columns is replacing it. -/
theorem overwrite_eq {stored row : MarginOrder} (h : fixed row = fixed stored) :
    overwrite stored row = row := by
  simp only [fixed, FixedColumns.mk.injEq] at h
  obtain ⟨hsymbol, hside, hcts, hopen, hprice, hamount, hrange, htlen, hfill, hsource⟩ := h
  unfold overwrite
  rw [← hsymbol, ← hside, ← hcts, ← hopen, ← hprice, ← hamount, ← hrange, ← htlen, ← hfill,
    ← hsource]

theorem fixed_core (orders : Orders) (k : ℤ) :
    (orders.get k).map fixed = (coreAt orders k).map fixed := by
  unfold coreAt
  rw [Option.map_map]
  rfl

theorem fixed_withHedgeMaps (e : MatchEngine) (order : MarginOrder) :
    fixed (e.withHedgeMaps order) = fixed order := by
  have hcore := core_withHedgeMaps e order
  exact (congrArg fixed hcore : fixed (e.withHedgeMaps order).core = fixed order.core)

/-- The fixed columns an engine holds were there before, or are those of a Margin order among
    the events. -/
theorem apply_fixed [Rounding] {start e : MatchEngine} {events : List MatchEvent}
    {results : List HedgeResult} (hrun : start.apply events = .ok (e, results)) {k : ℤ}
    {row : MarginOrder} (hrow : e.orders.get k = some row) :
    (start.orders.get k).map fixed = some (fixed row) ∨
      ∃ order, .margin order ∈ events ∧ order.fkey = k ∧ fixed order = fixed row := by
  have hgo : ∀ k f, (e.orders.get k).map fixed = some f →
      (start.orders.get k).map fixed = some f ∨
        ∃ order, .margin order ∈ sortByKey MatchEvent.sortKey events ∧ order.fkey = k ∧
          fixed order = f := by
    refine run_prefix (P := fun past s => ∀ k f, (s.1.orders.get k).map fixed = some f →
      (start.orders.get k).map fixed = some f ∨
        ∃ order, .margin order ∈ past ∧ order.fkey = k ∧ fixed order = f)
      ?_ (fun _ _ h => .inl h) hrun
    intro past event _ _ s t hs hstep k f hf
    have hpast : (s.1.orders.get k).map fixed = some f →
        (start.orders.get k).map fixed = some f ∨
          ∃ order, .margin order ∈ past ++ [event] ∧ order.fkey = k ∧ fixed order = f := by
      intro h
      rcases hs k f h with h | ⟨order, ho, hrest⟩
      · exact .inl h
      · exact .inr ⟨order, List.mem_append_left _ ho, hrest⟩
    cases event with
    | margin order =>
      obtain ⟨e', he', rfl⟩ := map_eq_ok.mp hstep
      unfold MatchEngine.applyMargin at he'
      split at he'
      · cases he'
      · split at he'
        · cases he'
        · cases he'
          have hkey : (s.1.withHedgeMaps order.arrive).fkey = order.fkey :=
            (congrArg MarginOrder.fkey (core_withHedgeMaps s.1 order.arrive) :
              (s.1.withHedgeMaps order.arrive).core.fkey = order.arrive.core.fkey)
          rw [netLoop_keeps (fun _ _ => rfl), Table.get_put, hkey] at hf
          split at hf
          · rename_i hk
            cases hf
            refine .inr ⟨order, List.mem_append_right _ List.mem_cons_self, hk.symm, ?_⟩
            exact (fixed_withHedgeMaps s.1 order.arrive).symm
          · exact hpast hf
    | futures order =>
      obtain ⟨⟨e', result⟩, he', rfl⟩ := map_eq_ok.mp hstep
      unfold MatchEngine.applyFutures at he'
      split at he'
      · cases he'
      · split at he'
        · cases he'
        · cases he'
          rw [hedgeLoop_keeps (fun _ _ => rfl)] at hf
          refine hpast (Eq.trans ?_ hf)
          cases order.mainFkey with
          | none => rfl
          | some main =>
            rw [fixed_core, fixed_core, Option.elim_some, (coreAt_recordHedgeOrder s.1 main order).1]
  rcases hgo k (fixed row) (by rw [hrow]; rfl) with h | ⟨order, ho, hrest⟩
  · exact .inl h
  · exact .inr ⟨order, mem_sortByKey.mp ho, hrest⟩

/-- What became of a row. -/
inductive RowFate (stored orders : Orders) (events : List MatchEvent) (fkey : ℤ) : Prop where
  | untouched (h : orders.get fkey = stored.get fkey) (hpending : pendingAt stored fkey = none)
      (hnew : fkey ∉ events.filterMap MatchEvent.marginFkey)
  | matched (old row : MarginOrder) (hold : pendingAt stored fkey = some old)
      (hrow : orders.get fkey = some row) (hfixed : fixed row = fixed old)
  | released (order row : MarginOrder) (horder : .margin order ∈ events) (hkey : order.fkey = fkey)
      (hpending : pendingAt stored fkey = none) (hrow : orders.get fkey = some row)
      (hfixed : fixed row = fixed ((stored.get fkey).getD order))

/-- **What a run does to a row.** -/
theorem matchReleased_row [Rounding] {ε : ℚ} {s s' : Orders × Hedges} {events : List MatchEvent}
    (h : matchReleased ε s events = .ok s') (fkey : ℤ) : RowFate s.1 s'.1 events fkey := by
  obtain ⟨loaded, e, results, hnew, happly, horders, -⟩ := matchReleased_cases h
  obtain ⟨hloaded, -⟩ := new_loadedAt hnew
  have hframe := (seed_frame loaded (loadHedgeHistory s.2
    (events.filterMap MatchEvent.marginFkey))).1
  have hkeys := columnsAt_engine hloaded hframe happly fkey
  have hnodup : (e.intoOrders.map MarginOrder.fkey).Nodup :=
    List.pairwise_map.mpr (e.orders.sorted.imp ne_of_lt)
  have hget : s'.1.get fkey = (e.orders.get fkey).elim (s.1.get fkey)
      fun row => some ((s.1.get fkey).elim row (overwrite · row)) :=
    get_upsertOrders hnodup horders fkey
  cases hrow : e.orders.get fkey with
  | none =>
    rw [hrow] at hget
    have hnone : ¬((pendingAt s.1 fkey).isSome ∨
        fkey ∈ events.filterMap MatchEvent.marginFkey) := by
      rw [← hkeys]
      unfold columnsAt
      rw [hrow]
      simp
    rw [not_or, Option.not_isSome_iff_eq_none] at hnone
    exact .untouched hget hnone.1 hnone.2
  | some row =>
    rw [hrow] at hget
    replace hget : s'.1.get fkey = some ((s.1.get fkey).elim row (overwrite · row)) := hget
    cases hpending : pendingAt s.1 fkey with
    | some old =>
      have hstored : s.1.get fkey = some old := (Option.filter_eq_some_iff.mp hpending).1
      rw [hstored] at hget
      exact .matched old _ hpending hget rfl
    | none =>
      rcases apply_fixed happly hrow with hstart | ⟨order, horder, hkey, hfixed⟩
      · rw [fixed_core, hframe, ← fixed_core, (hloaded fkey).orders, hpending] at hstart
        cases hstart
      · refine .released order _ horder hkey hpending hget ?_
        cases s.1.get fkey with
        | none => exact hfixed.symm
        | some old => rfl

end CryptoNav.Sync
