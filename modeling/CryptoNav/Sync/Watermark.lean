import CryptoNav.Sync.Deltas
import CryptoNav.Sync.Rows

/-!
# The Margin finalized watermark

`margin_finalized_watermark` is a minimum over three sets that move from run to run: the pending
rows, the unreleased lifecycles with a fill, and `released_through`. Once it is `W`, everything
still to come happened after `W` (`Beyond`), so the rows up to `W` are final. But it takes an
unreleased lifecycle by its *first* source time, so a resting order that `W` has already passed
pulls it back when its first fill arrives: `released_through` is guarded by a maximum with its
old value, this watermark is not.

Whoever reads the rows up to the watermark takes them for final. The events that come after it
are those that no run has read yet, in any order the log may bring them; that an order's rows
may be late is part of the log. How sums are rounded makes no difference to the watermark, which
is made of times.
-/

set_option autoImplicit false

namespace CryptoNav.Sync

open CryptoNav.Lib CryptoNav.Matching

/-! ## Runs over one log -/

/-- A run's verified endpoint, in milliseconds, and its arguments. -/
abbrev Endpoint := ℤ × Args

def sync [Rounding] (log : List OrderRow) (s : Store) (r : Endpoint) : Except String Store :=
  run log r.1 r.2 s

/-- A row of the order was read. -/
def WasRead (log : List OrderRow) (startUs : ℤ) (s : Store) (key : OrderKey) : Prop :=
  ∃ r ∈ log, r.key = key ∧ startUs ≤ r.source ∧ r.source < s.sourceReadThroughUs

/-- The order was read and is not stored any more. -/
def Released (log : List OrderRow) (startUs : ℤ) (s : Store) (key : OrderKey) : Prop :=
  s.lifecycles.get key = none ∧ WasRead log startUs s key

/-- In none of these runs a row of an order is left to read after the order was released. Late rows
    make a new lifecycle, which has another first event. -/
def NoRowAfterRelease [Rounding] (log : List OrderRow) (startUs : ℤ)
    (runs : List Endpoint) : Prop :=
  ∀ past, past <+: runs → ∀ s, past.foldlM (sync log) (Store.start startUs) = .ok s →
    ∀ key, Released log startUs s key → ∀ r ∈ log, r.key = key → r.source < s.sourceReadThroughUs

/-- A client order id names one Margin order: it is the `fkey` of `intra_orders`. -/
def OneMarginVenue (log : List OrderRow) : Prop :=
  ∀ a ∈ log, ∀ b ∈ log, isMargin a.venue → isMargin b.venue → a.clientOrderId = b.clientOrderId →
    a.venue = b.venue

/-- `margin_finalized_through_us` does not decrease from one of these runs to the next. -/
def WatermarkMonotone [Rounding] (log : List OrderRow) (startUs : ℤ)
    (runs : List Endpoint) : Prop :=
  ∀ past r, past ++ [r] <+: runs → ∀ s s',
    past.foldlM (sync log) (Store.start startUs) = .ok s → sync log s r = .ok s' →
    s.marginFinalizedThroughUs ≤ s'.marginFinalizedThroughUs

/-- No later run inserts or changes a row at or before the watermark. The hedge columns are
    included: they are part of the row. -/
def RowsFinal [Rounding] (log : List OrderRow) (startUs : ℤ) (runs : List Endpoint) : Prop :=
  ∀ past later, past ++ later <+: runs → ∀ s s',
    past.foldlM (sync log) (Store.start startUs) = .ok s → later.foldlM (sync log) s = .ok s' →
    ∀ o, o.openSourceTsUs ≤ s.marginFinalizedThroughUs → (o ∈ s'.orders.rows ↔ o ∈ s.orders.rows)

/-! ## The minimum -/

theorem le_min?_getD {l : List ℤ} {w d : ℤ} (hd : w ≤ d) :
    w ≤ l.min?.getD d ↔ ∀ x ∈ l, w ≤ x := by
  cases h : l.min? with
  | none =>
    rw [List.min?_eq_none_iff.mp h]
    simp [hd]
  | some m =>
    obtain ⟨hmem, hle⟩ := List.min?_eq_some_iff.mp h
    exact ⟨fun hw x hx => hw.trans (hle x hx), fun hall => hall m hmem⟩

theorem le_watermark_iff {orders : Orders} {lifecycles : Lifecycles} {through w : ℤ} :
    w ≤ marginFinalizedWatermark orders lifecycles through ↔ w ≤ through ∧
      (∀ o ∈ orders.rows, o.matchingState = .pending → w < o.openSourceTsUs) ∧
      ∀ l ∈ lifecycles.rows, 0 < l.filledAmount → w < l.firstSourceTsUs := by
  unfold marginFinalizedWatermark
  simp only [le_min_iff]
  constructor
  · rintro ⟨⟨hpending, hunreleased⟩, hthrough⟩
    rw [le_min?_getD hthrough] at hpending hunreleased
    refine ⟨hthrough, fun o ho hstate => ?_, fun l hl hfill => ?_⟩
    · have := hpending _ (List.mem_map_of_mem (List.mem_filter.mpr ⟨ho, decide_eq_true hstate⟩))
      omega
    · have := hunreleased _ (List.mem_map_of_mem (List.mem_filter.mpr ⟨hl, decide_eq_true hfill⟩))
      omega
  · rintro ⟨hthrough, hpending, hunreleased⟩
    rw [le_min?_getD hthrough, le_min?_getD hthrough]
    refine ⟨⟨fun x hx => ?_, fun x hx => ?_⟩, hthrough⟩
    · obtain ⟨o, ho, rfl⟩ := List.mem_map.mp hx
      obtain ⟨ho, hstate⟩ := List.mem_filter.mp ho
      have := hpending o ho (of_decide_eq_true hstate)
      omega
    · obtain ⟨l, hl, rfl⟩ := List.mem_map.mp hx
      obtain ⟨hl, hfill⟩ := List.mem_filter.mp hl
      have := hunreleased l hl (of_decide_eq_true hfill)
      omega

/-! ## What one run reads, stores and releases -/

section

variable {log : List OrderRow} {verified startUs : ℤ} {args : Args} {s s' : Store}
  {deltas : Lifecycles} {events : List MatchEvent}

theorem Accepted.get_merged [Rounding] (_ : Accepted log verified args s s' deltas events)
    (key : OrderKey) :
    (mergedLifecycles s deltas).get key
      = upsertLifecycle (s.lifecycles.get key) (deltas.get key) :=
  get_upsertLifecycles ..

/-- A lifecycle that the run read: its rows are new. -/
theorem Accepted.fetched_sources [Rounding] (h : Accepted log verified args s s' deltas events)
    {key : OrderKey} {d : Lifecycle} (hd : deltas.get key = some d) :
    (∃ r ∈ log, r.key = key ∧ s.sourceReadThroughUs ≤ r.source ∧
        r.source < s'.sourceReadThroughUs) ∧
      s.sourceReadThroughUs ≤ d.firstSourceTsUs ∧ d.firstSourceTsUs ≤ d.lastSourceTsUs := by
  have hfolds := (deltas_get h.fetched key).steady
  rw [hd] at hfolds
  obtain ⟨n, hn, hsteady⟩ := Option.map_eq_some_iff.mp hfolds.symm
  obtain ⟨hfirst, hlast, -⟩ := steady_fields hsteady
  obtain ⟨⟨r, hr, hrfirst⟩, -, hall⟩ := fold_sources hn
  obtain ⟨hwindow, hkey⟩ := mem_rowsOf.mp hr
  obtain ⟨hlog, hstart, hend⟩ := mem_window.mp hwindow
  have hr := (hall r hr).2
  exact ⟨⟨r, hlog, hkey, hstart, hend⟩, by omega, by omega⟩

/-- An order without new rows has no delta. -/
theorem Accepted.not_fetched [Rounding] (h : Accepted log verified args s s' deltas events)
    {key : OrderKey}
    (hnone : ∀ r ∈ log, r.key = key → r.source < s.sourceReadThroughUs) :
    deltas.get key = none := by
  cases hd : deltas.get key with
  | none => rfl
  | some d =>
    obtain ⟨⟨r, hr, hkey, hstart, -⟩, -⟩ := h.fetched_sources hd
    have := hnone r hr hkey
    omega

/-- Where a merged lifecycle comes from. -/
theorem Accepted.merged_cases [Rounding] (h : Accepted log verified args s s' deltas events)
    {l : Lifecycle}
    (hl : l ∈ (mergedLifecycles s deltas).rows) :
    l ∈ s.lifecycles.rows ∨ ∃ d, deltas.get l.key = some d ∧
      ((s.lifecycles.get l.key = none ∧ l = d) ∨
        ∃ m ∈ s.lifecycles.rows, m.key = l.key ∧ l = m.merge d) := by
  have hget := Table.mem_rows.mp hl
  rw [h.get_merged] at hget
  cases hd : deltas.get l.key with
  | none =>
    rw [hd, upsertLifecycle_none] at hget
    exact .inl (Table.mem_rows.mpr hget)
  | some d =>
    refine .inr ⟨d, rfl, ?_⟩
    rw [hd] at hget
    cases hs : s.lifecycles.get l.key with
    | none =>
      rw [hs] at hget
      exact .inl ⟨rfl, (Option.some.inj hget).symm⟩
    | some m =>
      rw [hs] at hget
      obtain ⟨hm, hkey⟩ := Table.get_eq_some.mp hs
      exact .inr ⟨m, hm, hkey, (Option.some.inj hget).symm⟩

/-- A Margin order that the run released. -/
theorem Accepted.margin [Rounding] (h : Accepted log verified args s s' deltas events)
    {order : MarginOrder}
    (horder : .margin order ∈ events) : ∃ l ∈ (mergedLifecycles s deltas).rows,
      isReady s'.eventsReleasedThroughUs l ∧ isMargin l.venue ∧ 0 < l.filledAmount ∧
      order.fkey = l.clientOrderId ∧ order.openSourceTsUs = l.lastSourceTsUs := by
  obtain ⟨l, hl, hevent⟩ := mem_lifecycleEvents h.released horder
  obtain ⟨hl, hready⟩ := List.mem_filter.mp hl
  obtain ⟨side, openUts, rfl, -, hvenue, hfill, -⟩ := lifecycleEvent_margin hevent
  exact ⟨l, hl, hready, hvenue, lt_of_le_of_lt h.epsilon hfill, rfl, rfl⟩

/-! ## The invariant -/

/-- What holds between runs. -/
structure Kept (log : List OrderRow) (startUs : ℤ) (s : Store) : Prop where
  start : startUs ≤ s.sourceReadThroughUs
  cursor : s.eventsReleasedThroughUs < s.sourceReadThroughUs
  finalized : s.marginFinalizedThroughUs
    = marginFinalizedWatermark s.orders s.lifecycles s.eventsReleasedThroughUs
  span : ∀ l ∈ s.lifecycles.rows, l.firstSourceTsUs ≤ l.lastSourceTsUs
  known : ∀ l ∈ s.lifecycles.rows, WasRead log startUs s l.key
  stored : ∀ o ∈ s.orders.rows, ∃ venue, isMargin venue ∧
    Released log startUs s (toLex (venue, o.fkey))

theorem kept_start (log : List OrderRow) (startUs : ℤ) : Kept log startUs (Store.start startUs) := by
  refine ⟨le_rfl, ?_, ?_, ?_, ?_, ?_⟩
  · show startUs - 1 < startUs
    omega
  · show startUs - 1 = min (min (startUs - 1) (startUs - 1)) (startUs - 1)
    rw [min_self, min_self]
  · intro l hl
    cases hl
  · intro l hl
    cases hl
  · intro o ho
    cases ho

theorem WasRead.mono [Rounding] (h : Accepted log verified args s s' deltas events) {key : OrderKey}
    (hread : WasRead log startUs s key) : WasRead log startUs s' key := by
  obtain ⟨r, hr, hkey, hstart, hend⟩ := hread
  exact ⟨r, hr, hkey, hstart, hend.trans_le h.forward⟩

theorem Kept.merged_known [Rounding] (h : Kept log startUs s)
    (hrun : Accepted log verified args s s' deltas events) {l : Lifecycle}
    (hl : l ∈ (mergedLifecycles s deltas).rows) : WasRead log startUs s' l.key := by
  rcases hrun.merged_cases hl with hold | ⟨d, hd, -⟩
  · exact (h.known l hold).mono hrun
  · obtain ⟨⟨r, hr, hkey, hstart, hend⟩, -⟩ := hrun.fetched_sources hd
    exact ⟨r, hr, hkey, h.start.trans hstart, hend⟩

theorem Kept.merged_span [Rounding] (h : Kept log startUs s)
    (hrun : Accepted log verified args s s' deltas events) {l : Lifecycle}
    (hl : l ∈ (mergedLifecycles s deltas).rows) : l.firstSourceTsUs ≤ l.lastSourceTsUs := by
  rcases hrun.merged_cases hl with hold | ⟨d, hd, ⟨-, rfl⟩ | ⟨m, hm, -, rfl⟩⟩
  · exact h.span l hold
  · exact (hrun.fetched_sources hd).2.2
  · obtain ⟨hfirst, hlast⟩ := merge_sources m d
    rw [hfirst, hlast]
    exact (min_le_left _ _).trans ((h.span m hm).trans (le_max_left _ _))

/-- A released order stays released. -/
theorem Released.mono [Rounding] (hrun : Accepted log verified args s s' deltas events)
    {key : OrderKey}
    (h : Released log startUs s key)
    (hlast : ∀ r ∈ log, r.key = key → r.source < s.sourceReadThroughUs) :
    Released log startUs s' key := by
  refine ⟨?_, h.2.mono hrun⟩
  have hmerged : (mergedLifecycles s deltas).get key = none := by
    rw [hrun.get_merged, h.1, hrun.not_fetched hlast]
    rfl
  rw [hrun.lifecycles, Table.get_filter, hmerged]
  rfl

/-- A Margin order that is released has a new key. -/
theorem Kept.fresh [Rounding] (h : Kept log startUs s)
    (hrun : Accepted log verified args s s' deltas events)
    (hafter : ∀ key, Released log startUs s key → ∀ r ∈ log, r.key = key →
      r.source < s.sourceReadThroughUs) (hvenue : OneMarginVenue log) {order : MarginOrder}
    (horder : .margin order ∈ events) : s.orders.get order.fkey = none := by
  rw [Table.get_eq_none]
  intro o ho hkey
  obtain ⟨l, hl, -, hmargin, -, hfkey, -⟩ := hrun.margin horder
  obtain ⟨venue, hvenueMargin, hreleased⟩ := h.stored o ho
  -- Both orders have rows in the log, so they are one.
  obtain ⟨a, ha, hakey, -⟩ := h.merged_known hrun hl
  obtain ⟨b, hb, hbkey, -⟩ := hreleased.2
  obtain ⟨havenue, haid⟩ : a.venue = l.venue ∧ a.clientOrderId = l.clientOrderId := by
    simpa [OrderRow.key, Lifecycle.key] using hakey
  obtain ⟨hbvenue, hbid⟩ : b.venue = venue ∧ b.clientOrderId = o.fkey := by
    simpa [OrderRow.key] using hbkey
  have hsame : a.venue = b.venue := hvenue a ha b hb (havenue ▸ hmargin) (hbvenue ▸ hvenueMargin)
    (by rw [haid, hbid, hkey, hfkey])
  have hlkey : l.key = toLex (venue, o.fkey) := by
    unfold Lifecycle.key
    rw [← havenue, hsame, hbvenue, hkey, hfkey]
  have hget := Table.mem_rows.mp hl
  rw [hrun.get_merged, hlkey, hreleased.1, hrun.not_fetched (hafter _ hreleased)] at hget
  cases hget

/-- Where a row of the next store comes from. -/
theorem Accepted.row_cases [Rounding] (h : Accepted log verified args s s' deltas events)
    (hfresh : ∀ order, .margin order ∈ events → s.orders.get order.fkey = none) {o : MarginOrder}
    (ho : o ∈ s'.orders.rows) : o ∈ s.orders.rows ∨
      (∃ old ∈ s.orders.rows, old.matchingState = .pending ∧ old.fkey = o.fkey ∧
        o.openSourceTsUs = old.openSourceTsUs) ∨
      ∃ l ∈ (mergedLifecycles s deltas).rows, isReady s'.eventsReleasedThroughUs l ∧
        isMargin l.venue ∧ 0 < l.filledAmount ∧ o.fkey = l.clientOrderId ∧
        o.openSourceTsUs = l.lastSourceTsUs := by
  have hget := Table.mem_rows.mp ho
  cases matchReleased_row h.matched o.fkey with
  | untouched hsame _ _ => exact .inl (Table.mem_rows.mpr (hsame.symm.trans hget))
  | matched old row hold hrow hfixed =>
    obtain ⟨hstored, hstate⟩ := Option.filter_eq_some_iff.mp hold
    obtain ⟨hmem, hkey⟩ := Table.get_eq_some.mp hstored
    have hrow : row = o := Option.some.inj (hrow.symm.trans hget)
    rw [hrow] at hfixed
    exact .inr (.inl ⟨old, hmem, of_decide_eq_true hstate, hkey,
      congrArg FixedColumns.openSourceTsUs hfixed⟩)
  | released order row horder hkey _ hrow hfixed =>
    have hrow : row = o := Option.some.inj (hrow.symm.trans hget)
    have hnone : s.orders.get o.fkey = none := hkey ▸ hfresh order horder
    rw [hrow] at hfixed
    replace hfixed : fixed o = fixed ((s.orders.get o.fkey).getD order) := hfixed
    rw [hnone] at hfixed
    obtain ⟨l, hl, hready, hvenue, hfill, hfkey, hsource⟩ := h.margin horder
    refine .inr (.inr ⟨l, hl, hready, hvenue, hfill, hkey ▸ hfkey, ?_⟩)
    exact (congrArg FixedColumns.openSourceTsUs hfixed).trans hsource

/-- A row that is not pending is left alone. -/
theorem Accepted.row_kept [Rounding] (h : Accepted log verified args s s' deltas events)
    (hfresh : ∀ order, .margin order ∈ events → s.orders.get order.fkey = none) {o : MarginOrder}
    (ho : o ∈ s.orders.rows) (hstate : o.matchingState ≠ .pending) : o ∈ s'.orders.rows := by
  have hget := Table.mem_rows.mp ho
  cases matchReleased_row h.matched o.fkey with
  | untouched hsame _ _ => exact Table.mem_rows.mpr (hsame.trans hget)
  | matched old row hold _ _ =>
    obtain ⟨hstored, hpending⟩ := Option.filter_eq_some_iff.mp hold
    cases hstored.symm.trans hget
    exact absurd (of_decide_eq_true hpending) hstate
  | released order row horder hkey _ _ _ =>
    have hnone := hfresh order horder
    rw [hkey] at hnone
    cases hnone.symm.trans hget

/-- **The invariant of a run.** -/
theorem Kept.step [Rounding] (h : Kept log startUs s)
    (hrun : Accepted log verified args s s' deltas events)
    (hafter : ∀ key, Released log startUs s key → ∀ r ∈ log, r.key = key →
      r.source < s.sourceReadThroughUs) (hvenue : OneMarginVenue log) : Kept log startUs s' := by
  have hmem : ∀ l ∈ s'.lifecycles.rows, l ∈ (mergedLifecycles s deltas).rows := by
    intro l hl
    rw [hrun.lifecycles] at hl
    exact (List.mem_filter.mp hl).1
  refine ⟨h.start.trans hrun.forward, ?_, hrun.finalized, ?_, ?_, ?_⟩
  · rw [hrun.through, hrun.source]
    have hforward := hrun.forward
    have hcursor := h.cursor
    have hreorder : 0 ≤ args.reorderUs := by
      unfold Args.reorderUs
      have := hrun.reorder
      omega
    rw [hrun.source] at hforward
    unfold releasedThrough
    omega
  · exact fun l hl => h.merged_span hrun (hmem l hl)
  · exact fun l hl => h.merged_known hrun (hmem l hl)
  · intro o ho
    have hold : ∀ old ∈ s.orders.rows, old.fkey = o.fkey → ∃ venue, isMargin venue ∧
        Released log startUs s' (toLex (venue, o.fkey)) := by
      intro old hold hkey
      obtain ⟨venue, hmargin, hreleased⟩ := h.stored old hold
      rw [hkey] at hreleased
      exact ⟨venue, hmargin, hreleased.mono hrun (hafter _ hreleased)⟩
    rcases hrun.row_cases (fun order => h.fresh hrun hafter hvenue) ho with
      hmem | ⟨old, hmem, -, hkey, -⟩ | ⟨l, hl, hready, hmargin, -, hfkey, -⟩
    · exact hold o hmem rfl
    · exact hold old hmem hkey
    · refine ⟨l.venue, hmargin, ?_, ?_⟩
      · rw [hrun.lifecycles, Table.get_filter, hfkey]
        show ((mergedLifecycles s deltas).get l.key).filter _ = none
        rw [Table.mem_rows.mp hl, Option.filter_some, hready]
        rfl
      · rw [hfkey]
        exact h.merged_known hrun hl

/-! ## Finality -/

/-- Nothing that is still to happen to Margin orders is at or before `w`: neither to pending rows
    nor to fills that are not released, nor anything that comes after what has been released. -/
structure Beyond (w : ℤ) (s : Store) : Prop where
  through : w ≤ s.eventsReleasedThroughUs
  pending : ∀ o ∈ s.orders.rows, o.matchingState = .pending → w < o.openSourceTsUs
  filled : ∀ l ∈ s.lifecycles.rows, 0 < l.filledAmount → w < l.lastSourceTsUs

theorem Kept.beyond (h : Kept log startUs s) : Beyond s.marginFinalizedThroughUs s := by
  obtain ⟨hthrough, hpending, hfilled⟩ := le_watermark_iff.mp h.finalized.le
  refine ⟨hthrough, hpending, fun l hl hfill => ?_⟩
  exact lt_of_lt_of_le (hfilled l hl hfill) (h.span l hl)

theorem Beyond.merged [Rounding] {w : ℤ} (h : Beyond w s) (hkept : Kept log startUs s)
    (hrun : Accepted log verified args s s' deltas events) {l : Lifecycle}
    (hl : l ∈ (mergedLifecycles s deltas).rows) (hfill : 0 < l.filledAmount) :
    w < l.lastSourceTsUs := by
  have hthrough := h.through
  have hcursor := hkept.cursor
  rcases hrun.merged_cases hl with hold | ⟨d, hd, ⟨-, rfl⟩ | ⟨m, -, -, rfl⟩⟩
  · exact h.filled l hold hfill
  · obtain ⟨-, hfirst, hlast⟩ := hrun.fetched_sources hd
    omega
  · obtain ⟨-, hfirst, hlast⟩ := hrun.fetched_sources hd
    rw [(merge_sources m d).2]
    exact lt_max_of_lt_right (by omega)

/-- **Finality of a run.** -/
theorem Beyond.step [Rounding] {w : ℤ} (h : Beyond w s) (hkept : Kept log startUs s)
    (hrun : Accepted log verified args s s' deltas events)
    (hfresh : ∀ order, .margin order ∈ events → s.orders.get order.fkey = none) :
    Beyond w s' ∧ ∀ o, o.openSourceTsUs ≤ w → (o ∈ s'.orders.rows ↔ o ∈ s.orders.rows) := by
  refine ⟨⟨?_, ?_, ?_⟩, fun o hw => ⟨fun ho => ?_, fun ho => ?_⟩⟩
  · rw [hrun.through]
    exact le_max_of_le_right h.through
  · intro o ho hstate
    rcases hrun.row_cases hfresh ho with hold | ⟨old, hold, hpending, -, hopen⟩ |
      ⟨l, hl, -, -, hfill, -, hopen⟩
    · exact h.pending o hold hstate
    · rw [hopen]
      exact h.pending old hold hpending
    · rw [hopen]
      exact h.merged hkept hrun hl hfill
  · intro l hl hfill
    rw [hrun.lifecycles] at hl
    exact h.merged hkept hrun (List.mem_filter.mp hl).1 hfill
  · rcases hrun.row_cases hfresh ho with hold | ⟨old, hold, hpending, -, hopen⟩ |
      ⟨l, hl, -, -, hfill, -, hopen⟩
    · exact hold
    · rw [hopen] at hw
      exact absurd (h.pending old hold hpending) (not_lt.mpr hw)
    · rw [hopen] at hw
      exact absurd (h.merged hkept hrun hl hfill) (not_lt.mpr hw)
  · refine hrun.row_kept hfresh ho fun hstate => ?_
    exact absurd (h.pending o ho hstate) (not_lt.mpr hw)

/-! ## Monotonicity -/

/-- No order whose first source time the watermark has passed gets its first fill in the run and
    is left unreleased by it. -/
def FirstFillsReleased [Rounding] (log : List OrderRow) (s : Store) (r : Endpoint) : Prop :=
  ∀ l ∈ s.lifecycles.rows, ¬0 < l.filledAmount → l.firstSourceTsUs ≤ s.marginFinalizedThroughUs →
    ∀ l', upsertLifecycle (some l) (fold (rowsOf l.key
      (window log s.sourceReadThroughUs (r.2.sourceEndUs r.1)))) = some l' →
    0 < l'.filledAmount → isReady (releasedThrough r.2 r.1 s) l'

/-- The merged lifecycle of a stored one, up to its description. -/
theorem Accepted.merged_steady [Rounding] (h : Accepted log verified args s s' deltas events)
    {l : Lifecycle}
    (hl : l ∈ s.lifecycles.rows) :
    ((mergedLifecycles s deltas).get l.key).map Lifecycle.steady
      = (upsertLifecycle (some l) (fold (rowsOf l.key
        (window log s.sourceReadThroughUs s'.sourceReadThroughUs)))).map Lifecycle.steady := by
  rw [h.get_merged, Table.mem_rows.mp hl]
  have hfolds := (deltas_get h.fetched l.key).steady
  cases hd : deltas.get l.key with
  | none =>
    rw [hd] at hfolds
    rw [Option.map_eq_none_iff.mp hfolds.symm]
  | some d =>
    rw [hd] at hfolds
    obtain ⟨n, hn, hsteady⟩ := Option.map_eq_some_iff.mp hfolds.symm
    rw [hn]
    exact congrArg some (merge_congr rfl hsteady.symm)

theorem isReady_steady {through : ℤ} {l l' : Lifecycle} (h : l.steady = l'.steady) :
    isReady through l = isReady through l' := by
  obtain ⟨-, hlast, -, hterminal⟩ := steady_fields h
  unfold isReady
  rw [hterminal, hlast]

/-- **When a run does not lower the watermark.** -/
theorem Kept.watermark_le_iff [Rounding] (h : Kept log startUs s)
    (hrun : Accepted log verified args s s' deltas events)
    (hfresh : ∀ order, .margin order ∈ events → s.orders.get order.fkey = none) :
    s.marginFinalizedThroughUs ≤ s'.marginFinalizedThroughUs ↔
      FirstFillsReleased log s (verified, args) := by
  obtain ⟨hbeyond, -⟩ := h.beyond.step h hrun hfresh
  have hready : ∀ l, l ∈ s'.lifecycles.rows ↔ l ∈ (mergedLifecycles s deltas).rows ∧
      isReady s'.eventsReleasedThroughUs l = false := by
    intro l
    rw [hrun.lifecycles, Table.filter, List.mem_filter, Bool.not_eq_true']
  rw [hrun.finalized, le_watermark_iff]
  constructor
  · rintro ⟨-, -, hfirst⟩ l hl hunfilled hpassed l' hl' hfill
    -- The stored counterpart of `l'` has its source times, fill and terminal flag.
    have hsteady := hrun.merged_steady hl
    rw [hrun.source, hl'] at hsteady
    obtain ⟨m, hm, hml⟩ := Option.map_eq_some_iff.mp hsteady
    obtain ⟨hmem, hkey⟩ := Table.get_eq_some.mp hm
    obtain ⟨hmfirst, -, hmfill, -⟩ := steady_fields hml
    show isReady (releasedThrough args verified s) l' = true
    rw [← hrun.through, ← isReady_steady hml]
    by_contra hnot
    have hm' := (hready m).mpr ⟨hmem, Bool.eq_false_of_not_eq_true hnot⟩
    have hlt := hfirst m hm' (hmfill ▸ hfill)
    have hle : m.firstSourceTsUs ≤ l.firstSourceTsUs := by
      rw [hmfirst]
      cases hfold : fold (rowsOf l.key
          (window log s.sourceReadThroughUs (args.sourceEndUs verified))) with
      | none =>
        rw [hfold] at hl'
        rw [← Option.some.inj hl']
      | some d =>
        rw [hfold] at hl'
        rw [← Option.some.inj hl', (merge_sources l d).1]
        exact min_le_left _ _
    omega
  · intro hreleased
    refine ⟨hbeyond.through, hbeyond.pending, fun l hl hfill => ?_⟩
    obtain ⟨hmem, hunready⟩ := (hready l).mp hl
    obtain ⟨hthrough, -, hfilled⟩ := le_watermark_iff.mp h.finalized.le
    have hcursor := h.cursor
    rcases hrun.merged_cases hmem with hold | ⟨d, hd, ⟨-, rfl⟩ | ⟨m, hm, hmkey, hlm⟩⟩
    · exact hfilled l hold hfill
    · have := (hrun.fetched_sources hd).2.1
      omega
    · have hdfirst := (hrun.fetched_sources hd).2.1
      by_contra hpassed
      have hlfirst : l.firstSourceTsUs = min m.firstSourceTsUs d.firstSourceTsUs := by
        rw [hlm]
        exact (merge_sources m d).1
      have hmfirst : m.firstSourceTsUs ≤ s.marginFinalizedThroughUs := by omega
      have hmfill : ¬0 < m.filledAmount := by
        intro hfill
        have := hfilled m hm hfill
        omega
      have hsteady := hrun.merged_steady hm
      rw [hmkey, Table.mem_rows.mp hmem] at hsteady
      obtain ⟨l', hl', hsteady⟩ := Option.map_eq_some_iff.mp hsteady.symm
      rw [hrun.source, ← hmkey] at hl'
      have hl'fill : 0 < l'.filledAmount := by
        rwa [(steady_fields hsteady).2.2.1]
      have hl'ready := hreleased m hm hmfill hmfirst l' hl' hl'fill
      replace hl'ready : isReady (releasedThrough args verified s) l' = true := hl'ready
      rw [← hrun.through, isReady_steady hsteady, hunready] at hl'ready
      cases hl'ready

end

/-! ## All runs -/

section

variable [Rounding] {log : List OrderRow} {startUs : ℤ} {runs : List Endpoint}

/-- The invariant after some of the runs. -/
theorem kept_of_earlier (hlog : NoRowAfterRelease log startUs runs) (hvenue : OneMarginVenue log)
    {past : List Endpoint} (hpast : past <+: runs) {s : Store}
    (hs : past.foldlM (sync log) (Store.start startUs) = .ok s) : Kept log startUs s := by
  induction past using List.reverseRecOn generalizing s with
  | nil =>
    cases run_nil.mp hs
    exact kept_start log startUs
  | append_singleton past r ih =>
    obtain ⟨t, ht, hmore⟩ := run_append.mp hs
    obtain ⟨t', ht', hnil⟩ := run_cons.mp hmore
    cases run_nil.mp hnil
    have hprefix : past <+: runs := (List.prefix_append past [r]).trans hpast
    obtain ⟨deltas, events, hrun⟩ := run_cases ht'
    exact (ih hprefix ht).step hrun (hlog past hprefix t ht) hvenue

/-- The rows up to `w` stay what they are through all later runs. -/
theorem beyond_of_earlier (hlog : NoRowAfterRelease log startUs runs) (hvenue : OneMarginVenue log)
    {past later : List Endpoint} (hlater : past ++ later <+: runs) {w : ℤ} {s s' : Store}
    (hs : past.foldlM (sync log) (Store.start startUs) = .ok s)
    (hs' : later.foldlM (sync log) s = .ok s') (hbeyond : Beyond w s) :
    Beyond w s' ∧ ∀ o, o.openSourceTsUs ≤ w → (o ∈ s'.orders.rows ↔ o ∈ s.orders.rows) := by
  induction later using List.reverseRecOn generalizing s' with
  | nil =>
    cases run_nil.mp hs'
    exact ⟨hbeyond, fun _ _ => Iff.rfl⟩
  | append_singleton later r ih =>
    obtain ⟨t, ht, hmore⟩ := run_append.mp hs'
    obtain ⟨t', ht', hnil⟩ := run_cons.mp hmore
    cases run_nil.mp hnil
    have hprefix : past ++ later <+: runs := by
      rw [← List.append_assoc] at hlater
      exact (List.prefix_append _ [r]).trans hlater
    obtain ⟨hbefore, hrows⟩ := ih hprefix ht
    have hreach : (past ++ later).foldlM (sync log) (Store.start startUs) = .ok t :=
      run_append.mpr ⟨s, hs, ht⟩
    have hkept := kept_of_earlier hlog hvenue hprefix hreach
    obtain ⟨deltas, events, hrun⟩ := run_cases ht'
    obtain ⟨hafter, hsame⟩ := hbefore.step hkept hrun
      fun order => hkept.fresh hrun (hlog _ hprefix t hreach) hvenue
    exact ⟨hafter, fun o ho => (hsame o ho).trans (hrows o ho)⟩

/-- **The Margin finalized watermark.** Over runs that are accepted, it never decreases and the rows
    up to it are final, exactly when in each of them the first fills of orders that it has passed
    come with the release of the order. An order that rests beyond the watermark and is filled later
    would otherwise pull it back to where the order began. -/
theorem watermark_monotone_final_iff (hlog : NoRowAfterRelease log startUs runs)
    (hvenue : OneMarginVenue log) {final : Store}
    (hrun : runs.foldlM (sync log) (Store.start startUs) = .ok final) :
    WatermarkMonotone log startUs runs ∧ RowsFinal log startUs runs ↔
      ∀ past r, past ++ [r] <+: runs → ∀ s,
        past.foldlM (sync log) (Store.start startUs) = .ok s → FirstFillsReleased log s r := by
  have hone : ∀ past r, past ++ [r] <+: runs → ∀ s s',
      past.foldlM (sync log) (Store.start startUs) = .ok s → sync log s r = .ok s' →
      (s.marginFinalizedThroughUs ≤ s'.marginFinalizedThroughUs ↔ FirstFillsReleased log s r) := by
    intro past r hprefix s s' hs hs'
    have hpast : past <+: runs := (List.prefix_append past [r]).trans hprefix
    have hkept := kept_of_earlier hlog hvenue hpast hs
    obtain ⟨deltas, events, haccepted⟩ := run_cases hs'
    exact hkept.watermark_le_iff haccepted
      fun order => hkept.fresh haccepted (hlog past hpast s hs) hvenue
  constructor
  · rintro ⟨hmonotone, -⟩ past r hprefix s hs
    -- The run at `r` was accepted, because all are.
    obtain ⟨rest, hrest⟩ := hprefix
    have hall := hrun
    rw [← hrest, List.append_assoc] at hall
    obtain ⟨t, ht, hmore⟩ := run_append.mp hall
    cases hs.symm.trans ht
    obtain ⟨s', hs', -⟩ := run_cons.mp hmore
    have hprefix : past ++ [r] <+: runs := ⟨rest, hrest⟩
    exact (hone past r hprefix s s' hs hs').mp (hmonotone past r hprefix s s' hs hs')
  · intro hreleased
    refine ⟨fun past r hprefix s s' hs hs' => ?_, fun past later hprefix s s' hs hs' => ?_⟩
    · exact (hone past r hprefix s s' hs hs').mpr (hreleased past r hprefix s hs)
    · have hpast : past <+: runs := (List.prefix_append past later).trans hprefix
      have hbeyond := (kept_of_earlier hlog hvenue hpast hs).beyond
      exact (beyond_of_earlier hlog hvenue hprefix hs hs' hbeyond).2

end

/-- A resting Margin order that the watermark passes before its first fill. -/
def restingOrder (source : ℤ) (status : String) (fill : ℚ) : OrderRow where
  venue := "BinanceMargin"
  clientOrderId := 1
  source := source
  market := none
  create := 100
  update := source
  localTs := source
  status := status
  fill := fill
  price := 10
  descriptor := .ok ⟨"BTCUSDT", "buy", 10, 0, 2, status, ""⟩

/-- Two runs up to 1 ms and 3 ms, without a reorder window. -/
def twoRuns : List Endpoint :=
  [(1, { reorderMinutes := 0, qtyEpsilon := 0 }), (3, { reorderMinutes := 0, qtyEpsilon := 0 })]

/-- Over a log of one order it is enough that the order is stored, not read at all, or read to
    its end after each of the runs. -/
theorem noRowAfterRelease_of_one {log : List OrderRow} {startUs : ℤ} {runs : List Endpoint}
    {key : OrderKey} (hkey : ∀ r ∈ log, r.key = key)
    (h : ∀ n ∈ List.range (runs.length + 1),
      ¬Yields ((runs.take n).foldlM (sync log) (Store.start startUs)) fun s =>
        ¬((s.lifecycles.get key).isSome ∨ (∀ r ∈ log, s.sourceReadThroughUs ≤ r.source) ∨
          ∀ r ∈ log, r.source < s.sourceReadThroughUs)) : NoRowAfterRelease log startUs runs := by
  rintro past hpast s hs k ⟨hnone, r, hr, hrk, -, hread⟩ x hx -
  have hk : k = key := hrk.symm.trans (hkey r hr)
  have htake := List.prefix_iff_eq_take.mp hpast
  have hlength := hpast.length_le
  rw [htake] at hs
  by_contra hlate
  refine h past.length (List.mem_range.mpr (by omega)) ⟨s, hs, ?_⟩
  rintro (hstored | hunread | hall)
  · rw [← hk, hnone] at hstored
    cases hstored
  · exact absurd hread (not_lt.mpr (hunread r hr))
  · exact hlate (hall x hx)

/-- The order is filled and released in the second run. -/
def filledLog : List OrderRow := [restingOrder 100 "NEW" 0, restingOrder 2500 "FILLED" 2]

theorem watermark_monotone_final_filled :
    ∃ final, twoRuns.foldlM (sync filledLog) (Store.start 0) = .ok final ∧
      final.orders.rows.map MarginOrder.openSourceTsUs = [2500] ∧
      (WatermarkMonotone filledLog 0 twoRuns ∧ RowsFinal filledLog 0 twoRuns ↔
        ∀ past r, past ++ [r] <+: twoRuns → ∀ s,
          past.foldlM (sync filledLog) (Store.start 0) = .ok s → FirstFillsReleased filledLog s r) := by
  have hok : Yields (twoRuns.foldlM (sync filledLog) (Store.start 0)) fun final =>
      final.orders.rows.map MarginOrder.openSourceTsUs = [2500] := by
    decide +kernel
  obtain ⟨final, hrun, hrows⟩ := hok
  have hlog : NoRowAfterRelease filledLog 0 twoRuns :=
    noRowAfterRelease_of_one (by decide +kernel : ∀ r ∈ filledLog, r.key = toLex ("BinanceMargin", 1))
      (by decide +kernel)
  have hvenue : OneMarginVenue filledLog := by
    unfold OneMarginVenue
    decide +kernel
  exact ⟨final, hrun, hrows, watermark_monotone_final_iff hlog hvenue hrun⟩

/-- Its first fill comes in the second run, and the order rests on. -/
def restingLog : List OrderRow :=
  [restingOrder 100 "NEW" 0, restingOrder 2500 "PARTIALLY_FILLED" 1]

/-- The watermark falls from 1999 to 99. -/
theorem watermark_falls_resting : NoRowAfterRelease restingLog 0 twoRuns ∧
    OneMarginVenue restingLog ∧ ¬WatermarkMonotone restingLog 0 twoRuns := by
  refine ⟨?_, ?_, ?_⟩
  · exact noRowAfterRelease_of_one
      (by decide +kernel : ∀ r ∈ restingLog, r.key = toLex ("BinanceMargin", 1))
      (by decide +kernel)
  · unfold OneMarginVenue
    decide +kernel
  · intro hmonotone
    have hok : Yields ((twoRuns.take 1).foldlM (sync restingLog) (Store.start 0)) fun s =>
        Yields (sync restingLog s twoRuns[1]) fun s' =>
          s.marginFinalizedThroughUs = 1999 ∧ s'.marginFinalizedThroughUs = 99 := by
      decide +kernel
    obtain ⟨s, hs, s', hs', hw, hw'⟩ := hok
    have hle := hmonotone (twoRuns.take 1) twoRuns[1] (List.prefix_refl _) s s' hs hs'
    omega

end CryptoNav.Sync
