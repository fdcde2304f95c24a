import CryptoNav.Sync.Run

/-!
# What a run reads

Order by order: the rows that a run reads of an order are folded, and the fold is merged into the
stored lifecycle (`get_upsertLifecycles`). A describing column can be null, so the fold of a run
is not `fold`; but it accepted the rows, and then it has the steady part of `fold` and describes
the order by one of them (`Folds`). The sums belong to the steady part, so two folds merge to one
only where their sums add up to those of all rows (`Joins`), which exact sums always do.

Reading a row may fail, and then the run fails; the file is about runs that were accepted. How
the rows of a run are cut out of the log is in `Run`, what merging does to two lifecycles in
`Merge`, and neither knows that there is more than one order.
-/

set_option autoImplicit false

namespace CryptoNav.Sync

open CryptoNav.Lib CryptoNav.Matching

/-! ## One order -/

def rowsOf (key : OrderKey) (rows : List OrderRow) : List OrderRow := rows.filter (·.key = key)

theorem mem_rowsOf {key : OrderKey} {rows : List OrderRow} {r : OrderRow} :
    r ∈ rowsOf key rows ↔ r ∈ rows ∧ r.key = key := by
  unfold rowsOf
  rw [List.mem_filter, decide_eq_true_eq]

theorem rowsOf_append (key : OrderKey) (a b : List OrderRow) :
    rowsOf key (a ++ b) = rowsOf key a ++ rowsOf key b := List.filter_append ..

section

variable [Rounding]

/-- A lifecycle that an accepting fold of these rows may have produced. Columns can be null, and
    then it depends on the parts in which the rows were read which row describes the order. -/
structure Folds (rows : List OrderRow) (l : Option Lifecycle) : Prop where
  steady : l.map Lifecycle.steady = (fold rows).map Lifecycle.steady
  described : ∀ m, l = some m → ∃ r ∈ rows, r.descriptor = .ok m.toDescriptor

theorem folds_nil : Folds [] none := ⟨rfl, fun _ h => by cases h⟩

theorem step_congr {l l' : Lifecycle} (h : l.steady = l'.steady) (r : OrderRow) :
    (step (some l) r).steady = (step (some l') r).steady := by
  rw [step_steady, step_steady]
  exact merge_congr h rfl

/-- An accepted row: the steady part is that of `step`, the description old or the row's. -/
theorem foldRow_cases {stored : Option Lifecycle} {r : OrderRow} {l : Lifecycle}
    (h : foldRow stored r = .ok l) : l.steady = (step stored r).steady ∧
      (r.descriptor = .ok l.toDescriptor ∨ ∃ m, stored = some m ∧ l.toDescriptor = m.toDescriptor) ∧
      (l.key = r.key ∨ ∃ m, stored = some m ∧ l.key = m.key) := by
  cases stored with
  | none =>
    obtain ⟨d, hd, rfl⟩ := map_eq_ok.mp h
    exact ⟨rfl, .inl hd, .inl rfl⟩
  | some m =>
    replace h : (if m.isLatest r then r.descriptor.map ((m.absorb r).describe r)
      else .ok (m.absorb r)) = .ok l := h
    by_cases hlatest : m.isLatest r
    · rw [if_pos hlatest] at h
      obtain ⟨d, hd, rfl⟩ := map_eq_ok.mp h
      rw [step_latest hlatest]
      exact ⟨rfl, .inl hd, .inr ⟨m, rfl, rfl⟩⟩
    · rw [if_neg hlatest] at h
      cases h
      rw [step_not_latest hlatest]
      exact ⟨rfl, .inr ⟨m, rfl, rfl⟩, .inr ⟨m, rfl, rfl⟩⟩

theorem Folds.row {rows : List OrderRow} {stored : Option Lifecycle} (h : Folds rows stored)
    {r : OrderRow} {l : Lifecycle} (hrow : foldRow stored r = .ok l) :
    Folds (rows ++ [r]) (some l) := by
  obtain ⟨hsteady, hdesc, -⟩ := foldRow_cases hrow
  constructor
  · rw [fold_append_single]
    refine congrArg some (hsteady.trans ?_)
    have hfold := h.steady
    cases hs : stored with
    | none =>
      rw [hs] at hfold
      rw [Option.map_eq_none_iff.mp hfold.symm]
    | some m =>
      rw [hs] at hfold
      obtain ⟨n, hn, hmn⟩ := Option.map_eq_some_iff.mp hfold.symm
      rw [hn]
      exact step_congr hmn.symm r
  · intro m hm
    cases hm
    rcases hdesc with hd | ⟨m, rfl, hd⟩
    · exact ⟨r, List.mem_append_right _ List.mem_cons_self, hd⟩
    · obtain ⟨x, hx, hxd⟩ := h.described m rfl
      exact ⟨x, List.mem_append_left _ hx, hd ▸ hxd⟩

/-- The sums of the rows of `a` and those of the rows of `b`, added, round to the sums of all. Where
    one of the two is empty there is nothing to add. -/
def Joins (a b : List OrderRow) : Prop :=
  a ≠ [] → b ≠ [] → Rounding.fl (filled a + filled b) = filled (a ++ b) ∧
    Rounding.fl (notionals a + notionals b) = notionals (a ++ b)

instance (a b : List OrderRow) : Decidable (Joins a b) :=
  inferInstanceAs (Decidable (_ → _ → _ ∧ _))

theorem fold_append_steady {a b : List OrderRow} (h : Joins a b) :
    (upsertLifecycle (fold a) (fold b)).map Lifecycle.steady
      = (fold (a ++ b)).map Lifecycle.steady := by
  cases ha : fold a with
  | none =>
    rw [fold_eq_none.mp ha, List.nil_append]
    rfl
  | some l =>
    cases hb : fold b with
    | none => rw [fold_eq_none.mp hb, List.append_nil, ha, upsertLifecycle_none]
    | some m =>
      have hrest := fold_append_unsummed a b
      rw [ha, hb] at hrest
      obtain ⟨n, hn, hnl⟩ := Option.map_eq_some_iff.mp hrest.symm
      obtain ⟨hfilled, hnotionals⟩ := h
        (fun hnil => by rw [fold_eq_none.mpr hnil] at ha; cases ha)
        (fun hnil => by rw [fold_eq_none.mpr hnil] at hb; cases hb)
      obtain ⟨hlfilled, hlnotional⟩ := fold_sums ha
      obtain ⟨hmfilled, hmnotional⟩ := fold_sums hb
      obtain ⟨hnfilled, hnnotional⟩ := fold_sums hn
      rw [hn]
      refine congrArg some (Lifecycle.steady_iff.mpr ⟨hnl.symm, ?_, ?_⟩)
      · rw [hnfilled, ← hfilled, ← hlfilled, ← hmfilled]
        rfl
      · rw [hnnotional, ← hnotionals, ← hlnotional, ← hmnotional]
        rfl

theorem upsertLifecycle_steady {s s' e : Option Lifecycle}
    (h : s.map Lifecycle.steady = s'.map Lifecycle.steady) :
    (upsertLifecycle s e).map Lifecycle.steady = (upsertLifecycle s' e).map Lifecycle.steady :=
  upsertLifecycle_congr (fun _ _ _ h => merge_congr h rfl) h

/-- Two folds whose sums add up merge to one of the rows together. -/
theorem Folds.merge {a b : List OrderRow} {stored excluded : Option Lifecycle}
    (ha : Folds a stored) (hb : Folds b excluded) (hab : Joins a b) :
    Folds (a ++ b) (upsertLifecycle stored excluded) := by
  constructor
  · rw [← fold_append_steady hab, upsertLifecycle_steady ha.steady]
    have hfold := hb.steady
    cases he : excluded with
    | none =>
      rw [he] at hfold
      rw [Option.map_eq_none_iff.mp hfold.symm]
    | some m =>
      rw [he] at hfold
      obtain ⟨n, hn, hmn⟩ := Option.map_eq_some_iff.mp hfold.symm
      rw [hn]
      cases fold a with
      | none => exact congrArg some hmn.symm
      | some l => exact congrArg some (merge_congr rfl hmn.symm)
  · intro m hm
    cases hs : stored with
    | none =>
      rw [hs] at hm
      obtain ⟨r, hr, hd⟩ := hb.described m hm
      exact ⟨r, List.mem_append_right _ hr, hd⟩
    | some l =>
      rw [hs] at hm
      cases he : excluded with
      | none =>
        rw [he] at hm
        obtain ⟨r, hr, hd⟩ := ha.described m (hs.trans hm)
        exact ⟨r, List.mem_append_left _ hr, hd⟩
      | some n =>
        rw [he] at hm
        obtain ⟨r, hr, hd⟩ := hb.described n he
        cases Option.some.inj hm
        exact ⟨r, List.mem_append_right _ hr, hd⟩

end

/-- What release and watermark read of a lifecycle is in its steady part. -/
theorem steady_fields {l l' : Lifecycle} (h : l.steady = l'.steady) :
    l.firstSourceTsUs = l'.firstSourceTsUs ∧ l.lastSourceTsUs = l'.lastSourceTsUs ∧
      l.filledAmount = l'.filledAmount ∧ l.terminal = l'.terminal := by
  refine ⟨?_, ?_, ?_, ?_⟩
  · show l.steady.firstSourceTsUs = _
    rw [h]
    rfl
  · show l.steady.lastSourceTsUs = _
    rw [h]
    rfl
  · show l.steady.filledAmount = _
    rw [h]
    rfl
  · show l.steady.terminal = _
    rw [h]
    rfl

/-! ### What a fold says of its rows -/

/-- First and last source time are those of rows, and in order. -/
theorem fold_sources [Rounding] {rows : List OrderRow} {l : Lifecycle} (h : fold rows = some l) :
    (∃ r ∈ rows, l.firstSourceTsUs = r.source) ∧ (∃ r ∈ rows, l.lastSourceTsUs = r.source) ∧
      ∀ r ∈ rows, l.firstSourceTsUs ≤ r.source ∧ r.source ≤ l.lastSourceTsUs := by
  refine ⟨?_, fold_lastSource h, ?_⟩
  · induction rows using List.reverseRecOn generalizing l with
    | nil => cases h
    | append_singleton rows r ih =>
      rw [fold_append_single] at h
      cases h
      cases hrows : fold rows with
      | none => exact ⟨r, by simp, rfl⟩
      | some m =>
        obtain ⟨a, ha, hfirst⟩ := ih hrows
        have hstep : (step (some m) r).firstSourceTsUs = min m.firstSourceTsUs r.source :=
          congrArg Lifecycle.firstSourceTsUs (step_steady m r)
        rcases min_choice m.firstSourceTsUs r.source with hm | hm
        · exact ⟨a, List.mem_append_left _ ha, by rw [hstep, hm, hfirst]⟩
        · exact ⟨r, by simp, by rw [hstep, hm]⟩
  · induction rows using List.reverseRecOn generalizing l with
    | nil => cases h
    | append_singleton rows r ih =>
      rw [fold_append_single] at h
      cases h
      intro x hx
      cases hrows : fold rows with
      | none =>
        rw [fold_eq_none.mp hrows] at hx
        rw [List.mem_singleton.mp hx]
        exact ⟨le_rfl, le_rfl⟩
      | some m =>
        have hfirst : (step (some m) r).firstSourceTsUs = min m.firstSourceTsUs r.source :=
          congrArg Lifecycle.firstSourceTsUs (step_steady m r)
        have hlast : (step (some m) r).lastSourceTsUs = max m.lastSourceTsUs r.source :=
          congrArg Lifecycle.lastSourceTsUs (step_steady m r)
        rw [hfirst, hlast]
        rcases List.mem_append.mp hx with hx | hx
        · obtain ⟨hlow, hhigh⟩ := ih hrows x hx
          exact ⟨min_le_of_left_le hlow, le_max_of_le_left hhigh⟩
        · rw [List.mem_singleton.mp hx]
          exact ⟨min_le_right _ _, le_max_right _ _⟩

/-- A merge spans both lifecycles. -/
theorem merge_sources [Rounding] (stored excluded : Lifecycle) :
    (stored.merge excluded).firstSourceTsUs = min stored.firstSourceTsUs excluded.firstSourceTsUs ∧
      (stored.merge excluded).lastSourceTsUs = max stored.lastSourceTsUs excluded.lastSourceTsUs :=
  ⟨rfl, rfl⟩

/-! ## All orders -/

theorem deltas_get [Rounding] {rows : List OrderRow} {deltas : Lifecycles}
    (h : rows.foldlM foldInto .empty = .ok deltas) (key : OrderKey) :
    Folds (rowsOf key rows) (deltas.get key) := by
  have hempty : ∀ key, Folds (rowsOf key []) ((Table.empty : Lifecycles).get key) :=
    fun _ => folds_nil
  refine run_prefix (P := fun past (t : Lifecycles) => ∀ key, Folds (rowsOf key past) (t.get key))
    ?_ hempty h key
  intro past r _ _ t t' ht hstep key
  obtain ⟨l, hl, rfl⟩ := map_eq_ok.mp hstep
  have hkey : l.key = r.key := by
    obtain ⟨-, -, hk | ⟨m, hm, hk⟩⟩ := foldRow_cases hl
    · exact hk
    · exact hk.trans (Table.key_of_get hm)
  rw [rowsOf_append, Table.get_put, hkey]
  by_cases hk : key = r.key
  · have hsingle : rowsOf key [r] = [r] := by
      unfold rowsOf
      rw [List.filter_cons_of_pos (by simpa using hk.symm), List.filter_nil]
    rw [if_pos hk, hsingle]
    refine (ht key).row ?_
    rw [hk]
    exact hl
  · have hsingle : rowsOf key [r] = [] := by
      unfold rowsOf
      rw [List.filter_cons_of_neg (by simpa using Ne.symm hk), List.filter_nil]
    rw [if_neg hk, hsingle, List.append_nil]
    exact ht key

/-- The upsert of a table's rows, key by key. -/
theorem get_upsertLifecycles [Rounding] (stored deltas : Lifecycles) (key : OrderKey) :
    (upsertLifecycles stored deltas.rows).get key
      = upsertLifecycle (stored.get key) (deltas.get key) := by
  have hkey : ∀ a b : Lifecycle, a.key = b.key → (a.merge b).key = b.key := fun _ _ h => h
  have hgo : ∀ rows : List Lifecycle, rows.Pairwise (fun a b => a.key < b.key) →
      ∀ stored : Lifecycles, (upsertLifecycles stored rows).get key
        = upsertLifecycle (stored.get key) (rows.find? (·.key = key)) := by
    intro rows hrows
    induction hrows with
    | nil => exact fun stored => (upsertLifecycle_none _).symm
    | @cons l rest hl _ ih =>
      intro stored
      show (upsertLifecycles (stored.upsert Lifecycle.merge l) rest).get key = _
      rw [ih, Table.get_upsert hkey]
      by_cases hk : key = l.key
      · -- The later rows have greater keys.
        have hnone : rest.find? (·.key = key) = none := by
          rw [List.find?_eq_none]
          intro m hm hmk
          exact ne_of_gt (hl m hm) ((of_decide_eq_true hmk).trans hk)
        rw [if_pos hk, hnone, upsertLifecycle_none, List.find?_cons_of_pos (by simpa using hk.symm)]
        cases stored.get key with
        | none => rfl
        | some m => rfl
      · rw [if_neg hk, List.find?_cons_of_neg (by simpa using Ne.symm hk)]
  exact hgo deltas.rows deltas.sorted stored

/-! ## The run, taken apart -/

/-- The rows between two cursors. -/
def window (log : List OrderRow) (startUs endUs : ℤ) : List OrderRow :=
  log.filter fun r => startUs ≤ r.source ∧ r.source < endUs

theorem mem_window {log : List OrderRow} {startUs endUs : ℤ} {r : OrderRow} :
    r ∈ window log startUs endUs ↔ r ∈ log ∧ startUs ≤ r.source ∧ r.source < endUs := by
  unfold window
  rw [List.mem_filter, decide_eq_true_eq]

/-- In source order, two windows that meet are one. -/
theorem window_append {log : List OrderRow} (h : Sorted log) {a b c : ℤ} (hab : a ≤ b) (hbc : b ≤ c) :
    window log a b ++ window log b c = window log a c := by
  unfold window
  induction h with
  | nil => rfl
  | @cons r rest hr _ ih =>
    by_cases hlow : r.source < b
    · have hnot : ¬(b ≤ r.source ∧ r.source < c) := by omega
      have hiff : (a ≤ r.source ∧ r.source < b) ↔ (a ≤ r.source ∧ r.source < c) := by omega
      simp only [List.filter_cons, hnot, hiff, decide_false, Bool.false_eq_true, if_false, ← ih]
      split
      · rfl
      · rfl
    · -- Nothing after it is in the first window either.
      have hnil : (r :: rest).filter (fun x => decide (a ≤ x.source ∧ x.source < b)) = [] := by
        refine List.filter_eq_nil_iff.mpr fun x hx hin => ?_
        have hin := of_decide_eq_true hin
        rcases List.mem_cons.mp hx with rfl | hx
        · omega
        · have := hr x hx
          omega
      rw [hnil, List.nil_append]
      refine List.filter_congr fun x hx => ?_
      have hle : b ≤ x.source := by
        rcases List.mem_cons.mp hx with rfl | hx
        · omega
        · have := hr x hx
          omega
      have hiff : (b ≤ x.source ∧ x.source < c) ↔ (a ≤ x.source ∧ x.source < c) := by omega
      rw [decide_eq_decide]
      exact hiff

/-- How far a run releases. -/
def releasedThrough (args : Args) (verifiedThroughMs : ℤ) (s : Store) : ℤ :=
  max (args.sourceEndUs verifiedThroughMs - args.reorderUs - 1) s.eventsReleasedThroughUs

theorem isReady_mono {a b : ℤ} (h : a ≤ b) {l : Lifecycle} (hready : isReady a l) :
    isReady b l := by
  unfold isReady at hready ⊢
  rw [Bool.and_eq_true, decide_eq_true_eq] at hready ⊢
  exact ⟨hready.1, hready.2.trans h⟩

/-- The lifecycles between the upsert and the release. -/
def mergedLifecycles [Rounding] (s : Store) (deltas : Lifecycles) : Lifecycles :=
  upsertLifecycles s.lifecycles deltas.rows

/-- An accepted run, with what it read and what it released. -/
structure Accepted [Rounding] (log : List OrderRow) (verifiedThroughMs : ℤ) (args : Args)
    (s s' : Store)
    (deltas : Lifecycles) (events : List MatchEvent) : Prop where
  reorder : 0 ≤ args.reorderMinutes
  epsilon : 0 ≤ args.qtyEpsilon
  forward : s.sourceReadThroughUs ≤ s'.sourceReadThroughUs
  fetched : (window log s.sourceReadThroughUs s'.sourceReadThroughUs).foldlM foldInto .empty
    = .ok deltas
  released : lifecycleEvents args.qtyEpsilon ((mergedLifecycles s deltas).rows.filter
    (isReady s'.eventsReleasedThroughUs)) = .ok events
  matched : matchReleased args.qtyEpsilon (s.orders, s.hedges) events = .ok (s'.orders, s'.hedges)
  lifecycles : s'.lifecycles
    = (mergedLifecycles s deltas).filter (!isReady s'.eventsReleasedThroughUs ·)
  source : s'.sourceReadThroughUs = args.sourceEndUs verifiedThroughMs
  through : s'.eventsReleasedThroughUs = releasedThrough args verifiedThroughMs s
  finalized : s'.marginFinalizedThroughUs
    = marginFinalizedWatermark s'.orders s'.lifecycles s'.eventsReleasedThroughUs

theorem run_cases [Rounding] {log : List OrderRow} {verifiedThroughMs : ℤ} {args : Args}
    {s s' : Store}
    (h : run log verifiedThroughMs args s = .ok s') :
    ∃ deltas events, Accepted log verifiedThroughMs args s s' deltas events := by
  obtain ⟨_, hvalid, h⟩ := bind_eq_ok.mp h
  unfold Args.validate at hvalid
  split at hvalid
  · cases hvalid
  · rename_i hreorder
    split at hvalid
    · cases hvalid
    · rename_i hepsilon
      simp only at h
      split at h
      · cases h
      · rename_i hforward
        obtain ⟨rows, hrows, h⟩ := bind_eq_ok.mp h
        obtain ⟨deltas, hdeltas, rfl⟩ := map_eq_ok.mp hrows
        obtain ⟨events, hevents, h⟩ := bind_eq_ok.mp h
        obtain ⟨⟨orders, hedges⟩, hmatched, h⟩ := bind_eq_ok.mp h
        cases pure_eq_ok.mp h
        exact ⟨deltas, events, not_lt.mp hreorder, not_lt.mp hepsilon, not_lt.mp hforward, hdeltas,
          hevents, hmatched, rfl, rfl, rfl, rfl⟩

end CryptoNav.Sync
