import CryptoNav.Matching.Replay
import CryptoNav.Sync.Books
import CryptoNav.Sync.Watermark

/-!
# Runs with other endpoints

What the runs up to an endpoint release depends on the log and on the endpoint; in which order they
match it depends on the endpoints before. An order is released by the time of its last event and
matched by the time of its fill, or of its creation. So an order that was created early and ended
late is matched after orders that an earlier run released, while a single run matches it before
them. Where no run does that, no row comes after the release of its order, and the sums of an
order's rows are the same whether they are taken in one go or run by run (`InOrder`), all runs
together replay what the single run replays.

Sums are rounded, in the fold and in matching. Where the runs only match an order in another
batch the engine does the same operations in the same order, so it rounds alike; where they fold
an order's rows in other parts it need not, and that is why the sums are a part of the
condition. The watermarks, the hedge metadata and the texts of a row, which also depend on the
endpoints, are left out of the comparison: it is about what matching writes.
-/

set_option autoImplicit false

namespace CryptoNav.Sync

open CryptoNav.Lib CryptoNav.Matching

/-! ## One release -/

/-- In tables that store a market for which the released orders are new, a release replays their
    events in the order of `sort_key`. -/
theorem Stores.release [Rounding] {ε : ℚ} {B : Book} {s s' : Orders × Hedges} (h : Stores s.1 B)
    (hε : 0 ≤ ε) {events : List MatchEvent}
    (hready : Ready ε B ((sortByKey MatchEvent.sortKey events).map MatchEvent.core))
    (hok : matchReleased ε s events = .ok s') :
    Stores s'.1
      (((sortByKey MatchEvent.sortKey events).map MatchEvent.core).foldl (Book.after ε) B) := by
  obtain ⟨loaded, e, results, hnew, happly, horders, -⟩ := matchReleased_cases hok
  obtain ⟨_, hloaded, href⟩ := h.new hready hε
  cases hnew.symm.trans hloaded
  generalize loadHedgeHistory s.2 (events.filterMap MatchEvent.marginFkey) = history at happly
  have hready' : Ready ε B ((sortByKey MatchEvent.sortKey events).map MatchEvent.core ++ []) := by
    rwa [List.append_nil]
  have htracks : Tracks ε (coreAt s.1) [] (loaded.seedHedgeHistory history, []) (B, []) :=
    ⟨href.seed history, rfl⟩
  obtain ⟨⟨B', hedges⟩, hbook, ⟨href', -⟩, -⟩ := (htracks.run hready').left happly
  have hfree : ∀ order, .margin order ∈ events → s.1.get order.fkey = none := by
    intro order horder
    have hahead : Ahead B (.margin order.core) :=
      hready.ahead _ (List.mem_map_of_mem (mem_sortByKey.mpr horder))
    refine Table.get_eq_none.mpr fun row hrow hkey => ?_
    exact (hahead row.core (h.mem_rows hrow)).1 hkey
  have hstored : s'.1 = s.1.putAll e.intoOrders :=
    upsertOrders_eq (seeded_fixed hnew history) happly hfree horders
  rw [hstored, ← Book.run_after hbook]
  exact href'.stores

/-! ## How far the runs got -/

/-- How far the rows are read, and how far the orders are released. -/
structure Cut where
  readUs : ℤ
  releasedUs : ℤ

def Store.cut (s : Store) : Cut := ⟨s.sourceReadThroughUs, s.eventsReleasedThroughUs⟩

/-- Where a run to a verified endpoint gets, whatever the runs before it. -/
def Args.cut (args : Args) (startUs verifiedThroughMs : ℤ) : Cut :=
  ⟨args.sourceEndUs verifiedThroughMs,
    max (args.sourceEndUs verifiedThroughMs - args.reorderUs - 1) (startUs - 1)⟩

section

variable (log : List OrderRow) (startUs : ℤ)

def rowsTo (c : Cut) (key : OrderKey) : List OrderRow := rowsOf key (window log startUs c.readUs)

/-- The lifecycle of an order, from all its rows at once. -/
def orderTo [Rounding] (c : Cut) (key : OrderKey) : Option Lifecycle :=
  fold (rowsTo log startUs c key)

def releasedTo [Rounding] (c : Cut) (key : OrderKey) : Bool :=
  (orderTo log startUs c key).any (isReady c.releasedUs)

end

/-! ## The condition -/

/-- The `sort_key` of the event of a lifecycle. -/
def Lifecycle.place (l : Lifecycle) : ℤ ×ₗ ℤ ×ₗ ℕ ×ₗ ℤ :=
  if isMargin l.venue then
    toLex (l.lastFillUpdateTsUs.getD 0, toLex (l.lastSourceTsUs, toLex (0, l.clientOrderId)))
  else toLex (l.createTsUs, toLex (l.lastSourceTsUs, toLex (1, l.clientOrderId)))

/-- The symbol and the side of a row, where they can be read. -/
def OrderRow.named (r : OrderRow) : Option (String × String) :=
  r.descriptor.toOption.map fun d => (d.symbol, d.side)

/-- A log: its rows come in source order, and the client order ids of a kind of venue name one
    order each. -/
structure Delivered (log : List OrderRow) : Prop where
  sorted : Sorted log
  margin : OneMarginVenue log
  futures : ∀ a ∈ log, ∀ b ∈ log, isFutures a.venue → isFutures b.venue →
    a.clientOrderId = b.clientOrderId → a.venue = b.venue

/-- The rows of an order name one symbol and one side. Rows that name none are left out of this; the
    fold takes what the others say. -/
def OneName (log : List OrderRow) : Prop :=
  ∀ a ∈ log, ∀ b ∈ log, a.key = b.key → ∀ x ∈ a.named, ∀ y ∈ b.named, x = y

/-- No row of an order released at `c` is read after it, up to `c'`. A row that comes later would be
    folded by a single run and be an order of its own for two. -/
def ReadToEnd [Rounding] (log : List OrderRow) (startUs : ℤ) (c c' : Cut) : Prop :=
  ∀ r ∈ log, releasedTo log startUs c r.key → c.readUs ≤ r.source → c'.readUs ≤ r.source

/-- A filled order that is released at `c'` and not at `c` sorts after every filled order of its
    symbol that is released at `c`. -/
def NoneOvertaken [Rounding] (log : List OrderRow) (startUs : ℤ) (ε : ℚ) (c c' : Cut) : Prop :=
  ∀ a ∈ log, releasedTo log startUs c a.key →
    ∀ b ∈ log, ¬releasedTo log startUs c b.key → releasedTo log startUs c' b.key →
      ∀ x ∈ a.named, ∀ y ∈ b.named, x.1 = y.1 →
        ∀ l ∈ orderTo log startUs c' a.key, ∀ l' ∈ orderTo log startUs c' b.key,
          ε < l.filledAmount → ε < l'.filledAmount → l.place < l'.place

/-- Of an order not released at `c`, the sums up to `c` and those of the rows from there to `c'`
    add up to the sums up to `c'`. -/
def SumsJoin [Rounding] (log : List OrderRow) (startUs : ℤ) (c c' : Cut) : Prop :=
  ∀ r ∈ log, ¬releasedTo log startUs c r.key →
    Joins (rowsTo log startUs c r.key) (rowsOf r.key (window log c.readUs c'.readUs))

/-- What a run after another must keep to. -/
def InOrder [Rounding] (log : List OrderRow) (startUs : ℤ) (ε : ℚ) (c c' : Cut) : Prop :=
  ReadToEnd log startUs c c' ∧ NoneOvertaken log startUs ε c c' ∧ SumsJoin log startUs c c'

instance (log : List OrderRow) : Decidable (OneName log) :=
  inferInstanceAs (Decidable (∀ a ∈ log, ∀ b ∈ log, _ → _))

instance [Rounding] (log : List OrderRow) (startUs : ℤ) (ε : ℚ) :
    DecidableRel (InOrder log startUs ε) := fun _ _ =>
  inferInstanceAs (Decidable ((∀ r ∈ log, _ → _ → _) ∧
    (∀ a ∈ log, _ → ∀ b ∈ log, _ → _ → ∀ x ∈ a.named, ∀ y ∈ b.named, _ → ∀ l ∈ _, ∀ l' ∈ _, _) ∧
      ∀ r ∈ log, _ → Joins _ _))

/-! ## Rows up to a cut -/

section

variable {log : List OrderRow} {startUs : ℤ}

theorem mem_rowsTo {c : Cut} {key : OrderKey} {r : OrderRow} :
    r ∈ rowsTo log startUs c key ↔
      (r ∈ log ∧ startUs ≤ r.source ∧ r.source < c.readUs) ∧ r.key = key := by
  unfold rowsTo
  rw [mem_rowsOf, mem_window]

theorem rowsTo_append (h : Sorted log) {c c' : Cut} (hstart : startUs ≤ c.readUs)
    (hforward : c.readUs ≤ c'.readUs) (key : OrderKey) :
    rowsTo log startUs c key ++ rowsOf key (window log c.readUs c'.readUs)
      = rowsTo log startUs c' key := by
  unfold rowsTo
  rw [← rowsOf_append, window_append h hstart hforward]

/-- No further rows of a released order are read. -/
theorem ReadToEnd.rowsTo_eq [Rounding] {c c' : Cut} (h : ReadToEnd log startUs c c')
    (hlog : Sorted log)
    (hstart : startUs ≤ c.readUs) (hforward : c.readUs ≤ c'.readUs) {key : OrderKey}
    (hreleased : releasedTo log startUs c key) :
    rowsOf key (window log c.readUs c'.readUs) = [] ∧
      rowsTo log startUs c' key = rowsTo log startUs c key := by
  have hnil : rowsOf key (window log c.readUs c'.readUs) = [] := by
    refine List.eq_nil_iff_forall_not_mem.mpr fun r hr => ?_
    obtain ⟨hr, hkey⟩ := mem_rowsOf.mp hr
    obtain ⟨hmem, hlow, hhigh⟩ := mem_window.mp hr
    have := h r hmem (hkey ▸ hreleased) hlow
    omega
  refine ⟨hnil, ?_⟩
  rw [← rowsTo_append hlog hstart hforward, hnil, List.append_nil]

theorem ReadToEnd.still_released [Rounding] {c c' : Cut} (h : ReadToEnd log startUs c c')
    (hlog : Sorted log)
    (hstart : startUs ≤ c.readUs) (hforward : c.readUs ≤ c'.readUs)
    (hthrough : c.releasedUs ≤ c'.releasedUs) {key : OrderKey}
    (hreleased : releasedTo log startUs c key) : releasedTo log startUs c' key := by
  have hrows := (h.rowsTo_eq hlog hstart hforward hreleased).2
  unfold releasedTo orderTo at hreleased ⊢
  rw [hrows]
  cases hfold : fold (rowsTo log startUs c key) with
  | none =>
    rw [hfold] at hreleased
    cases hreleased
  | some l =>
    rw [hfold] at hreleased
    exact isReady_mono hthrough hreleased

/-- Every accepting fold of an order's rows tells whether it is released. -/
theorem Folds.releasedTo_eq [Rounding] {c : Cut} {key : OrderKey} {l : Option Lifecycle}
    (h : Folds (rowsTo log startUs c key) l) :
    releasedTo log startUs c key = l.any (isReady c.releasedUs) := by
  unfold releasedTo orderTo
  have hsteady := h.steady
  cases l with
  | none => rw [Option.map_eq_none_iff.mp hsteady.symm]
  | some l =>
    obtain ⟨n, hn, hsame⟩ := Option.map_eq_some_iff.mp hsteady.symm
    rw [hn]
    exact isReady_steady hsame

end

/-! ## The event of an order -/

/-- What an event takes over of the columns that a merge does not keep. -/
def Lifecycle.plain (l : Lifecycle) : Lifecycle :=
  { l with toDescriptor := { (default : Descriptor) with symbol := l.symbol, side := l.side }
           terminalTsLocalUs := none }

theorem plain_congr {l l' : Lifecycle} (hsteady : l.steady = l'.steady)
    (hsymbol : l.symbol = l'.symbol) (hside : l.side = l'.side) : l.plain = l'.plain := by
  have hplain : ∀ l : Lifecycle, l.plain = { l.steady with
      toDescriptor := { (default : Descriptor) with symbol := l.symbol, side := l.side } } :=
    fun _ => rfl
  rw [hplain l, hplain l', hsteady, hsymbol, hside]

theorem lifecycleEvent_plain [Rounding] (ε : ℚ) (l : Lifecycle) :
    (lifecycleEvent ε l).map (Option.map MatchEvent.bare)
      = (lifecycleEvent ε l.plain).map (Option.map MatchEvent.bare) := by
  unfold lifecycleEvent
  show Except.map _ (Side.parse l.side >>= _) = Except.map _ (Side.parse l.side >>= _)
  cases Side.parse l.side with
  | error m => rfl
  | ok side =>
    show Except.map _ (if isMargin l.venue then _ else _)
      = Except.map _ (if isMargin l.venue then _ else _)
    split
    · show Except.map _ (if l.filledAmount ≤ ε then _ else _)
        = Except.map _ (if l.filledAmount ≤ ε then _ else _)
      split
      · rfl
      · show Except.map _ (requiredFillTs "Margin" l >>= _)
          = Except.map _ (requiredFillTs "Margin" l >>= _)
        cases requiredFillTs "Margin" l with
        | error m => rfl
        | ok openUts => rfl
    · show Except.map _ (if isFutures l.venue then _ else _)
        = Except.map _ (if isFutures l.venue then _ else _)
      split
      · show Except.map _ (if ε < l.filledAmount then _ else _)
          = Except.map _ (if ε < l.filledAmount then _ else _)
        split
        · show Except.map _ (requiredFillTs "Futures" l >>= _)
            = Except.map _ (requiredFillTs "Futures" l >>= _)
          cases requiredFillTs "Futures" l with
          | error m => rfl
          | ok fillTsUs => rfl
        · rfl
      · rfl

section

variable {ε : ℚ} {l l' : Lifecycle} {event : MatchEvent}

/-- Lifecycles that differ only in what a merge does not keep have the same bare event. -/
theorem lifecycleEvent_bare [Rounding] (hplain : l.plain = l'.plain)
    (h : lifecycleEvent ε l = .ok (some event)) {event' : Option MatchEvent}
    (h' : lifecycleEvent ε l' = .ok event') : event'.map MatchEvent.bare = some event.bare := by
  have hbare := lifecycleEvent_plain ε l
  rw [hplain, ← lifecycleEvent_plain, h, h'] at hbare
  exact (Except.ok.inj hbare).symm

theorem place_steady (h : l.steady = l'.steady) : l.place = l'.place := by
  show l.steady.place = l'.steady.place
  rw [h]

theorem lifecycleEvent_place [Rounding] (h : lifecycleEvent ε l = .ok (some event)) :
    event.sortKey = l.place := by
  unfold Lifecycle.place
  cases event with
  | margin order =>
    obtain ⟨side, openUts, rfl, -, hvenue, -, hts⟩ := lifecycleEvent_margin h
    rw [if_pos hvenue, hts]
    rfl
  | futures order =>
    obtain ⟨side, fillTsUs, rfl, hvenue⟩ := lifecycleEvent_futures h
    rw [if_neg (not_isMargin hvenue)]
    rfl

theorem lifecycleEvent_symbol [Rounding] (h : lifecycleEvent ε l = .ok (some event)) :
    event.symbol = l.symbol := by
  cases event with
  | margin order =>
    obtain ⟨side, openUts, rfl, -⟩ := lifecycleEvent_margin h
    rfl
  | futures order =>
    obtain ⟨side, fillTsUs, rfl, -⟩ := lifecycleEvent_futures h
    rfl

/-- An event that acts has a real fill. -/
theorem lifecycleEvent_acts [Rounding] (h : lifecycleEvent ε l = .ok (some event))
    (hacts : event.acts ε) : ε < l.filledAmount := by
  cases event with
  | margin order =>
    obtain ⟨side, openUts, rfl, -, -, hfill, -⟩ := lifecycleEvent_margin h
    exact hfill
  | futures order =>
    obtain ⟨side, fillTsUs, rfl, -⟩ := lifecycleEvent_futures h
    exact of_decide_eq_true hacts

/-- The end of the `sort_key`: the kind of the order and its client order id. -/
def orderId (event : MatchEvent) : ℕ ×ₗ ℤ := (ofLex (ofLex event.sortKey).2).2

theorem lifecycleEvent_orderId [Rounding] (h : lifecycleEvent ε l = .ok (some event)) :
    (isMargin l.venue ∧ orderId event = toLex (0, l.clientOrderId)) ∨
      (isFutures l.venue ∧ orderId event = toLex (1, l.clientOrderId)) := by
  cases event with
  | margin order =>
    obtain ⟨side, openUts, rfl, -, hvenue, -⟩ := lifecycleEvent_margin h
    exact .inl ⟨hvenue, rfl⟩
  | futures order =>
    obtain ⟨side, fillTsUs, rfl, hvenue⟩ := lifecycleEvent_futures h
    exact .inr ⟨hvenue, rfl⟩

end

/-! ## What was released up to a cut -/

/-- An order that is released at the cut, as an accepting run may have folded it, and its event. -/
structure Plays [Rounding] (log : List OrderRow) (startUs : ℤ) (ε : ℚ) (c : Cut) (l : Lifecycle)
    (event : MatchEvent) : Prop where
  folds : Folds (rowsTo log startUs c l.key) (some l)
  ready : isReady c.releasedUs l
  event : lifecycleEvent ε l = .ok (some event)

/-- The events of exactly the orders released at the cut, each symbol's in order. -/
structure Played [Rounding] (log : List OrderRow) (startUs : ℤ) (ε : ℚ) (c : Cut)
    (past : List MatchEvent) :
    Prop where
  sound : ∀ event ∈ past, ∃ l, Plays log startUs ε c l event
  complete : ∀ l event, Plays log startUs ε c l event → ∃ event' ∈ past, event'.bare = event.bare
  sorted : past.Pairwise fun a b => orderId a ≠ orderId b ∧ Precedes ε a b

section

variable [Rounding] {log : List OrderRow} {startUs : ℤ} {ε : ℚ} {c c' : Cut} {l l' : Lifecycle}
  {event event' : MatchEvent}

/-- An order is described by one of its rows. -/
theorem Plays.row (h : Plays log startUs ε c l event) :
    ∃ r ∈ log, r.key = l.key ∧ r.named = some (l.symbol, l.side) := by
  obtain ⟨r, hr, hdescriptor⟩ := h.folds.described l rfl
  obtain ⟨⟨hlog, -⟩, hkey⟩ := mem_rowsTo.mp hr
  refine ⟨r, hlog, hkey, ?_⟩
  unfold OrderRow.named
  rw [hdescriptor]
  rfl

theorem Plays.released (h : Plays log startUs ε c l event) : releasedTo log startUs c l.key := by
  rw [h.folds.releasedTo_eq]
  exact h.ready

/-- An order that is released and has no further rows is released as it was. -/
theorem Plays.later (h : Plays log startUs ε c l event)
    (hrows : rowsTo log startUs c' l.key = rowsTo log startUs c l.key)
    (hthrough : c.releasedUs ≤ c'.releasedUs) : Plays log startUs ε c' l event := by
  refine ⟨?_, isReady_mono hthrough h.ready, h.event⟩
  rw [hrows]
  exact h.folds

/-- Different orders have events of different ids. -/
theorem Plays.orderId_ne (hlog : Delivered log) (h : Plays log startUs ε c l event)
    (h' : Plays log startUs ε c' l' event') (hne : l.key ≠ l'.key) :
    orderId event ≠ orderId event' := by
  obtain ⟨r, hr, hkey, -⟩ := h.row
  obtain ⟨r', hr', hkey', -⟩ := h'.row
  obtain ⟨hvenue, hid⟩ : r.venue = l.venue ∧ r.clientOrderId = l.clientOrderId := by
    simpa [OrderRow.key, Lifecycle.key] using hkey
  obtain ⟨hvenue', hid'⟩ : r'.venue = l'.venue ∧ r'.clientOrderId = l'.clientOrderId := by
    simpa [OrderRow.key, Lifecycle.key] using hkey'
  have hids : ∀ kind : String → Bool, (∀ a ∈ log, ∀ b ∈ log, kind a.venue → kind b.venue →
      a.clientOrderId = b.clientOrderId → a.venue = b.venue) → kind l.venue → kind l'.venue →
      l.clientOrderId ≠ l'.clientOrderId := by
    intro kind hone hkind hkind' hids
    have hvenues := hone r hr r' hr' (hvenue ▸ hkind) (hvenue' ▸ hkind') (by rw [hid, hid', hids])
    apply hne
    unfold Lifecycle.key
    rw [← hvenue, ← hvenue', hvenues, hids]
  rcases lifecycleEvent_orderId h.event with ⟨hkind, horder⟩ | ⟨hkind, horder⟩
  · rcases lifecycleEvent_orderId h'.event with ⟨hkind', horder'⟩ | ⟨-, horder'⟩
    · rw [horder, horder']
      exact fun hsame => hids isMargin hlog.margin hkind hkind' (Prod.mk.inj hsame).2
    · rw [horder, horder']
      exact fun hsame => zero_ne_one (Prod.mk.inj hsame).1
  · rcases lifecycleEvent_orderId h'.event with ⟨-, horder'⟩ | ⟨hkind', horder'⟩
    · rw [horder, horder']
      exact fun hsame => one_ne_zero (Prod.mk.inj hsame).1
    · rw [horder, horder']
      exact fun hsame => hids isFutures hlog.futures hkind hkind' (Prod.mk.inj hsame).2

/-- All runs that release an order fold it alike, up to what a merge does not keep. -/
theorem Plays.plain_eq (h : Plays log startUs ε c l event) (hname : OneName log) {m : Lifecycle}
    (hm : Folds (rowsTo log startUs c l.key) (some m)) : m.plain = l.plain ∧
      isReady c.releasedUs m := by
  have hsteady : m.steady = l.steady :=
    Option.some.inj (hm.steady.trans h.folds.steady.symm)
  obtain ⟨r, hr, hdescriptor⟩ := hm.described m rfl
  obtain ⟨r', hr', hkey', hnamed'⟩ := h.row
  obtain ⟨⟨hlog, -⟩, hkey⟩ := mem_rowsTo.mp hr
  have hnamed : r.named = some (m.symbol, m.side) := by
    unfold OrderRow.named
    rw [hdescriptor]
    rfl
  have hsame := hname r hlog r' hr' (hkey.trans hkey'.symm) _ hnamed _ hnamed'
  obtain ⟨hsymbol, hside⟩ := Prod.mk.inj hsame
  refine ⟨plain_congr hsteady hsymbol hside, ?_⟩
  rw [isReady_steady hsteady]
  exact h.ready

/-- **No order is overtaken.** Of two filled orders of a symbol, the one that an earlier run
    released is matched first. -/
theorem NoneOvertaken.precedes (h : NoneOvertaken log startUs ε c c')
    (hplays : Plays log startUs ε c l event)
    (hrows : rowsTo log startUs c' l.key = rowsTo log startUs c l.key)
    (hplays' : Plays log startUs ε c' l' event') (hnew : ¬releasedTo log startUs c l'.key) :
    Precedes ε event event' := by
  intro hacts hacts' hsymbol
  obtain ⟨a, ha, hakey, hanamed⟩ := hplays.row
  obtain ⟨b, hb, hbkey, hbnamed⟩ := hplays'.row
  rw [lifecycleEvent_symbol hplays.event, lifecycleEvent_symbol hplays'.event] at hsymbol
  have hfolds := hplays.folds
  rw [← hrows] at hfolds
  obtain ⟨n, hn, hsteady⟩ := Option.map_eq_some_iff.mp hfolds.steady.symm
  obtain ⟨n', hn', hsteady'⟩ := Option.map_eq_some_iff.mp hplays'.folds.steady.symm
  rw [lifecycleEvent_place hplays.event, lifecycleEvent_place hplays'.event,
    ← place_steady hsteady, ← place_steady hsteady']
  refine h a ha (hakey ▸ hplays.released) b hb (hbkey ▸ hnew) (hbkey ▸ hplays'.released)
    _ hanamed _ hbnamed hsymbol n (hakey ▸ hn) n' (hbkey ▸ hn') ?_ ?_
  · rw [(steady_fields hsteady).2.2.1]
    exact lifecycleEvent_acts hplays.event hacts
  · rw [(steady_fields hsteady').2.2.1]
    exact lifecycleEvent_acts hplays'.event hacts'

end

/-! ## The invariant -/

/-- What holds after some runs: a released order is gone, of any other order all its rows are kept,
    folded, and the table of Margin orders stores the replay of what was released. -/
structure Reached [Rounding] (log : List OrderRow) (startUs : ℤ) (ε : ℚ) (s : Store)
    (past : List MatchEvent) :
    Prop where
  start : startUs ≤ s.cut.readUs
  kept : ∀ key, ¬releasedTo log startUs s.cut key →
    Folds (rowsTo log startUs s.cut key) (s.lifecycles.get key)
  gone : ∀ key, releasedTo log startUs s.cut key → s.lifecycles.get key = none
  played : Played log startUs ε s.cut past
  stores : Stores s.orders (replay ε (past.map MatchEvent.core))

section

variable {log : List OrderRow} {startUs : ℤ} {ε : ℚ}

theorem rowsTo_start (through : ℤ) (key : OrderKey) :
    rowsTo log startUs ⟨startUs, through⟩ key = [] := by
  refine List.eq_nil_iff_forall_not_mem.mpr fun r hr => ?_
  obtain ⟨⟨-, hlow, hhigh⟩, -⟩ := mem_rowsTo.mp hr
  exact absurd hhigh (not_lt.mpr hlow)

theorem not_releasedTo_start [Rounding] (through : ℤ) (key : OrderKey) :
    ¬releasedTo log startUs ⟨startUs, through⟩ key := by
  unfold releasedTo orderTo
  rw [rowsTo_start]
  exact Bool.false_ne_true

theorem inOrder_start [Rounding] (through : ℤ) (c : Cut) :
    InOrder log startUs ε ⟨startUs, through⟩ c :=
  ⟨fun _ _ h => absurd h (not_releasedTo_start through _),
    fun _ _ h => absurd h (not_releasedTo_start through _),
    fun r _ _ hne => absurd (rowsTo_start through r.key) hne⟩

theorem reached_start [Rounding] : Reached log startUs ε (.start startUs) [] where
  start := le_rfl
  kept key _ := by
    show Folds (rowsTo log startUs ⟨startUs, _⟩ key) none
    rw [rowsTo_start]
    exact folds_nil
  gone key h := absurd h (not_releasedTo_start _ key)
  played := by
    refine ⟨fun event h => absurd h List.not_mem_nil, fun l event h => ?_, List.Pairwise.nil⟩
    exact absurd h.released (not_releasedTo_start _ l.key)
  stores fkey o := by
    show coreAt .empty fkey = some o ↔ o.fkey = fkey ∧ Book.Holds (fun _ => {}) o
    rw [← (refines_empty ε).rows fkey o]
    rfl

variable {past : List MatchEvent}

/-- Events in order follow each other. -/
theorem Played.follows [Rounding] {c : Cut} (h : Played log startUs ε c past) :
    (past.map MatchEvent.core).Pairwise Follows := by
  refine List.pairwise_map.mpr (h.sorted.imp fun {a b} hab => ?_)
  obtain ⟨hne, hprecedes⟩ := hab
  cases a with
  | futures _ => trivial
  | margin x =>
    cases b with
    | futures _ => trivial
    | margin y =>
      refine ⟨fun hkey => hne (congrArg (fun k => toLex (0, k)) hkey), fun hsymbol => ?_⟩
      have hlt := hprecedes rfl rfl hsymbol
      show x.queueKey < y.queueKey
      simp only [MatchEvent.sortKey, MarginOrder.queueKey, Prod.Lex.toLex_lt_toLex] at hlt ⊢
      omega

theorem Played.precedes [Rounding] {c : Cut} (h : Played log startUs ε c past) :
    (past.map MatchEvent.core).Pairwise (Precedes ε) := by
  refine List.pairwise_map.mpr (h.sorted.imp fun {a b} hab => ?_)
  unfold Precedes
  rw [MatchEvent.core_acts, MatchEvent.core_acts, MatchEvent.core_symbol, MatchEvent.core_symbol,
    MatchEvent.core_sortKey, MatchEvent.core_sortKey]
  exact hab.2

/-- Two histories that got as far have the same bare events. -/
theorem Played.among [Rounding] {c : Cut} {past' : List MatchEvent}
    (h : Played log startUs ε c past)
    (h' : Played log startUs ε c past') :
    BareAmong ε (past.map MatchEvent.core) (past'.map MatchEvent.core) := by
  intro event hevent _
  obtain ⟨a, ha, rfl⟩ := List.mem_map.mp hevent
  obtain ⟨l, hl⟩ := h.sound a ha
  obtain ⟨a', ha', hbare⟩ := h'.complete l a hl
  refine ⟨a'.core, List.mem_map_of_mem ha', ?_⟩
  rw [MatchEvent.bare_core, MatchEvent.bare_core, hbare]

end

/-! ### One run -/

section

variable [Rounding] {log : List OrderRow} {startUs : ℤ} {s s' : Store} {past : List MatchEvent}
  {verified : ℤ} {args : Args} {deltas : Lifecycles} {events : List MatchEvent}

theorem Accepted.cut_le (h : Accepted log verified args s s' deltas events) :
    s.cut.readUs ≤ s'.cut.readUs ∧ s.cut.releasedUs ≤ s'.cut.releasedUs := by
  refine ⟨h.forward, ?_⟩
  show s.eventsReleasedThroughUs ≤ s'.eventsReleasedThroughUs
  rw [h.through]
  exact le_max_right _ _

variable (h : Reached log startUs args.qtyEpsilon s past)
  (hrun : Accepted log verified args s s' deltas events) (hlog : Delivered log)
  (horder : InOrder log startUs args.qtyEpsilon s.cut s'.cut) (hname : OneName log)

include h hrun hlog horder

/-- An order that was not released is merged from all its rows. -/
theorem Reached.merged_kept {key : OrderKey} (hnot : ¬releasedTo log startUs s.cut key) :
    Folds (rowsTo log startUs s'.cut key) ((mergedLifecycles s deltas).get key) := by
  rw [hrun.get_merged, ← rowsTo_append hlog.sorted h.start hrun.cut_le.1]
  refine (h.kept key hnot).merge (deltas_get hrun.fetched key) fun hne hne' => ?_
  obtain ⟨r, hr⟩ := List.exists_mem_of_ne_nil _ hne
  obtain ⟨⟨hmem, -⟩, rfl⟩ := mem_rowsTo.mp hr
  exact horder.2.2 r hmem hnot hne hne'

theorem Reached.merged_gone {key : OrderKey} (hreleased : releasedTo log startUs s.cut key) :
    (mergedLifecycles s deltas).get key = none := by
  have hfolds := deltas_get hrun.fetched key
  have hnil := (horder.1.rowsTo_eq hlog.sorted h.start hrun.cut_le.1 hreleased).1
  replace hnil : rowsOf key (window log s.sourceReadThroughUs s'.sourceReadThroughUs) = [] := hnil
  rw [hnil] at hfolds
  rw [hrun.get_merged, h.gone key hreleased]
  exact Option.map_eq_none_iff.mp hfolds.steady

/-- What the run releases was not released before. -/
theorem Reached.plays {l : Lifecycle}
    (hl : l ∈ (mergedLifecycles s deltas).rows.filter (isReady s'.eventsReleasedThroughUs))
    {event : MatchEvent} (hevent : lifecycleEvent args.qtyEpsilon l = .ok (some event)) :
    Plays log startUs args.qtyEpsilon s'.cut l event ∧ ¬releasedTo log startUs s.cut l.key := by
  obtain ⟨hmem, hready⟩ := List.mem_filter.mp hl
  have hget := Table.mem_rows.mp hmem
  have hnot : ¬releasedTo log startUs s.cut l.key := by
    intro hreleased
    rw [h.merged_gone hrun hlog horder hreleased] at hget
    cases hget
  refine ⟨⟨?_, hready, hevent⟩, hnot⟩
  have hfolds := h.merged_kept hrun hlog horder hnot
  rwa [hget] at hfolds

theorem Reached.new {event : MatchEvent} (hevent : event ∈ sortByKey MatchEvent.sortKey events) :
    ∃ l, Plays log startUs args.qtyEpsilon s'.cut l event ∧
      ¬releasedTo log startUs s.cut l.key := by
  obtain ⟨l, hl, hle⟩ := mem_lifecycleEvents hrun.released (mem_sortByKey.mp hevent)
  exact ⟨l, h.plays hrun hlog horder hl hle⟩

/-- What was released has no further rows. -/
theorem Reached.old {l : Lifecycle} {event : MatchEvent}
    (hplays : Plays log startUs args.qtyEpsilon s.cut l event) :
    rowsTo log startUs s'.cut l.key = rowsTo log startUs s.cut l.key :=
  (horder.1.rowsTo_eq hlog.sorted h.start hrun.cut_le.1 hplays.released).2

/-- The events of the run have different ids. -/
theorem Reached.distinct : events.Pairwise fun a b => orderId a ≠ orderId b := by
  rw [lifecycleEvents_eq hrun.released, ← List.filterMap_eq_flatMap_toList,
    List.pairwise_filterMap]
  refine (((mergedLifecycles s deltas).sorted.imp ne_of_lt).filter _).imp_of_mem
    fun {a b} ha hb hab x hx y hy => ?_
  have hplays := (h.plays hrun hlog horder ha (eq_ok_of_join hx)).1
  exact hplays.orderId_ne hlog (h.plays hrun hlog horder hb (eq_ok_of_join hy)).1 hab

/-- **What the run releases comes after what was released.** -/
theorem Reached.sorted_step : (past ++ sortByKey MatchEvent.sortKey events).Pairwise
    fun a b => orderId a ≠ orderId b ∧ Precedes args.qtyEpsilon a b := by
  refine List.pairwise_append.mpr ⟨h.played.sorted, ?_, fun a ha b hb => ?_⟩
  · have hids : (sortByKey MatchEvent.sortKey events).Pairwise fun a b => orderId a ≠ orderId b :=
      ((sortByKey_perm MatchEvent.sortKey events).pairwise_iff fun hab => hab.symm).mpr
        (h.distinct hrun hlog horder)
    refine ((sortByKey_pairwise MatchEvent.sortKey events).and hids).imp ?_
    rintro a b ⟨hle, hne⟩
    exact ⟨hne, fun _ _ _ => lt_of_le_of_ne hle fun hkey =>
      hne (congrArg (fun k => (ofLex (ofLex k).2).2) hkey)⟩
  · obtain ⟨l, hl⟩ := h.played.sound a ha
    obtain ⟨l', hl', hfresh⟩ := h.new hrun hlog horder hb
    refine ⟨hl.orderId_ne hlog hl' fun hkey => hfresh (hkey ▸ hl.released), ?_⟩
    exact horder.2.1.precedes hl (h.old hrun hlog horder hl) hl' hfresh

include hname

/-- Whatever is released by now was matched, by this run or before. -/
theorem Reached.found {l : Lifecycle} {event : MatchEvent}
    (hplays : Plays log startUs args.qtyEpsilon s'.cut l event) :
    ∃ event' ∈ past ++ sortByKey MatchEvent.sortKey events, event'.bare = event.bare := by
  by_cases hreleased : releasedTo log startUs s.cut l.key
  · -- It was released before, as it is.
    have hfolds := hplays.folds
    rw [(horder.1.rowsTo_eq hlog.sorted h.start hrun.cut_le.1 hreleased).2] at hfolds
    rw [hfolds.releasedTo_eq] at hreleased
    obtain ⟨event', hevent', hbare⟩ := h.played.complete l event ⟨hfolds, hreleased, hplays.event⟩
    exact ⟨event', List.mem_append_left _ hevent', hbare⟩
  · -- It is among the merged lifecycles, up to what a merge does not keep.
    have hfolds := h.merged_kept hrun hlog horder hreleased
    obtain ⟨m, hm, -⟩ := Option.map_eq_some_iff.mp (hfolds.steady.trans hplays.folds.steady.symm)
    rw [hm] at hfolds
    obtain ⟨hplain, hready⟩ := hplays.plain_eq hname hfolds
    have hmem := List.mem_filter.mpr ⟨(Table.get_eq_some.mp hm).1, hready⟩
    obtain ⟨event', hevent', hall⟩ := lifecycleEvents_row hrun.released hmem
    obtain ⟨e, rfl, hbare⟩ :=
      Option.map_eq_some_iff.mp (lifecycleEvent_bare hplain.symm hplays.event hevent')
    exact ⟨e, List.mem_append_right _ (mem_sortByKey.mpr (hall e rfl)), hbare⟩

theorem Reached.played_step : Played log startUs args.qtyEpsilon s'.cut
    (past ++ sortByKey MatchEvent.sortKey events) where
  sound := by
    intro event hevent
    rcases List.mem_append.mp hevent with hevent | hevent
    · obtain ⟨l, hl⟩ := h.played.sound event hevent
      exact ⟨l, hl.later (h.old hrun hlog horder hl) hrun.cut_le.2⟩
    · obtain ⟨l, hl, -⟩ := h.new hrun hlog horder hevent
      exact ⟨l, hl⟩
  complete := fun _ _ hplays => h.found hrun hlog horder hname hplays
  sorted := h.sorted_step hrun hlog horder

/-- The table of Margin orders after the run. -/
theorem Reached.stores_step : Stores s'.orders (replay args.qtyEpsilon
    ((past ++ sortByKey MatchEvent.sortKey events).map MatchEvent.core)) := by
  have hfollows := (h.played_step hrun hlog horder hname).follows
  rw [List.map_append] at hfollows ⊢
  have hstores := Stores.release h.stores hrun.epsilon (ready_replay hfollows) hrun.matched
  unfold replay at hstores ⊢
  rwa [List.foldl_append]

/-- **The invariant of a run.** -/
theorem Reached.step : Reached log startUs args.qtyEpsilon s'
    (past ++ sortByKey MatchEvent.sortKey events) := by
  have hget : ∀ key, s'.lifecycles.get key
      = ((mergedLifecycles s deltas).get key).filter (!isReady s'.cut.releasedUs ·) := by
    intro key
    rw [hrun.lifecycles, Table.get_filter]
    rfl
  refine ⟨h.start.trans hrun.cut_le.1, fun key hnot => ?_, fun key hreleased => ?_,
    h.played_step hrun hlog horder hname, h.stores_step hrun hlog horder hname⟩
  · -- An order that is still not released was not released before.
    have hbefore : ¬releasedTo log startUs s.cut key := fun hreleased => hnot
      (horder.1.still_released hlog.sorted h.start hrun.cut_le.1 hrun.cut_le.2 hreleased)
    have hfolds := h.merged_kept hrun hlog horder hbefore
    rw [hfolds.releasedTo_eq] at hnot
    rw [hget]
    cases hm : (mergedLifecycles s deltas).get key with
    | none =>
      rw [hm] at hfolds
      exact hfolds
    | some m =>
      rw [hm] at hfolds hnot
      rw [Option.filter_some, if_pos (by simpa using hnot)]
      exact hfolds
  · rw [hget]
    by_cases hbefore : releasedTo log startUs s.cut key
    · rw [h.merged_gone hrun hlog horder hbefore]
      rfl
    · have hfolds := h.merged_kept hrun hlog horder hbefore
      rw [hfolds.releasedTo_eq] at hreleased
      cases hm : (mergedLifecycles s deltas).get key with
      | none => rfl
      | some m =>
        rw [hm] at hreleased
        rw [Option.filter_some, if_neg (by simpa using hreleased)]

end

/-! ## All runs -/

/-- A run for each of the verified endpoints, from nothing. -/
def syncEach [Rounding] (log : List OrderRow) (startUs : ℤ) (args : Args) (verified : List ℤ) :
    Except String Store :=
  verified.foldlM (fun s verifiedThroughMs => run log verifiedThroughMs args s) (.start startUs)

section

variable [Rounding] {log : List OrderRow} {startUs : ℤ} {args : Args}

/-- Where a run gets does not depend on the runs before it. -/
theorem Accepted.cut_eq {verified : ℤ} {s s' : Store} {deltas : Lifecycles}
    {events : List MatchEvent} (h : Accepted log verified args s s' deltas events)
    (hcut : s.eventsReleasedThroughUs = startUs - 1 ∨ ∃ u, s.cut = args.cut startUs u) :
    s'.cut = args.cut startUs verified := by
  have hthrough : s'.eventsReleasedThroughUs
      = max (args.sourceEndUs verified - args.reorderUs - 1) (startUs - 1) := by
    rw [h.through]
    unfold releasedThrough
    rcases hcut with hstart | ⟨u, hu⟩
    · rw [hstart]
    · have hforward := h.forward
      have hread : s.sourceReadThroughUs = args.sourceEndUs u := congrArg Cut.readUs hu
      have hreleased : s.eventsReleasedThroughUs
          = max (args.sourceEndUs u - args.reorderUs - 1) (startUs - 1) :=
        congrArg Cut.releasedUs hu
      rw [h.source, hread] at hforward
      rw [hreleased]
      omega
  unfold Store.cut Args.cut
  rw [h.source, hthrough]

/-- **The invariant of all runs.** -/
theorem reached (hlog : Delivered log) (hname : OneName log) {verified : List ℤ}
    (horder : (verified.map (args.cut startUs)).IsChain (InOrder log startUs args.qtyEpsilon))
    {s : Store} (hs : syncEach log startUs args verified = .ok s) :
    (∃ past, Reached log startUs args.qtyEpsilon s past) ∧
      s.cut = (verified.getLast?.map (args.cut startUs)).getD ⟨startUs, startUs - 1⟩ := by
  induction verified using List.reverseRecOn generalizing s with
  | nil =>
    cases run_nil.mp hs
    exact ⟨⟨[], reached_start⟩, rfl⟩
  | append_singleton earlier last ih =>
    rw [List.map_append] at horder
    obtain ⟨hchain, -, hlast⟩ := List.isChain_append.mp horder
    obtain ⟨t, ht, hmore⟩ := run_append.mp hs
    obtain ⟨_, hrun, hnil⟩ := run_cons.mp hmore
    cases run_nil.mp hnil
    obtain ⟨deltas, events, haccepted⟩ := run_cases hrun
    obtain ⟨⟨past, hreached⟩, hcut⟩ := ih hchain ht
    rw [List.getLast?_map] at hlast
    rw [List.getLast?_append]
    cases hu : earlier.getLast? with
    | none =>
      rw [hu] at hcut
      replace hcut : t.cut = ⟨startUs, startUs - 1⟩ := hcut
      have hnext := haccepted.cut_eq (.inl (congrArg Cut.releasedUs hcut))
      exact ⟨⟨_, hreached.step haccepted hlog (hcut ▸ inOrder_start _ _) hname⟩, hnext⟩
    | some u =>
      rw [hu] at hcut hlast
      replace hcut : t.cut = args.cut startUs u := hcut
      have hnext := haccepted.cut_eq (.inr ⟨u, hcut⟩)
      have hstep : InOrder log startUs args.qtyEpsilon t.cut s.cut := by
        rw [hcut, hnext]
        exact hlast _ rfl _ rfl
      exact ⟨⟨_, hreached.step haccepted hlog hstep hname⟩, hnext⟩

/-- **Endpoints do not matter** to what matching writes, as long as no run releases an order that
    sorts before a filled order of its symbol released by an earlier run, no row comes after the
    release of its order, and the sums of an order are those of its rows however the runs split
    them. -/
theorem endpoints_agree (hlog : Delivered log) (hname : OneName log) {earlier : List ℤ} {last : ℤ}
    (horder : ((earlier ++ [last]).map (args.cut startUs)).IsChain
      (InOrder log startUs args.qtyEpsilon)) {s t : Store}
    (hs : syncEach log startUs args (earlier ++ [last]) = .ok s)
    (ht : syncEach log startUs args [last] = .ok t) (fkey : ℤ) :
    (s.orders.get fkey).map MarginOrder.matched = (t.orders.get fkey).map MarginOrder.matched := by
  obtain ⟨⟨past, hpast⟩, hcut⟩ := reached hlog hname horder hs
  obtain ⟨⟨past', hpast'⟩, hcut'⟩ := reached hlog hname (List.isChain_singleton _) ht
  -- Both get as far, so they released the same orders.
  have hsame : s.cut = t.cut := by
    rw [hcut, hcut', List.getLast?_append]
    rfl
  have hplayed' := hpast'.played
  rw [← hsame] at hplayed'
  have hε : 0 ≤ args.qtyEpsilon := by
    obtain ⟨_, hrun, -⟩ := run_cons.mp ht
    obtain ⟨_, _, haccepted⟩ := run_cases hrun
    exact haccepted.epsilon
  refine hpast.stores.matched_eq hpast'.stores (fun symbol => ?_) fkey
  exact replay_bare_eq hε hpast.played.precedes hplayed'.precedes (hpast.played.among hplayed')
    (hplayed'.among hpast.played) symbol

end

/-- A row that rests or fills an order. -/
def hedgeRow (venue : String) (clientOrderId createSeconds sourceSeconds : ℤ) (side status : String)
    (fill : ℚ) : OrderRow where
  venue := venue
  clientOrderId := clientOrderId
  source := sourceSeconds * 1000000
  market := none
  create := createSeconds * 1000000
  update := sourceSeconds * 1000000
  localTs := sourceSeconds * 1000000
  status := status
  fill := fill
  price := 10
  descriptor := .ok ⟨"BTCUSDT", side, 10, 0, 5, status, ""⟩

/-- A buy filled after one minute, and a hedge that is created at some time and filled after
    fifteen. -/
def hedgedBuy (createSeconds : ℤ) : List OrderRow :=
  [hedgeRow "BinanceMargin" 1 60 60 "buy" "FILLED" 5,
    hedgeRow "BinanceFutures" 7 createSeconds 900 "sell" "FILLED" 5]

def dustless : Args where
  qtyEpsilon := 0

theorem hedgedBuy_delivered (createSeconds : ℤ) : Delivered (hedgedBuy createSeconds) := by
  have hids : ∀ a ∈ hedgedBuy createSeconds, ∀ b ∈ hedgedBuy createSeconds,
      a.clientOrderId = b.clientOrderId → a.venue = b.venue := by
    intro a ha b hb hid
    rcases List.mem_pair.mp ha with rfl | rfl
    · rcases List.mem_pair.mp hb with rfl | rfl
      · rfl
      · cases hid
    · rcases List.mem_pair.mp hb with rfl | rfl
      · cases hid
      · rfl
  refine ⟨List.pairwise_pair.mpr ?_, fun a ha b hb _ _ => hids a ha b hb,
    fun a ha b hb _ _ => hids a ha b hb⟩
  show (60 : ℤ) * 1000000 ≤ 900 * 1000000
  decide

/-- Two runs, to twelve and to thirty minutes, over a hedge created after the fill. -/
theorem endpoints_agree_hedged : ∃ s t,
    syncEach (hedgedBuy 90) 0 dustless [720000, 1800000] = .ok s ∧
    syncEach (hedgedBuy 90) 0 dustless [1800000] = .ok t ∧
    (t.orders.get 1).map MarginOrder.matched = some (0, 5, 0, 50, .completed) ∧
    ∀ fkey, (s.orders.get fkey).map MarginOrder.matched
      = (t.orders.get fkey).map MarginOrder.matched := by
  have hs : Yields (syncEach (hedgedBuy 90) 0 dustless [720000, 1800000]) fun _ => True := by
    decide +kernel
  have ht : Yields (syncEach (hedgedBuy 90) 0 dustless [1800000]) fun t =>
      (t.orders.get 1).map MarginOrder.matched = some (0, 5, 0, 50, .completed) := by
    decide +kernel
  obtain ⟨s, hs, -⟩ := hs
  obtain ⟨t, ht, hrow⟩ := ht
  have horder : (([720000] ++ [1800000]).map (dustless.cut 0)).IsChain
      (InOrder (hedgedBuy 90) 0 dustless.qtyEpsilon) := by
    decide +kernel
  have hname : OneName (hedgedBuy 90) := by
    decide +kernel
  exact ⟨s, t, hs, ht, hrow, endpoints_agree (hedgedBuy_delivered 90) hname horder hs ht⟩

/-- The hedge was created before the fill. A single run matches it first and leaves the buy pending;
    two runs hedge the buy. -/
theorem endpoints_differ_early_hedge : Delivered (hedgedBuy 30) ∧ OneName (hedgedBuy 30) ∧
    ∃ s t, syncEach (hedgedBuy 30) 0 dustless [720000, 1800000] = .ok s ∧
      syncEach (hedgedBuy 30) 0 dustless [1800000] = .ok t ∧
      (s.orders.get 1).map MarginOrder.matched = some (0, 5, 0, 50, .completed) ∧
      (t.orders.get 1).map MarginOrder.matched = some (5, 0, 0, 0, .pending) := by
  have hs : Yields (syncEach (hedgedBuy 30) 0 dustless [720000, 1800000]) fun s =>
      (s.orders.get 1).map MarginOrder.matched = some (0, 5, 0, 50, .completed) := by
    decide +kernel
  have ht : Yields (syncEach (hedgedBuy 30) 0 dustless [1800000]) fun t =>
      (t.orders.get 1).map MarginOrder.matched = some (5, 0, 0, 0, .pending) := by
    decide +kernel
  have hname : OneName (hedgedBuy 30) := by
    decide +kernel
  obtain ⟨s, hs, hrow⟩ := hs
  obtain ⟨t, ht, hrow'⟩ := ht
  exact ⟨hedgedBuy_delivered 30, hname, s, t, hs, ht, hrow, hrow'⟩

end CryptoNav.Sync
