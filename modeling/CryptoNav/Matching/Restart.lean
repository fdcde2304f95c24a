import CryptoNav.Matching.Refinement

/-!
# Restarting the engine

A run does not keep its engine: the next one is built from the pending rows alone. What makes
that safe is that a book's queues are sorted by `(open_uts, open_source_ts_us, fkey)` — the key
`MatchEngine::new` sorts by — as long as margins arrive in that order within a symbol. `Ready`
is that invariant, together with what the events still to come must satisfy; a restarted engine
then refines the same book as the one that ran on (`Stores.new`).

What the restarted engine no longer has are the settled rows, the maps of hedges that came
before their order, and the order of equal keys, of which there are none. Events that arrive
late, behind the last one of their symbol, would be sorted in front of it by a restart and
behind it without one; they are excluded by `Ready`, and the program that feeds the engine is
what keeps them away.
-/

set_option autoImplicit false

namespace CryptoNav.Matching

open CryptoNav.Lib

/-! ## Events still to come -/

/-- A margin event may follow another if it has its own key and, within one symbol, a greater
    queue key. -/
def Follows : MatchEvent → MatchEvent → Prop
  | .margin x, .margin y => x.fkey ≠ y.fkey ∧ (x.symbol = y.symbol → x.queueKey < y.queueKey)
  | _, _ => True

/-- Every order of the market may be followed by the event. -/
def Ahead (B : Book) : MatchEvent → Prop
  | .margin y => ∀ o, B.Holds o → o.fkey ≠ y.fkey ∧ (o.symbol = y.symbol → o.queueKey < y.queueKey)
  | .futures _ => True

/-- Queues are sorted, and the events to come arrive in order. Later events of a symbol stand behind
    all that is queued of it, however the queue is built. -/
structure Ready (ε : ℚ) (B : Book) (events : List MatchEvent) : Prop where
  proper : B.Proper ε
  sorted : ∀ symbol side,
    ((B symbol).queue side).Pairwise fun a b => a.queueKey < b.queueKey
  ahead : ∀ event ∈ events, Ahead B event
  follow : events.Pairwise Follows

theorem ready_empty {ε : ℚ} {events : List MatchEvent} (h : events.Pairwise Follows) :
    Ready ε (fun _ => {}) events := by
  refine ⟨fun s => SymbolBook.proper_empty ε s, fun _ _ => List.Pairwise.nil, ?_, h⟩
  intro event _
  cases event with
  | margin y =>
    intro o ho
    exact absurd ho List.not_mem_nil
  | futures _ => trivial

/-- Clearing keeps a queue sorted: what stays is a suffix of the old keys. -/
theorem clear_sorted {ε : ℚ} {b : Bite MarginOrder ℚ}
    (hkey : ∀ o q, (b.take o q).queueKey = o.queueKey) {left : ℚ} {lots : List MarginOrder}
    (h : lots.Pairwise fun a b => a.queueKey < b.queueKey) :
    (b.clear ε left lots).queue.Pairwise fun a b => a.queueKey < b.queueKey := by
  have hmap := Bite.clear_map (ε := ε) hkey left lots
  rw [← List.pairwise_map (f := MarginOrder.queueKey) (R := (· < ·)), ← hmap, List.map_append] at h
  exact List.pairwise_map.mp (List.pairwise_append.mp h).2.1

section

variable {ε : ℚ} {B : Book}

/-- The identity of a row: what no bite changes. -/
def MarginOrder.identity (o : MarginOrder) : ℤ × String × (ℤ ×ₗ ℤ ×ₗ ℤ) :=
  (o.fkey, o.symbol, o.queueKey)

theorem SymbolBook.margin_identities [Rounding] (b : SymbolBook) (ε : ℚ) (order : MarginOrder) :
    ((b.margin ε order).rows.map MarginOrder.identity).Perm
      (order.identity :: b.rows.map MarginOrder.identity) := by
  refine ((b.margin_rows_perm ε order).map _).trans ?_
  have hmap : ((b.netAgainst ε order).closed ++ (b.netAgainst ε order).queue).map
      MarginOrder.identity = (b.queue order.side.opposite).map MarginOrder.identity :=
    Bite.clear_map (fun _ _ => rfl) _ _
  rw [List.map_append, List.map_cons, hmap, List.cons_append, ← List.map_append]
  exact ((b.rows_perm order.side).map _).symm.cons _

theorem SymbolBook.hedge_identities [Rounding] (b : SymbolBook) (ε : ℚ) (order : FuturesOrder) :
    ((b.hedge ε order).rows.map MarginOrder.identity).Perm (b.rows.map MarginOrder.identity) := by
  refine ((b.hedge_rows_perm ε order).map _).trans ?_
  have hmap : ((b.hedgeAgainst ε order).closed ++ (b.hedgeAgainst ε order).queue).map
      MarginOrder.identity = (b.queue order.side.opposite).map MarginOrder.identity :=
    Bite.clear_map (fun _ _ => rfl) _ _
  rw [List.map_append, hmap, ← List.map_append]
  exact ((b.rows_perm order.side).map _).symm

/-- An identity of the updated market is an identity of the updated symbol, or an old one. -/
theorem holds_update {symbol : String} {b' : SymbolBook} {o : MarginOrder}
    (h : Book.Holds (Function.update B symbol b') o) : o ∈ b'.rows ∨ B.Holds o := by
  unfold Book.Holds at h ⊢
  by_cases hs : o.symbol = symbol
  · rw [hs, Function.update_self] at h
    exact .inl h
  · rw [Function.update_of_ne hs] at h
    exact .inr h

theorem Ready.holds_of_mem (h : B.Proper ε) {symbol : String} {o : MarginOrder}
    (ho : o ∈ (B symbol).rows) : B.Holds o := by
  unfold Book.Holds
  rwa [(h symbol).mem_symbol ho]

theorem MarginOrder.identity_eq {a b : MarginOrder} (h : a.identity = b.identity) :
    a.fkey = b.fkey ∧ a.symbol = b.symbol ∧ a.queueKey = b.queueKey := by
  simpa only [MarginOrder.identity, Prod.mk.injEq] using h

/-- A margin event to come follows every row that has the identity of a row of the market. -/
theorem Ready.follows_old {events : List MatchEvent} (h : Ready ε B events) {symbol : String}
    {o y : MarginOrder} (ho : o.identity ∈ (B symbol).rows.map MarginOrder.identity)
    (hy : .margin y ∈ events) : o.fkey ≠ y.fkey ∧ (o.symbol = y.symbol → o.queueKey < y.queueKey) := by
  obtain ⟨o', ho', hid⟩ := List.mem_map.mp ho
  obtain ⟨hk, hs, hq⟩ := MarginOrder.identity_eq hid
  rw [← hk, ← hs, ← hq]
  exact h.ahead (.margin y) hy o' (Ready.holds_of_mem h.proper ho')

/-- An event changes the book of its symbol and leaves the others ready. -/
theorem Ready.update {event : MatchEvent} {rest : List MatchEvent} (h : Ready ε B (event :: rest))
    {symbol : String} {b' : SymbolBook} (hproper : b'.Proper ε symbol)
    (hsorted : ∀ side, (b'.queue side).Pairwise fun a b => a.queueKey < b.queueKey)
    (hahead : ∀ y, .margin y ∈ rest → ∀ o ∈ b'.rows,
      o.fkey ≠ y.fkey ∧ (o.symbol = y.symbol → o.queueKey < y.queueKey)) :
    Ready ε (Function.update B symbol b') rest := by
  refine ⟨fun t => ?_, fun t side => ?_, fun event he => ?_, (List.pairwise_cons.mp h.follow).2⟩
  · by_cases ht : t = symbol
    · rw [ht, Function.update_self]
      exact hproper
    · rw [Function.update_of_ne ht]
      exact h.proper t
  · by_cases ht : t = symbol
    · rw [ht, Function.update_self]
      exact hsorted side
    · rw [Function.update_of_ne ht]
      exact h.sorted t side
  · cases event with
    | futures _ => trivial
    | margin y =>
      intro o ho
      rcases holds_update ho with ho | ho
      · exact hahead y he o ho
      · exact h.ahead (.margin y) (List.mem_cons_of_mem _ he) o ho

theorem Ready.margin [Rounding] {order : MarginOrder} {rest : List MatchEvent}
    (h : Ready ε B (.margin order :: rest)) :
    Ready ε (Function.update B order.symbol ((B order.symbol).margin ε order)) rest := by
  have hahead : Ahead B (.margin order) := h.ahead _ List.mem_cons_self
  have hproper : ((B order.symbol).margin ε order).Proper ε order.symbol := by
    refine (h.proper order.symbol).margin rfl fun hmem => ?_
    obtain ⟨o, ho, hk⟩ := List.mem_map.mp hmem
    exact (hahead o (Ready.holds_of_mem h.proper ho)).1 hk
  refine h.update hproper (fun side => ?_) fun y hy o ho => ?_
  · rcases order.side.eq_or_opposite side with rfl | rfl
    · rw [SymbolBook.margin_queue_side]
      split
      · refine List.pairwise_append.mpr
          ⟨h.sorted _ _, List.pairwise_singleton _ _, fun o ho x hx => ?_⟩
        rw [List.mem_singleton.mp hx]
        have hmem := Ready.holds_of_mem h.proper (SymbolBook.mem_rows_of_queue ho)
        exact (hahead o hmem).2 ((h.proper _).queued _ o ho).symbol
      · rw [List.append_nil]
        exact h.sorted _ _
    · rw [SymbolBook.margin_queue_opposite]
      exact clear_sorted (fun _ _ => rfl) (h.sorted _ _)
  · have hid := ((B order.symbol).margin_identities ε order).mem_iff.mp (List.mem_map_of_mem ho)
    rcases List.mem_cons.mp hid with hid | hid
    · obtain ⟨hk, hs, hq⟩ := MarginOrder.identity_eq hid
      rw [hk, hs, hq]
      exact (List.pairwise_cons.mp h.follow).1 (.margin y) hy
    · exact h.follows_old hid (List.mem_cons_of_mem _ hy)

theorem Ready.hedge [Rounding] {order : FuturesOrder} {rest : List MatchEvent}
    (h : Ready ε B (.futures order :: rest)) :
    Ready ε (Function.update B order.symbol ((B order.symbol).hedge ε order)) rest := by
  refine h.update ((h.proper order.symbol).hedge order) (fun side => ?_) fun y hy o ho => ?_
  · rcases order.side.eq_or_opposite side with rfl | rfl
    · rw [SymbolBook.hedge_queue_side]
      exact h.sorted _ _
    · rw [SymbolBook.hedge_queue_opposite]
      exact clear_sorted (fun _ _ => rfl) (h.sorted _ _)
  · have hid := ((B order.symbol).hedge_identities ε order).mem_iff.mp (List.mem_map_of_mem ho)
    exact h.follows_old hid (List.mem_cons_of_mem _ hy)

theorem Ready.applyEvent [Rounding] {t t' : Book × List HedgeResult} {event : MatchEvent}
    {rest : List MatchEvent} (h : Ready ε t.1 (event :: rest))
    (hstep : Book.applyEvent ε t event = .ok t') : Ready ε t'.1 rest := by
  rcases Book.step_cases hstep with ⟨order, rfl, -, rfl⟩ | ⟨order, rfl, -, -, rfl⟩
  · exact h.margin
  · exact h.hedge

/-- The next event's key is free. -/
theorem Ready.fresh {event : MatchEvent} {rest : List MatchEvent}
    (h : Ready ε B (event.core :: rest)) (y : MarginOrder) (he : event = .margin y)
    (o : MarginOrder) (ho : B.Holds o) : o.fkey ≠ y.fkey := by
  subst he
  have hahead : Ahead B (.margin y.core) := h.ahead _ List.mem_cons_self
  exact (hahead o ho).1

/-- **A whole run.** Over events that arrive in order, engine and book do the same. -/
theorem Tracks.run [Rounding] {base : ℤ → Option MarginOrder} {before : List HedgeResult}
    {s : MatchEngine × List HedgeResult} {t : Book × List HedgeResult}
    (h : Tracks ε base before s t) {events rest : List MatchEvent}
    (hready : Ready ε t.1 (events.map MatchEvent.core ++ rest)) :
    Alike (fun s t => Tracks ε base before s t ∧ Ready ε t.1 rest)
      (events.foldlM MatchEngine.applyEvent s)
      ((events.map MatchEvent.core).foldlM (Book.applyEvent ε) t) := by
  rw [List.foldlM_map]
  refine run_alike (R := fun l s t => Tracks ε base before s t ∧
    Ready ε t.1 (l.map MatchEvent.core ++ rest)) ?_ ⟨h, hready⟩
  intro event l s t hst
  obtain ⟨htracks, hready⟩ := hst
  refine (htracks.applyEvent hready.fresh).and_right ?_
  intro t' hstep
  exact hready.applyEvent hstep

/-! ## Loading -/

/-- An engine that has loaded the rows `l`. Each queue has the rows of its symbol and side, in the
    order of `l`. -/
structure Loaded (ε : ℚ) (l : List MarginOrder) (e : MatchEngine) : Prop where
  epsilon : e.epsilon = ε
  rows : ∀ k, e.orders.get k = l.find? (·.fkey = k)
  queues : ∀ symbol side, e.queues (symbol, side)
    = (l.filter fun o => o.symbol = symbol ∧ o.side = side).map MarginOrder.fkey

theorem Loaded.step {l : List MarginOrder} {e : MatchEngine} (h : Loaded ε l e) {o : MarginOrder}
    (hrem : ε < o.remainingAmount) (hstate : o.matchingState = .pending)
    (hfresh : o.fkey ∉ l.map MarginOrder.fkey) :
    ∃ e', e.loadPending o = .ok e' ∧ Loaded ε (l ++ [o]) e' := by
  have hget : e.orders.get o.fkey = none := by
    rw [h.rows, List.find?_eq_none]
    intro x hx hk
    exact hfresh (List.mem_map.mpr ⟨x, hx, by simpa using hk⟩)
  have hsame : { o with matchingState := .pending } = o := by
    rw [← hstate]
  have hput : ∀ k, (e.orders.put o).get k = (l ++ [o]).find? (·.fkey = k) := by
    intro k
    rw [Table.get_put, List.find?_append, h.rows]
    by_cases hk : k = o.fkey
    · have hnone : l.find? (·.fkey = k) = none := by
        rw [← h.rows, hk]
        exact hget
      rw [if_pos hk, hnone, List.find?_cons_of_pos (by simpa using hk.symm)]
      rfl
    · rw [if_neg hk, List.find?_cons_of_neg (by simpa using Ne.symm hk), List.find?_nil,
        Option.or_none]
  have hqueues : ∀ symbol side, Function.update e.queues (o.symbol, o.side)
      (e.queues (o.symbol, o.side) ++ [o.fkey]) (symbol, side)
        = ((l ++ [o]).filter fun o => o.symbol = symbol ∧ o.side = side).map MarginOrder.fkey := by
    intro symbol side
    rw [List.filter_append, List.map_append, ← h.queues]
    by_cases hk : (symbol, side) = (o.symbol, o.side)
    · cases hk
      rw [Function.update_self, List.filter_cons_of_pos (by simp)]
      rfl
    · have hne : ¬(o.symbol = symbol ∧ o.side = side) :=
        fun he => hk (Prod.ext he.1.symm he.2.symm)
      rw [Function.update_of_ne hk, List.filter_cons_of_neg (by simpa using hne)]
      exact (List.append_nil _).symm
  unfold MatchEngine.loadPending
  rw [h.epsilon, if_neg (not_le.mpr hrem), hget, if_neg (by simp)]
  simp only [hsame]
  exact ⟨_, rfl, rfl, hput, hqueues⟩

theorem Loaded.run {l rest : List MarginOrder} {e : MatchEngine} (h : Loaded ε l e)
    (hrest : ∀ o ∈ rest, ε < o.remainingAmount ∧ o.matchingState = .pending)
    (hnodup : ((l ++ rest).map MarginOrder.fkey).Nodup) :
    ∃ e', rest.foldlM MatchEngine.loadPending e = .ok e' ∧ Loaded ε (l ++ rest) e' := by
  induction rest generalizing l e with
  | nil => exact ⟨e, rfl, by rwa [List.append_nil]⟩
  | cons o rest ih =>
    obtain ⟨ho, hrest⟩ := List.forall_mem_cons.mp hrest
    have hfresh : o.fkey ∉ l.map MarginOrder.fkey := by
      rw [List.map_append, List.nodup_append] at hnodup
      intro hmem
      exact hnodup.2.2 _ hmem _ List.mem_cons_self rfl
    obtain ⟨e₁, he₁, h₁⟩ := h.step ho.1 ho.2 hfresh
    rw [List.append_cons] at hnodup ⊢
    obtain ⟨e', he', h'⟩ := ih h₁ hrest hnodup
    exact ⟨e', run_cons.mpr ⟨e₁, he₁, he'⟩, h'⟩

/-! ## What a run leaves in the table -/

/-- The table holds exactly the market's rows. Neither in the market nor in the table are two rows
    of one key. -/
def Stores (stored : Orders) (B : Book) : Prop :=
  ∀ fkey o, coreAt stored fkey = some o ↔ o.fkey = fkey ∧ B.Holds o

/-- `load_pending_orders`. -/
def loadPendingOrders (stored : Orders) : List MarginOrder :=
  sortByKey MarginOrder.queueKey (stored.filter (·.matchingState = .pending)).rows

theorem mem_loadPendingOrders {stored : Orders} {o : MarginOrder} :
    o ∈ loadPendingOrders stored ↔ o ∈ stored.rows ∧ o.matchingState = .pending := by
  unfold loadPendingOrders
  rw [mem_sortByKey, Table.filter, List.mem_filter, decide_eq_true_eq]

theorem loadPendingOrders_nodup (stored : Orders) :
    ((loadPendingOrders stored).map MarginOrder.fkey).Nodup := by
  refine ((sortByKey_perm _ _).map _).nodup_iff.mpr ?_
  refine List.pairwise_map.mpr ?_
  exact ((stored.filter (·.matchingState = .pending)).sorted).imp ne_of_lt

theorem loadPendingOrders_sorted (stored : Orders) :
    (loadPendingOrders stored).Pairwise fun a b => a.queueKey < b.queueKey := by
  refine sortByKey_strict ?_
  refine List.Nodup.of_map (f := fun k : ℤ ×ₗ ℤ ×ₗ ℤ => (ofLex (ofLex k).2).2) ?_
  rw [List.map_map]
  exact ((sortByKey_perm MarginOrder.queueKey _).map _).nodup_iff.mp (loadPendingOrders_nodup stored)

theorem Stores.mem_rows {stored : Orders} (h : Stores stored B) {o : MarginOrder}
    (ho : o ∈ stored.rows) : B.Holds o.core := by
  refine ((h o.fkey o.core).mp ?_).2
  unfold coreAt
  rw [Table.mem_rows.mp ho]
  rfl

theorem Stores.exists_row {stored : Orders} (h : Stores stored B) {o : MarginOrder}
    (ho : B.Holds o) : ∃ row ∈ stored.rows, row.core = o := by
  obtain ⟨row, hrow, hcore⟩ := Option.map_eq_some_iff.mp ((h o.fkey o).mpr ⟨rfl, ho⟩)
  exact ⟨row, (Table.get_eq_some.mp hrow).1, hcore⟩

/-- A row of the market that is pending is queued on its side. -/
theorem mem_queue_of_pending (hB : B.Proper ε) {o : MarginOrder} (ho : B.Holds o)
    (hstate : o.matchingState = .pending) : o ∈ (B o.symbol).queue o.side := by
  rcases List.mem_append.mp ho with hmem | hmem
  · rcases List.mem_append.mp hmem with hmem | hmem
    · rwa [((hB _).queued .buy o hmem).side]
    · rwa [((hB _).queued .sell o hmem).side]
  · exact absurd hstate ((hB _).settled o hmem).state

/-- The pending rows of a side, in the order they are loaded, are its queue. -/
theorem Stores.queue_eq {stored : Orders} (h : Stores stored B) {events : List MatchEvent}
    (hready : Ready ε B events) (symbol : String) (side : Side) :
    ((loadPendingOrders stored).filter fun o => o.symbol = symbol ∧ o.side = side).map
      MarginOrder.core = (B symbol).queue side := by
  refine eq_of_strictly_sorted MarginOrder.queueKey ?_ (hready.sorted symbol side) ?_
  · refine List.pairwise_map.mpr ?_
    exact (loadPendingOrders_sorted stored).filter _
  · intro o
    rw [List.mem_map]
    constructor
    · rintro ⟨row, hrow, rfl⟩
      obtain ⟨hmem, hkey⟩ := List.mem_filter.mp hrow
      obtain ⟨hstored, hstate⟩ := mem_loadPendingOrders.mp hmem
      obtain ⟨rfl, rfl⟩ : row.symbol = symbol ∧ row.side = side := by simpa using hkey
      exact mem_queue_of_pending hready.proper (h.mem_rows hstored) hstate
    · intro ho
      have hqueued := (hready.proper symbol).queued side o ho
      obtain ⟨row, hrow, rfl⟩ :=
        h.exists_row (Ready.holds_of_mem hready.proper (SymbolBook.mem_rows_of_queue ho))
      refine ⟨row, List.mem_filter.mpr ⟨mem_loadPendingOrders.mpr ⟨hrow, hqueued.pending⟩, ?_⟩, rfl⟩
      exact decide_eq_true ⟨hqueued.symbol, hqueued.side⟩

/-- **Loading.** The engine built from the pending rows of a table that stores the market stands
    for the market. -/
theorem Stores.new {stored : Orders} (h : Stores stored B) {events : List MatchEvent}
    (hready : Ready ε B events) (hε : 0 ≤ ε) :
    ∃ e, MatchEngine.new (loadPendingOrders stored) ε = .ok e ∧ Refines ε (coreAt stored) e B := by
  have hpending : ∀ o ∈ loadPendingOrders stored,
      ε < o.remainingAmount ∧ o.matchingState = .pending := by
    intro o ho
    obtain ⟨hstored, hstate⟩ := mem_loadPendingOrders.mp ho
    have hmem := mem_queue_of_pending hready.proper (h.mem_rows hstored) hstate
    exact ⟨((hready.proper _).queued _ _ hmem).remaining, hstate⟩
  have hempty : Loaded ε [] { epsilon := ε } := ⟨rfl, fun _ => rfl, fun _ _ => rfl⟩
  obtain ⟨e, he, hloaded⟩ := hempty.run hpending (loadPendingOrders_nodup stored)
  rw [List.nil_append] at hloaded
  have hsorted : sortByKey MarginOrder.queueKey (loadPendingOrders stored)
      = loadPendingOrders stored :=
    sortByKey_of_sorted ((loadPendingOrders_sorted stored).imp le_of_lt)
  refine ⟨e, ?_, hloaded.epsilon, ?_, ?_, ?_, hready.proper⟩
  · unfold MatchEngine.new
    rw [if_neg (not_lt.mpr hε), hsorted]
    exact he
  · intro symbol side
    rw [hloaded.queues, ← h.queue_eq hready symbol side, List.map_map]
    rfl
  · intro fkey o
    rw [← h fkey o]
    -- What was loaded is stored.
    cases hget : e.orders.get fkey with
    | none =>
      unfold coreAt
      rw [hget]
      rfl
    | some row =>
      have hfind := (hloaded.rows fkey).symm.trans hget
      have hkey : row.fkey = fkey := by simpa using List.find?_some hfind
      have hrow := (mem_loadPendingOrders.mp (List.mem_of_find?_eq_some hfind)).1
      have hstored : stored.get fkey = some row := Table.get_eq_some.mpr ⟨hrow, hkey⟩
      unfold coreAt
      rw [hget, hstored]
      rfl
  · intro symbol side o ho
    have hqueued := (hready.proper symbol).queued side o ho
    obtain ⟨row, hrow, rfl⟩ :=
      h.exists_row (Ready.holds_of_mem hready.proper (SymbolBook.mem_rows_of_queue ho))
    have hmem := mem_loadPendingOrders.mpr ⟨hrow, hqueued.pending⟩
    have hfind : (loadPendingOrders stored).find? (·.fkey = row.fkey) = some row := by
      cases hf : (loadPendingOrders stored).find? (·.fkey = row.fkey) with
      | none => exact absurd (List.find?_eq_none.mp hf row hmem) (by simp)
      | some x =>
        have hx : x.fkey = row.fkey := by simpa using List.find?_some hf
        rw [List.inj_on_of_nodup_map (loadPendingOrders_nodup stored)
          (List.mem_of_find?_eq_some hf) hmem hx]
    unfold coreAt
    rw [MarginOrder.core_fkey, hloaded.rows, hfind]
    rfl

/-- A batch: load what is pending, apply the batch, merge the engine's rows by key. -/
def processBatch [Rounding] (ε : ℚ) (s : Orders × List HedgeResult) (batch : List MatchEvent) :
    Except String (Orders × List HedgeResult) := do
  let engine ← MatchEngine.new (loadPendingOrders s.1) ε
  let (engine, hedges) ← engine.apply batch
  pure (s.1.putAll engine.intoOrders, s.2 ++ hedges)

/-- Merging the rows of an engine that stands for the market makes the table store it. -/
theorem Refines.stores {stored : Orders} {e : MatchEngine} (h : Refines ε (coreAt stored) e B) :
    Stores (stored.putAll e.intoOrders) B := by
  intro fkey o
  rw [← h.rows fkey o]
  have hnodup : (e.intoOrders.map MarginOrder.fkey).Nodup :=
    List.pairwise_map.mpr (e.orders.sorted.imp ne_of_lt)
  have hget : (stored.putAll e.intoOrders).get fkey
      = (e.orders.get fkey).or (stored.get fkey) := Table.get_putAll stored hnodup fkey
  unfold coreAt
  rw [hget, Option.map_or]

/-- **A batch.** From a table that stores the market, a batch does to the table what its events
    do to the market. -/
theorem Stores.batch_step [Rounding] {stored : Orders} (h : Stores stored B) (hε : 0 ≤ ε)
    {batch rest : List MatchEvent} (hready : Ready ε B (batch.map MatchEvent.core ++ rest))
    (hsorted : batch.Pairwise fun a b => a.sortKey ≤ b.sortKey) (hedges : List HedgeResult) :
    Alike (fun s t => (Stores s.1 t.1 ∧ s.2 = t.2) ∧ Ready ε t.1 rest)
      (processBatch ε (stored, hedges) batch)
      ((batch.map MatchEvent.core).foldlM (Book.applyEvent ε) (B, hedges)) := by
  obtain ⟨e, he, href⟩ := h.new hready hε
  have htracks : Tracks ε (coreAt stored) hedges (e, []) (B, hedges) :=
    ⟨href, (List.append_nil _).symm⟩
  have hbatch : processBatch ε (stored, hedges) batch
      = (batch.foldlM MatchEngine.applyEvent (e, [])).map
          fun r => (stored.putAll r.1.intoOrders, hedges ++ r.2) := by
    unfold processBatch MatchEngine.apply
    rw [he, sortByKey_of_sorted hsorted]
    show (batch.foldlM MatchEngine.applyEvent (e, [])).bind _ = _
    cases batch.foldlM MatchEngine.applyEvent (e, []) with
    | error _ => rfl
    | ok _ => rfl
  rw [hbatch]
  have hrun := htracks.run hready
  generalize batch.foldlM MatchEngine.applyEvent (e, []) = x at hrun ⊢
  generalize (batch.map MatchEvent.core).foldlM (Book.applyEvent ε) (B, hedges) = y at hrun ⊢
  cases hrun with
  | error m => exact .error m
  | ok hst =>
    obtain ⟨⟨href', hhedges⟩, hready'⟩ := hst
    exact .ok ⟨⟨href'.stores, hhedges.symm⟩, hready'⟩

/-- **All batches.** -/
theorem Stores.batches_step [Rounding] {stored : Orders} (h : Stores stored B) (hε : 0 ≤ ε)
    {batches : List (List MatchEvent)}
    (hready : Ready ε B (batches.flatten.map MatchEvent.core))
    (hsorted : batches.flatten.Pairwise fun a b => a.sortKey ≤ b.sortKey)
    (hedges : List HedgeResult) :
    Alike (fun s t => Stores s.1 t.1 ∧ s.2 = t.2)
      (batches.foldlM (processBatch ε) (stored, hedges))
      ((batches.flatten.map MatchEvent.core).foldlM (Book.applyEvent ε) (B, hedges)) := by
  induction batches generalizing stored B hedges with
  | nil => exact .ok ⟨h, rfl⟩
  | cons batch rest ih =>
    rw [List.flatten_cons, List.map_append] at hready
    rw [List.flatten_cons] at hsorted
    obtain ⟨hsortedBatch, hsortedRest, -⟩ := List.pairwise_append.mp hsorted
    have hstep := h.batch_step hε hready hsortedBatch hedges
    rw [List.foldlM_cons, List.flatten_cons, List.map_append, List.foldlM_append]
    generalize processBatch ε (stored, hedges) batch = x at hstep ⊢
    generalize (batch.map MatchEvent.core).foldlM (Book.applyEvent ε) (B, hedges) = y at hstep ⊢
    cases hstep with
    | error m => exact .error m
    | @ok s t hst =>
      obtain ⟨⟨hstores, hhedges⟩, hready'⟩ := hst
      obtain ⟨stored', hedges'⟩ := s
      obtain ⟨B', hedges''⟩ := t
      cases hhedges
      exact ih hstores hready' hsortedRest hedges'

end

/-! ## Restart transparency -/

def MatchEvent.marginFkey : MatchEvent → Option ℤ
  | .margin order => some order.fkey
  | .futures _ => none

/-- Sorted events with distinct Margin keys arrive in order. -/
theorem follows_of_sorted {events : List MatchEvent}
    (hsorted : events.Pairwise fun a b => a.sortKey ≤ b.sortKey)
    (hfkeys : (events.filterMap MatchEvent.marginFkey).Nodup) :
    (events.map MatchEvent.core).Pairwise Follows := by
  refine List.pairwise_map.mpr ?_
  have hdistinct := List.pairwise_filterMap.mp hfkeys
  refine (hsorted.and hdistinct).imp ?_
  rintro a b ⟨hle, hne⟩
  cases a with
  | futures _ => trivial
  | margin x =>
    cases b with
    | futures _ => trivial
    | margin y =>
      have hkey : x.fkey ≠ y.fkey := hne _ rfl _ rfl
      refine ⟨hkey, fun _ => ?_⟩
      show x.queueKey < y.queueKey
      simp only [MatchEvent.sortKey, MarginOrder.queueKey, Prod.Lex.toLex_le_toLex,
        Prod.Lex.toLex_lt_toLex] at hle ⊢
      omega

/-- **Restart transparency.** If one engine accepts all events, so do fresh engines that each
    take one batch and know of the earlier ones only the pending rows; the stored rows and the
    hedge results are then those of the one engine. -/
theorem restart_transparent [Rounding] {ε : ℚ} (hε : 0 ≤ ε) {batches : List (List MatchEvent)}
    (hsorted : batches.flatten.Pairwise fun a b => a.sortKey ≤ b.sortKey)
    (hfkeys : (batches.flatten.filterMap MatchEvent.marginFkey).Nodup)
    {engine : MatchEngine} {hedges : List HedgeResult}
    (hrun : (do (← MatchEngine.new [] ε).apply batches.flatten) = .ok (engine, hedges)) :
    ∃ stored, batches.foldlM (processBatch ε) (.empty, []) = .ok (stored, hedges) ∧
      ∀ fkey, (stored.get fkey).map MarginOrder.core
        = (engine.orders.get fkey).map MarginOrder.core := by
  have hready : Ready ε (fun _ => {}) (batches.flatten.map MatchEvent.core) :=
    ready_empty (follows_of_sorted hsorted hfkeys)
  -- The one engine and the market.
  have hengine : batches.flatten.foldlM MatchEngine.applyEvent ({ epsilon := ε }, [])
      = .ok (engine, hedges) := by
    have hnew : MatchEngine.new [] ε = .ok { epsilon := ε } := by
      unfold MatchEngine.new
      rw [if_neg (not_lt.mpr hε)]
      rfl
    rw [hnew] at hrun
    rw [← sortByKey_of_sorted hsorted]
    exact hrun
  have htracks : Tracks ε (fun _ => none) [] ({ epsilon := ε }, []) ((fun _ => {}), []) :=
    ⟨refines_empty ε, rfl⟩
  have hready' : Ready ε (fun _ => {}) (batches.flatten.map MatchEvent.core ++ []) := by
    rwa [List.append_nil]
  obtain ⟨⟨B, hedges'⟩, hbook, ⟨href, hhedges⟩, -⟩ := (htracks.run hready').left hengine
  -- The batches and the market.
  have hstores : Stores .empty (fun _ => {}) := by
    intro fkey o
    rw [← (refines_empty ε).rows fkey o]
    rfl
  obtain ⟨⟨stored, hedges''⟩, hstored, hstores', hhedges'⟩ :=
    (hstores.batches_step hε hready hsorted []).right hbook
  replace hhedges : hedges' = hedges := hhedges
  replace hhedges' : hedges'' = hedges' := hhedges'
  rw [hhedges', hhedges] at hstored
  refine ⟨stored, hstored, fun fkey => ?_⟩
  refine Option.ext fun o => ?_
  show coreAt stored fkey = some o ↔ coreAt engine.orders fkey = some o
  rw [hstores' fkey o, ← href.rows fkey o, Option.or_none]

/-- A buy of 5 meets a sell of 2, is hedged by 1 and then by 4: three batches, the last of which
    finds nothing else to hedge than the 2 left pending. -/
def sampleBatches : List (List MatchEvent) :=
  let margin (fkey : ℤ) (side : Side) (at_ : ℤ) (amount : ℚ) : MatchEvent :=
    .margin { fkey, symbol := "BTCUSDT", side, cts := at_, openUts := at_, price := 100, amount
              range := 0, openFillAmount := amount, remainingAmount := amount
              openSourceTsUs := at_ }
  let futures (id : ℤ) (at_ : ℤ) (amount : ℚ) : MatchEvent :=
    .futures ⟨id, some 1, "BTCUSDT", .sell, at_, at_, some at_, some at_, some at_, at_, amount,
      some 101, 1⟩
  [[margin 1 .buy 10 5, margin 2 .sell 20 2], [futures 7 30 1], [futures 8 40 4]]

theorem restart_transparent_sample :
    ∃ engine hedges stored,
      (do (← MatchEngine.new [] 0).apply sampleBatches.flatten) = .ok (engine, hedges) ∧
      hedges.map (fun h => (h.allocatedAmount, h.unallocatedAmount)) = [(1, 0), (2, 2)] ∧
      sampleBatches.foldlM (processBatch 0) (.empty, []) = .ok (stored, hedges) ∧
      ∀ fkey, (stored.get fkey).map MarginOrder.core
        = (engine.orders.get fkey).map MarginOrder.core := by
  have hok : Yields (do (← MatchEngine.new [] 0).apply sampleBatches.flatten) fun r =>
      r.2.map (fun h => (h.allocatedAmount, h.unallocatedAmount)) = [(1, 0), (2, 2)] := by
    decide +kernel
  obtain ⟨⟨engine, hedges⟩, hrun, hamounts⟩ := hok
  have hsorted : sampleBatches.flatten.Pairwise fun a b => a.sortKey ≤ b.sortKey := by
    decide +kernel
  have hfkeys : (sampleBatches.flatten.filterMap MatchEvent.marginFkey).Nodup := by
    decide +kernel
  obtain ⟨stored, hstored, hrows⟩ := restart_transparent le_rfl hsorted hfkeys hrun
  exact ⟨engine, hedges, stored, hrun, hamounts, hstored, hrows⟩

end CryptoNav.Matching
