import CryptoNav.Matching.Restart

/-!
# Replays

What an accepted event does to a book depends on the book alone, so a run of the market is a replay
of its events. A replay treats each symbol by itself, only the events that move something count, and
none of what an order says about its price, its limits or the order it hedges is looked at (`bare`).
Two replays of the same bare events in the same order therefore match alike.

A replay is a way to compare two runs that took their events in different batches: what happened
is reduced to the events that could change a queue. Events that the engine refuses end a run and
are not part of a replay, and hedge metadata, which depends on prices and times, is not
reproduced by it.
-/

set_option autoImplicit false

namespace CryptoNav.Matching

open CryptoNav.Lib

/-! ## What an event does -/

def SymbolBook.after [Rounding] (ε : ℚ) (b : SymbolBook) : MatchEvent → SymbolBook
  | .margin order => b.margin ε order
  | .futures order => b.hedge ε order

def Book.after [Rounding] (ε : ℚ) (B : Book) (event : MatchEvent) : Book :=
  Function.update B event.symbol ((B event.symbol).after ε event)

/-- The market after some events, from nothing. -/
def replay [Rounding] (ε : ℚ) (events : List MatchEvent) : Book :=
  events.foldl (Book.after ε) fun _ => {}

section

variable {ε : ℚ} {B : Book}

theorem Book.applyEvent_after [Rounding] {t t' : Book × List HedgeResult} {event : MatchEvent}
    (h : Book.applyEvent ε t event = .ok t') : t'.1 = t.1.after ε event := by
  rcases Book.step_cases h with ⟨order, rfl, -, rfl⟩ | ⟨order, rfl, -, -, rfl⟩
  · rfl
  · rfl

theorem Book.run_after [Rounding] {t t' : Book × List HedgeResult} {events : List MatchEvent}
    (h : events.foldlM (Book.applyEvent ε) t = .ok t') :
    t'.1 = events.foldl (Book.after ε) t.1 := by
  induction events generalizing t with
  | nil =>
    cases run_nil.mp h
    rfl
  | cons event rest ih =>
    obtain ⟨t₁, hstep, hrest⟩ := run_cons.mp h
    rw [List.foldl_cons, ← Book.applyEvent_after hstep]
    exact ih hrest

theorem Ready.after [Rounding] {event : MatchEvent} {rest : List MatchEvent}
    (h : Ready ε B (event :: rest)) : Ready ε (B.after ε event) rest := by
  cases event with
  | margin order => exact h.margin
  | futures order => exact h.hedge

/-- Events that arrive in order leave a market that is ready for those that follow them. -/
theorem Ready.replayed [Rounding] {events rest : List MatchEvent} (h : Ready ε B (events ++ rest)) :
    Ready ε (events.foldl (Book.after ε) B) rest := by
  induction events generalizing B with
  | nil => exact h
  | cons event events ih => exact ih h.after

theorem ready_replay [Rounding] {events rest : List MatchEvent}
    (h : (events ++ rest).Pairwise Follows) :
    Ready ε (replay ε events) rest := (ready_empty h).replayed

/-! ## Symbol by symbol -/

/-- Whether the event can move anything: a Futures order needs a real fill. -/
def MatchEvent.acts (ε : ℚ) : MatchEvent → Bool
  | .margin _ => true
  | .futures order => ε < order.amount

theorem SymbolBook.hedge_dust [Rounding] (b : SymbolBook) (hε : 0 ≤ ε) {order : FuturesOrder}
    (h : order.amount ≤ ε) : b.hedge ε order = b := by
  have hdust : b.hedgeAgainst ε order
      = ⟨max order.amount 0, [], [], [], b.queue order.side.opposite⟩ :=
    Bite.clear_dust (max_le h hε) _
  unfold SymbolBook.hedge
  rw [hdust]
  simp only [Function.update_eq_self, List.append_nil]

theorem SymbolBook.after_idle [Rounding] (b : SymbolBook) (hε : 0 ≤ ε) {event : MatchEvent}
    (h : ¬event.acts ε) : b.after ε event = b := by
  cases event with
  | margin order => exact absurd rfl h
  | futures order => exact b.hedge_dust hε (not_lt.mp fun hlt => h (decide_eq_true hlt))

def MatchEvent.concerns (ε : ℚ) (symbol : String) (event : MatchEvent) : Bool :=
  event.acts ε && decide (event.symbol = symbol)

theorem MatchEvent.concerns_iff {symbol : String} {event : MatchEvent} :
    event.concerns ε symbol ↔ event.acts ε ∧ event.symbol = symbol := by
  unfold MatchEvent.concerns
  rw [Bool.and_eq_true, decide_eq_true_eq]

/-- **A symbol by itself.** -/
theorem replay_at [Rounding] (hε : 0 ≤ ε) (events : List MatchEvent) (B : Book) (symbol : String) :
    events.foldl (Book.after ε) B symbol
      = (events.filter (·.concerns ε symbol)).foldl (SymbolBook.after ε) (B symbol) := by
  induction events generalizing B with
  | nil => rfl
  | cons event rest ih =>
    rw [List.foldl_cons, ih]
    by_cases hconcerns : event.concerns ε symbol
    · rw [List.filter_cons_of_pos hconcerns, List.foldl_cons]
      unfold Book.after
      rw [(MatchEvent.concerns_iff.mp hconcerns).2, Function.update_self]
    · rw [List.filter_cons_of_neg hconcerns]
      refine congrArg (List.foldl (SymbolBook.after ε) · _) ?_
      unfold Book.after
      by_cases hsymbol : event.symbol = symbol
      · have hidle : ¬event.acts ε :=
          fun hacts => hconcerns (MatchEvent.concerns_iff.mpr ⟨hacts, hsymbol⟩)
        rw [hsymbol, Function.update_self, (B symbol).after_idle hε hidle]
      · rw [Function.update_of_ne (Ne.symm hsymbol)]

end

/-! ## What matching does not look at -/

/-- A Margin order without its hedge metadata and what else matching never reads. -/
def MarginOrder.bare (o : MarginOrder) : MarginOrder :=
  { o.core with openTerminalTsLocalUs := none, price := 0, amount := 0, range := 0, tlen := none }

def FuturesOrder.bare (o : FuturesOrder) : FuturesOrder :=
  { o with mainFkey := none, newTsUs := none }

def MatchEvent.bare : MatchEvent → MatchEvent
  | .margin order => .margin order.bare
  | .futures order => .futures order.bare

def SymbolBook.bare (b : SymbolBook) : SymbolBook where
  queue side := (b.queue side).map MarginOrder.bare
  settled := b.settled.map MarginOrder.bare

@[simp] theorem MatchEvent.bare_sortKey (event : MatchEvent) :
    event.bare.sortKey = event.sortKey := by
  cases event <;> rfl

@[simp] theorem MatchEvent.bare_core (event : MatchEvent) : event.core.bare = event.bare := by
  cases event <;> rfl

@[simp] theorem MatchEvent.core_sortKey (event : MatchEvent) :
    event.core.sortKey = event.sortKey := by
  cases event <;> rfl

@[simp] theorem MatchEvent.core_symbol (event : MatchEvent) : event.core.symbol = event.symbol := by
  cases event <;> rfl

@[simp] theorem MatchEvent.core_acts (ε : ℚ) (event : MatchEvent) :
    event.core.acts ε = event.acts ε := by
  cases event <;> rfl

theorem MatchEvent.bare_concerns (ε : ℚ) (symbol : String) (event : MatchEvent) :
    event.bare.concerns ε symbol = event.concerns ε symbol := by
  cases event <;> rfl

namespace SymbolBook

variable (ε : ℚ) (b : SymbolBook)

theorem bare_rows : b.bare.rows = b.rows.map MarginOrder.bare := by
  unfold rows
  rw [List.map_append, List.map_append]
  rfl

/-- A book is what it has on a side, on the other, and settled. -/
theorem eq_of_sides {b b' : SymbolBook} (side : Side) (hside : b.queue side = b'.queue side)
    (hopposite : b.queue side.opposite = b'.queue side.opposite)
    (hsettled : b.settled = b'.settled) : b = b' := by
  have hqueue : b.queue = b'.queue := by
    funext other
    rcases side.eq_or_opposite other with rfl | rfl
    · exact hside
    · exact hopposite
  cases b
  cases b'
  exact congrArg₂ SymbolBook.mk hqueue hsettled

theorem bare_netAgainst [Rounding] (order : MarginOrder) : b.bare.netAgainst ε order.bare
    = ⟨(b.netAgainst ε order).left, (b.netAgainst ε order).bites,
        (b.netAgainst ε order).closed.map MarginOrder.bare,
        (b.netAgainst ε order).touched.map MarginOrder.bare,
        (b.netAgainst ε order).queue.map MarginOrder.bare⟩ :=
  Bite.clear_translate (b := nettingBite ε) (c := nettingBite ε) (φ := MarginOrder.bare)
    (fun _ => rfl) (fun _ _ => rfl) rfl _ _

theorem bare_hedgeAgainst [Rounding] (order : FuturesOrder) : b.bare.hedgeAgainst ε order.bare
    = ⟨(b.hedgeAgainst ε order).left, (b.hedgeAgainst ε order).bites,
        (b.hedgeAgainst ε order).closed.map MarginOrder.bare,
        (b.hedgeAgainst ε order).touched.map MarginOrder.bare,
        (b.hedgeAgainst ε order).queue.map MarginOrder.bare⟩ :=
  Bite.clear_translate (b := hedgingBite ε order.cprice) (c := hedgingBite ε order.cprice)
    (φ := MarginOrder.bare) (fun _ => rfl) (fun _ _ => rfl) rfl _ _

theorem bare_margin [Rounding] (order : MarginOrder) :
    (b.margin ε order).bare = b.bare.margin ε order.bare := by
  have hnet := b.bare_netAgainst ε order
  refine eq_of_sides order.side ?_ ?_ ?_
  · show ((b.margin ε order).queue order.side).map MarginOrder.bare
      = (b.bare.margin ε order.bare).queue order.bare.side
    have hqueued : (if ε < (b.netAgainst ε order).left
          then [order.afterNetting (b.netAgainst ε order) ε] else []).map MarginOrder.bare
        = if ε < (b.bare.netAgainst ε order.bare).left
          then [order.bare.afterNetting (b.bare.netAgainst ε order.bare) ε] else [] := by
      rw [hnet]
      split
      · rfl
      · rfl
    rw [margin_queue_side, margin_queue_side, List.map_append, hqueued]
    rfl
  · show ((b.margin ε order).queue order.side.opposite).map MarginOrder.bare
      = (b.bare.margin ε order.bare).queue order.bare.side.opposite
    rw [margin_queue_opposite, margin_queue_opposite, hnet]
  · show (b.margin ε order).settled.map MarginOrder.bare = _
    have hsettled : (if ε < (b.netAgainst ε order).left then []
          else [order.afterNetting (b.netAgainst ε order) ε]).map MarginOrder.bare
        = if ε < (b.bare.netAgainst ε order.bare).left then []
          else [order.bare.afterNetting (b.bare.netAgainst ε order.bare) ε] := by
      rw [hnet]
      split
      · rfl
      · rfl
    rw [margin_settled, margin_settled, List.map_append, List.map_append, hsettled, hnet]
    rfl

theorem bare_hedge [Rounding] (order : FuturesOrder) :
    (b.hedge ε order).bare = b.bare.hedge ε order.bare := by
  have hhedge := b.bare_hedgeAgainst ε order
  refine eq_of_sides order.side ?_ ?_ ?_
  · show ((b.hedge ε order).queue order.side).map MarginOrder.bare
      = (b.bare.hedge ε order.bare).queue order.bare.side
    rw [hedge_queue_side, hedge_queue_side]
    rfl
  · show ((b.hedge ε order).queue order.side.opposite).map MarginOrder.bare
      = (b.bare.hedge ε order.bare).queue order.bare.side.opposite
    rw [hedge_queue_opposite, hedge_queue_opposite, hhedge]
  · show (b.settled ++ (b.hedgeAgainst ε order).closed).map MarginOrder.bare
      = b.bare.settled ++ (b.bare.hedgeAgainst ε order.bare).closed
    rw [hhedge, List.map_append]
    rfl

/-- **One event.** -/
theorem bare_after [Rounding] (event : MatchEvent) :
    (b.after ε event).bare = b.bare.after ε event.bare := by
  cases event with
  | margin order => exact b.bare_margin ε order
  | futures order => exact b.bare_hedge ε order

theorem bare_replay [Rounding] (events : List MatchEvent) :
    (events.foldl (SymbolBook.after ε) b).bare
      = (events.map MatchEvent.bare).foldl (SymbolBook.after ε) b.bare := by
  induction events generalizing b with
  | nil => rfl
  | cons event rest ih => rw [List.foldl_cons, ih, bare_after, List.map_cons, List.foldl_cons]

end SymbolBook

/-! ## Replays of the same events -/

/-- Of two events that act on one symbol, the one that comes first. Events of different symbols may
    come in any order. -/
def Precedes (ε : ℚ) (a b : MatchEvent) : Prop :=
  a.acts ε → b.acts ε → a.symbol = b.symbol → a.sortKey < b.sortKey

/-- What acts among the one events is, bare, among the others. Events that move nothing may be among
    the ones and not among the others. -/
def BareAmong (ε : ℚ) (events events' : List MatchEvent) : Prop :=
  ∀ event ∈ events, event.acts ε → ∃ event' ∈ events', event'.bare = event.bare

section

variable {ε : ℚ} {events events' : List MatchEvent}

theorem concerned_sorted (h : events.Pairwise (Precedes ε)) (symbol : String) :
    ((events.filter (·.concerns ε symbol)).map MatchEvent.bare).Pairwise
      fun a b => a.sortKey < b.sortKey := by
  refine List.pairwise_map.mpr ((h.filter _).imp_of_mem fun {a b} ha hb hab => ?_)
  obtain ⟨hacts, hsymbol⟩ := MatchEvent.concerns_iff.mp (List.mem_filter.mp ha).2
  obtain ⟨hacts', hsymbol'⟩ := MatchEvent.concerns_iff.mp (List.mem_filter.mp hb).2
  rw [MatchEvent.bare_sortKey, MatchEvent.bare_sortKey]
  exact hab hacts hacts' (hsymbol.trans hsymbol'.symm)

theorem BareAmong.concerned (h : BareAmong ε events events') {symbol : String} {event : MatchEvent}
    (hmem : event ∈ (events.filter (·.concerns ε symbol)).map MatchEvent.bare) :
    event ∈ (events'.filter (·.concerns ε symbol)).map MatchEvent.bare := by
  obtain ⟨a, ha, rfl⟩ := List.mem_map.mp hmem
  obtain ⟨hevent, hconcerns⟩ := List.mem_filter.mp ha
  obtain ⟨a', ha', hbare⟩ := h a hevent (MatchEvent.concerns_iff.mp hconcerns).1
  refine List.mem_map.mpr ⟨a', List.mem_filter.mpr ⟨ha', ?_⟩, hbare⟩
  rw [← MatchEvent.bare_concerns, hbare, MatchEvent.bare_concerns]
  exact hconcerns

/-- **Replays of the same events**, each symbol's in their order. -/
theorem replay_bare_eq [Rounding] (hε : 0 ≤ ε) (hsorted : events.Pairwise (Precedes ε))
    (hsorted' : events'.Pairwise (Precedes ε)) (h : BareAmong ε events events')
    (h' : BareAmong ε events' events) (symbol : String) :
    (replay ε events symbol).bare = (replay ε events' symbol).bare := by
  have hlists : (events.filter (·.concerns ε symbol)).map MatchEvent.bare
      = (events'.filter (·.concerns ε symbol)).map MatchEvent.bare :=
    eq_of_strictly_sorted MatchEvent.sortKey (concerned_sorted hsorted symbol)
      (concerned_sorted hsorted' symbol) fun _ => ⟨h.concerned, h'.concerned⟩
  unfold replay
  rw [replay_at hε, replay_at hε, SymbolBook.bare_replay, SymbolBook.bare_replay, hlists]

end

/-- The columns of a Margin row that matching writes. -/
def MarginOrder.matched (o : MarginOrder) : ℚ × ℚ × ℚ × ℚ × MatchingState :=
  (o.remainingAmount, o.camount, o.nettedAmount, o.closeNotional, o.matchingState)

theorem Stores.bare_row {stored stored' : Orders} {B B' : Book} (h : Stores stored B)
    (h' : Stores stored' B') (hbare : ∀ symbol, (B symbol).bare = (B' symbol).bare) {fkey : ℤ}
    {o : MarginOrder} (ho : (coreAt stored fkey).map MarginOrder.bare = some o) :
    (coreAt stored' fkey).map MarginOrder.bare = some o := by
  obtain ⟨row, hrow, rfl⟩ := Option.map_eq_some_iff.mp ho
  obtain ⟨hkey, hholds⟩ := (h fkey row).mp hrow
  -- The other market has the row in the book of the same symbol.
  have hmem : row.bare ∈ (B' row.symbol).bare.rows := by
    rw [← hbare, SymbolBook.bare_rows]
    exact List.mem_map_of_mem hholds
  rw [SymbolBook.bare_rows] at hmem
  obtain ⟨row', hrow', hsame⟩ := List.mem_map.mp hmem
  have hsymbol : row'.bare.symbol = row.bare.symbol := congrArg MarginOrder.symbol hsame
  have hkey' : row'.bare.fkey = row.bare.fkey := congrArg MarginOrder.fkey hsame
  replace hsymbol : row'.symbol = row.symbol := hsymbol
  have hholds' : B'.Holds row' := by
    unfold Book.Holds
    rwa [hsymbol]
  rw [(h' fkey row').mpr ⟨hkey'.trans hkey, hholds'⟩]
  exact congrArg some hsame

/-- Tables that store markets with the same bare rows agree on what matching writes. -/
theorem Stores.matched_eq {stored stored' : Orders} {B B' : Book} (h : Stores stored B)
    (h' : Stores stored' B') (hbare : ∀ symbol, (B symbol).bare = (B' symbol).bare) (fkey : ℤ) :
    (stored.get fkey).map MarginOrder.matched = (stored'.get fkey).map MarginOrder.matched := by
  have hrows : (coreAt stored fkey).map MarginOrder.bare
      = (coreAt stored' fkey).map MarginOrder.bare :=
    Option.ext fun _ => ⟨h.bare_row h' hbare, h'.bare_row h fun symbol => (hbare symbol).symm⟩
  have hmatched := congrArg (Option.map MarginOrder.matched) hrows
  unfold coreAt at hmatched
  rw [Option.map_map, Option.map_map, Option.map_map, Option.map_map] at hmatched
  exact hmatched

end CryptoNav.Matching
