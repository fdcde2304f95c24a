import CryptoNav.Matching.Book

/-!
# The engine refines the book

`Refines` relates an engine to the market it stands for. The engine may be a restarted one that
loaded only pending rows, so the relation also takes the rows `base` that are stored elsewhere:
a stored row counts unless the engine holds one of its own. Under it every event takes the
engine and the book the same way (`Refines.applyEvent`): both refuse it with the same error, or
both accept it with the same hedge result.

The relation is about what is stored and what is queued, and says nothing about the hedge maps;
they are `Metadata`'s. It holds before the first event of a run whatever the stored rows are, as
long as the engine was built from them, and then it is a matter of single events. Both machines
round alike, so no tolerance appears in the relation.
-/

set_option autoImplicit false

namespace CryptoNav.Matching

open CryptoNav.Lib

/-- The row an engine's table holds for a key, without metadata. -/
def coreAt (orders : Orders) (fkey : ℤ) : Option MarginOrder :=
  (orders.get fkey).map MarginOrder.core

theorem coreAt_fkey {orders : Orders} {fkey : ℤ} {o : MarginOrder}
    (h : coreAt orders fkey = some o) : o.fkey = fkey := by
  obtain ⟨row, hrow, rfl⟩ := Option.map_eq_some_iff.mp h
  exact (row.core_fkey).trans (Table.key_of_get hrow)

theorem remainingAt_eq {orders : Orders} {fkey : ℤ} {o : MarginOrder}
    (h : coreAt orders fkey = some o) : remainingAt orders fkey = o.remainingAmount := by
  obtain ⟨row, hrow, rfl⟩ := Option.map_eq_some_iff.mp h
  simp [remainingAt, hrow]

/-- A modification that commutes with `core` modifies the core. -/
theorem coreAt_modify (orders : Orders) (k : ℤ) (f g : MarginOrder → MarginOrder)
    (hf : ∀ o, (f o).fkey = o.fkey) (hg : ∀ o, (f o).core = g o.core) (fkey : ℤ) :
    coreAt (orders.modify k f) fkey
      = if fkey = k then (coreAt orders k).map g else coreAt orders fkey := by
  unfold coreAt
  rw [Table.get_modify orders k f hf]
  split
  · rw [Option.map_map, Option.map_map]
    congr 1
    exact funext hg
  · rfl

theorem coreAt_net [Rounding] (orders : Orders) (k : ℤ) (q ε : ℚ) (fkey : ℤ) :
    coreAt (orders.modify k (·.net q ε)) fkey
      = if fkey = k then (coreAt orders k).map (·.net q ε) else coreAt orders fkey :=
  coreAt_modify orders k (·.net q ε) (·.net q ε) (fun _ => rfl) (fun _ => rfl) fkey

theorem coreAt_close [Rounding] (orders : Orders) (k : ℤ) (q : ℚ) (p : Option ℚ) (ε : ℚ)
    (fkey : ℤ) :
    coreAt (orders.modify k (·.close q p ε)) fkey
      = if fkey = k then (coreAt orders k).map (·.close q p ε) else coreAt orders fkey :=
  coreAt_modify orders k (·.close q p ε) (·.close q p ε) (fun _ => rfl) (fun _ => rfl) fkey

/-- A modification that only touches metadata is not seen. -/
theorem coreAt_modify_meta (orders : Orders) (k : ℤ) (f : MarginOrder → MarginOrder)
    (hf : ∀ o, (f o).core = o.core) (fkey : ℤ) :
    coreAt (orders.modify k f) fkey = coreAt orders fkey := by
  have hkey : ∀ o, (f o).fkey = o.fkey := by
    intro o
    rw [← (f o).core_fkey, hf, o.core_fkey]
  rw [coreAt_modify orders k f id hkey hf]
  split
  · rename_i h
    rw [h, Option.map_id, id]
  · rfl

/-! ## The two loops clear the queue -/

/-- Rows found by key in a list that replaces what a table holds. -/
def override (rows : List MarginOrder) (lookup : ℤ → Option MarginOrder) (fkey : ℤ) :
    Option MarginOrder := (rows.find? (·.fkey = fkey)).or (lookup fkey)

theorem override_cons (o : MarginOrder) (rows : List MarginOrder)
    (lookup : ℤ → Option MarginOrder) (fkey : ℤ) :
    override (o :: rows) lookup fkey
      = if fkey = o.fkey then some o else override rows lookup fkey := by
  unfold override
  by_cases h : fkey = o.fkey
  · rw [if_pos h, List.find?_cons_of_pos (by simpa using h.symm)]
    rfl
  · rw [if_neg h, List.find?_cons_of_neg (by simpa using Ne.symm h)]

/-- Overriding by rows that are already there changes nothing. -/
theorem override_self {rows : List MarginOrder} {lookup : ℤ → Option MarginOrder}
    (h : ∀ o ∈ rows, lookup o.fkey = some o) (fkey : ℤ) : override rows lookup fkey = lookup fkey := by
  unfold override
  cases hf : rows.find? (·.fkey = fkey) with
  | none => rfl
  | some o =>
    have hkey : o.fkey = fkey := by simpa using List.find?_some hf
    rw [← hkey, h o (List.mem_of_find?_eq_some hf)]
    rfl

theorem override_congr {rows : List MarginOrder} {lookup lookup' : ℤ → Option MarginOrder}
    {fkey : ℤ} (h : fkey ∉ rows.map MarginOrder.fkey → lookup fkey = lookup' fkey) :
    override rows lookup fkey = override rows lookup' fkey := by
  unfold override
  cases hf : rows.find? (·.fkey = fkey) with
  | some o => rfl
  | none =>
    refine h fun hmem => ?_
    obtain ⟨o, ho, hkey⟩ := List.mem_map.mp hmem
    exact absurd hkey (by simpa using List.find?_eq_none.mp hf o ho)

theorem override_of_notMem {rows : List MarginOrder} {lookup : ℤ → Option MarginOrder} {fkey : ℤ}
    (h : fkey ∉ rows.map MarginOrder.fkey) : override rows lookup fkey = lookup fkey := by
  unfold override
  rw [List.find?_eq_none.mpr]
  · rfl
  · intro o ho hkey
    exact h (List.mem_map.mpr ⟨o, ho, by simpa using hkey⟩)

/-- `netLoop` clears the opposite queue: it pops what closes, rewrites the rows it bit, and
    leaves the arriving order netted. -/
theorem netLoop_spec [Rounding] {ε : ℚ} (fkey : ℤ) (entries : List MarginOrder)
    {orders : Orders} (current : MarginOrder) (hcurrent : coreAt orders fkey = some current)
    (hstate : current.refreshState ε = current)
    (hentries : ∀ o ∈ entries, coreAt orders o.fkey = some o)
    (hnodup : (fkey :: entries.map MarginOrder.fkey).Nodup) :
    let c := (nettingBite ε).clear ε current.remainingAmount entries
    let r := netLoop ε fkey orders (entries.map MarginOrder.fkey)
    r.2 = c.queue.map MarginOrder.fkey ∧
      ∀ k, coreAt r.1 k
        = override (current.afterNetting c ε :: (c.closed ++ c.queue)) (coreAt orders) k := by
  induction entries generalizing orders current with
  | nil =>
    refine ⟨rfl, fun k => ?_⟩
    have hafter : current.afterNetting ⟨current.remainingAmount, [], [], [], []⟩ ε = current :=
      hstate
    show coreAt orders k = override [current.afterNetting ⟨_, [], [], [], []⟩ ε] _ k
    rw [hafter, override_self]
    intro o ho
    rw [List.mem_singleton.mp ho, coreAt_fkey hcurrent, hcurrent]
  | cons front rest ih =>
    obtain ⟨hfkey, hrest⟩ := List.nodup_cons.mp hnodup
    obtain ⟨hfront, hrest⟩ := List.nodup_cons.mp hrest
    have hne : fkey ≠ front.fkey := fun h => hfkey (h ▸ List.mem_cons_self)
    have hfrontAt := hentries front List.mem_cons_self
    have hcurrentKey := coreAt_fkey hcurrent
    rw [List.map_cons, netLoop]
    simp only [remainingAt_eq hcurrent, remainingAt_eq hfrontAt]
    by_cases hdone : current.remainingAmount ≤ ε
    · -- The arriving order is used up before the first bite.
      rw [if_pos hdone, Bite.clear_of_le hdone]
      refine ⟨rfl, fun k => ?_⟩
      have hafter : current.afterNetting ⟨current.remainingAmount, [], [], [], front :: rest⟩ ε
          = current := hstate
      rw [hafter, override_self]
      intro o ho
      rcases List.mem_cons.mp ho with rfl | ho
      · rw [hcurrentKey, hcurrent]
      · exact hentries o ho
    · rw [if_neg hdone]
      set quantity := min current.remainingAmount front.remainingAmount with hq
      set orders' := (orders.modify front.fkey (·.net quantity ε)).modify fkey (·.net quantity ε)
        with horders'
      have hcore : ∀ k, coreAt orders' k = if k = fkey then some (current.net quantity ε)
          else if k = front.fkey then some (front.net quantity ε) else coreAt orders k := by
        intro k
        rw [horders', coreAt_net, coreAt_net, coreAt_net, if_neg hne, hcurrent, hfrontAt]
        rfl
      have hfront' : remainingAt orders' front.fkey = (front.net quantity ε).remainingAmount := by
        refine remainingAt_eq ?_
        rw [hcore, if_neg hne.symm, if_pos rfl]
      rw [hfront']
      by_cases hpop : (front.net quantity ε).remainingAmount ≤ ε
      · -- The front closes; the loop goes on with the rest of the queue.
        have hclear : (nettingBite ε).clear ε current.remainingAmount (front :: rest)
            = let c := (nettingBite ε).clear ε (current.net quantity ε).remainingAmount rest
              ⟨c.left, quantity :: c.bites, front.net quantity ε :: c.closed,
                front.net quantity ε :: c.touched, c.queue⟩ := Bite.clear_of_pop hdone hpop
        rw [if_pos hpop, hclear]
        obtain ⟨hqueue, hrows⟩ := ih _
          (by rw [hcore, if_pos rfl]) rfl
          (fun o ho => by
            have hof : o.fkey ≠ front.fkey :=
              fun h => hfront (h ▸ List.mem_map_of_mem ho)
            have hok : o.fkey ≠ fkey := fun h =>
              hfkey (h ▸ List.mem_cons_of_mem _ (List.mem_map_of_mem ho))
            rw [hcore, if_neg hok, if_neg hof]
            exact hentries o (List.mem_cons_of_mem _ ho))
          (List.nodup_cons.mpr ⟨fun h => hfkey (List.mem_cons_of_mem _ h), hrest⟩)
        refine ⟨hqueue, fun k => ?_⟩
        rw [hrows k]
        have hkeys : (((nettingBite ε).clear ε (current.net quantity ε).remainingAmount rest).closed
            ++ ((nettingBite ε).clear ε (current.net quantity ε).remainingAmount rest).queue).map
              MarginOrder.fkey = rest.map MarginOrder.fkey := Bite.clear_map (fun _ _ => rfl) _ rest
        generalize (nettingBite ε).clear ε (current.net quantity ε).remainingAmount rest = c
          at hkeys
        show override _ _ k = override (current.afterNetting ⟨c.left, quantity :: c.bites,
          front.net quantity ε :: c.closed, front.net quantity ε :: c.touched, c.queue⟩ ε ::
            front.net quantity ε :: (c.closed ++ c.queue)) _ k
        have hafter : (current.net quantity ε).afterNetting c ε
            = current.afterNetting ⟨c.left, quantity :: c.bites, front.net quantity ε :: c.closed,
                front.net quantity ε :: c.touched, c.queue⟩ ε := rfl
        rw [hafter, override_cons, override_cons, override_cons]
        have hkey : (current.afterNetting ⟨c.left, quantity :: c.bites,
          front.net quantity ε :: c.closed, front.net quantity ε :: c.touched, c.queue⟩ ε).fkey
            = fkey := hcurrentKey
        rw [hkey, show (front.net quantity ε).fkey = front.fkey from rfl]
        by_cases hk : k = fkey
        · rw [if_pos hk, if_pos hk]
        · rw [if_neg hk, if_neg hk]
          by_cases hkf : k = front.fkey
          · rw [if_pos hkf, hkf, override_of_notMem (hkeys ▸ hfront), hcore, if_neg hne.symm,
              if_pos rfl]
          · rw [if_neg hkf]
            refine override_congr fun _ => ?_
            rw [hcore, if_neg hk, if_neg hkf]
      · -- The front survives, so the arriving order is used up.
        rw [if_neg hpop, Bite.clear_of_stop hdone hpop]
        refine ⟨rfl, fun k => ?_⟩
        show coreAt orders' k = override (current.net quantity ε :: front.net quantity ε :: rest) _ k
        rw [hcore, override_cons, override_cons,
          show (current.net quantity ε).fkey = fkey from hcurrentKey,
          show (front.net quantity ε).fkey = front.fkey from rfl,
          override_self fun o ho => hentries o (List.mem_cons_of_mem _ ho)]

/-- `hedgeLoop` clears the queue of the hedged side, and matches the anchor if it bites it. -/
theorem hedgeLoop_spec [Rounding] (ε : ℚ) (order : FuturesOrder) {entries : List MarginOrder}
    (orders : Orders) (remaining : ℚ) (anchor : Bool)
    (hentries : ∀ o ∈ entries, coreAt orders o.fkey = some o)
    (hnodup : (entries.map MarginOrder.fkey).Nodup) :
    let c := (hedgingBite ε order.cprice).clear ε remaining entries
    let a := hedgeLoop ε order remaining anchor orders (entries.map MarginOrder.fkey)
    a.remaining = c.left ∧
      a.anchorMatched = (anchor || c.touched.any fun o => order.mainFkey = some o.fkey) ∧
      a.queue = c.queue.map MarginOrder.fkey ∧
      ∀ k, coreAt a.orders k = override (c.closed ++ c.queue) (coreAt orders) k := by
  induction entries generalizing orders remaining anchor with
  | nil => exact ⟨rfl, by simp [hedgeLoop, Bite.clear], rfl, fun _ => rfl⟩
  | cons front rest ih =>
    obtain ⟨hfront, hrest⟩ := List.nodup_cons.mp hnodup
    have hfrontAt := hentries front List.mem_cons_self
    rw [List.map_cons, hedgeLoop]
    simp only [remainingAt_eq hfrontAt]
    by_cases hdone : remaining ≤ ε
    · rw [if_pos hdone, Bite.clear_of_le hdone]
      exact ⟨rfl, by simp, rfl, fun k => (override_self hentries k).symm⟩
    · rw [if_neg hdone]
      set quantity := min remaining front.remainingAmount with hq
      set orders' := orders.modify front.fkey (·.close quantity order.cprice ε) with horders'
      have hcore : ∀ k, coreAt orders' k = if k = front.fkey
          then some (front.close quantity order.cprice ε) else coreAt orders k := by
        intro k
        rw [horders', coreAt_close, hfrontAt]
        rfl
      have hfront' : remainingAt orders' front.fkey
          = (front.close quantity order.cprice ε).remainingAmount := by
        refine remainingAt_eq ?_
        rw [hcore, if_pos rfl]
      rw [hfront']
      by_cases hpop : (front.close quantity order.cprice ε).remainingAmount ≤ ε
      · rw [if_pos hpop, Bite.clear_of_pop hdone hpop]
        obtain ⟨hleft, hanchor, hqueue, hrows⟩ := ih orders'
          (clampZero (Rounding.fl (remaining - quantity)) ε)
          (anchor || decide (order.mainFkey = some front.fkey))
          (fun o ho => by
            have hof : o.fkey ≠ front.fkey := fun h => hfront (h ▸ List.mem_map_of_mem ho)
            rw [hcore, if_neg hof]
            exact hentries o (List.mem_cons_of_mem _ ho)) hrest
        refine ⟨hleft, ?_, hqueue, fun k => ?_⟩
        · rw [hanchor, Bool.or_assoc]
          rfl
        · have hkeys : ((((hedgingBite ε order.cprice).clear ε
              (clampZero (Rounding.fl (remaining - quantity)) ε) rest).closed ++
              ((hedgingBite ε order.cprice).clear ε
                (clampZero (Rounding.fl (remaining - quantity)) ε) rest).queue).map MarginOrder.fkey)
                = rest.map MarginOrder.fkey := Bite.clear_map (fun _ _ => rfl) _ rest
          rw [hrows k]
          show _ = override (front.close quantity order.cprice ε :: _) _ k
          rw [override_cons, show (front.close quantity order.cprice ε).fkey = front.fkey from rfl]
          by_cases hkf : k = front.fkey
          · rw [if_pos hkf, hkf, override_of_notMem (hkeys ▸ hfront), hcore, if_pos rfl]
          · rw [if_neg hkf]
            refine override_congr fun _ => ?_
            rw [hcore, if_neg hkf]
      · rw [if_neg hpop, Bite.clear_of_stop hdone hpop]
        refine ⟨rfl, ?_, rfl, fun k => ?_⟩
        · show (anchor || _) = (anchor || [front.close quantity order.cprice ε].any _)
          rw [List.any_cons, List.any_nil, Bool.or_false]
          rfl
        · show coreAt orders' k = override (front.close quantity order.cprice ε :: rest) _ k
          rw [hcore, override_cons,
            show (front.close quantity order.cprice ε).fkey = front.fkey from rfl,
            override_self fun o ho => hentries o (List.mem_cons_of_mem _ ho)]

theorem override_of_mem {rows : List MarginOrder} (hnodup : (rows.map MarginOrder.fkey).Nodup)
    (lookup : ℤ → Option MarginOrder) {o : MarginOrder} (h : o ∈ rows) :
    override rows lookup o.fkey = some o := by
  unfold override
  cases hf : rows.find? (·.fkey = o.fkey) with
  | none => exact absurd (List.find?_eq_none.mp hf o h) (by simp)
  | some x =>
    have hkey : x.fkey = o.fkey := by simpa using List.find?_some hf
    rw [List.inj_on_of_nodup_map hnodup (List.mem_of_find?_eq_some hf) h hkey]
    rfl

theorem mem_of_override {rows : List MarginOrder} {lookup : ℤ → Option MarginOrder} {k : ℤ}
    {o : MarginOrder} (h : override rows lookup k = some o) :
    (o ∈ rows ∧ o.fkey = k) ∨ (k ∉ rows.map MarginOrder.fkey ∧ lookup k = some o) := by
  by_cases hk : k ∈ rows.map MarginOrder.fkey
  · left
    unfold override at h
    cases hf : rows.find? (·.fkey = k) with
    | none =>
      obtain ⟨x, hx, hxk⟩ := List.mem_map.mp hk
      exact absurd hxk (by simpa using List.find?_eq_none.mp hf x hx)
    | some x =>
      rw [hf] at h
      cases h
      exact ⟨List.mem_of_find?_eq_some hf, by simpa using List.find?_some hf⟩
  · rw [override_of_notMem hk] at h
    exact .inr ⟨hk, h⟩

/-! ## The relation -/

/-- The engine `e`, with the rows `base` stored elsewhere, stands for the market `B`. -/
structure Refines (ε : ℚ) (base : ℤ → Option MarginOrder) (e : MatchEngine) (B : Book) : Prop where
  epsilon : e.epsilon = ε
  queues : ∀ symbol side, e.queues (symbol, side) = ((B symbol).queue side).map MarginOrder.fkey
  rows : ∀ fkey o, (coreAt e.orders fkey).or (base fkey) = some o ↔ o.fkey = fkey ∧ B.Holds o
  loaded : ∀ symbol side, ∀ o ∈ (B symbol).queue side, coreAt e.orders o.fkey = some o
  proper : B.Proper ε

theorem SymbolBook.Proper.mem_symbol {ε : ℚ} {symbol : String} {b : SymbolBook}
    (h : b.Proper ε symbol) {o : MarginOrder} (ho : o ∈ b.rows) : o.symbol = symbol := by
  rcases List.mem_append.mp ho with ho | ho
  · rcases List.mem_append.mp ho with ho | ho
    · exact (h.queued .buy o ho).symbol
    · exact (h.queued .sell o ho).symbol
  · exact (h.settled o ho).symbol

theorem SymbolBook.mem_rows_of_queue {b : SymbolBook} {side : Side} {o : MarginOrder}
    (h : o ∈ b.queue side) : o ∈ b.rows := by
  cases side with
  | buy => exact List.mem_append_left _ (List.mem_append_left _ h)
  | sell => exact List.mem_append_left _ (List.mem_append_right _ h)

section

variable {ε : ℚ} {base : ℤ → Option MarginOrder} {e : MatchEngine} {B : Book}

theorem Refines.lookup (h : Refines ε base e B) {o : MarginOrder} (ho : B.Holds o) :
    (coreAt e.orders o.fkey).or (base o.fkey) = some o := (h.rows o.fkey o).mpr ⟨rfl, ho⟩

theorem Refines.holds_inj (h : Refines ε base e B) {o o' : MarginOrder} (ho : B.Holds o)
    (ho' : B.Holds o') (hkey : o.fkey = o'.fkey) : o = o' := by
  have h1 := h.lookup ho
  rw [hkey, h.lookup ho'] at h1
  exact (Option.some.inj h1).symm

theorem Refines.holds_queue (h : Refines ε base e B) {symbol : String} {side : Side}
    {o : MarginOrder} (ho : o ∈ (B symbol).queue side) : B.Holds o := by
  unfold Book.Holds
  rw [((h.proper symbol).queued side o ho).symbol]
  exact SymbolBook.mem_rows_of_queue ho

/-- **The frame of a step.** A step that rewrites the rows `changed` of one symbol, in the stead
    of its rows `old`, and leaves everything else alone, keeps the refinement. -/
theorem Refines.update (h : Refines ε base e B) {e' : MatchEngine} {symbol : String}
    {b' : SymbolBook} (changed old rest : List MarginOrder) (hε : e'.epsilon = ε)
    (hlookup : ∀ k, coreAt e'.orders k = override changed (coreAt e.orders) k)
    (hproper : b'.Proper ε symbol)
    (hb : (B symbol).rows.Perm (old ++ rest)) (hb' : b'.rows.Perm (changed ++ rest))
    (hold : ∀ y ∈ old, y.fkey ∈ changed.map MarginOrder.fkey)
    (hnew : ∀ x ∈ changed, x.fkey ∈ old.map MarginOrder.fkey ∨
      ∀ o, B.Holds o → o.fkey ≠ x.fkey)
    (hqueued : ∀ side, ∀ o ∈ b'.queue side, o ∈ changed ∨ o ∈ (B symbol).queue side)
    (hqueues : ∀ t side, e'.queues (t, side)
      = ((Function.update B symbol b' t).queue side).map MarginOrder.fkey) :
    Refines ε base e' (Function.update B symbol b') := by
  have hnodup : ((changed ++ rest).map MarginOrder.fkey).Nodup :=
    (hb'.map _).nodup_iff.mp hproper.nodup
  have hchanged : (changed.map MarginOrder.fkey).Nodup := by
    rw [List.map_append] at hnodup
    exact hnodup.of_append_left
  -- Rows outside the symbol and rows of `rest` have keys of their own.
  have houtside : ∀ o, B.Holds o → o.symbol ≠ symbol → o.fkey ∉ changed.map MarginOrder.fkey := by
    intro o ho hne hmem
    obtain ⟨x, hx, hxo⟩ := List.mem_map.mp hmem
    rcases hnew x hx with hx | hx
    · obtain ⟨y, hy, hyx⟩ := List.mem_map.mp hx
      have hyB : y ∈ (B symbol).rows := hb.mem_iff.mpr (List.mem_append_left _ hy)
      have hysym := (h.proper symbol).mem_symbol hyB
      have hyholds : B.Holds y := by
        unfold Book.Holds
        rwa [hysym]
      rw [h.holds_inj ho hyholds (hxo.symm.trans hyx.symm)] at hne
      exact hne hysym
    · exact hx o ho hxo.symm
  have hrest : ∀ o ∈ rest, o.fkey ∉ changed.map MarginOrder.fkey := by
    intro o ho hmem
    rw [List.map_append, List.nodup_append] at hnodup
    exact hnodup.2.2 _ hmem _ (List.mem_map_of_mem ho) rfl
  have hheld : ∀ o ∈ rest, B.Holds o := by
    intro o ho
    have hmem : o ∈ (B symbol).rows := hb.mem_iff.mpr (List.mem_append_right _ ho)
    unfold Book.Holds
    rwa [(h.proper symbol).mem_symbol hmem]
  have hor : ∀ k, (coreAt e'.orders k).or (base k)
      = override changed (fun k => (coreAt e.orders k).or (base k)) k := by
    intro k
    rw [hlookup, override, override, Option.or_assoc]
  refine ⟨hε, hqueues, ?_, ?_, ?_⟩
  · intro k o
    rw [hor]
    constructor
    · intro ho
      rcases mem_of_override ho with ⟨hmem, hk⟩ | ⟨hk, ho⟩
      · refine ⟨hk, ?_⟩
        have hmem' : o ∈ b'.rows := hb'.mem_iff.mpr (List.mem_append_left _ hmem)
        unfold Book.Holds
        rw [hproper.mem_symbol hmem', Function.update_self]
        exact hmem'
      · obtain ⟨hok, hB⟩ := (h.rows k o).mp ho
        refine ⟨hok, ?_⟩
        unfold Book.Holds
        by_cases hs : o.symbol = symbol
        · rw [hs, Function.update_self]
          unfold Book.Holds at hB
          rw [hs] at hB
          rcases List.mem_append.mp (hb.mem_iff.mp hB) with hB | hB
          · exact absurd (hok ▸ hold o hB) hk
          · exact hb'.mem_iff.mpr (List.mem_append_right _ hB)
        · rw [Function.update_of_ne hs]
          exact hB
    · rintro ⟨rfl, hB⟩
      unfold Book.Holds at hB
      by_cases hs : o.symbol = symbol
      · rw [hs, Function.update_self] at hB
        rcases List.mem_append.mp (hb'.mem_iff.mp hB) with hB | hB
        · exact override_of_mem hchanged _ hB
        · rw [override_of_notMem (hrest o hB)]
          exact h.lookup (hheld o hB)
      · rw [Function.update_of_ne hs] at hB
        rw [override_of_notMem (houtside o hB hs)]
        exact h.lookup hB
  · intro t side o ho
    rw [hlookup]
    by_cases ht : t = symbol
    · rw [ht, Function.update_self] at ho
      by_cases hmem : o ∈ changed
      · exact override_of_mem hchanged _ hmem
      · have hq := (hqueued side o ho).resolve_left hmem
        have hrestmem : o ∈ rest := by
          have := hb'.mem_iff.mp (SymbolBook.mem_rows_of_queue ho)
          exact (List.mem_append.mp this).resolve_left hmem
        rw [override_of_notMem (hrest o hrestmem)]
        exact h.loaded symbol side o hq
    · rw [Function.update_of_ne ht] at ho
      have hs := ((h.proper t).queued side o ho).symbol
      rw [override_of_notMem (houtside o (h.holds_queue ho) (hs.trans_ne ht))]
      exact h.loaded t side o ho
  · intro t
    by_cases ht : t = symbol
    · rw [ht, Function.update_self]
      exact hproper
    · rw [Function.update_of_ne ht]
      exact h.proper t

/-- The empty engine and the empty market. -/
theorem refines_empty (ε : ℚ) :
    Refines ε (fun _ => none) { epsilon := ε } (fun _ => {}) := by
  refine ⟨rfl, fun _ _ => rfl, ?_, fun _ _ o ho => absurd ho List.not_mem_nil,
    fun s => SymbolBook.proper_empty ε s⟩
  intro fkey o
  constructor
  · intro h
    cases h
  · intro h
    exact absurd h.2 List.not_mem_nil

/-! ## One event -/

theorem core_withHedgeMaps (e : MatchEngine) (order : MarginOrder) :
    (e.withHedgeMaps order).core = order.core := by
  show ((e.firstHedgeTiming order.fkey).elim order order.withTiming).core = _
  cases e.firstHedgeTiming order.fkey with
  | none => rfl
  | some timing => rfl

/-- A key that no row of the market has is not in the engine's table. -/
theorem Refines.get_eq_none (h : Refines ε base e B) {fkey : ℤ}
    (hfresh : ∀ o, B.Holds o → o.fkey ≠ fkey) : e.orders.get fkey = none := by
  cases hget : e.orders.get fkey with
  | none => rfl
  | some row =>
    have hrow : (coreAt e.orders fkey).or (base fkey) = some row.core := by
      unfold coreAt
      rw [hget]
      rfl
    obtain ⟨hk, hB⟩ := (h.rows _ _).mp hrow
    exact absurd hk (hfresh _ hB)

theorem Refines.queue_nodup (h : Refines ε base e B) (symbol : String) (side : Side) :
    (((B symbol).queue side.opposite).map MarginOrder.fkey).Nodup := by
  have := (((B symbol).rows_perm side).map MarginOrder.fkey).nodup_iff.mp (h.proper symbol).nodup
  rw [List.map_append] at this
  exact this.of_append_left

/-- The queue map after one queue was replaced. -/
theorem queues_update {queues : String × Side → List ℤ} {B : Book} {symbol : String}
    {b' : SymbolBook} (side : Side)
    (h : ∀ t s, queues (t, s) = ((B t).queue s).map MarginOrder.fkey)
    {queues' : String × Side → List ℤ}
    (hopposite : queues' (symbol, side.opposite)
      = (b'.queue side.opposite).map MarginOrder.fkey)
    (hside : queues' (symbol, side) = (b'.queue side).map MarginOrder.fkey)
    (hother : ∀ t s, t ≠ symbol → queues' (t, s) = queues (t, s)) (t : String) (s : Side) :
    queues' (t, s) = ((Function.update B symbol b' t).queue s).map MarginOrder.fkey := by
  by_cases ht : t = symbol
  · subst ht
    rw [Function.update_self]
    rcases side.eq_or_opposite s with rfl | rfl
    · exact hside
    · exact hopposite
  · rw [Function.update_of_ne ht, hother t s ht]
    exact h t s

/-- **An arriving Margin order.** With a real fill and a key that no row has, the engine accepts
    it and moves as the book does. -/
theorem Refines.applyMargin [Rounding] (h : Refines ε base e B) {order : MarginOrder}
    (hfresh : ∀ o, B.Holds o → o.fkey ≠ order.fkey) (hfill : ε < order.openFillAmount) :
    ∃ e', e.applyMargin order = .ok e' ∧ Refines ε base e'
      (Function.update B order.symbol ((B order.symbol).margin ε order.core)) := by
  set b := B order.symbol with hb
  set arriving := e.withHedgeMaps order.arrive with harriving
  have hcore : arriving.core = order.core.arrive := core_withHedgeMaps e order.arrive
  have hkey : arriving.fkey = order.fkey := by
    rw [← MarginOrder.core_fkey, hcore]
    rfl
  have hsymbol : arriving.symbol = order.symbol :=
    (congrArg MarginOrder.symbol hcore : arriving.core.symbol = _)
  have hside : arriving.side = order.side :=
    (congrArg MarginOrder.side hcore : arriving.core.side = _)
  have hput : ∀ k, coreAt (e.orders.put arriving) k
      = if k = order.fkey then some order.core.arrive else coreAt e.orders k := by
    intro k
    unfold coreAt
    rw [Table.get_put, hkey]
    split
    · exact congrArg some hcore
    · rfl
  have hqueuekeys : ∀ side, ∀ o ∈ b.queue side, o.fkey ≠ order.fkey :=
    fun side o ho => hfresh o (h.holds_queue ho)
  have hproper : b.Proper ε order.symbol := h.proper order.symbol
  have hfreshrows : order.fkey ∉ b.rows.map MarginOrder.fkey := by
    intro hmem
    obtain ⟨o, ho, hok⟩ := List.mem_map.mp hmem
    refine hfresh o ?_ hok
    unfold Book.Holds
    rwa [hproper.mem_symbol ho]
  have hnodup : (order.fkey :: (b.queue order.side.opposite).map MarginOrder.fkey).Nodup := by
    refine List.nodup_cons.mpr ⟨fun hmem => ?_, h.queue_nodup order.symbol order.side⟩
    obtain ⟨o, ho, hok⟩ := List.mem_map.mp hmem
    exact hqueuekeys _ o ho hok
  have hstate : order.core.arrive.refreshState ε = order.core.arrive := by
    unfold MarginOrder.refreshState
    rw [if_pos (show ε < order.core.arrive.remainingAmount from hfill)]
    rfl
  obtain ⟨hqueue, hrows⟩ := netLoop_spec order.fkey
    (b.queue order.side.opposite) order.core.arrive (by rw [hput, if_pos rfl]) hstate
    (fun o ho => by
      rw [hput, if_neg (hqueuekeys _ o ho)]
      exact h.loaded order.symbol order.side.opposite o ho) hnodup
  rw [show (nettingBite ε).clear ε order.core.arrive.remainingAmount (b.queue order.side.opposite)
    = b.netAgainst ε order.core from rfl] at hqueue hrows
  set netted := netLoop ε order.fkey (e.orders.put arriving)
    ((b.queue order.side.opposite).map MarginOrder.fkey) with hnetted
  set c := b.netAgainst ε order.core with hc
  have hlookup : ∀ k, coreAt netted.1 k
      = override (order.core.afterNetting c ε :: (c.closed ++ c.queue)) (coreAt e.orders) k := by
    intro k
    rw [hrows]
    refine override_congr fun hk => ?_
    have hne : k ≠ order.fkey := fun he => hk (he ▸ List.mem_cons_self)
    rw [hput, if_neg hne]
  have hleft : remainingAt netted.1 order.fkey = c.left := by
    have hcurrent : coreAt netted.1 order.fkey = some (order.core.afterNetting c ε) := by
      rw [hlookup, override_cons]
      exact if_pos rfl
    exact remainingAt_eq hcurrent
  -- The engine, spelled out.
  set queues₁ := Function.update e.queues (order.symbol, order.side.opposite) netted.2 with hq₁
  set queues₂ := if ε < c.left then Function.update queues₁ (order.symbol, order.side)
    (queues₁ (order.symbol, order.side) ++ [order.fkey]) else queues₁ with hq₂
  refine ⟨{ e with orders := netted.1, queues := queues₂ }, ?_, ?_⟩
  · unfold MatchEngine.applyMargin
    rw [h.epsilon, if_neg (not_le.mpr hfill), h.get_eq_none hfresh]
    simp only [Option.isSome_none, Bool.false_eq_true, if_false, ← harriving, hsymbol, hside, hkey,
      h.queues, ← hb, ← hnetted, hleft]
    rfl
  · have hne : (order.symbol, order.side) ≠ (order.symbol, order.side.opposite) := by
      intro he
      exact order.side.opposite_ne (congrArg Prod.snd he).symm
    have hfkeys : (c.closed ++ c.queue).map MarginOrder.fkey
        = (b.queue order.side.opposite).map MarginOrder.fkey := b.netAgainst_fkeys ε order.core
    refine h.update (order.core.afterNetting c ε :: (c.closed ++ c.queue))
      (b.queue order.side.opposite) (b.queue order.side ++ b.settled) h.epsilon
      hlookup (hproper.margin rfl hfreshrows) (b.rows_perm order.side)
      (b.margin_rows_perm ε order.core) ?_ ?_ ?_ ?_
    · intro y hy
      rw [List.map_cons, hfkeys]
      exact List.mem_cons_of_mem _ (List.mem_map_of_mem hy)
    · intro x hx
      rcases List.mem_cons.mp hx with rfl | hx
      · exact .inr hfresh
      · rw [← hfkeys]
        exact .inl (List.mem_map_of_mem hx)
    · intro s o ho
      rcases order.side.eq_or_opposite s with rfl | rfl
      · rw [show (b.margin ε order.core).queue order.side = _ from b.margin_queue_side ε order.core]
          at ho
        rcases List.mem_append.mp ho with ho | ho
        · exact .inr ho
        · split at ho
          · rw [List.mem_singleton.mp ho]
            exact .inl List.mem_cons_self
          · cases ho
      · rw [show (b.margin ε order.core).queue order.side.opposite = c.queue from
          b.margin_queue_opposite ε order.core] at ho
        exact .inl (List.mem_cons_of_mem _ (List.mem_append_right _ ho))
    · refine queues_update order.side h.queues ?_ ?_ ?_
      · show queues₂ _ = _
        rw [show (b.margin ε order.core).queue order.side.opposite = c.queue from
          b.margin_queue_opposite ε order.core, hq₂]
        split
        · rw [Function.update_of_ne hne.symm, hq₁, Function.update_self, hqueue]
        · rw [hq₁, Function.update_self, hqueue]
      · show queues₂ _ = _
        rw [show (b.margin ε order.core).queue order.side = _ from b.margin_queue_side ε order.core,
          List.map_append, hq₂]
        by_cases hlt : ε < c.left
        · rw [if_pos hlt, if_pos hlt, Function.update_self, hq₁, Function.update_of_ne hne, h.queues]
          rfl
        · rw [if_neg hlt, if_neg hlt, hq₁, Function.update_of_ne hne, h.queues]
          exact (List.append_nil _).symm
      · intro t s ht
        have hts : ∀ s', (t, s) ≠ (order.symbol, s') := fun s' he => ht (congrArg Prod.fst he)
        show queues₂ _ = _
        rw [hq₂]
        split
        · rw [Function.update_of_ne (hts _), hq₁, Function.update_of_ne (hts _)]
        · rw [hq₁, Function.update_of_ne (hts _)]

/-! Hedge records are metadata: the book does not see them. -/

theorem coreAt_recordFirstHedgeTiming (e : MatchEngine) (mainFkey : ℤ) (t : HedgeTiming) :
    coreAt (e.recordFirstHedgeTiming mainFkey t).orders = coreAt e.orders :=
  funext fun k => coreAt_modify_meta e.orders mainFkey (·.withTiming _) (fun _ => rfl) k

theorem countHedgeOrder_frame (e : MatchEngine) (mainFkey id : ℤ) :
    (e.countHedgeOrder mainFkey id).orders = e.orders ∧
      (e.countHedgeOrder mainFkey id).queues = e.queues ∧
      (e.countHedgeOrder mainFkey id).epsilon = e.epsilon := by
  unfold MatchEngine.countHedgeOrder
  split
  · exact ⟨rfl, rfl, rfl⟩
  · exact ⟨rfl, rfl, rfl⟩

theorem coreAt_recordHedgeOrder (e : MatchEngine) (mainFkey : ℤ) (order : FuturesOrder) :
    coreAt (e.recordHedgeOrder mainFkey order).orders = coreAt e.orders ∧
      (e.recordHedgeOrder mainFkey order).queues = e.queues ∧
      (e.recordHedgeOrder mainFkey order).epsilon = e.epsilon := by
  obtain ⟨horders, hqueues, hε⟩ := countHedgeOrder_frame
    (e.recordFirstHedgeTiming mainFkey order.timing) mainFkey order.clientOrderId
  refine ⟨?_, hqueues, hε⟩
  have hmeta : ∀ (orders : Orders) fts count, coreAt (orders.modify mainFkey (·.withFills fts count))
      = coreAt orders := fun orders fts count =>
    funext fun k => coreAt_modify_meta orders mainFkey (·.withFills fts count) (fun _ => rfl) k
  rw [← coreAt_recordFirstHedgeTiming e mainFkey order.timing, ← horders]
  exact hmeta _ _ _

theorem seedOne_frame (e : MatchEngine) (history : HedgeHistory) :
    coreAt (e.seedOne history).orders = coreAt e.orders ∧
      (e.seedOne history).queues = e.queues ∧ (e.seedOne history).epsilon = e.epsilon := by
  refine ⟨?_, rfl, rfl⟩
  rw [← coreAt_recordFirstHedgeTiming e history.mainFkey history.firstOrder]
  funext k
  exact coreAt_modify_meta (e.recordFirstHedgeTiming history.mainFkey history.firstOrder).orders
    history.mainFkey (fun margin => margin.withFills _ (max margin.closeCount _)) (fun _ => rfl) k

theorem Refines.congr (h : Refines ε base e B) {e' : MatchEngine}
    (horders : coreAt e'.orders = coreAt e.orders) (hqueues : e'.queues = e.queues)
    (hε : e'.epsilon = e.epsilon) : Refines ε base e' B :=
  ⟨hε.trans h.epsilon, fun s side => by rw [hqueues, h.queues],
    fun k o => by rw [horders, h.rows], fun s side o ho => by rw [horders, h.loaded s side o ho],
    h.proper⟩

/-- Seeding touches nothing that matching reads. -/
theorem Refines.seed (h : Refines ε base e B) (history : List HedgeHistory) :
    Refines ε base (e.seedHedgeHistory history) B := by
  unfold MatchEngine.seedHedgeHistory
  induction history generalizing e with
  | nil => exact h
  | cons first rest ih =>
    obtain ⟨horders, hqueues, hε⟩ := seedOne_frame e first
    exact ih (h.congr horders hqueues hε)

/-- **A Futures order.** Once its amounts are valid, the engine and the book hedge alike and give
    the same result. -/
theorem Refines.applyFutures [Rounding] (h : Refines ε base e B) {order : FuturesOrder}
    (hamount : ¬order.amount < -ε) (hfill : ¬(ε < order.amount ∧ order.fillTsUs = none)) :
    ∃ e', e.applyFutures order = .ok (e', (B order.symbol).hedgeResult ε order) ∧
      Refines ε base e' (Function.update B order.symbol ((B order.symbol).hedge ε order)) := by
  set recorded := order.mainFkey.elim e fun mainFkey => e.recordHedgeOrder mainFkey order with hrec
  have hR : Refines ε base recorded B := by
    rw [hrec]
    cases order.mainFkey with
    | none => exact h
    | some mainFkey =>
      obtain ⟨horders, hqueues, hε⟩ := coreAt_recordHedgeOrder e mainFkey order
      exact h.congr horders hqueues hε
  set b := B order.symbol with hb
  obtain ⟨hleft, hanchor, hqueue, hrows⟩ := hedgeLoop_spec ε order recorded.orders
    (max order.amount 0) (decide (order.amount ≤ ε)) (hR.loaded order.symbol order.side.opposite)
    (hR.queue_nodup order.symbol order.side)
  rw [← hb, show (hedgingBite ε order.cprice).clear ε (max order.amount 0)
    (b.queue order.side.opposite) = b.hedgeAgainst ε order from rfl] at hleft hanchor hqueue hrows
  set a := hedgeLoop ε order (max order.amount 0) (decide (order.amount ≤ ε)) recorded.orders
    ((b.queue order.side.opposite).map MarginOrder.fkey) with ha
  set c := b.hedgeAgainst ε order with hc
  refine ⟨{ recorded with
    orders := a.orders
    queues := Function.update recorded.queues (order.symbol, order.side.opposite) a.queue }, ?_, ?_⟩
  · unfold MatchEngine.applyFutures
    simp only [h.epsilon, if_neg hamount, if_neg hfill, ← hrec, hR.epsilon, hR.queues, ← hb, ← ha]
    rw [hleft, hanchor]
    rfl
  · have hfkeys : (c.closed ++ c.queue).map MarginOrder.fkey
        = (b.queue order.side.opposite).map MarginOrder.fkey := b.hedgeAgainst_fkeys ε order
    refine hR.update (c.closed ++ c.queue) (b.queue order.side.opposite)
      (b.queue order.side ++ b.settled) hR.epsilon hrows ((h.proper order.symbol).hedge order)
      (b.rows_perm order.side) (b.hedge_rows_perm ε order) ?_ ?_ ?_ ?_
    · intro y hy
      rw [hfkeys]
      exact List.mem_map_of_mem hy
    · intro x hx
      rw [← hfkeys]
      exact .inl (List.mem_map_of_mem hx)
    · intro s o ho
      rcases order.side.eq_or_opposite s with rfl | rfl
      · rw [b.hedge_queue_side] at ho
        exact .inr ho
      · rw [b.hedge_queue_opposite] at ho
        exact .inl (List.mem_append_right _ ho)
    · refine queues_update order.side hR.queues ?_ ?_ ?_
      · rw [b.hedge_queue_opposite]
        exact (Function.update_self ..).trans hqueue
      · rw [b.hedge_queue_side, ← hR.queues]
        refine Function.update_of_ne (fun he => ?_) ..
        exact order.side.opposite_ne (congrArg Prod.snd he).symm
      · intro t s ht
        exact Function.update_of_ne (fun he => ht (congrArg Prod.fst he)) ..

/-- Engine and book side by side, when `before` was hedged before the engine was built. The engine's
    own results follow those, and the book has all of them. -/
def Tracks (ε : ℚ) (base : ℤ → Option MarginOrder) (before : List HedgeResult)
    (s : MatchEngine × List HedgeResult) (t : Book × List HedgeResult) : Prop :=
  Refines ε base s.1 t.1 ∧ t.2 = before ++ s.2

theorem Tracks.applyMargin [Rounding] {before : List HedgeResult}
    {s : MatchEngine × List HedgeResult} {t : Book × List HedgeResult}
    (h : Tracks ε base before s t) {order : MarginOrder}
    (hfresh : ∀ o, t.1.Holds o → o.fkey ≠ order.fkey) :
    Alike (Tracks ε base before) (MatchEngine.applyEvent s (.margin order))
      (Book.applyEvent ε t (.margin order.core)) := by
  obtain ⟨href, hhedges⟩ := h
  show Alike _ ((s.1.applyMargin order).map (·, s.2))
    ((if order.openFillAmount ≤ ε then
        Except.error s!"Margin order {order.fkey} has no real fill"
      else .ok ((t.1 order.symbol).margin ε order.core, t.2)).map
        fun r => (Function.update t.1 order.symbol r.1, r.2))
  by_cases hfill : order.openFillAmount ≤ ε
  · have hengine : s.1.applyMargin order
        = .error s!"Margin order {order.fkey} has no real fill" := by
      unfold MatchEngine.applyMargin
      rw [href.epsilon, if_pos hfill]
    rw [hengine, if_pos hfill]
    exact .error _
  · obtain ⟨e', hengine, href'⟩ := href.applyMargin hfresh (not_le.mp hfill)
    rw [hengine, if_neg hfill]
    exact .ok ⟨href', hhedges⟩

theorem Tracks.applyFutures [Rounding] {before : List HedgeResult}
    {s : MatchEngine × List HedgeResult} {t : Book × List HedgeResult}
    (h : Tracks ε base before s t) (order : FuturesOrder) :
    Alike (Tracks ε base before) (MatchEngine.applyEvent s (.futures order))
      (Book.applyEvent ε t (.futures order)) := by
  obtain ⟨href, hhedges⟩ := h
  show Alike _ ((s.1.applyFutures order).map fun r => (r.1, s.2 ++ [r.2]))
    ((if order.amount < -ε then
        Except.error s!"Futures order {order.clientOrderId} has invalid fill amount"
      else if ε < order.amount ∧ order.fillTsUs = none then
        .error s!"filled Futures order {order.clientOrderId} has no actual fill timestamp"
      else .ok ((t.1 order.symbol).hedge ε order,
        t.2 ++ [(t.1 order.symbol).hedgeResult ε order])).map
        fun r => (Function.update t.1 order.symbol r.1, r.2))
  by_cases hamount : order.amount < -ε
  · have hengine : s.1.applyFutures order
        = .error s!"Futures order {order.clientOrderId} has invalid fill amount" := by
      unfold MatchEngine.applyFutures
      rw [href.epsilon, if_pos hamount]
    rw [hengine, if_pos hamount]
    exact .error _
  · by_cases hfill : ε < order.amount ∧ order.fillTsUs = none
    · have hengine : s.1.applyFutures order
          = .error s!"filled Futures order {order.clientOrderId} has no actual fill timestamp" := by
        unfold MatchEngine.applyFutures
        rw [href.epsilon, if_neg hamount, if_pos hfill]
      rw [hengine, if_neg hamount, if_pos hfill]
      exact .error _
    · obtain ⟨e', hengine, href'⟩ := href.applyFutures hamount hfill
      rw [hengine, if_neg hamount, if_neg hfill]
      refine .ok ⟨href', ?_⟩
      show t.2 ++ _ = before ++ (s.2 ++ _)
      rw [hhedges, List.append_assoc]

/-- **One event.** If its key is free, engine and book refuse it with the same error or accept it
    with the same hedge result. -/
theorem Tracks.applyEvent [Rounding] {before : List HedgeResult}
    {s : MatchEngine × List HedgeResult} {t : Book × List HedgeResult}
    (h : Tracks ε base before s t) {event : MatchEvent}
    (hfresh : ∀ y, event = .margin y → ∀ o, t.1.Holds o → o.fkey ≠ y.fkey) :
    Alike (Tracks ε base before) (MatchEngine.applyEvent s event)
      (Book.applyEvent ε t event.core) := by
  cases event with
  | margin order => exact h.applyMargin (hfresh order rfl)
  | futures order => exact h.applyFutures order

end

end CryptoNav.Matching
