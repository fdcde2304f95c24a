import CryptoNav.Lib.Balance
import CryptoNav.Live.Cycle
import CryptoNav.Live.Symbols

/-!
# The symbols of an FR or intra strategy

Which symbols such a strategy trades is in lists that it keeps online. A cycle asks for the symbols of
the lists and for those of which there are recent rows; where one of the two cannot be loaded it makes
do with the other. But the watermark is that of all symbols, and it is raised to the end of the run
whatever the run has asked for. So a listed symbol that is missing from one cycle's list, or is in it
under a name that is not its own, loses the fills that this cycle would have had to fetch
(`discovery_misses_fills`). Otherwise nothing is missed, and only then (`fills_scanned_iff`).

The client program that reads the online lists is left out, with everything that may go wrong in
it: a list is loaded or it is not. Lists are what they are at the moment of the cycle, and a
symbol that is listed only between two cycles is no listed symbol. CTA strategies, which ask
somebody else, are in `Backfill`.
-/

set_option autoImplicit false

namespace CryptoNav.Live

open CryptoNav.Lib CryptoNav.History

/-- A cycle: how long after the last one it comes, and what it meets. -/
structure OnlineCycle where
  delay : ℕ := 0
  /-- Whether the recent symbols can be loaded. -/
  recentLoads : Bool := true
  /-- Whether Redis answers. -/
  listsLoad : Bool := true
  sync : Attempt := {}
  bootstrap : Attempt := {}

def recentTradeSymbolLookbackMs : ℤ := 24 * 60 * 60 * 1000

/-- `load_recent_trade_symbols` -/
def recentTradeSymbols (s : State) : List String :=
  mergeTradeSymbols ((s.trades.filter fun fill =>
    saturatingSub s.clock recentTradeSymbolLookbackMs ≤ fill.timeMs).map Fill.stored) []

/-- The online lists at each time, of every key its list if it has one. -/
abbrev OnlineLists := ℤ → List (Option (List String))

section

variable (strategy : Strategy) (fills : List Fill) (lists : OnlineLists)

/-- The list of `--symbol` of a cycle's trades sync. -/
def onlineSymbols (s : State) (c : OnlineCycle) : List String :=
  mergeTradeSymbols (if c.listsLoad then parseRedisMget (lists s.clock) else [])
    (if c.recentLoads then recentTradeSymbols s else [])

/-- A cycle of `sync_strategy`, as far as the trades are concerned. -/
def onlineSync (s : State) (c : OnlineCycle) : State :=
  let s := s.wait c.delay
  let symbols := onlineSymbols lists s c
  if symbols.isEmpty then s
  else runIncrementalOrBootstrap strategy fills s symbols c.sync c.bootstrap

/-! ## What is not missed -/

/-- `named` says which symbol, under its stored name, a text in the lists means. -/
def ListedAt (named : String → String) (time : ℤ) (symbol : String) : Prop :=
  ∃ text ∈ ((lists time).filterMap id).flatten, named text = symbol

instance (named : String → String) (time : ℤ) (symbol : String) :
    Decidable (ListedAt lists named time symbol) := inferInstanceAs (Decidable (∃ text ∈ _, _))

/-- The symbol is in the lists at some cycle of a run. -/
def Listed (named : String → String) (s : State) (cycles : List OnlineCycle) (symbol : String) :
    Prop :=
  ∃ entry ∈ steps (onlineSync strategy fills lists) s cycles,
    ListedAt lists named (entry.1.clock + entry.2.delay) symbol

/-- All fills of the symbols in `listed` up to the watermark have been asked for, under the name that
    is stored. -/
def FillsScanned (listed : String → Prop) (s : State) : Prop :=
  ∀ E ∈ s.progress.watermark, ∀ fill ∈ fills, listed fill.stored → fill.timeMs ≤ E →
    ∃ run ∈ s.runs, fill.stored ∈ run.symbols ∧ run.startMs ≤ fill.timeMs ∧ fill.timeMs ≤ run.endMs

/-- The trades sync of the cycle goes through. A cycle with no symbols to ask for does not run a
    sync at all. -/
def Goes (s : State) (c : OnlineCycle) : Prop :=
  onlineSymbols lists s c ≠ [] ∧ syncFails s c.sync c.bootstrap = false ∧ strategy.stMs ≤ s.clock

/-- If the trades sync goes through, every fill of a symbol in `listed` after the watermark is one that
    it asks for: its symbol is in the list under the name that is stored, and the fill does not lie
    before the start. -/
def AsksForNewFills (listed : String → Prop) (s : State) (c : OnlineCycle) : Prop :=
  Goes strategy lists (s.wait c.delay) c → ∀ fill ∈ fills, listed fill.stored →
    fill.timeMs ≤ syncTime (s.wait c.delay) c.sync → (∀ W ∈ s.progress.watermark, W < fill.timeMs) →
    fill.stored ∈ onlineSymbols lists (s.wait c.delay) c ∧
      syncStart strategy (s.wait c.delay) ≤ fill.timeMs

instance (s : State) (c : OnlineCycle) : Decidable (Goes strategy lists s c) :=
  inferInstanceAs (Decidable (_ ∧ _ ∧ _))

instance (named : String → String) (s : State) (cycles : List OnlineCycle) :
    DecidablePred (Listed strategy fills lists named s cycles) := fun symbol =>
  inferInstanceAs (Decidable (∃ entry ∈ _, ListedAt lists named _ symbol))

instance (listed : String → Prop) [DecidablePred listed] (s : State) :
    Decidable (FillsScanned fills listed s) :=
  inferInstanceAs (Decidable (∀ E ∈ s.progress.watermark, ∀ fill ∈ fills, _))

instance (listed : String → Prop) [DecidablePred listed] (s : State) (c : OnlineCycle) :
    Decidable (AsksForNewFills strategy fills lists listed s c) :=
  inferInstanceAs (Decidable (Goes strategy lists (s.wait c.delay) c → ∀ fill ∈ fills, _))

end

section

variable {strategy : Strategy} {fills : List Fill} {lists : OnlineLists}

/-- A name that the normalizer makes is asked for. -/
theorem normalizeOnlineSymbol_requested {value symbol : String}
    (hsymbol : normalizeOnlineSymbol value = some symbol) : normalizeSymbol symbol ≠ "" := by
  have hunspaced : ∀ c : Char, c.isAlphanum = true → c.isWhitespace = false := by
    intro c hc
    cases hspace : c.isWhitespace with
    | false => rfl
    | true =>
      simp only [Char.isWhitespace, Bool.or_eq_true, decide_eq_true_eq] at hspace
      rcases hspace with ((rfl | rfl) | rfl) | rfl <;> cases hc
  obtain ⟨asset, halnum, rfl⟩ := normalizeOnlineSymbol_eq_some hsymbol
  have husdt : ∀ c ∈ usdt, c.isWhitespace = false := by simp [usdt]
  rw [normalizeSymbol, String.toList_ofList, trim_unspaced]
  · intro hempty
    have hnil := String.ofList_injective (hempty.trans String.ofList_nil.symm)
    simp [usdt] at hnil
  · intro c hc
    rcases List.mem_append.mp hc with hasset | hsuffix
    · exact hunspaced c (halnum c hasset)
    · exact husdt c hsuffix

theorem onlineSymbols_requested (s : State) (c : OnlineCycle)
    (hany : onlineSymbols lists s c ≠ []) : requestedSymbols (onlineSymbols lists s c) ≠ [] := by
  obtain ⟨symbol, hsymbol⟩ := List.exists_mem_of_ne_nil _ hany
  have hmem := hsymbol
  unfold onlineSymbols mergeTradeSymbols at hmem
  rw [mem_sortedSet] at hmem
  obtain ⟨value, _, hvalue⟩ := List.mem_filterMap.mp hmem
  have hne := normalizeOnlineSymbol_requested hvalue
  refine List.ne_nil_of_mem (a := normalizeSymbol symbol) (List.mem_filter.mpr
    ⟨List.mem_map.mpr ⟨symbol, hsymbol, rfl⟩, decide_eq_true hne⟩)

/-- The runs end at or before the watermark. -/
def EndsBelow (s : State) : Prop := ∀ run ∈ s.runs, ∃ E ∈ s.progress.watermark, run.endMs ≤ E

/-- What a cycle does: its trades sync goes through, or nothing happens. -/
theorem onlineSync_cases (h : UsesOnlineSymbols strategy) (fills : List Fill) (lists : OnlineLists)
    (s : State) (c : OnlineCycle) :
    (¬Goes strategy lists (s.wait c.delay) c ∧
      Idle (s.wait c.delay) (onlineSync strategy fills lists s c)) ∨
    (Goes strategy lists (s.wait c.delay) c ∧ Synced strategy fills (s.wait c.delay)
      (onlineSymbols lists (s.wait c.delay) c) c.sync (onlineSync strategy fills lists s c)) := by
  unfold onlineSync
  by_cases hany : onlineSymbols lists (s.wait c.delay) c = []
  · dsimp only
    rw [hany, List.isEmpty_nil, if_pos rfl]
    exact .inl ⟨fun hgoes => hgoes.1 hany, ⟨le_rfl, rfl, rfl, rfl⟩⟩
  · dsimp only
    rw [if_neg (mt List.isEmpty_iff.mp hany)]
    rcases runIncrementalOrBootstrap_cases h (onlineSymbols_requested _ c hany) (s.wait c.delay)
      c.sync c.bootstrap with ⟨hfails, hidle⟩ | ⟨hgoes, hst, hsynced⟩
    · refine .inl ⟨fun ⟨_, hgoes, hst⟩ => ?_, hidle⟩
      rcases hfails with hfails | hearly
      · rw [hgoes] at hfails
        cases hfails
      · exact absurd hst (not_le.mpr hearly)
    · exact .inr ⟨⟨hany, hgoes, hst⟩, hsynced⟩

/-- **The step lemma.** Where all is scanned so far, a cycle keeps it so just when it asks for what is
    new. -/
theorem onlineSync_iff (h : UsesOnlineSymbols strategy) {listed : String → Prop} {s : State}
    (hs : FillsScanned fills listed s ∧ EndsBelow s) (c : OnlineCycle) :
    (FillsScanned fills listed (onlineSync strategy fills lists s c) ↔
      AsksForNewFills strategy fills lists listed s c) ∧
    EndsBelow (onlineSync strategy fills lists s c) := by
  obtain ⟨hscanned, hends⟩ := hs
  rcases onlineSync_cases h fills lists s c with ⟨hnot, hidle⟩ | ⟨hgoes, hsynced⟩
  · refine ⟨⟨fun _ hgoes => absurd hgoes hnot, fun _ => ?_⟩, ?_⟩
    · unfold FillsScanned
      rw [hidle.watermark, hidle.runs]
      exact hscanned
    · unfold EndsBelow
      rw [hidle.watermark, hidle.runs]
      exact hends
  · have hwatermark := hsynced.watermark
    have hruns := hsynced.runs
    refine ⟨⟨fun hall _ fill hfill hlisted hhi hnew => ?_, fun hasks => ?_⟩, ?_⟩
    · -- Earlier runs end at or before the watermark, so the fill is one of this run.
      obtain ⟨run, hrun, hname, hlo, hend⟩ := hall _ hwatermark fill hfill hlisted hhi
      rw [hruns] at hrun
      rcases List.mem_append.mp hrun with hold | hthis
      · obtain ⟨W, hW, hle⟩ := hends run hold
        have hafter := hnew W hW
        omega
      · cases List.mem_singleton.mp hthis
        exact ⟨hname, hlo⟩
    · intro E hE fill hfill hlisted hle
      rw [hwatermark] at hE
      cases hE
      rw [hruns]
      by_cases hnew : ∀ W ∈ s.progress.watermark, W < fill.timeMs
      · obtain ⟨hname, hlo⟩ := hasks hgoes fill hfill hlisted hle hnew
        exact ⟨_, List.mem_append_right _ (List.mem_singleton.mpr rfl), hname, hlo, hle⟩
      · obtain ⟨W, hW, hbefore⟩ : ∃ W ∈ s.progress.watermark, fill.timeMs ≤ W := by
          by_contra hnone
          exact hnew fun W hW => not_le.mp fun hle => hnone ⟨W, hW, hle⟩
        obtain ⟨run, hrun, hrest⟩ := hscanned W hW fill hfill hlisted hbefore
        exact ⟨run, List.mem_append_left _ hrun, hrest⟩
    · intro run hrun
      rw [hruns] at hrun
      refine ⟨_, hwatermark, ?_⟩
      rcases List.mem_append.mp hrun with hold | hthis
      · obtain ⟨W, hW, hle⟩ := hends run hold
        have hlate : W ≤ s.clock := s.watermark_le W hW
        have htime : s.clock ≤ syncTime (s.wait c.delay) c.sync := by
          unfold syncTime
          split <;> simp only [State.wait_clock] <;> omega
        omega
      · cases List.mem_singleton.mp hthis
        exact le_rfl

/-- **No fill is missed** after any cycle of a run just when every cycle asks for what is new. A
    fill that one cycle misses is behind the watermark afterwards, so no later cycle makes up for
    it. -/
theorem fills_scanned_iff (h : UsesOnlineSymbols strategy) (named : String → String) {s : State}
    (hfresh : s.progress.watermark = none ∧ s.runs = []) (cycles : List OnlineCycle) :
    (∀ entry ∈ steps (onlineSync strategy fills lists) s cycles,
      FillsScanned fills (Listed strategy fills lists named s cycles)
        (onlineSync strategy fills lists entry.1 entry.2)) ↔
    ∀ entry ∈ steps (onlineSync strategy fills lists) s cycles,
      AsksForNewFills strategy fills lists (Listed strategy fills lists named s cycles) entry.1
        entry.2 := by
  generalize Listed strategy fills lists named s cycles = listed
  refine steps_iff (Q := fun s => FillsScanned fills listed s ∧ EndsBelow s)
    (fun c _ s hs => (onlineSync_iff h hs c).1)
    (fun c _ s hs hgood => ⟨hgood, (onlineSync_iff h hs c).2⟩) ⟨fun E hE => ?_, fun run hrun => ?_⟩
  · rw [hfresh.1] at hE
    cases hE
  · rw [hfresh.2] at hrun
    cases hrun

end

/-! ## Fills that are missed -/

def frStrategy : Strategy where
  exchange := "binance"
  accountMode := "portfolio_margin"
  strategyKind := "funding_rate"
  class' := .fr
  stMs := 1000

theorem frStrategy_usesOnlineSymbols : UsesOnlineSymbols frStrategy := ⟨rfl, by decide, by decide⟩

def startState : State where
  clock := 9000000
  watermark_le := fun E hE => by cases hE
  trades_le := fun fill hfill => by cases hfill

def marginFill (symbol : String) (timeMs : ℤ)
    (unspaced : ∀ c ∈ symbol.toList, c.isWhitespace = false) : Fill :=
  { symbol, leg := .spot, timeMs, unspaced }

/-- ETH is listed from 9100000 on. -/
def growingLists : OnlineLists := fun time =>
  [some ["BTCUSDT"], none, if 9100000 ≤ time then some ["ETHUSDT"] else none]

theorem btc_unspaced : ∀ c ∈ "BTCUSDT".toList, c.isWhitespace = false := by simp

theorem eth_unspaced : ∀ c ∈ "ETHUSDT".toList, c.isWhitespace = false := by simp

def growingFills : List Fill :=
  [marginFill "BTCUSDT" 4000000 btc_unspaced, marginFill "ETHUSDT" 9200000 eth_unspaced]

/-- Redis does not answer in three cycles on end. -/
def deafCycles : List OnlineCycle :=
  [{}, { delay := 900000, listsLoad := false }, { delay := 900000, listsLoad := false },
    { delay := 900000, listsLoad := false }, { delay := 900000 }]

def cjkLists : OnlineLists := fun _ => [some ["牛来USDT"]]

def cjkFills : List Fill := [marginFill "牛来USDT" 4000000 (by simp)]

/-- A fill happens only while its symbol is in the lists. It is an assumption about the strategy,
    which trades what its lists name. -/
def OnlyWhileListed (fills : List Fill) (lists : OnlineLists) (named : String → String) : Prop :=
  ∀ fill ∈ fills, ListedAt lists named fill.timeMs fill.stored

instance (fills : List Fill) (lists : OnlineLists) (named : String → String) :
    Decidable (OnlyWhileListed fills lists named) := inferInstanceAs (Decidable (∀ fill ∈ fills, _))

/-- Cycles that go by without the lists raise the watermark past the fills of a new symbol by more
    than the overlap; and a name that the normalizer mangles is never asked for. -/
theorem discovery_misses_fills :
    (OnlyWhileListed growingFills growingLists id ∧
      ¬FillsScanned growingFills (Listed frStrategy growingFills growingLists id startState deafCycles)
        (deafCycles.foldl (onlineSync frStrategy growingFills growingLists) startState)) ∧
    (OnlyWhileListed cjkFills cjkLists id ∧
      ¬FillsScanned cjkFills (Listed frStrategy cjkFills cjkLists id startState [{}])
        ([({} : OnlineCycle)].foldl (onlineSync frStrategy cjkFills cjkLists) startState)) := by
  decide +kernel

/-- Redis always answers. -/
def hearingCycles : List OnlineCycle := [{}, { delay := 900000 }, { delay := 900000, recentLoads := false }]

theorem fills_scanned_hearing :
    hearingCycles ≠ [] ∧
      ∀ entry ∈ steps (onlineSync frStrategy growingFills growingLists) startState hearingCycles,
        FillsScanned growingFills
          (Listed frStrategy growingFills growingLists id startState hearingCycles)
          (onlineSync frStrategy growingFills growingLists entry.1 entry.2) :=
  ⟨List.cons_ne_nil _ _,
    (fills_scanned_iff frStrategy_usesOnlineSymbols id ⟨rfl, rfl⟩ hearingCycles).mpr
      (by decide +kernel)⟩

end CryptoNav.Live
