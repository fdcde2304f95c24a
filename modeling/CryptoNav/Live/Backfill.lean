import CryptoNav.Lib.Balance
import CryptoNav.Live.Cycle
import CryptoNav.Live.Symbols

/-!
# The symbols of a CTA strategy

The CTA Manager knows the symbols of a strategy and the time of the first fill of each. A symbol that
it reports and of which no row is stored is new: it is backfilled from a little before its first fill,
by a run of its own that leaves the watermark alone. But the trades sync of the same cycle asks for
all symbols the Manager has reported, new ones included, and a row that it stores makes the symbol an
old one. If the backfill has failed, or has not been tried because the stored symbols could not be
loaded, it is never tried again (`early_rows_lose_symbol`). Where that does not happen no symbol is
lost (`symbols_kept`).

The process that asks the Manager is left out; its list of symbols with the times of their first
fills is an input of the cycle, and may be missing. Rows are never deleted. Whether the Manager
reports a symbol before its first fill is stored by anything else is the condition of the
theorem, and there is nothing in the code that could enforce it.
-/

set_option autoImplicit false

namespace CryptoNav.Live

open CryptoNav.Lib CryptoNav.History

structure CtaManagerSymbol where
  symbol : String
  firstFillTsUs : Option ℤ

/-- A cycle: how long after the last one it comes, and what it meets. -/
structure CtaCycle where
  delay : ℕ := 0
  /-- Whether the stored symbols can be loaded. -/
  storedLoads : Bool := true
  /-- What the Manager answers, if it does, and how the backfill of each symbol would go. -/
  manager : Option (List (CtaManagerSymbol × Attempt)) := none
  sync : Attempt := {}
  bootstrap : Attempt := {}

namespace CtaCycle

def entries (c : CtaCycle) : List (CtaManagerSymbol × Attempt) := c.manager.getD []

def online (c : CtaCycle) : List String := c.entries.map fun entry => entry.1.symbol

/-- The symbols that the Manager reports. -/
def reported (c : CtaCycle) : List String := (c.online.map trimmed).filter (· ≠ "")

end CtaCycle

/-- The state, and the symbols that the Manager has reported so far. -/
structure Cta where
  base : State
  reported : List String := []

/-- A strategy before its first cycle. -/
def Cta.start (clock : ℤ) : Cta where
  base := {
    clock
    watermark_le := fun E hE => by cases hE
    trades_le := fun fill hfill => by cases hfill }

def ctaBackfillLookbackMs : ℤ := 15 * 60 * 1000

section

variable (strategy : Strategy) (fills : List Fill)

def backfillStartMs (firstFillTsUs : Option ℤ) : Option ℤ :=
  (firstFillTsUs.filter (0 < ·)).map fun tsUs =>
    max (saturatingSub (tsUs / 1000) ctaBackfillLookbackMs) strategy.stMs

/-- From where on a symbol is to be scanned. -/
def backfillStart (firstFillTsUs : Option ℤ) : ℤ :=
  (backfillStartMs strategy firstFillTsUs).getD strategy.stMs

def backfillRequest (symbol : String) (firstFillTsUs : Option ℤ) : Request where
  symbol := [symbol]
  noAdvanceWatermark := true
  startMs := backfillStartMs strategy firstFillTsUs
  full := (backfillStartMs strategy firstFillTsUs).isNone

/-- Whether a symbol that the Manager reports is backfilled. -/
def needsBackfill (stored : List String) (symbol : String) : Bool :=
  !stored.isEmpty && decide (symbol ≠ "") && !stored.contains symbol

def runCtaSymbolBackfill (s : State) (symbol : String) (firstFillTsUs : Option ℤ)
    (attempt : Attempt) : State :=
  match runSyncHistory strategy fills s (backfillRequest strategy symbol firstFillTsUs) attempt with
  | .ok t => t.wait attempt.elapsed
  | .error _ => s.wait attempt.elapsed

def backfillCtaSymbol (stored : List String) (s : State) (entry : CtaManagerSymbol × Attempt) :
    State :=
  if needsBackfill stored (trimmed entry.1.symbol) then
    runCtaSymbolBackfill strategy fills s (trimmed entry.1.symbol) entry.1.firstFillTsUs entry.2
  else s

def loadedSymbols (s : State) (c : CtaCycle) : List String :=
  if c.storedLoads then s.storedSymbols else []

/-- The state when the trades sync begins. -/
def beforeSync (s : State) (c : CtaCycle) : State :=
  let s := s.wait c.delay
  c.entries.foldl (backfillCtaSymbol strategy fills (loadedSymbols s c)) s

/-- A cycle of `sync_strategy`, as far as the trades are concerned. -/
def ctaSync (s : Cta) (c : CtaCycle) : Cta :=
  let symbols := mergeCtaSymbols c.online (loadedSymbols s.base c)
  let base := beforeSync strategy fills s.base c
  { base :=
      if symbols.isEmpty then base
      else runIncrementalOrBootstrap strategy fills base symbols c.sync c.bootstrap
    reported := s.reported ++ c.reported }

/-! ## What is not lost -/

variable (firstFill : String → Option ℤ)

/-- What is assumed of the Manager: it names contracts, its list only grows, and it has one first fill
    for each symbol. -/
def ManagerKeeps (s : Cta) (c : CtaCycle) : Prop :=
  (∀ entry ∈ c.entries, trimmed entry.1.symbol ≠ "" →
    normalizeSymbol (trimmed entry.1.symbol) = trimmed entry.1.symbol) ∧
  (∀ entry ∈ c.entries, entry.1.firstFillTsUs = firstFill (trimmed entry.1.symbol)) ∧
  (c.manager.isSome → ∀ symbol ∈ s.reported, symbol ∈ c.reported)

instance (s : Cta) (c : CtaCycle) : Decidable (ManagerKeeps firstFill s c) :=
  inferInstanceAs (Decidable (_ ∧ _))

/-- A successful run has asked for the symbol over a range that `m` is in. -/
def AskedAt (s : State) (symbol : String) (m : ℤ) : Prop :=
  ∃ run ∈ s.runs, symbol ∈ run.symbols ∧ run.startMs ≤ m ∧ m ≤ run.endMs

/-- Scanned from `startMs` to the watermark. Without a watermark nothing is asked for yet, so
    nothing is missing. -/
def Covered (s : State) (symbol : String) (startMs : ℤ) : Prop :=
  ∀ E ∈ s.progress.watermark, ∀ m, startMs ≤ m → m ≤ E → AskedAt s symbol m

/-- Every symbol reported so far is scanned from its start on, or will be backfilled. -/
def NoneLost (s : Cta) : Prop :=
  ∀ symbol ∈ s.reported, Covered s.base symbol (backfillStart strategy (firstFill symbol)) ∨
    needsBackfill s.base.storedSymbols symbol

/-- The backfill of a symbol is run in the cycle, and does not fail. -/
def Backfills (s : Cta) (c : CtaCycle) (symbol : String) : Prop :=
  needsBackfill (loadedSymbols s.base c) symbol ∧
    ∃ entry ∈ c.entries, trimmed entry.1.symbol = symbol ∧ entry.2.failed = false

/-- The trades sync starts at or before the symbol's start. Then it scans all that a backfill would
    have scanned. -/
def Reaches (s : Cta) (c : CtaCycle) (symbol : String) : Prop :=
  syncFails (beforeSync strategy fills s.base c) c.sync c.bootstrap = false ∧
    syncStart strategy (beforeSync strategy fills s.base c) ≤
      backfillStart strategy (firstFill symbol)

/-- The trades sync of the cycle brings back fills of the symbol. From then on the symbol has stored
    rows and is no new one. -/
def Brings (s : Cta) (c : CtaCycle) (symbol : String) : Prop :=
  syncFails (beforeSync strategy fills s.base c) c.sync c.bootstrap = false ∧
    ∃ fill ∈ fills, fill.stored = symbol ∧
      (fill.leg = .derivative ∨ strategy.includeSpotTrades false = true) ∧
      syncStart strategy (beforeSync strategy fills s.base c) ≤ fill.timeMs ∧
      fill.timeMs ≤ syncTime (beforeSync strategy fills s.base c) c.sync

/-- Of a symbol that is not stored yet, the trades sync brings back fills only if its backfill has
    gone through in the same cycle or the sync itself reaches back to its start; and as long as
    nothing at all is stored, the sync reaches back to the start of every symbol that is new. -/
def Backfilled (s : Cta) (c : CtaCycle) : Prop :=
  (∀ symbol ∈ c.reported, symbol ∉ s.base.storedSymbols → Brings strategy fills s c symbol →
    Backfills s c symbol ∨ Reaches strategy fills firstFill s c symbol) ∧
  (s.base.progress.watermark.isSome → s.base.trades = [] → ∀ symbol ∈ c.reported,
    symbol ∉ s.reported → Reaches strategy fills firstFill s c symbol)

instance (s : Cta) (c : CtaCycle) (symbol : String) : Decidable (Backfills s c symbol) :=
  inferInstanceAs (Decidable (_ ∧ _))

instance (s : Cta) (c : CtaCycle) (symbol : String) :
    Decidable (Reaches strategy fills firstFill s c symbol) := inferInstanceAs (Decidable (_ ∧ _))

instance (s : Cta) (c : CtaCycle) (symbol : String) : Decidable (Brings strategy fills s c symbol) :=
  inferInstanceAs (Decidable (_ ∧ _))

instance (s : Cta) (c : CtaCycle) : Decidable (Backfilled strategy fills firstFill s c) :=
  have : Decidable (s.base.trades = []) := decidable_of_iff _ List.isEmpty_iff
  inferInstanceAs (Decidable (_ ∧ _))

end

/-! ## The backfills -/

theorem Fill.canonical (fill : Fill) : Canonical fill.stored := canonical_normalizeSymbol fill.unspaced

theorem needsBackfill_iff {stored : List String} {symbol : String} :
    needsBackfill stored symbol = true ↔ stored ≠ [] ∧ symbol ≠ "" ∧ symbol ∉ stored := by
  unfold needsBackfill
  simp only [Bool.and_eq_true, Bool.not_eq_true', List.isEmpty_eq_false_iff, decide_eq_true_eq,
    List.contains_eq_mem, decide_eq_false_iff_not, and_assoc]

/-- Nothing is lost on the way from `s` to `t`, and the watermark stays. Rows and scans are only
    ever added. -/
structure Later (s t : State) : Prop where
  clock : s.clock ≤ t.clock
  watermark : t.progress.watermark = s.progress.watermark
  runs : ∀ run ∈ s.runs, run ∈ t.runs
  trades : ∀ fill ∈ s.trades, fill ∈ t.trades

theorem Later.refl (s : State) : Later s s := ⟨le_rfl, rfl, fun _ h => h, fun _ h => h⟩

theorem Later.trans {s t u : State} (h : Later s t) (h' : Later t u) : Later s u :=
  ⟨h.clock.trans h'.clock, h'.watermark.trans h.watermark, fun run hrun => h'.runs run (h.runs run hrun),
    fun fill hfill => h'.trades fill (h.trades fill hfill)⟩

theorem Idle.later {s t : State} (h : Idle s t) : Later s t :=
  ⟨h.clock, h.watermark, fun _ hrun => h.runs ▸ hrun, fun _ hfill => h.trades ▸ hfill⟩

theorem later_wait (s : State) (ms : ℕ) : Later s (s.wait ms) :=
  ⟨le_add_of_nonneg_right (Int.natCast_nonneg ms), rfl, fun _ h => h, fun _ h => h⟩

theorem AskedAt.later {s t : State} (h : Later s t) {symbol : String} {m : ℤ}
    (hasked : AskedAt s symbol m) : AskedAt t symbol m := by
  obtain ⟨run, hrun, hrest⟩ := hasked
  exact ⟨run, h.runs run hrun, hrest⟩

theorem Covered.later {s t : State} (h : Later s t) {symbol : String} {startMs : ℤ}
    (hcovered : Covered s symbol startMs) : Covered t symbol startMs := by
  intro E hE m hlo hhi
  rw [h.watermark] at hE
  exact (hcovered E hE m hlo hhi).later h

section

variable {strategy : Strategy} {fills : List Fill}

theorem backfillStart_le (strategy : Strategy) (firstFillTsUs : Option ℤ) :
    strategy.stMs ≤ backfillStart strategy firstFillTsUs := by
  unfold backfillStart backfillStartMs
  cases firstFillTsUs.filter (0 < ·) with
  | none => exact le_rfl
  | some tsUs => exact le_max_right _ _

theorem requestStart_backfill (s : State) (symbol : String) (firstFillTsUs : Option ℤ) :
    requestStart strategy s (backfillRequest strategy symbol firstFillTsUs) =
      .ok (backfillStart strategy firstFillTsUs) := by
  unfold requestStart scanStart backfillRequest backfillStart
  cases backfillStartMs strategy firstFillTsUs <;> rfl

theorem Ran.later {s t : State} {request : Request} {startMs : ℤ}
    (hran : Ran strategy fills s request startMs t) (hno : request.noAdvanceWatermark = true) :
    Later s t := by
  obtain ⟨attempt, htrades⟩ := hran.trades
  refine ⟨hran.clock.ge, ?_, fun run hrun => ?_, fun fill hfill => ?_⟩
  · rw [hran.watermark, if_pos hno]
  · rw [hran.runs]
    exact List.mem_append_left _ hrun
  · rw [htrades]
    exact List.mem_append_left _ hfill

theorem askedSymbols_backfill (s : State) {symbol : String} (hne : symbol ≠ "")
    (hname : normalizeSymbol symbol = symbol) (firstFillTsUs : Option ℤ) :
    askedSymbols s (backfillRequest strategy symbol firstFillTsUs) = [symbol] := by
  have hrequested : requestedSymbols [symbol] = [symbol] := by
    rw [requestedSymbols, List.map_singleton, hname]
    exact List.filter_cons_of_pos (by simpa using hne)
  unfold askedSymbols backfillRequest
  rw [hrequested]
  rfl

/-- A backfill that does not fail has scanned all there is so far from its start on: where it is
    refused the start lies in the future. -/
theorem runCtaSymbolBackfill_asked (h : UsesOnlineSymbols strategy) (fills : List Fill) (s : State)
    {symbol : String} (hne : symbol ≠ "") (hname : normalizeSymbol symbol = symbol) (firstFillTsUs : Option ℤ)
    {attempt : Attempt} (hfailed : attempt.failed = false) {m : ℤ}
    (hlo : backfillStart strategy firstFillTsUs ≤ m) (hhi : m ≤ s.clock) :
    AskedAt (runCtaSymbolBackfill strategy fills s symbol firstFillTsUs attempt) symbol m := by
  have hstart := backfillStart_le strategy firstFillTsUs
  have hpasses : Passes strategy s (backfillRequest strategy symbol firstFillTsUs)
      (backfillStart strategy firstFillTsUs) := by
    refine ⟨hstart.trans (hlo.trans hhi), fun v hv => ?_, requestStart_backfill s symbol _,
      h.started.le.trans hstart, hlo.trans hhi, ?_⟩
    · have hv' : backfillStartMs strategy firstFillTsUs = some v := hv
      have hv'' : backfillStart strategy firstFillTsUs = v := by
        rw [backfillStart, hv']
        rfl
      exact ⟨hv'' ▸ hstart, hv'' ▸ hlo.trans hhi⟩
    · rw [askedSymbols_backfill s hne hname]
      exact List.cons_ne_nil _ _
  obtain ⟨t, hok, hran⟩ := runSyncHistory_passes h fills hfailed hpasses
  unfold runCtaSymbolBackfill
  rw [hok]
  refine ⟨{
    startMs := backfillStart strategy firstFillTsUs
    endMs := s.clock
    symbols := [symbol] }, ?_, List.mem_singleton.mpr rfl, hlo, hhi⟩
  change _ ∈ t.runs
  rw [hran.runs]
  exact List.mem_append_right _ (List.mem_singleton.mpr rfl)

theorem runCtaSymbolBackfill_later (h : UsesOnlineSymbols strategy) (fills : List Fill) (s : State)
    {symbol : String} (hne : symbol ≠ "") (hname : normalizeSymbol symbol = symbol) (firstFillTsUs : Option ℤ)
    (attempt : Attempt) :
    Later s (runCtaSymbolBackfill strategy fills s symbol firstFillTsUs attempt) ∧
      ∀ fill ∈ (runCtaSymbolBackfill strategy fills s symbol firstFillTsUs attempt).trades,
        fill ∈ s.trades ∨ attempt.failed = false ∧ fill.stored = symbol := by
  unfold runCtaSymbolBackfill
  cases hrun : runSyncHistory strategy fills s (backfillRequest strategy symbol firstFillTsUs)
      attempt with
  | error error => exact ⟨later_wait s _, fun fill hfill => .inl hfill⟩
  | ok t =>
    obtain ⟨hfailed, startMs, _, ⟨_, rfl⟩ | ⟨_, hran⟩⟩ := runSyncHistory_ok h hrun
    · exact ⟨later_wait t _, fun fill hfill => .inl hfill⟩
    · refine ⟨(hran.later rfl).trans (later_wait t _), fun fill hfill => ?_⟩
      obtain ⟨attempt', htrades⟩ := hran.trades
      replace hfill : fill ∈ t.trades := hfill
      rw [htrades] at hfill
      rcases List.mem_append.mp hfill with hold | hnew
      · exact .inl hold
      · obtain ⟨_, _, _, hmem, _⟩ := fetched_asked rfl fill hnew
        rw [askedSymbols_backfill s hne hname, List.mem_singleton] at hmem
        refine .inr ⟨hfailed, ?_⟩
        rw [Fill.stored, hmem, hname]

/-- The entries name contracts. Other names would be stored under a name that the Manager never
    reports. -/
def NamesContracts (entries : List (CtaManagerSymbol × Attempt)) : Prop :=
  ∀ entry ∈ entries, trimmed entry.1.symbol ≠ "" →
    normalizeSymbol (trimmed entry.1.symbol) = trimmed entry.1.symbol

/-- The backfills of a cycle: what is stored by them is of the symbols that need one, and these have
    been scanned. -/
theorem backfills_spec (h : UsesOnlineSymbols strategy) (fills : List Fill) (stored : List String)
    {entries : List (CtaManagerSymbol × Attempt)} (hnames : NamesContracts entries) (s : State) :
    Later s (entries.foldl (backfillCtaSymbol strategy fills stored) s) ∧
    (∀ fill ∈ (entries.foldl (backfillCtaSymbol strategy fills stored) s).trades, fill ∈ s.trades ∨
      needsBackfill stored fill.stored ∧
        ∃ entry ∈ entries, trimmed entry.1.symbol = fill.stored ∧ entry.2.failed = false) ∧
    ∀ entry ∈ entries, needsBackfill stored (trimmed entry.1.symbol) → entry.2.failed = false →
      ∀ m, backfillStart strategy entry.1.firstFillTsUs ≤ m → m ≤ s.clock →
        AskedAt (entries.foldl (backfillCtaSymbol strategy fills stored) s)
          (trimmed entry.1.symbol) m := by
  induction entries generalizing s with
  | nil =>
    exact ⟨Later.refl s, fun fill hfill => .inl hfill, fun entry hentry => by cases hentry⟩
  | cons entry entries ih =>
    obtain ⟨hfirst, hrest⟩ := List.forall_mem_cons.mp hnames
    rw [List.foldl_cons]
    obtain ⟨hlater, htrades, hasked⟩ := ih hrest (backfillCtaSymbol strategy fills stored s entry)
    by_cases hneeds : needsBackfill stored (trimmed entry.1.symbol)
    · have hne := (needsBackfill_iff.mp hneeds).2.1
      have hstep : backfillCtaSymbol strategy fills stored s entry = runCtaSymbolBackfill strategy
          fills s (trimmed entry.1.symbol) entry.1.firstFillTsUs entry.2 := if_pos hneeds
      obtain ⟨hlater', htrades'⟩ := runCtaSymbolBackfill_later h fills s hne
        (hfirst hne) entry.1.firstFillTsUs entry.2
      rw [← hstep] at hlater' htrades'
      refine ⟨hlater'.trans hlater, fun fill hfill => ?_, ?_⟩
      · rcases htrades fill hfill with hold | ⟨hfill', other, hother, hrest⟩
        · rcases htrades' fill hold with hold | ⟨hfailed, hstored⟩
          · exact .inl hold
          · exact .inr ⟨hstored ▸ hneeds, entry, List.mem_cons_self, hstored.symm, hfailed⟩
        · exact .inr ⟨hfill', other, List.mem_cons_of_mem _ hother, hrest⟩
      · refine List.forall_mem_cons.mpr ⟨fun _ hfailed m hlo hhi => ?_,
          fun other hother hneeds' hfailed m hlo hhi =>
            hasked other hother hneeds' hfailed m hlo (hhi.trans hlater'.clock)⟩
        have hnow := runCtaSymbolBackfill_asked h fills s hne (hfirst hne)
          entry.1.firstFillTsUs hfailed hlo hhi
        rw [← hstep] at hnow
        exact hnow.later hlater
    · have hstep : backfillCtaSymbol strategy fills stored s entry = s := if_neg hneeds
      rw [hstep] at hlater htrades hasked ⊢
      refine ⟨hlater, fun fill hfill => ?_,
        List.forall_mem_cons.mpr ⟨fun hneeds' => absurd hneeds' hneeds, hasked⟩⟩
      rcases htrades fill hfill with hold | ⟨hfill', other, hother, hrest⟩
      · exact .inl hold
      · exact .inr ⟨hfill', other, List.mem_cons_of_mem _ hother, hrest⟩

/-! ## The trades sync -/

theorem mem_symbols_of_reported {c : CtaCycle} {symbol : String} (hsymbol : symbol ∈ c.reported)
    (stored : List String) : symbol ∈ mergeCtaSymbols c.online stored := by
  obtain ⟨hmem, hne⟩ := List.mem_filter.mp hsymbol
  obtain ⟨value, hvalue, rfl⟩ := List.mem_map.mp hmem
  exact mem_mergeCtaSymbols.mpr
    ⟨of_decide_eq_true hne, value, List.mem_append_left _ hvalue, rfl⟩

theorem mem_loadedSymbols {s : State} {c : CtaCycle} {symbol : String} :
    symbol ∈ loadedSymbols s c ↔ c.storedLoads = true ∧ symbol ∈ s.storedSymbols := by
  unfold loadedSymbols
  split <;> rename_i hloads <;> simp [hloads]

/-- What is asked for is reported in this cycle, or stored. -/
theorem mem_symbols {s : State} {c : CtaCycle} {symbol : String} :
    symbol ∈ mergeCtaSymbols c.online (loadedSymbols s c) ↔
      symbol ∈ c.reported ∨ symbol ≠ "" ∧ symbol ∈ loadedSymbols s c := by
  have htrimmed : ∀ value ∈ loadedSymbols s c, trimmed value = value := by
    intro value hvalue
    obtain ⟨fill, _, rfl⟩ := List.mem_map.mp (mem_loadedSymbols.mp hvalue).2
    exact fill.canonical.trimmed
  constructor
  · intro hsymbol
    obtain ⟨hne, value, hvalue, hname⟩ := mem_mergeCtaSymbols.mp hsymbol
    rcases List.mem_append.mp hvalue with honline | hloaded
    · exact .inl (List.mem_filter.mpr
        ⟨List.mem_map.mpr ⟨value, honline, hname⟩, decide_eq_true hne⟩)
    · rw [htrimmed value hloaded] at hname
      exact .inr ⟨hne, hname ▸ hloaded⟩
  · rintro (hreported | ⟨hne, hloaded⟩)
    · exact mem_symbols_of_reported hreported _
    · exact mem_mergeCtaSymbols.mpr
        ⟨hne, symbol, List.mem_append_right _ hloaded, htrimmed symbol hloaded⟩

theorem symbols_normalized {s : State} {c : CtaCycle} (hnames : NamesContracts c.entries) :
    ∀ symbol ∈ mergeCtaSymbols c.online (loadedSymbols s c),
      symbol ≠ "" ∧ normalizeSymbol symbol = symbol := by
  intro symbol hsymbol
  refine ⟨(mem_mergeCtaSymbols.mp hsymbol).1, ?_⟩
  rcases mem_symbols.mp hsymbol with hreported | ⟨_, hloaded⟩
  · obtain ⟨hmem, hne⟩ := List.mem_filter.mp hreported
    obtain ⟨value, hvalue, rfl⟩ := List.mem_map.mp hmem
    obtain ⟨entry, hentry, rfl⟩ := List.mem_map.mp hvalue
    exact hnames entry hentry (of_decide_eq_true hne)
  · obtain ⟨fill, _, rfl⟩ := List.mem_map.mp (mem_loadedSymbols.mp hloaded).2
    exact fill.canonical.normalized

section

variable {s t : State} {symbols : List String} {sync : Attempt}

theorem Synced.asked (hsynced : Synced strategy fills s symbols sync t) {symbol : String}
    (hsymbol : symbol ∈ symbols) {m : ℤ} (hlo : syncStart strategy s ≤ m)
    (hhi : m ≤ syncTime s sync) : AskedAt t symbol m := by
  refine ⟨{
    startMs := syncStart strategy s
    endMs := syncTime s sync
    symbols }, ?_, hsymbol, hlo, hhi⟩
  rw [hsynced.runs]
  exact List.mem_append_right _ (List.mem_singleton.mpr rfl)

theorem Synced.keeps (hsynced : Synced strategy fills s symbols sync t) {symbol : String} {m : ℤ}
    (hasked : AskedAt s symbol m) : AskedAt t symbol m := by
  obtain ⟨run, hrun, hrest⟩ := hasked
  exact ⟨run, hsynced.runs ▸ List.mem_append_left _ hrun, hrest⟩

theorem Synced.covers_from (hsynced : Synced strategy fills s symbols sync t) {symbol : String}
    (hsymbol : symbol ∈ symbols) {startMs : ℤ} (hstart : syncStart strategy s ≤ startMs) :
    Covered t symbol startMs := by
  intro E hE m hlo hhi
  rw [hsynced.watermark] at hE
  cases hE
  exact hsynced.asked hsymbol (hstart.trans hlo) hhi

theorem syncStart_watermark (h : UsesOnlineSymbols strategy) {W : ℤ}
    (hW : s.progress.watermark = some W) : syncStart strategy s ≤ max W strategy.stMs := by
  unfold syncStart State.cursor
  rw [hW]
  exact saturatingSub_le h.started (by decide)

/-- What is scanned to the watermark the sync takes to the new one. -/
theorem Synced.covers (h : UsesOnlineSymbols strategy)
    (hsynced : Synced strategy fills s symbols sync t) {symbol : String} (hsymbol : symbol ∈ symbols)
    {W startMs : ℤ} (hW : s.progress.watermark = some W) (hst : strategy.stMs ≤ startMs)
    (hcovered : Covered s symbol startMs) : Covered t symbol startMs := by
  intro E hE m hlo hhi
  rw [hsynced.watermark] at hE
  cases hE
  have hstart := syncStart_watermark h hW
  by_cases hm : m ≤ W
  · exact hsynced.keeps (hcovered W hW m hlo hm)
  · exact hsynced.asked hsymbol (by omega) hhi

/-- A row that is there after the sync has been there before, or is asked for. -/
theorem Synced.stored (hsynced : Synced strategy fills s symbols sync t)
    (hnames : ∀ symbol ∈ symbols, symbol ≠ "" ∧ normalizeSymbol symbol = symbol) :
    ∀ fill ∈ t.trades, fill ∈ s.trades ∨ fill.stored ∈ symbols ∧ fill ∈ fills ∧
      (fill.leg = .derivative ∨ strategy.includeSpotTrades false = true) ∧
      syncStart strategy s ≤ fill.timeMs ∧ fill.timeMs ≤ syncTime s sync := by
  intro fill hfill
  obtain ⟨scan, htrades, hstart, hend, hasked, hspot⟩ := hsynced.trades
  rw [htrades] at hfill
  rcases List.mem_append.mp hfill with hold | hnew
  · exact .inl hold
  · rw [requestedSymbols_normalized hnames] at hasked
    obtain ⟨hmem, hlo, hhi, hsymbol, hleg⟩ := fetched_asked hasked fill hnew
    have hstored : fill.stored = fill.symbol := (hnames _ hsymbol).2
    exact .inr ⟨hstored ▸ hsymbol, hmem, hspot ▸ hleg, hstart ▸ hlo, hend ▸ hhi⟩

end

/-! ## A cycle -/

/-- What the cycles keep. -/
structure Sound (strategy : Strategy) (firstFill : String → Option ℤ) (s : Cta) : Prop where
  unstarted : s.base.progress.watermark = none → s.base.trades = []
  named : ∀ symbol ∈ s.reported, symbol ≠ ""
  stored : ∀ fill ∈ s.base.trades, fill.stored ∈ s.reported
  kept : NoneLost strategy firstFill s

theorem sound_start (firstFill : String → Option ℤ) (clock : ℤ) :
    Sound strategy firstFill (.start clock) :=
  ⟨fun _ => rfl, fun _ hsymbol => (by cases hsymbol), fun _ hfill => (by cases hfill),
    fun _ hsymbol => (by cases hsymbol)⟩

section

variable {firstFill : String → Option ℤ} {s : Cta} {c : CtaCycle}

/-- What is between the start of a cycle and its trades sync: the backfills. -/
theorem beforeSync_spec (h : UsesOnlineSymbols strategy) (fills : List Fill)
    (hm : ManagerKeeps firstFill s c) :
    Later s.base (beforeSync strategy fills s.base c) ∧
    (∀ fill ∈ (beforeSync strategy fills s.base c).trades, fill ∈ s.base.trades ∨
      Backfills s c fill.stored) ∧
    ∀ symbol, Backfills s c symbol →
      Covered (beforeSync strategy fills s.base c) symbol
        (backfillStart strategy (firstFill symbol)) := by
  obtain ⟨hnames, hfirst, -⟩ := hm
  obtain ⟨hlater, htrades, hasked⟩ := backfills_spec h fills
    (loadedSymbols s.base c) hnames (s.base.wait c.delay)
  have hwait := later_wait s.base c.delay
  refine ⟨hwait.trans hlater, fun fill hfill => ?_, fun symbol hbackfills E hE m hlo hhi => ?_⟩
  · rcases htrades fill hfill with hold | hnew
    · exact .inl hold
    · exact .inr hnew
  · obtain ⟨hneeds, entry, hentry, rfl, hfailed⟩ := hbackfills
    rw [← hfirst entry hentry] at hlo
    have hE' : E ∈ s.base.progress.watermark := (hwait.trans hlater).watermark ▸ hE
    exact hasked entry hentry hneeds hfailed m hlo
      (hhi.trans ((s.base.watermark_le E hE').trans hwait.clock))

/-- A symbol that was not stored and is stored when the sync begins has been backfilled. -/
theorem stored_by_backfill (h : UsesOnlineSymbols strategy) (hm : ManagerKeeps firstFill s c)
    {symbol : String} (hold : symbol ∉ s.base.storedSymbols)
    (hnow : symbol ∈ (beforeSync strategy fills s.base c).storedSymbols) :
    Covered (beforeSync strategy fills s.base c) symbol
      (backfillStart strategy (firstFill symbol)) := by
  obtain ⟨_, htrades, hcovered⟩ := beforeSync_spec h fills hm
  obtain ⟨fill, hfill, rfl⟩ := List.mem_map.mp hnow
  rcases htrades fill hfill with hbefore | hbackfills
  · exact absurd (List.mem_map.mpr ⟨fill, hbefore, rfl⟩) hold
  · exact hcovered fill.stored hbackfills

theorem storedSymbols_ne_nil {s t : State} (h : Later s t) (hany : s.storedSymbols ≠ []) :
    t.storedSymbols ≠ [] := by
  obtain ⟨value, hvalue⟩ := List.exists_mem_of_ne_nil _ hany
  obtain ⟨fill, hfill, rfl⟩ := List.mem_map.mp hvalue
  exact List.ne_nil_of_mem (List.mem_map.mpr ⟨fill, h.trades fill hfill, rfl⟩)

/-- Where the trades sync scans nothing. -/
theorem kept_idle (h : UsesOnlineSymbols strategy) (hs : Sound strategy firstFill s)
    (hm : ManagerKeeps firstFill s c) (hg : Backfilled strategy fills firstFill s c) {t : State}
    (hidle : Idle (beforeSync strategy fills s.base c) t)
    (hscans : c.reported ≠ [] → syncFails (beforeSync strategy fills s.base c) c.sync c.bootstrap ∨
      (beforeSync strategy fills s.base c).clock < strategy.stMs) {symbol : String}
    (hsymbol : symbol ∈ s.reported ++ c.reported) (hne : symbol ≠ "") :
    Covered t symbol (backfillStart strategy (firstFill symbol)) ∨
      needsBackfill t.storedSymbols symbol := by
  obtain ⟨hlater, _, _⟩ := beforeSync_spec h fills hm
  have hsame : t.storedSymbols = (beforeSync strategy fills s.base c).storedSymbols := by
    rw [State.storedSymbols, hidle.trades]
    rfl
  -- Where something is stored, a symbol is stored by now, or is still to be backfilled.
  have hpending : s.base.storedSymbols ≠ [] → symbol ∉ s.base.storedSymbols →
      Covered t symbol (backfillStart strategy (firstFill symbol)) ∨
        needsBackfill t.storedSymbols symbol := by
    intro hany hold
    by_cases hnow : symbol ∈ t.storedSymbols
    · exact .inl ((stored_by_backfill h hm hold (hsame ▸ hnow)).later hidle.later)
    · exact .inr (needsBackfill_iff.mpr
        ⟨storedSymbols_ne_nil (hlater.trans hidle.later) hany, hne, hnow⟩)
  by_cases hreported : symbol ∈ s.reported
  · rcases hs.kept symbol hreported with hcovered | hneeds
    · exact .inl ((hcovered.later hlater).later hidle.later)
    · obtain ⟨hany, _, hold⟩ := needsBackfill_iff.mp hneeds
      exact hpending hany hold
  · have hnew : symbol ∈ c.reported := (List.mem_append.mp hsymbol).resolve_left hreported
    have hold : symbol ∉ s.base.storedSymbols := by
      intro hmem
      obtain ⟨fill, hfill, rfl⟩ := List.mem_map.mp hmem
      exact hreported (hs.stored fill hfill)
    by_cases hany : s.base.trades = []
    · refine .inl ?_
      cases hW : s.base.progress.watermark with
      | none =>
        intro E hE
        rw [hidle.watermark, hlater.watermark, hW] at hE
        cases hE
      | some W =>
        obtain ⟨hgoes, _⟩ := hg.2 (by rw [hW]; rfl) hany symbol hnew hreported
        have hearly := (hscans (List.ne_nil_of_mem hnew)).resolve_left
          (by rw [hgoes]; exact Bool.false_ne_true)
        intro E hE m hlo hhi
        have hE' : E ∈ (beforeSync strategy fills s.base c).progress.watermark :=
          hidle.watermark ▸ hE
        have hle := (beforeSync strategy fills s.base c).watermark_le E hE'
        have hst := backfillStart_le strategy (firstFill symbol)
        omega
    · refine hpending (fun hnone => hany ?_) hold
      exact List.map_eq_nil_iff.mp hnone

/-- Before anything is stored no symbol is backfilled, and the sync is a bootstrap. -/
theorem unstarted_beforeSync (h : UsesOnlineSymbols strategy) (hs : Sound strategy firstFill s)
    (hm : ManagerKeeps firstFill s c) (hW : s.base.progress.watermark = none) :
    (beforeSync strategy fills s.base c).trades = [] ∧
      syncStart strategy (beforeSync strategy fills s.base c) = strategy.stMs := by
  obtain ⟨hlater, htrades, _⟩ := beforeSync_spec h fills hm
  have hnone := hs.unstarted hW
  have hempty : (beforeSync strategy fills s.base c).trades = [] := by
    refine List.eq_nil_iff_forall_not_mem.mpr fun fill hfill => ?_
    rcases htrades fill hfill with hold | ⟨hneeds, _⟩
    · rw [hnone] at hold
      cases hold
    · refine (needsBackfill_iff.mp hneeds).1
        (List.eq_nil_iff_forall_not_mem.mpr fun value hvalue => ?_)
      obtain ⟨_, hstored⟩ := mem_loadedSymbols.mp hvalue
      rw [State.storedSymbols, hnone] at hstored
      cases hstored
  refine ⟨hempty, ?_⟩
  unfold syncStart State.cursor State.latest
  rw [hlater.watermark, hW, hempty]
  rfl

/-- Where the trades sync scans. -/
theorem kept_synced (h : UsesOnlineSymbols strategy) (hs : Sound strategy firstFill s)
    (hm : ManagerKeeps firstFill s c) (hg : Backfilled strategy fills firstFill s c) {t : State}
    (hgoes : syncFails (beforeSync strategy fills s.base c) c.sync c.bootstrap = false)
    (hsynced : Synced strategy fills (beforeSync strategy fills s.base c)
      (mergeCtaSymbols c.online (loadedSymbols s.base c)) c.sync t)
    (hany : mergeCtaSymbols c.online (loadedSymbols s.base c) ≠ []) {symbol : String}
    (hsymbol : symbol ∈ s.reported ++ c.reported) (hne : symbol ≠ "") :
    Covered t symbol (backfillStart strategy (firstFill symbol)) ∨
      needsBackfill t.storedSymbols symbol := by
  obtain ⟨hlater, _, hcovers⟩ := beforeSync_spec h fills hm
  have hst := backfillStart_le strategy (firstFill symbol)
  have hkeeps : ∀ fill ∈ (beforeSync strategy fills s.base c).trades, fill ∈ t.trades := by
    obtain ⟨scan, htrades, _⟩ := hsynced.trades
    exact fun fill hfill => htrades ▸ List.mem_append_left _ hfill
  have hpending : s.base.storedSymbols ≠ [] → symbol ∉ t.storedSymbols →
      needsBackfill t.storedSymbols symbol := by
    intro hstored hnow
    refine needsBackfill_iff.mpr ⟨?_, hne, hnow⟩
    obtain ⟨value, hvalue⟩ := List.exists_mem_of_ne_nil _ (storedSymbols_ne_nil hlater hstored)
    obtain ⟨fill, hfill, rfl⟩ := List.mem_map.mp hvalue
    exact List.ne_nil_of_mem (List.mem_map.mpr ⟨fill, hkeeps fill hfill, rfl⟩)
  have hafter : ∀ fill ∈ t.trades, fill.stored = symbol →
      symbol ∈ (beforeSync strategy fills s.base c).storedSymbols ∨
        symbol ∈ mergeCtaSymbols c.online (loadedSymbols s.base c) ∧
          Brings strategy fills s c symbol := by
    rintro fill hfill rfl
    rcases hsynced.stored (symbols_normalized hm.1) fill hfill with hbefore | ⟨hin, hmem, hrest⟩
    · exact .inl (List.mem_map.mpr ⟨fill, hbefore, rfl⟩)
    · exact .inr ⟨hin, hgoes, fill, hmem, rfl, hrest⟩
  by_cases hin : symbol ∈ mergeCtaSymbols c.online (loadedSymbols s.base c)
  · cases hW : s.base.progress.watermark with
    | none =>
      refine .inl (hsynced.covers_from hin ?_)
      rw [(unstarted_beforeSync h hs hm hW).2]
      exact hst
    | some W =>
      have hW' := hlater.watermark.trans hW
      by_cases hcovered : Covered (beforeSync strategy fills s.base c) symbol
          (backfillStart strategy (firstFill symbol))
      · exact .inl (hsynced.covers h hin hW' hst hcovered)
      -- It has not been scanned yet, so it is not stored, and either still to be backfilled or new.
      have hold : symbol ∉ s.base.storedSymbols ∧
          (s.base.storedSymbols ≠ [] ∨ symbol ∈ c.reported ∧ symbol ∉ s.reported) := by
        by_cases hreported : symbol ∈ s.reported
        · rcases hs.kept symbol hreported with hdone | hneeds
          · exact absurd (hdone.later hlater) hcovered
          · obtain ⟨hstored, _, hnot⟩ := needsBackfill_iff.mp hneeds
            exact ⟨hnot, .inl hstored⟩
        · refine ⟨fun hmem => ?_,
            .inr ⟨(List.mem_append.mp hsymbol).resolve_left hreported, hreported⟩⟩
          obtain ⟨fill, hfill, rfl⟩ := List.mem_map.mp hmem
          exact hreported (hs.stored fill hfill)
      by_cases hempty : s.base.trades = []
      · have hnone : s.base.storedSymbols = [] := by
          rw [State.storedSymbols, hempty]
          rfl
        obtain ⟨hnew, hunreported⟩ := hold.2.resolve_left (not_not.mpr hnone)
        obtain ⟨_, hreach⟩ := hg.2 (by rw [hW]; rfl) hempty symbol hnew hunreported
        exact .inl (hsynced.covers_from hin hreach)
      · have hstored : s.base.storedSymbols ≠ [] := fun hnone =>
          hempty (List.map_eq_nil_iff.mp hnone)
        by_cases hnow : symbol ∈ t.storedSymbols
        · obtain ⟨fill, hfill, hname⟩ := List.mem_map.mp hnow
          rcases hafter fill hfill hname with hbefore | ⟨_, hbrings⟩
          · exact absurd (stored_by_backfill h hm hold.1 hbefore) hcovered
          · have hreported : symbol ∈ c.reported := (mem_symbols.mp hin).resolve_right
              fun hloaded => hold.1 (mem_loadedSymbols.mp hloaded.2).2
            rcases hg.1 symbol hreported hold.1 hbrings with hbackfills | ⟨_, hreach⟩
            · exact absurd (hcovers symbol hbackfills) hcovered
            · exact .inl (hsynced.covers_from hin hreach)
        · exact .inr (hpending hstored hnow)
  · -- The Manager has not answered, and nothing of the symbol is stored.
    have hunreported : symbol ∉ c.reported := fun hmem => hin (mem_symbols.mpr (.inl hmem))
    have hreported : symbol ∈ s.reported := (List.mem_append.mp hsymbol).resolve_right hunreported
    have hsilent : c.manager = none := by
      by_contra hanswers
      exact hunreported (hm.2.2 (Option.isSome_iff_ne_none.mpr hanswers) symbol hreported)
    have hentries : c.entries = [] := by
      rw [CtaCycle.entries, hsilent]
      rfl
    obtain ⟨value, hvalue⟩ := List.exists_mem_of_ne_nil _ hany
    have hloads : c.storedLoads = true ∧ s.base.storedSymbols ≠ [] := by
      rcases mem_symbols.mp hvalue with hnew | ⟨_, hloaded⟩
      · rw [CtaCycle.reported, CtaCycle.online, hentries] at hnew
        cases hnew
      · exact ⟨(mem_loadedSymbols.mp hloaded).1,
          List.ne_nil_of_mem (mem_loadedSymbols.mp hloaded).2⟩
    have hold : symbol ∉ s.base.storedSymbols := fun hmem =>
      hin (mem_symbols.mpr (.inr ⟨hne, mem_loadedSymbols.mpr ⟨hloads.1, hmem⟩⟩))
    refine .inr (hpending hloads.2 fun hnow => ?_)
    obtain ⟨fill, hfill, hname⟩ := List.mem_map.mp hnow
    rcases hafter fill hfill hname with hbefore | ⟨hasked, _⟩
    · unfold beforeSync at hbefore
      rw [hentries] at hbefore
      exact hold hbefore
    · exact hin hasked

theorem mergeCtaSymbols_eq_nil {s : State} (hnone : mergeCtaSymbols c.online (loadedSymbols s c) = [])
    : c.reported = [] :=
  List.eq_nil_iff_forall_not_mem.mpr fun symbol hsymbol => by
    have hmem := mem_symbols_of_reported hsymbol (loadedSymbols s c)
    rw [hnone] at hmem
    cases hmem

/-- **The step lemma.** -/
theorem ctaSync_sound (h : UsesOnlineSymbols strategy) (hs : Sound strategy firstFill s)
    (hm : ManagerKeeps firstFill s c) (hg : Backfilled strategy fills firstFill s c) :
    Sound strategy firstFill (ctaSync strategy fills s c) := by
  have hnamed : ∀ symbol ∈ s.reported ++ c.reported, symbol ≠ "" := by
    intro symbol hsymbol
    rcases List.mem_append.mp hsymbol with hold | hnew
    · exact hs.named symbol hold
    · exact of_decide_eq_true (List.mem_filter.mp hnew).2
  obtain ⟨hlater, htrades, _⟩ := beforeSync_spec h fills hm
  have hbefore : ∀ fill ∈ (beforeSync strategy fills s.base c).trades,
      fill.stored ∈ s.reported ++ c.reported := by
    intro fill hfill
    rcases htrades fill hfill with hold | ⟨hneeds, entry, hentry, hname, _⟩
    · exact List.mem_append_left _ (hs.stored fill hold)
    · refine List.mem_append_right _ (List.mem_filter.mpr ⟨List.mem_map.mpr
        ⟨_, List.mem_map.mpr ⟨entry, hentry, rfl⟩, hname⟩, ?_⟩)
      exact decide_eq_true (needsBackfill_iff.mp hneeds).2.1
  have hidle : ∀ t, Idle (beforeSync strategy fills s.base c) t →
      (c.reported ≠ [] → syncFails (beforeSync strategy fills s.base c) c.sync c.bootstrap ∨
        (beforeSync strategy fills s.base c).clock < strategy.stMs) →
      Sound strategy firstFill { base := t, reported := s.reported ++ c.reported } := by
    intro t ht hscans
    refine ⟨fun hW => ?_, hnamed, fun fill hfill => hbefore fill (ht.trades ▸ hfill),
      fun symbol hsymbol => kept_idle h hs hm hg ht hscans hsymbol (hnamed symbol hsymbol)⟩
    rw [ht.watermark, hlater.watermark] at hW
    rw [ht.trades]
    exact (unstarted_beforeSync h hs hm hW).1
  unfold ctaSync
  by_cases hany : mergeCtaSymbols c.online (loadedSymbols s.base c) = []
  · dsimp only
    rw [hany, List.isEmpty_nil, if_pos rfl]
    exact hidle _ ⟨le_rfl, rfl, rfl, rfl⟩ fun hreported =>
      absurd (mergeCtaSymbols_eq_nil hany) hreported
  · dsimp only
    rw [if_neg (mt List.isEmpty_iff.mp hany)]
    have hrequested : requestedSymbols (mergeCtaSymbols c.online (loadedSymbols s.base c)) ≠ [] := by
      rw [requestedSymbols_normalized (symbols_normalized hm.1)]
      exact hany
    rcases runIncrementalOrBootstrap_cases h hrequested (beforeSync strategy fills s.base c) c.sync
      c.bootstrap with ⟨hfails, hsame⟩ | ⟨hgoes, _, hsynced⟩
    · exact hidle _ hsame fun _ => hfails
    · refine ⟨fun hW => ?_, hnamed, fun fill hfill => ?_, fun symbol hsymbol =>
        kept_synced h hs hm hg hgoes hsynced hany hsymbol (hnamed symbol hsymbol)⟩
      · rw [hsynced.watermark] at hW
        cases hW
      · rcases hsynced.stored (symbols_normalized hm.1) fill hfill with hold | ⟨hin, _⟩
        · exact hbefore fill hold
        · rcases mem_symbols.mp hin with hnew | ⟨_, hloaded⟩
          · exact List.mem_append_right _ hnew
          · obtain ⟨other, hother, hname⟩ := List.mem_map.mp (mem_loadedSymbols.mp hloaded).2
            exact List.mem_append_left _ (hname ▸ hs.stored other hother)

/-- **No symbol is lost** after any cycle of a run in which none gets rows before its backfill: each
    symbol that the Manager has reported is scanned from a little before its first fill on, or will
    be backfilled by the next cycle. -/
theorem symbols_kept (h : UsesOnlineSymbols strategy) (clock : ℤ) {cycles : List CtaCycle}
    (hmanager : ∀ entry ∈ steps (ctaSync strategy fills) (.start clock) cycles,
      ManagerKeeps firstFill entry.1 entry.2)
    (hbackfilled : ∀ entry ∈ steps (ctaSync strategy fills) (.start clock) cycles,
      Backfilled strategy fills firstFill entry.1 entry.2) :
    ∀ entry ∈ steps (ctaSync strategy fills) (.start clock) cycles,
      NoneLost strategy firstFill (ctaSync strategy fills entry.1 entry.2) := by
  have hkeep := steps_keep (Q := Sound strategy firstFill)
    (G := fun s c => ManagerKeeps firstFill s c ∧ Backfilled strategy fills firstFill s c)
    (fun s c hs hguard => ctaSync_sound h hs hguard.1 hguard.2) (sound_start firstFill clock)
    fun entry hentry => ⟨hmanager entry hentry, hbackfilled entry hentry⟩
  exact fun entry hentry => (hkeep entry hentry).2.kept

end

end

/-! ## A symbol that is lost -/

/-- What shows that a symbol is lost: it is stored, and it has not been scanned at `m`. -/
theorem lost {strategy : Strategy} {firstFill : String → Option ℤ} {s : Cta} (symbol : String) (m : ℤ)
    (h : symbol ∈ s.reported ∧ symbol ∈ s.base.storedSymbols ∧
      backfillStart strategy (firstFill symbol) ≤ m ∧
      (∃ E ∈ s.base.progress.watermark, m ≤ E) ∧
      ∀ run ∈ s.base.runs, ¬(symbol ∈ run.symbols ∧ run.startMs ≤ m ∧ m ≤ run.endMs)) :
    ¬NoneLost strategy firstFill s := by
  obtain ⟨hreported, hstored, hlo, ⟨E, hE, hhi⟩, hnever⟩ := h
  intro hkept
  rcases hkept symbol hreported with hcovered | hneeds
  · obtain ⟨run, hrun, hasked⟩ := hcovered E hE m hlo hhi
    exact hnever run hrun hasked
  · exact (needsBackfill_iff.mp hneeds).2.2 hstored

def ctaStrategy : Strategy where
  exchange := "binance"
  accountMode := "unified"
  strategyKind := "cta"
  class' := .mm
  stMs := 1000

theorem ctaStrategy_usesOnlineSymbols : UsesOnlineSymbols ctaStrategy := ⟨rfl, by decide, by decide⟩

def btcFill : Fill := { symbol := "BTCUSDT", leg := .derivative, timeMs := 4000000, unspaced := by simp }

def ethFill (timeMs : ℤ) : Fill :=
  { symbol := "ETHUSDT", leg := .derivative, timeMs, unspaced := by simp }

/-- One fill of BTC and two of ETH, two hours and a half apart. -/
def ctaFills : List Fill := [btcFill, ethFill 10000000, ethFill 18500000]

def ctaFirstFill (symbol : String) : Option ℤ :=
  if symbol = "BTCUSDT" then some 4000000000
  else if symbol = "ETHUSDT" then some 10000000000
  else none

/-- ETH is first reported in the third cycle; between the first two the program was not running, and
    in the second the Manager does not answer. -/
def ctaCycles (ethBackfill : Attempt) : List CtaCycle :=
  [{ manager := some [({ symbol := "BTCUSDT", firstFillTsUs := some 4000000000 }, {})] },
    { delay := 9000000 },
    { delay := 900000
      manager := some [({ symbol := "BTCUSDT", firstFillTsUs := some 4000000000 }, {}),
        ({ symbol := "ETHUSDT", firstFillTsUs := some 10000000000 }, ethBackfill)] }]

/-- The backfill of ETH goes through. -/
def backfilledCycles : List CtaCycle := ctaCycles { elapsed := 60000 }

theorem symbols_kept_backfilled :
    backfilledCycles ≠ [] ∧
      ∀ entry ∈ steps (ctaSync ctaStrategy ctaFills) (.start 9000000) backfilledCycles,
        NoneLost ctaStrategy ctaFirstFill (ctaSync ctaStrategy ctaFills entry.1 entry.2) :=
  ⟨List.cons_ne_nil _ _,
    symbols_kept ctaStrategy_usesOnlineSymbols 9000000 (by decide +kernel) (by decide +kernel)⟩

/-- The backfill of ETH fails. -/
def failedCycles : List CtaCycle := ctaCycles { failed := true }

/-- The rows that the trades sync stores in the cycle of the failed backfill are the last that is seen
    of the symbol's past. -/
theorem early_rows_lose_symbol :
    (∀ entry ∈ steps (ctaSync ctaStrategy ctaFills) (.start 9000000) failedCycles,
      ManagerKeeps ctaFirstFill entry.1 entry.2) ∧
    ¬∀ entry ∈ steps (ctaSync ctaStrategy ctaFills) (.start 9000000) failedCycles,
      NoneLost ctaStrategy ctaFirstFill (ctaSync ctaStrategy ctaFills entry.1 entry.2) := by
  refine ⟨by decide +kernel, fun hkept => ?_⟩
  have hlost : ∃ entry ∈ steps (ctaSync ctaStrategy ctaFills) (.start 9000000) failedCycles,
      "ETHUSDT" ∈ (ctaSync ctaStrategy ctaFills entry.1 entry.2).reported ∧
      "ETHUSDT" ∈ (ctaSync ctaStrategy ctaFills entry.1 entry.2).base.storedSymbols ∧
      backfillStart ctaStrategy (ctaFirstFill "ETHUSDT") ≤ 10000000 ∧
      (∃ E ∈ (ctaSync ctaStrategy ctaFills entry.1 entry.2).base.progress.watermark, 10000000 ≤ E) ∧
      ∀ run ∈ (ctaSync ctaStrategy ctaFills entry.1 entry.2).base.runs,
        ¬("ETHUSDT" ∈ run.symbols ∧ run.startMs ≤ 10000000 ∧ 10000000 ≤ run.endMs) := by
    decide +kernel
  obtain ⟨entry, hentry, h⟩ := hlost
  exact lost "ETHUSDT" 10000000 h (hkept entry hentry)

end CryptoNav.Live
