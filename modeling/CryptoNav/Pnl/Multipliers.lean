import CryptoNav.History.Fields
import CryptoNav.Lib.Partition
import CryptoNav.Lib.Runs
import Mathlib

/-!
# The contract multiplier book

`ContractMultiplierBook` of `contract_multipliers.rs`: the snapshots of the size of each contract, by
symbol, in which the one that is in force at the time of a trade is looked up. The rows come ordered
by symbol and time, but the book puts all spellings of a symbol into one list, one after the other;
such a list need not be ordered by time, and then a lookup in it goes wrong. The message about an
invalid multiplier is without the multiplier.

A multiplier is a positive finite number and is otherwise not looked at. The partition point of
a list that is not ordered is left open by the standard library's documentation, and so it is
here: the theorem says for which lists the answer is right whatever the library does, and the
failing look-up goes wrong under each of its choices.
-/

set_option autoImplicit false

namespace CryptoNav.Pnl

open CryptoNav.Lib CryptoNav.History.Raw

structure MultiplierSnapshot where
  effectiveAtMs : ℤ
  multiplier : Float
  deriving DecidableEq

structure MultiplierRow where
  symbol : String
  contractMultiplier : Float
  effectiveAtMs : ℤ
  deriving DecidableEq

/-- What a row adds to the list of its symbol. -/
def MultiplierRow.snapshot (row : MultiplierRow) : MultiplierSnapshot :=
  ⟨row.effectiveAtMs, row.contractMultiplier⟩

structure ContractMultiplierBook where
  exchange : String
  bySymbol : String → Option (List MultiplierSnapshot)

namespace ContractMultiplierBook

def market : String := "usdt_futures"

/-- The second half of a turn of the loop of `from_rows`, on the list of the row's symbol. -/
def push (exchange : String) (snapshots : List MultiplierSnapshot) (row : MultiplierRow) :
    Except String (List MultiplierSnapshot) :=
  match snapshots.getLast? with
  | some previous =>
    if previous.effectiveAtMs = row.effectiveAtMs then
      if previous.multiplier != row.contractMultiplier then
        .error s!"conflicting {exchange} contract multipliers for {row.symbol} at {row.effectiveAtMs}"
      else .ok snapshots
    else .ok (snapshots ++ [row.snapshot])
  | none => .ok (snapshots ++ [row.snapshot])

def addRow (exchange : String) (bySymbol : String → Option (List MultiplierSnapshot))
    (row : MultiplierRow) : Except String (String → Option (List MultiplierSnapshot)) :=
  if !row.contractMultiplier.isFinite ∨ row.contractMultiplier ≤ 0 then
    .error s!"invalid {exchange} contract multiplier for {row.symbol} at {row.effectiveAtMs}"
  else
    let symbol := uppercase row.symbol
    (push exchange ((bySymbol symbol).getD []) row).map fun snapshots =>
      Function.update bySymbol symbol (some snapshots)

def fromRows (exchange : String) (rows : List MultiplierRow) : Except String ContractMultiplierBook :=
  if rows.isEmpty then .error s!"no contract multipliers found for {exchange}/{market}"
  else (rows.foldlM (addRow exchange) fun _ => none).map (⟨exchange, ·⟩)

/-- The `snapshot` of `multiplier_at`. -/
def snapshotAt (point : PartitionPoint) (snapshots : List MultiplierSnapshot) (tradeTs : ℤ) :
    Option MultiplierSnapshot :=
  let index := point.index (fun snapshot => snapshot.effectiveAtMs ≤ tradeTs) snapshots
  if index = 0 then snapshots.head? else snapshots[index - 1]?

def multiplierAt (point : PartitionPoint) (book : ContractMultiplierBook) (symbol : String)
    (tradeTs : ℤ) : Except String Float :=
  let symbol := uppercase symbol
  match book.bySymbol symbol with
  | none => .error s!"missing {book.exchange} contract multiplier for {symbol} at {tradeTs}"
  | some snapshots =>
    match snapshotAt point snapshots tradeTs with
    | none =>
      .error s!"missing {book.exchange} contract multiplier snapshot for {symbol} at {tradeTs}"
    | some snapshot => .ok snapshot.multiplier

end ContractMultiplierBook

/-! ## What a lookup should return -/

/-- The rows of a symbol, in any letter case. -/
def rowsOfSymbol (rows : List MultiplierRow) (symbol : String) : List MultiplierRow :=
  rows.filter fun row => uppercase row.symbol = uppercase symbol

/-- The multiplier that is in force at a time: that of the latest row up to it, or of the earliest row
    of all if there is none; nothing else than the lack of rows is an error. -/
structure InForce (rows : List MultiplierRow) (symbol : String) (ts : ℤ)
    (found : Except String Float) : Prop where
  fails : found.isOk = false ↔ rowsOfSymbol rows symbol = []
  latest : ∀ row ∈ rowsOfSymbol rows symbol, row.effectiveAtMs ≤ ts →
    (∀ other ∈ rowsOfSymbol rows symbol, other.effectiveAtMs ≤ ts →
      other.effectiveAtMs ≤ row.effectiveAtMs) → found = .ok row.contractMultiplier
  earliest : ∀ row ∈ rowsOfSymbol rows symbol,
    (∀ other ∈ rowsOfSymbol rows symbol, ts < other.effectiveAtMs) →
    (∀ other ∈ rowsOfSymbol rows symbol, row.effectiveAtMs ≤ other.effectiveAtMs) →
      found = .ok row.contractMultiplier

/-- The rows of a symbol come in the order of their times, over all its spellings. The query sorts
    by the symbol as it is spelled, so this is not a matter of course. -/
def InTimeOrder (rows : List MultiplierRow) (symbol : String) : Prop :=
  (rowsOfSymbol rows symbol).Pairwise fun a b => a.effectiveAtMs ≤ b.effectiveAtMs

def OneMultiplier (rows : List MultiplierRow) (symbol : String) : Prop :=
  ∀ a ∈ rowsOfSymbol rows symbol, ∀ b ∈ rowsOfSymbol rows symbol,
    a.contractMultiplier = b.contractMultiplier

/-- `ORDER BY symbol, effective_at_ms` -/
def InQueryOrder (rows : List MultiplierRow) : Prop :=
  rows.Pairwise fun a b =>
    toLex (a.symbol, a.effectiveAtMs) ≤ toLex (b.symbol, b.effectiveAtMs)

/-- In the order of the query a symbol with one spelling is in the order of time. -/
theorem InQueryOrder.inTimeOrder {rows : List MultiplierRow} (h : InQueryOrder rows)
    {symbol : String} (hone : ∀ a ∈ rowsOfSymbol rows symbol, ∀ b ∈ rowsOfSymbol rows symbol,
      a.symbol = b.symbol) : InTimeOrder rows symbol := by
  refine (h.filter _).imp_of_mem fun {a b} ha hb hab => ?_
  rcases Prod.Lex.toLex_le_toLex.mp hab with hlt | ⟨-, hle⟩
  · exact absurd (hone a ha b hb) hlt.ne
  · exact hle

/-! ## The list of a symbol -/

/-- The snapshots that rows of one symbol make. Rows that say the same at the same time make one. -/
structure Snapshots (mine : List MultiplierRow) (snapshots : List MultiplierSnapshot) : Prop where
  kept : ∀ row ∈ mine, row.snapshot ∈ snapshots
  come : ∀ s ∈ snapshots, ∃ row ∈ mine, row.snapshot = s
  increasing : mine.Pairwise (fun a b => a.effectiveAtMs ≤ b.effectiveAtMs) →
    snapshots.Pairwise fun a b => a.effectiveAtMs < b.effectiveAtMs
  ordered : snapshots.Pairwise (fun a b => a.effectiveAtMs ≤ b.effectiveAtMs) →
    mine.Pairwise fun a b => a.effectiveAtMs ≤ b.effectiveAtMs

theorem snapshots_nil : Snapshots [] [] :=
  ⟨by simp, by simp, fun _ => List.Pairwise.nil, fun _ => List.Pairwise.nil⟩

/-- Multipliers that compare equal are equal, for they are no zeros. -/
theorem eq_of_beq_of_pos {a b : Float} (h : (a == b) = true) (hb : ¬b ≤ 0) : a = b := by
  obtain ⟨-, -, heq | ⟨-, rfl⟩ | ⟨-, rfl⟩⟩ := Float.beq_iff_ne_nan_and_eq.mp h
  · exact heq
  · exact absurd (by decide) hb
  · exact absurd (by decide) hb

/-- A row that is accepted is the last snapshot again, or a new one with another time. -/
theorem push_cases {exchange : String} {snapshots after : List MultiplierSnapshot}
    {row : MultiplierRow} (hpos : ¬row.contractMultiplier ≤ 0)
    (h : ContractMultiplierBook.push exchange snapshots row = .ok after) :
    (after = snapshots ∧ snapshots.getLast? = some row.snapshot) ∨
      after = snapshots ++ [row.snapshot] ∧
        ∀ s, snapshots.getLast? = some s → s.effectiveAtMs ≠ row.effectiveAtMs := by
  unfold ContractMultiplierBook.push at h
  split at h
  · rename_i previous hlast
    split at h
    · rename_i htime
      split at h
      · cases h
      · rename_i hsame
        cases h
        have hbeq : (previous.multiplier == row.contractMultiplier) = true := by
          simpa [bne] using hsame
        refine .inl ⟨rfl, hlast.trans (congrArg some ?_)⟩
        unfold MultiplierRow.snapshot
        rw [← htime, ← eq_of_beq_of_pos hbeq hpos]
    · rename_i htime
      cases h
      refine .inr ⟨rfl, fun s hs => ?_⟩
      rwa [← Option.some.inj (hlast.symm.trans hs)]
  · rename_i hlast
    cases h
    refine .inr ⟨rfl, fun s hs => ?_⟩
    rw [hlast] at hs
    cases hs

theorem Snapshots.push {mine : List MultiplierRow} {snapshots after : List MultiplierSnapshot}
    (h : Snapshots mine snapshots) {exchange : String} {row : MultiplierRow}
    (hpos : ¬row.contractMultiplier ≤ 0)
    (hpush : ContractMultiplierBook.push exchange snapshots row = .ok after) :
    Snapshots (mine ++ [row]) after := by
  rcases push_cases hpos hpush with ⟨rfl, hlast⟩ | ⟨rfl, hlast⟩
  · refine ⟨fun a ha => ?_, fun s hs => ?_, fun hmine => ?_, fun hsorted => ?_⟩
    · rcases List.mem_append.mp ha with ha | ha
      · exact h.kept a ha
      · rw [List.mem_singleton.mp ha]
        exact List.mem_of_getLast? hlast
    · obtain ⟨a, ha, hs⟩ := h.come s hs
      exact ⟨a, List.mem_append_left _ ha, hs⟩
    · exact h.increasing (List.pairwise_append.mp hmine).1
    · refine List.pairwise_append.mpr ⟨h.ordered hsorted, List.pairwise_singleton _ _, ?_⟩
      intro a ha b hb
      rw [List.mem_singleton.mp hb]
      exact le_of_getLast? MultiplierSnapshot.effectiveAtMs hsorted hlast _ (h.kept a ha)
  · refine ⟨fun a ha => ?_, fun s hs => ?_, fun hmine => ?_, fun hsorted => ?_⟩
    · rcases List.mem_append.mp ha with ha | ha
      · exact List.mem_append_left _ (h.kept a ha)
      · rw [List.mem_singleton.mp ha]
        exact List.mem_append_right _ List.mem_cons_self
    · rcases List.mem_append.mp hs with hs | hs
      · obtain ⟨a, ha, hs⟩ := h.come s hs
        exact ⟨a, List.mem_append_left _ ha, hs⟩
      · exact ⟨row, List.mem_append_right _ List.mem_cons_self, (List.mem_singleton.mp hs).symm⟩
    · obtain ⟨hmine, -, hrow⟩ := List.pairwise_append.mp hmine
      have hsorted := h.increasing hmine
      refine List.pairwise_append.mpr ⟨hsorted, List.pairwise_singleton _ _, ?_⟩
      intro s hs x hx
      rw [List.mem_singleton.mp hx]
      -- The last snapshot is not after the row, and its time is another one.
      obtain ⟨z, hz⟩ := Option.isSome_iff_exists.mp
        (List.getLast?_isSome.mpr (List.ne_nil_of_mem hs))
      obtain ⟨a, ha, rfl⟩ := h.come z (List.mem_of_getLast? hz)
      have hle := le_of_getLast? MultiplierSnapshot.effectiveAtMs
        (hsorted.imp fun hlt => hlt.le) hz s hs
      exact hle.trans_lt (lt_of_le_of_ne (hrow a ha row List.mem_cons_self) (hlast _ hz))
    · obtain ⟨hsorted, -, hlast⟩ := List.pairwise_append.mp hsorted
      refine List.pairwise_append.mpr ⟨h.ordered hsorted, List.pairwise_singleton _ _, ?_⟩
      intro a ha b hb
      rw [List.mem_singleton.mp hb]
      exact hlast _ (h.kept a ha) _ List.mem_cons_self

theorem rowsOfSymbol_append (past : List MultiplierRow) (row : MultiplierRow) (symbol : String) :
    rowsOfSymbol (past ++ [row]) symbol = rowsOfSymbol past symbol ++
      if uppercase row.symbol = uppercase symbol then [row] else [] := by
  unfold rowsOfSymbol
  rw [List.filter_append]
  by_cases h : uppercase row.symbol = uppercase symbol
  · rw [if_pos h, List.filter_cons_of_pos (by simpa using h), List.filter_nil]
  · rw [if_neg h, List.filter_cons_of_neg (by simpa using h), List.filter_nil]

namespace ContractMultiplierBook

/-- The list of a symbol; without rows it is empty or not there. -/
def snapshotsOf (bySymbol : String → Option (List MultiplierSnapshot)) (symbol : String) :
    List MultiplierSnapshot := (bySymbol (uppercase symbol)).getD []

theorem addRow_cases {exchange : String} {bySymbol after : String → Option (List MultiplierSnapshot)}
    {row : MultiplierRow} (h : addRow exchange bySymbol row = .ok after) :
    ¬row.contractMultiplier ≤ 0 ∧ ∃ snapshots,
      push exchange (snapshotsOf bySymbol row.symbol) row = .ok snapshots ∧
        after = Function.update bySymbol (uppercase row.symbol) (some snapshots) := by
  unfold addRow at h
  split at h
  · cases h
  · rename_i hvalid
    obtain ⟨snapshots, hpush, hafter⟩ := map_eq_ok.mp h
    exact ⟨fun hle => hvalid (.inr hle), snapshots, hpush, hafter.symm⟩

/-- **The lists of a book** are those of the rows of their symbols. -/
theorem fromRows_snapshots {exchange : String} {rows : List MultiplierRow}
    {book : ContractMultiplierBook} (h : fromRows exchange rows = .ok book) (symbol : String) :
    Snapshots (rowsOfSymbol rows symbol) (snapshotsOf book.bySymbol symbol) := by
  unfold fromRows at h
  split at h
  · cases h
  · obtain ⟨bySymbol, hrun, rfl⟩ := map_eq_ok.mp h
    refine run_prefix (P := fun past bySymbol => ∀ symbol,
      Snapshots (rowsOfSymbol past symbol) (snapshotsOf bySymbol symbol)) ?_
      ?_ hrun symbol
    case refine_2 => exact fun _ => snapshots_nil
    intro past row rest _ bySymbol after hpast hstep symbol
    obtain ⟨hpos, snapshots, hpush, rfl⟩ := addRow_cases hstep
    rw [rowsOfSymbol_append]
    unfold snapshotsOf
    by_cases hsame : uppercase row.symbol = uppercase symbol
    · have hrow := hpast symbol
      unfold snapshotsOf at hrow hpush
      rw [← hsame] at hrow
      rw [if_pos hsame, ← hsame, Function.update_self]
      exact hrow.push hpos hpush
    · rw [if_neg hsame, List.append_nil, Function.update_of_ne (Ne.symm hsame)]
      exact hpast symbol

/-! ## The lookup -/

theorem snapshotAt_nil (point : PartitionPoint) (ts : ℤ) : snapshotAt point [] ts = none := by
  unfold snapshotAt
  simp

theorem multiplierAt_toOption (point : PartitionPoint) (book : ContractMultiplierBook)
    (symbol : String) (ts : ℤ) : (book.multiplierAt point symbol ts).toOption =
      (snapshotAt point (snapshotsOf book.bySymbol symbol) ts).map
        MultiplierSnapshot.multiplier := by
  unfold multiplierAt snapshotsOf
  cases hlist : book.bySymbol (uppercase symbol) with
  | none =>
    rw [Option.getD_none, snapshotAt_nil]
    simp only [hlist]
    rfl
  | some snapshots =>
    rw [Option.getD_some]
    cases hentry : snapshotAt point snapshots ts with
    | none =>
      simp only [hlist, hentry]
      rfl
    | some snapshot =>
      simp only [hlist, hentry]
      rfl

theorem snapshotAt_mem {point : PartitionPoint} {snapshots : List MultiplierSnapshot} {ts : ℤ}
    {s : MultiplierSnapshot} (h : snapshotAt point snapshots ts = some s) : s ∈ snapshots := by
  unfold snapshotAt at h
  simp only at h
  split at h
  · exact List.mem_of_head? h
  · exact List.mem_of_getElem? h

theorem snapshotAt_eq_none {point : PartitionPoint} {snapshots : List MultiplierSnapshot} {ts : ℤ} :
    snapshotAt point snapshots ts = none ↔ snapshots = [] := by
  constructor
  · intro h
    unfold snapshotAt at h
    simp only at h
    split at h
    · exact List.head?_eq_none_iff.mp h
    · rename_i hindex
      have hle := point.index_le (fun snapshot => decide (snapshot.effectiveAtMs ≤ ts)) snapshots
      have := List.getElem?_eq_none_iff.mp h
      omega
  · rintro rfl
    exact snapshotAt_nil point ts

/-- In a list that is ordered by time the lookup picks the latest entry up to `ts`, or the first. -/
theorem snapshotAt_spec {point : PartitionPoint} {snapshots : List MultiplierSnapshot} {ts : ℤ}
    (hsorted : snapshots.Pairwise fun a b => a.effectiveAtMs ≤ b.effectiveAtMs)
    {s : MultiplierSnapshot} (h : snapshotAt point snapshots ts = some s) :
    (s.effectiveAtMs ≤ ts ∧
      ∀ other ∈ snapshots, other.effectiveAtMs ≤ ts → other.effectiveAtMs ≤ s.effectiveAtMs) ∨
    ((∀ other ∈ snapshots, ts < other.effectiveAtMs) ∧
      ∀ other ∈ snapshots, s.effectiveAtMs ≤ other.effectiveAtMs) := by
  have hparts := (pairwise_iff_partitioned MultiplierSnapshot.effectiveAtMs).mp hsorted ts
  unfold snapshotAt at h
  simp only at h
  split at h
  · rename_i hindex
    right
    have hnone := (point.index_eq_zero hparts).mp hindex
    refine ⟨fun other hother => by simpa using hnone other hother, fun other hother => ?_⟩
    obtain ⟨rest, hrest⟩ := List.head?_eq_some_iff.mp h
    rw [hrest] at hsorted hother
    rcases List.mem_cons.mp hother with rfl | hother
    · exact le_rfl
    · exact (List.pairwise_cons.mp hsorted).1 other hother
  · rename_i hindex
    left
    simpa using (point.previous_spec hparts hsorted hindex h).2

/-- Where the times do not partition the list, nothing is known of the entry that is picked. -/
theorem exists_snapshotAt_eq {snapshots : List MultiplierSnapshot} {ts : ℤ}
    (hparts : ¬Partitioned (fun snapshot => decide (snapshot.effectiveAtMs ≤ ts)) snapshots)
    {s : MultiplierSnapshot} (hs : s ∈ snapshots) :
    ∃ point, snapshotAt point snapshots ts = some s := by
  obtain ⟨k, hk, rfl⟩ := List.mem_iff_getElem.mp hs
  refine ⟨.unspecified (k + 1), ?_⟩
  have hindex : (PartitionPoint.unspecified (k + 1)).index
      (fun snapshot : MultiplierSnapshot => decide (snapshot.effectiveAtMs ≤ ts)) snapshots = k + 1 :=
    (if_neg hparts).trans (min_eq_left hk)
  unfold snapshotAt
  simp only
  rw [hindex, if_neg (Nat.succ_ne_zero k), Nat.add_sub_cancel, List.getElem?_eq_getElem hk]

end ContractMultiplierBook

/-! ## When lookups are right -/

section
variable {rows : List MultiplierRow} {symbol : String} {ts : ℤ} {found : Except String Float}

theorem eq_ok_of_toOption {m : Float} (h : found.toOption = some m) : found = .ok m := by
  cases found with
  | error e => cases h
  | ok x => exact congrArg Except.ok (Option.some.inj h)

theorem isOk_eq_false_iff : found.isOk = false ↔ found.toOption = none := by
  cases found with
  | error e => exact iff_of_true rfl rfl
  | ok x => exact iff_of_false (by simp [Except.isOk, Except.toBool]) (by simp [Except.toOption])

/-- A lookup fails for the lack of rows only. -/
theorem Snapshots.fails_iff {mine : List MultiplierRow} {snapshots : List MultiplierSnapshot}
    (h : Snapshots mine snapshots) {point : PartitionPoint}
    (hfound : found.toOption = (ContractMultiplierBook.snapshotAt point snapshots ts).map
      MultiplierSnapshot.multiplier) : found.isOk = false ↔ mine = [] := by
  rw [isOk_eq_false_iff, hfound, Option.map_eq_none_iff, ContractMultiplierBook.snapshotAt_eq_none]
  constructor
  · rintro rfl
    exact List.eq_nil_iff_forall_not_mem.mpr fun row hrow => List.not_mem_nil (h.kept row hrow)
  · rintro rfl
    refine List.eq_nil_iff_forall_not_mem.mpr fun s hs => ?_
    obtain ⟨row, hrow, -⟩ := h.come s hs
    exact List.not_mem_nil hrow

theorem Snapshots.inForce_of_ordered {snapshots : List MultiplierSnapshot}
    (h : Snapshots (rowsOfSymbol rows symbol) snapshots) (horder : InTimeOrder rows symbol)
    {point : PartitionPoint}
    (hfound : found.toOption = (ContractMultiplierBook.snapshotAt point snapshots ts).map
      MultiplierSnapshot.multiplier) : InForce rows symbol ts found := by
  have hstrict := h.increasing horder
  have hnodup : (snapshots.map MultiplierSnapshot.effectiveAtMs).Nodup :=
    List.pairwise_map.mpr (hstrict.imp ne_of_lt)
  -- One time, one snapshot.
  have hone : ∀ row ∈ rowsOfSymbol rows symbol, ∀ s,
      ContractMultiplierBook.snapshotAt point snapshots ts = some s →
      s.effectiveAtMs = row.effectiveAtMs → found = .ok row.contractMultiplier := by
    intro row hrow s hs htime
    have hsame : s = row.snapshot := List.inj_on_of_nodup_map hnodup
      (ContractMultiplierBook.snapshotAt_mem hs) (h.kept row hrow) htime
    exact eq_ok_of_toOption (by rw [hfound, hs, hsame]; rfl)
  have hsome : ∀ row ∈ rowsOfSymbol rows symbol,
      ∃ s, ContractMultiplierBook.snapshotAt point snapshots ts = some s := by
    intro row hrow
    refine Option.ne_none_iff_exists'.mp fun hnone => ?_
    have := h.kept row hrow
    rw [ContractMultiplierBook.snapshotAt_eq_none.mp hnone] at this
    cases this
  refine ⟨h.fails_iff hfound, fun row hrow hle hlatest => ?_, fun row hrow hlater hearliest => ?_⟩
  · obtain ⟨s, hs⟩ := hsome row hrow
    obtain ⟨origin, horigin, rfl⟩ := h.come s (ContractMultiplierBook.snapshotAt_mem hs)
    refine hone row hrow _ hs ?_
    rcases ContractMultiplierBook.snapshotAt_spec (hstrict.imp le_of_lt) hs with
      ⟨hbound, hmost⟩ | ⟨hnone, -⟩
    · exact le_antisymm (hlatest origin horigin hbound) (hmost _ (h.kept row hrow) hle)
    · exact absurd (hnone _ (h.kept row hrow)) (not_lt.mpr hle)
  · obtain ⟨s, hs⟩ := hsome row hrow
    obtain ⟨origin, horigin, rfl⟩ := h.come s (ContractMultiplierBook.snapshotAt_mem hs)
    refine hone row hrow _ hs ?_
    rcases ContractMultiplierBook.snapshotAt_spec (hstrict.imp le_of_lt) hs with
      ⟨hbound, -⟩ | ⟨-, hleast⟩
    · exact absurd (hlater origin horigin) (not_lt.mpr hbound)
    · exact le_antisymm (hleast _ (h.kept row hrow)) (hearliest origin horigin)

theorem Snapshots.inForce_of_one {snapshots : List MultiplierSnapshot}
    (h : Snapshots (rowsOfSymbol rows symbol) snapshots) (hone : OneMultiplier rows symbol)
    {point : PartitionPoint}
    (hfound : found.toOption = (ContractMultiplierBook.snapshotAt point snapshots ts).map
      MultiplierSnapshot.multiplier) : InForce rows symbol ts found := by
  have hall : ∀ row ∈ rowsOfSymbol rows symbol, found = .ok row.contractMultiplier := by
    intro row hrow
    cases hs : ContractMultiplierBook.snapshotAt point snapshots ts with
    | none =>
      have := h.kept row hrow
      rw [ContractMultiplierBook.snapshotAt_eq_none.mp hs] at this
      cases this
    | some s =>
      obtain ⟨origin, horigin, rfl⟩ := h.come s (ContractMultiplierBook.snapshotAt_mem hs)
      rw [hs] at hfound
      rw [eq_ok_of_toOption hfound, ← hone origin horigin row hrow]
      rfl
  exact ⟨h.fails_iff hfound, fun row hrow _ _ => hall row hrow, fun row hrow _ _ => hall row hrow⟩

/-- If every function that is documented like this finds what is in force, then the rows are in the
    order of time or do not differ. -/
theorem Snapshots.of_inForce {snapshots : List MultiplierSnapshot}
    (h : Snapshots (rowsOfSymbol rows symbol) snapshots)
    {lookup : PartitionPoint → ℤ → Except String Float}
    (hlookup : ∀ point ts, (lookup point ts).toOption =
      (ContractMultiplierBook.snapshotAt point snapshots ts).map MultiplierSnapshot.multiplier)
    (hall : ∀ point ts, InForce rows symbol ts (lookup point ts)) :
    InTimeOrder rows symbol ∨ OneMultiplier rows symbol := by
  by_contra hneither
  obtain ⟨hdisorder, hdiffer⟩ := not_or.mp hneither
  have hunsorted := mt h.ordered hdisorder
  rw [pairwise_iff_partitioned MultiplierSnapshot.effectiveAtMs, not_forall] at hunsorted
  obtain ⟨t, hparts⟩ := hunsorted
  -- Some row is not after `t`, and so there is a latest one of these.
  have hsome : (rowsOfSymbol rows symbol).filter (fun row => row.effectiveAtMs ≤ t) ≠ [] := by
    intro hnone
    refine hparts fun s hs hle => ?_
    obtain ⟨row, hrow, rfl⟩ := h.come s ((List.dropWhile_sublist _).subset hs)
    exact List.filter_eq_nil_iff.mp hnone row hrow hle
  obtain ⟨best, hbest⟩ := Option.ne_none_iff_exists'.mp
    (mt (List.argmax_eq_none (f := MultiplierRow.effectiveAtMs)).mp hsome)
  obtain ⟨hmem, hle⟩ := List.mem_filter.mp (List.argmax_mem hbest)
  have hlatest : ∀ other ∈ rowsOfSymbol rows symbol, other.effectiveAtMs ≤ t →
      other.effectiveAtMs ≤ best.effectiveAtMs := fun other hother hbound =>
    List.le_of_mem_argmax (List.mem_filter.mpr ⟨hother, decide_eq_true hbound⟩) hbest
  have hsame : ∀ row ∈ rowsOfSymbol rows symbol,
      row.contractMultiplier = best.contractMultiplier := by
    intro row hrow
    obtain ⟨point, hpoint⟩ := ContractMultiplierBook.exists_snapshotAt_eq hparts (h.kept row hrow)
    have hfound := hlookup point t
    rw [hpoint, (hall point t).latest best hmem (of_decide_eq_true hle) hlatest] at hfound
    exact (Option.some.inj hfound).symm
  exact hdiffer fun a ha b hb => (hsame a ha).trans (hsame b hb).symm

end

/-- **When the book is a correct as-of lookup.** Every lookup finds what is in force exactly if the
    rows of the symbol, in all its spellings, come in the order of their times, or all have one
    multiplier, so that it does not matter which of them is found. -/
theorem multiplierAt_inForce_iff {exchange : String} {rows : List MultiplierRow}
    {book : ContractMultiplierBook} (h : ContractMultiplierBook.fromRows exchange rows = .ok book)
    (symbol : String) :
    (∀ point ts, InForce rows symbol ts (book.multiplierAt point symbol ts)) ↔
      InTimeOrder rows symbol ∨ OneMultiplier rows symbol := by
  have hlist := ContractMultiplierBook.fromRows_snapshots h symbol
  have hlookup := fun point ts => book.multiplierAt_toOption point symbol ts
  constructor
  · exact hlist.of_inForce hlookup
  · rintro (horder | hone) point ts
    · exact hlist.inForce_of_ordered horder (hlookup point ts)
    · exact hlist.inForce_of_one hone (hlookup point ts)

def gateRows : List MultiplierRow :=
  [⟨"BTCUSDT", 0.001, 2000⟩, ⟨"BTCUSDT", 0.01, 3000⟩, ⟨"ethusdt", 0.1, 1000⟩]

theorem gateRows_inForce : ∃ book, ContractMultiplierBook.fromRows "gate" gateRows = .ok book ∧
    ∀ point ts, InForce gateRows "btcusdt" ts (book.multiplierAt point "btcusdt" ts) := by
  obtain ⟨book, hbook, -⟩ : Yields (ContractMultiplierBook.fromRows "gate" gateRows)
      fun _ => True := by decide +kernel
  have horder : InTimeOrder gateRows "btcusdt" := by
    unfold InTimeOrder
    decide +kernel
  exact ⟨book, hbook, (multiplierAt_inForce_iff hbook "btcusdt").mpr (.inl horder)⟩

/-- A contract that was written in small letters before 2000. -/
def renamedRows : List MultiplierRow := [⟨"BTCUSDT", 0.001, 2000⟩, ⟨"btcusdt", 0.01, 1000⟩]

/-- Later than both rows the lookup still returns the multiplier of the earlier one. -/
theorem renamed_lookup_outdated : InQueryOrder renamedRows ∧
    ∃ book, ContractMultiplierBook.fromRows "gate" renamedRows = .ok book ∧
      ∀ point, book.multiplierAt point "BTCUSDT" 2500 = .ok 0.01 ∧
        ¬InForce renamedRows "BTCUSDT" 2500 (book.multiplierAt point "BTCUSDT" 2500) := by
  have hquery : InQueryOrder renamedRows := by
    unfold InQueryOrder
    decide +kernel
  obtain ⟨book, hbook, hlist⟩ : Yields (ContractMultiplierBook.fromRows "gate" renamedRows)
      fun book => ContractMultiplierBook.snapshotsOf book.bySymbol "BTCUSDT" =
        [⟨2000, 0.001⟩, ⟨1000, 0.01⟩] := by decide +kernel
  refine ⟨hquery, book, hbook, fun point => ?_⟩
  have hindex : point.index (fun snapshot : MultiplierSnapshot => snapshot.effectiveAtMs ≤ 2500)
      [⟨2000, 0.001⟩, ⟨1000, 0.01⟩] = 2 := point.index_eq (by decide)
  have hfound : book.multiplierAt point "BTCUSDT" 2500 = .ok 0.01 := by
    refine eq_ok_of_toOption ?_
    rw [book.multiplierAt_toOption, hlist]
    unfold ContractMultiplierBook.snapshotAt
    simp only
    rw [hindex]
    rfl
  refine ⟨hfound, fun hforce => ?_⟩
  have hlatest := hforce.latest ⟨"BTCUSDT", 0.001, 2000⟩ (by decide +kernel) (by decide)
    (by decide +kernel)
  have hdiffer : (0.01 : Float) ≠ 0.001 := by decide +kernel
  exact hdiffer (Except.ok.inj (hfound.symm.trans hlatest))

end CryptoNav.Pnl
