import CryptoNav.Exchange.Ltp
import CryptoNav.Exchange.Splitting

/-!
# Ranges over two storage tiers

Binance keeps its margin interest in an archive from some six months on, RapidX its executions from
seven days on. A range is split where the tier changes: with a week to either side where the change
is not known to the day, and at the millisecond where it is. Nothing of the range is left out
(`tiers_cover`).

What the tiers hold is documented by the exchanges and is an assumption here, in `Ltp.Serves`
for the executions and in the months of `marginInterestQueryRanges` for the interest. The time
at which the windows are computed is one number for the whole call; a call that takes so long
that the change moves past one of its windows is left out. The overlap of the two windows
returns rows twice, and removing them is the caller's.
-/

set_option autoImplicit false

namespace CryptoNav.Exchange

open CryptoNav.Lib
open CryptoNav.History (i64Min i64Max)
open CryptoNav.History.Raw (TimeRange)

namespace Binance

def sixMonthsMs : ℤ := 180 * (24 * 60 * 60 * 1000)

/-- The windows of a range, and whether each is asked for in the archive. -/
def marginInterestQueryRanges (range : TimeRange) (currentTimeMs : ℤ) :
    Except ExchangeError (List (TimeRange × Bool)) := do
  let archiveCutoff := saturate (currentTimeMs - sixMonthsMs)
  let archivedEnd := saturate (archiveCutoff + sevenDaysMs)
  let recentStart := saturate (archiveCutoff - sevenDaysMs)
  let archived ← windowIf (range.startMs ≤ archivedEnd ∧ range.startMs ≤ range.endMs)
    range.startMs (min range.endMs archivedEnd) (·, true)
  let recent ← windowIf (recentStart ≤ range.endMs ∧ range.startMs ≤ range.endMs)
    (max range.startMs recentStart) range.endMs (·, false)
  pure (archived ++ recent)

end Binance

/-! ## Splitting a range -/

/-- The windows are those of the range, and no more than two. They may overlap, and rows in the
    overlap then come twice. -/
structure Covers (range : TimeRange) (windows : List TimeRange) : Prop where
  within : ∀ window ∈ windows, range.startMs ≤ window.startMs ∧ window.startMs ≤ window.endMs ∧
    window.endMs ≤ range.endMs
  union : ∀ t, range.startMs ≤ t → t ≤ range.endMs →
    ∃ window ∈ windows, window.startMs ≤ t ∧ t ≤ window.endMs
  few : windows.length ≤ 2

/-- **Two windows that meet or overlap** are those of the range. -/
theorem covers_of_windows {α : Type} {range : TimeRange} {archivedEnd recentStart : ℤ} {p q : Prop}
    [Decidable p] [Decidable q] {entry entry' : TimeRange → α} {window : α → TimeRange}
    {archived recent : List α} (hentry : ∀ w, window (entry w) = w)
    (hentry' : ∀ w, window (entry' w) = w)
    (harchived : windowIf p range.startMs (min range.endMs archivedEnd) entry = .ok archived)
    (hrecent : windowIf q (max range.startMs recentStart) range.endMs entry' = .ok recent)
    (hmeet : recentStart ≤ archivedEnd + 1)
    (hp : ¬p → range.endMs < range.startMs ∨ recentStart ≤ range.startMs)
    (hq : ¬q → range.endMs < range.startMs ∨ range.endMs ≤ archivedEnd)
    (hnone : ¬p → ¬q → range.endMs < range.startMs) :
    Covers range ((archived ++ recent).map window) := by
  rw [windowIf_eq_ok] at harchived hrecent
  simp only [Valid] at harchived hrecent
  rcases harchived with ⟨-, hvalid, rfl⟩ | ⟨hnot, rfl⟩
  · rcases hrecent with ⟨-, hvalid', rfl⟩ | ⟨hnot', rfl⟩
    · refine ⟨?_, fun t hs he => ?_, le_rfl⟩
      · simp only [List.map_append, List.map_singleton, hentry, hentry', List.forall_mem_append,
          List.forall_mem_singleton]
        omega
      · simp only [List.map_append, List.map_singleton, hentry, hentry', List.mem_append,
          List.mem_singleton, or_and_right, exists_or, exists_eq_left]
        omega
    · have hend := hq hnot'
      refine ⟨?_, fun t hs he => ?_, Nat.le_succ _⟩
      · simp only [List.append_nil, List.map_singleton, hentry, List.forall_mem_singleton]
        omega
      · simp only [List.append_nil, List.map_singleton, hentry, List.mem_singleton, exists_eq_left]
        omega
  · have hstart := hp hnot
    rcases hrecent with ⟨-, hvalid', rfl⟩ | ⟨hnot', rfl⟩
    · refine ⟨?_, fun t hs he => ?_, Nat.le_succ _⟩
      · simp only [List.nil_append, List.map_singleton, hentry', List.forall_mem_singleton]
        omega
      · simp only [List.nil_append, List.map_singleton, hentry', List.mem_singleton, exists_eq_left]
        omega
    · have hempty := hnone hnot hnot'
      exact ⟨List.forall_mem_nil _, fun t hs he => by omega, Nat.zero_le _⟩

variable {range : TimeRange} {nowMs : ℤ}

/-- What a pushed window can be. -/
theorem mem_windowIf {α : Type} {p : Prop} [Decidable p] {startMs endMs : ℤ} {entry : TimeRange → α}
    {entries : List α} (h : windowIf p startMs endMs entry = .ok entries) {a : α} (ha : a ∈ entries) :
    p ∧ Valid ⟨startMs, endMs⟩ ∧ a = entry ⟨startMs, endMs⟩ := by
  rcases windowIf_eq_ok.mp h with ⟨hp, hvalid, rfl⟩ | ⟨-, rfl⟩
  · exact ⟨hp, hvalid, List.mem_singleton.mp ha⟩
  · cases ha

/-! ## Margin interest -/

/-- The bounds of the two windows, for a time of a range that starts no earlier than the epoch. -/
theorem margin_bounds (hnow : nowMs ≤ i64Max) {t : ℤ} (ht : 0 ≤ t) :
    let archiveCutoff := saturate (nowMs - Binance.sixMonthsMs)
    saturate (archiveCutoff - Binance.sevenDaysMs) ≤ saturate (archiveCutoff + Binance.sevenDaysMs) + 1 ∧
      (t ≤ saturate (archiveCutoff + Binance.sevenDaysMs) →
        t ≤ nowMs - Binance.sixMonthsMs + Binance.sevenDaysMs) ∧
      nowMs - Binance.sixMonthsMs - Binance.sevenDaysMs ≤
        saturate (archiveCutoff - Binance.sevenDaysMs) := by
  simp only [Binance.sixMonthsMs, Binance.sevenDaysMs, saturate, i64Min, i64Max] at *
  omega

/-- **Margin interest.** Away from the change a time is asked for in the tier that has it. -/
theorem margin_interest_covers (hnow : nowMs ≤ i64Max) {ranges : List (TimeRange × Bool)}
    (h : Binance.marginInterestQueryRanges range nowMs = .ok ranges) :
    Covers range (ranges.map (·.1)) ∧ ∀ entry ∈ ranges, ∀ t, entry.1.startMs ≤ t → t ≤ entry.1.endMs →
      (t < nowMs - Binance.sixMonthsMs - Binance.sevenDaysMs → entry.2 = true) ∧
      (nowMs - Binance.sixMonthsMs + Binance.sevenDaysMs < t → entry.2 = false) := by
  simp only [Binance.marginInterestQueryRanges] at h
  obtain ⟨archived, harchived, h⟩ := bind_eq_ok.mp h
  obtain ⟨recent, hrecent, h⟩ := bind_eq_ok.mp h
  obtain rfl := pure_eq_ok.mp h
  obtain ⟨hmeet, -, -⟩ := margin_bounds hnow le_rfl
  refine ⟨covers_of_windows (fun _ => rfl) (fun _ => rfl) harchived hrecent hmeet ?_ ?_ ?_, ?_⟩
  · intro hnot
    omega
  · intro hnot
    omega
  · intro hnot hnot'
    omega
  · intro entry hentry t hs he
    rcases List.mem_append.mp hentry with hmem | hmem
    · obtain ⟨-, ⟨hzero, -⟩, rfl⟩ := mem_windowIf harchived hmem
      obtain ⟨-, hold, -⟩ := margin_bounds hnow (hzero.trans hs)
      refine ⟨fun _ => rfl, fun hyoung => absurd (hold (he.trans (min_le_right _ _))) ?_⟩
      omega
    · obtain ⟨-, ⟨hzero, -⟩, rfl⟩ := mem_windowIf hrecent hmem
      obtain ⟨-, -, hyoung⟩ := margin_bounds hnow (hzero.trans hs)
      have hs : saturate (saturate (nowMs - Binance.sixMonthsMs) - Binance.sevenDaysMs) ≤ t :=
        (le_max_right _ _).trans hs
      exact ⟨fun hold => absurd hold (by omega), fun _ => rfl⟩

theorem windowIf_gives {α : Type} {p : Prop} [Decidable p] (startMs endMs : ℤ)
    (entry : TimeRange → α) (hstart : p → 0 ≤ startMs) (hle : p → startMs ≤ endMs) :
    ∃ entries, windowIf p startMs endMs entry = .ok entries := by
  by_cases hp : p
  · exact ⟨_, windowIf_eq_ok.mpr (.inl ⟨hp, ⟨hstart hp, hle hp⟩, rfl⟩)⟩
  · exact ⟨_, windowIf_eq_ok.mpr (.inr ⟨hp, rfl⟩)⟩

/-- A range that does not start before the epoch is split without an error. -/
theorem margin_interest_gives (hrange : 0 ≤ range.startMs) (nowMs : ℤ) :
    ∃ ranges, Binance.marginInterestQueryRanges range nowMs = .ok ranges := by
  let archiveCutoff := saturate (nowMs - Binance.sixMonthsMs)
  let archivedEnd := saturate (archiveCutoff + Binance.sevenDaysMs)
  let recentStart := saturate (archiveCutoff - Binance.sevenDaysMs)
  obtain ⟨archived, harchived⟩ := windowIf_gives (α := TimeRange × Bool)
    (p := range.startMs ≤ archivedEnd ∧ range.startMs ≤ range.endMs) range.startMs
    (min range.endMs archivedEnd) (·, true) (fun _ => hrange) fun h => le_min h.2 h.1
  obtain ⟨recent, hrecent⟩ := windowIf_gives (α := TimeRange × Bool)
    (p := recentStart ≤ range.endMs ∧ range.startMs ≤ range.endMs) (max range.startMs recentStart)
    range.endMs (·, false) (fun _ => hrange.trans (le_max_left _ _)) fun h => max_le h.2 h.1
  exact ⟨archived ++ recent, bind_eq_ok.mpr ⟨archived, harchived,
    bind_eq_ok.mpr ⟨recent, hrecent, rfl⟩⟩⟩

/-! ## Executions -/

/-- A tier that has the executions of a time: the recent ones are those of the last seven days, the
    archive has the older ones for 90 days. -/
def Ltp.Serves (nowMs : ℤ) (path : String) (t : ℤ) : Prop :=
  (path = Ltp.executionsPath ∧ nowMs - Ltp.recentSpanMs ≤ t ∧ t ≤ nowMs) ∨
    (path = Ltp.archivedExecutionsPath ∧ nowMs - Ltp.archiveSpanMs ≤ t ∧
      t ≤ nowMs - Ltp.recentSpanMs)

theorem execution_ranges_cover (hnow : nowMs ≤ i64Max) {tiers : List (String × TimeRange)}
    (h : Ltp.executionRanges range nowMs = .ok tiers) :
    Covers range (tiers.map (·.2)) ∧ ∀ tier ∈ tiers, ∀ t, tier.2.startMs ≤ t → t ≤ tier.2.endMs →
      Ltp.Serves nowMs tier.1 t := by
  unfold Ltp.executionRanges at h
  split at h
  · cases h
  rename_i hwindow
  split at h
  · cases h
  rename_i hretained
  obtain ⟨archived, harchived, h⟩ := bind_eq_ok.mp h
  obtain ⟨recent, hrecent, h⟩ := bind_eq_ok.mp h
  obtain rfl := pure_eq_ok.mp h
  refine ⟨covers_of_windows (fun _ => rfl) (fun _ => rfl) harchived hrecent (by omega) ?_ ?_ ?_, ?_⟩
  · intro hnot
    omega
  · intro hnot
    omega
  · intro hnot hnot'
    omega
  · intro tier htier t hs he
    simp only [Ltp.Serves, Ltp.recentSpanMs, Ltp.archiveSpanMs, Ltp.oneDayMs] at *
    rcases List.mem_append.mp htier with hmem | hmem
    · obtain ⟨hold, -, rfl⟩ := mem_windowIf harchived hmem
      simp only [saturate, i64Min, i64Max] at *
      exact .inr ⟨trivial, by omega, by omega⟩
    · obtain ⟨-, -, rfl⟩ := mem_windowIf hrecent hmem
      simp only [saturate, i64Min, i64Max] at *
      exact .inl ⟨trivial, by omega, by omega⟩

/-- The tiers are given of what the archive still has, and of nothing that is still to come. -/
theorem execution_ranges_give (hnow : nowMs ≤ i64Max) (hrange : range.startMs ≤ range.endMs) :
    (∃ tiers, Ltp.executionRanges range nowMs = .ok tiers) ↔
      0 < range.startMs ∧ range.endMs ≤ nowMs ∧ nowMs - Ltp.archiveSpanMs ≤ range.startMs := by
  have hretained (hpos : 0 < range.startMs) :
      range.startMs < saturate (nowMs - Ltp.archiveSpanMs) ↔
        range.startMs < nowMs - Ltp.archiveSpanMs := by
    simp only [saturate, i64Min, i64Max, Ltp.archiveSpanMs, Ltp.oneDayMs] at *
    omega
  constructor
  · rintro ⟨tiers, h⟩
    unfold Ltp.executionRanges at h
    split at h
    · cases h
    rename_i hwindow
    obtain ⟨hpos, hend⟩ := not_or.mp hwindow
    split at h
    · cases h
    rename_i hold
    rw [hretained (not_le.mp hpos)] at hold
    exact ⟨not_le.mp hpos, not_lt.mp hend, not_lt.mp hold⟩
  · rintro ⟨hpos, hend, hold⟩
    unfold Ltp.executionRanges
    rw [if_neg (not_or.mpr ⟨not_le.mpr hpos, not_lt.mpr hend⟩),
      if_neg (mt (hretained hpos).mp (not_lt.mpr hold))]
    let cutoff := saturate (nowMs - Ltp.recentSpanMs)
    obtain ⟨archived, harchived⟩ := windowIf_gives (α := String × TimeRange)
      (p := range.startMs < cutoff) range.startMs (min range.endMs cutoff)
      (Ltp.archivedExecutionsPath, ·) (fun _ => hpos.le) fun h => le_min hrange h.le
    obtain ⟨recent, hrecent⟩ := windowIf_gives (α := String × TimeRange)
      (p := cutoff ≤ range.endMs) (max range.startMs cutoff) range.endMs (Ltp.executionsPath, ·)
      (fun _ => hpos.le.trans (le_max_left _ _)) fun h => max_le hrange h
    exact ⟨archived ++ recent, bind_eq_ok.mpr ⟨archived, harchived,
      bind_eq_ok.mpr ⟨recent, hrecent, rfl⟩⟩⟩

/-- **The tiers cover the range**, and each has the times that it is asked for. Executions older
    than the archive or still to come are refused and not left out silently; of interest the weeks
    around the change are asked for in both tiers. -/
theorem tiers_cover (range : TimeRange) {nowMs : ℤ} (hnow : nowMs ≤ i64Max) :
    (0 ≤ range.startMs → ∃ ranges, Binance.marginInterestQueryRanges range nowMs = .ok ranges) ∧
    (range.startMs ≤ range.endMs → ((∃ tiers, Ltp.executionRanges range nowMs = .ok tiers) ↔
      0 < range.startMs ∧ range.endMs ≤ nowMs ∧ nowMs - Ltp.archiveSpanMs ≤ range.startMs)) ∧
    (∀ ranges, Binance.marginInterestQueryRanges range nowMs = .ok ranges →
      Covers range (ranges.map (·.1)) ∧
      ∀ entry ∈ ranges, ∀ t, entry.1.startMs ≤ t → t ≤ entry.1.endMs →
        (t < nowMs - Binance.sixMonthsMs - Binance.sevenDaysMs → entry.2 = true) ∧
        (nowMs - Binance.sixMonthsMs + Binance.sevenDaysMs < t → entry.2 = false)) ∧
    ∀ tiers, Ltp.executionRanges range nowMs = .ok tiers →
      Covers range (tiers.map (·.2)) ∧
      ∀ tier ∈ tiers, ∀ t, tier.2.startMs ≤ t → t ≤ tier.2.endMs → Ltp.Serves nowMs tier.1 t :=
  ⟨fun hrange => margin_interest_gives hrange nowMs, execution_ranges_give hnow,
    fun _ => margin_interest_covers hnow, fun _ => execution_ranges_cover hnow⟩

/-- For each of the two, a range across its change. -/
theorem tiers_cover_boundary :
    (∃ ranges, Binance.marginInterestQueryRanges ⟨8640000000, 25920000000⟩ 31536000000 = .ok ranges ∧
      Covers ⟨8640000000, 25920000000⟩ (ranges.map (·.1)) ∧
      ∀ entry ∈ ranges, ∀ t, entry.1.startMs ≤ t → t ≤ entry.1.endMs →
        (t < 31536000000 - Binance.sixMonthsMs - Binance.sevenDaysMs → entry.2 = true) ∧
        (31536000000 - Binance.sixMonthsMs + Binance.sevenDaysMs < t → entry.2 = false)) ∧
    ∃ tiers, Ltp.executionRanges ⟨30672000000, 31535000000⟩ 31536000000 = .ok tiers ∧
      Covers ⟨30672000000, 31535000000⟩ (tiers.map (·.2)) ∧
      ∀ tier ∈ tiers, ∀ t, tier.2.startMs ≤ t → t ≤ tier.2.endMs →
        Ltp.Serves 31536000000 tier.1 t := by
  obtain ⟨hgives, -, hmargin, -⟩ :=
    @tiers_cover ⟨8640000000, 25920000000⟩ 31536000000 (by decide)
  obtain ⟨-, hserved, -, hexecutions⟩ :=
    @tiers_cover ⟨30672000000, 31535000000⟩ 31536000000 (by decide)
  obtain ⟨ranges, hranges⟩ := hgives (by decide)
  obtain ⟨tiers, htiers⟩ := (hserved (by decide)).mpr (by decide)
  exact ⟨⟨ranges, hranges, hmargin ranges hranges⟩, tiers, htiers, hexecutions tiers htiers⟩

end CryptoNav.Exchange
