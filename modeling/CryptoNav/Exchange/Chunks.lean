import CryptoNav.Exchange.Client
import Mathlib.Data.List.Chain

/-!
# Chunks are a partition

The chunks of a range follow each other from its start to its end, none longer than asked for; and
the loop that cuts them ends just when the range does before the last millisecond of an `i64`
(`chunks_partition_iff`).

The exchanges limit how long a range they answer for, so every history request is one of these
chunks. Neither how long they may be nor what is asked in them matters here: the length is a
parameter, and a length that is not positive is refused by the code itself. All arithmetic
saturates, as in the source; the last millisecond is the one place where this shows, since the
loop's test and its step cannot both be exact there. Ranges end at the current time in all runs
that are meant to happen.
-/

set_option autoImplicit false

namespace CryptoNav.Exchange

open CryptoNav.Lib
open CryptoNav.History (i64Min i64Max)
open CryptoNav.History.Raw (TimeRange)

/-- Windows of at most `maxSpanMs` milliseconds, each of which starts where the one before ends. The
    first starts where the range does and the last ends where it does, so the windows have every
    time of the range, and only the ends twice. -/
structure Partition (range : TimeRange) (maxSpanMs : ℤ) (windows : List TimeRange) : Prop where
  nonempty : windows ≠ []
  first : ∀ window ∈ windows.head?, window.startMs = range.startMs
  last : ∀ window ∈ windows.getLast?, window.endMs = range.endMs
  ordered : ∀ window ∈ windows, window.startMs ≤ window.endMs
  short : ∀ window ∈ windows, window.endMs - window.startMs + 1 ≤ maxSpanMs
  next : windows.IsChain fun window after => after.startMs = window.endMs + 1

variable {range : TimeRange} {maxSpanMs : ℤ} {windows : List TimeRange}

theorem Tiles.isChain {start ending : ℤ} (h : Tiles ending start windows) :
    windows.IsChain fun window after => after.startMs = window.endMs + 1 := by
  induction windows generalizing start with
  | nil => exact .nil
  | cons window rest ih =>
    obtain ⟨-, -, -, hrest⟩ := h
    cases rest with
    | nil => exact .singleton _
    | cons after rest => exact .cons_cons hrest.1 (ih hrest)

theorem Tiles.last_eq {start ending : ℤ} (h : Tiles ending start windows) :
    ∀ window ∈ windows.getLast?, window.endMs = ending := by
  induction windows generalizing start with
  | nil => simp
  | cons window rest ih =>
    obtain ⟨-, -, hle, hrest⟩ := h
    cases rest with
    | nil =>
      intro last hlast
      have hlt : ending < window.endMs + 1 := hrest
      obtain rfl : window = last := by simpa using hlast
      omega
    | cons after rest => exact ih hrest

/-- A chunk that starts after the epoch is no longer than asked for. -/
theorem chunkEnd_le {start : ℤ} (hspan : 0 < maxSpanMs) (hstart : 0 ≤ start) :
    chunkEnd range maxSpanMs start ≤ start + maxSpanMs - 1 := by
  unfold chunkEnd saturate i64Min i64Max
  omega

theorem chunks_short (hspan : 0 < maxSpanMs) (hstart : 0 ≤ range.startMs)
    (h : (chunks range maxSpanMs).Gives (.ok windows)) :
    ∀ window ∈ windows, window.endMs - window.startMs + 1 ≤ maxSpanMs := by
  let Short : List TimeRange → Prop := fun pushed =>
    ∀ window ∈ pushed, window.endMs - window.startMs + 1 ≤ maxSpanMs
  have hpush : ∀ start pushed, 0 ≤ start → Short pushed →
      Short (pushed ++ [{ startMs := start, endMs := chunkEnd range maxSpanMs start }]) := by
    intro start pushed hstart hshort
    refine List.forall_mem_append.mpr ⟨hshort, List.forall_mem_singleton.mpr ?_⟩
    have hle := @chunkEnd_le range maxSpanMs start hspan hstart
    show chunkEnd range maxSpanMs start - start + 1 ≤ maxSpanMs
    omega
  rw [chunks, if_neg hspan.not_ge] at h
  refine Routine.loop_keeps (P := fun s => 0 ≤ s.1 ∧ Short s.2) (Q := Short) ?_ ?_
    ⟨hstart, List.forall_mem_nil _⟩ h
  · rintro ⟨start, pushed⟩ t ⟨hzero, hshort⟩ hturn
    simp only [chunkTurn] at hturn
    split at hturn
    · split at hturn
      · cases Routine.gives_pure.mp hturn
      · cases Routine.gives_pure.mp hturn
        refine ⟨?_, hpush start pushed hzero hshort⟩
        show 0 ≤ saturate (chunkEnd range maxSpanMs start + 1)
        unfold chunkEnd saturate i64Min i64Max
        omega
    · cases Routine.gives_pure.mp hturn
  · rintro ⟨start, pushed⟩ left ⟨hzero, hshort⟩ hturn
    simp only [chunkTurn] at hturn
    split at hturn
    · split at hturn
      · cases Routine.gives_pure.mp hturn
        exact hpush start pushed hzero hshort
      · cases Routine.gives_pure.mp hturn
    · cases Routine.gives_pure.mp hturn
      exact hshort

/-- **The chunks of a range are a partition of it** just when it ends before the last millisecond. A
    range that ends there is never cut to its end: the last step saturates, and the loop goes on
    with it for ever. -/
theorem chunks_partition_iff (hvalid : Valid range) (hspan : 0 < maxSpanMs) :
    (∃ windows, (chunks range maxSpanMs).Gives (.ok windows) ∧ Partition range maxSpanMs windows) ↔
      range.endMs < i64Max := by
  constructor
  · rintro ⟨windows, hgives, -⟩
    by_contra hend
    exact chunks_never hspan (not_lt.mp hend) hvalid.2 ⟨_, hgives⟩
  · intro hend
    obtain ⟨windows, hgives, htiles⟩ := chunks_gives hspan (.inl hend)
    refine ⟨windows, hgives, ?_, ?_, htiles.last_eq, fun window hmem => (htiles.mem_bounds hmem).2.1,
      chunks_short hspan hvalid.1 hgives, htiles.isChain⟩
    · rintro rfl
      exact absurd hvalid.2 (not_le.mpr htiles)
    · cases windows with
      | nil => simp
      | cons window rest =>
        rintro _ ⟨⟩
        exact htiles.1

/-- Three days in chunks of a day. -/
theorem three_days_partitioned : ∃ windows,
    (chunks ⟨1700000000000, 1700259199999⟩ 86400000).Gives (.ok windows) ∧
      Partition ⟨1700000000000, 1700259199999⟩ 86400000 windows :=
  (chunks_partition_iff (by decide) (by decide)).mpr (by decide)

/-- A range to the end of time is accepted and never cut. -/
theorem endless_range_never_cut :
    newTimeRange 1700000000000 i64Max = .ok ⟨1700000000000, i64Max⟩ ∧
      ¬(chunks ⟨1700000000000, i64Max⟩ 86400000).Ends :=
  ⟨newTimeRange_of_valid (by decide : Valid ⟨1700000000000, i64Max⟩),
    chunks_never (by decide) le_rfl (by decide)⟩

end CryptoNav.Exchange
