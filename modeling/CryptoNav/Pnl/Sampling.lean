import Mathlib.Algebra.Order.Group.Int
import Mathlib.Tactic.Linarith
import CryptoNav.Pnl.Report

/-!
# Sampling a curve

The two passes a PnL curve goes through before it is returned. `resample_fixed_interval` reads the
curve at the start, at each tick of the clock and at the end, and holds the last point in between;
`downsample_extrema` then thins it out to the number of points asked for, and keeps the ends and
the extrema of every plotted value.

Sampling moves no value and makes none up: each point that is returned is one of the curve or
the last one before a tick. The values between ticks are lost on purpose, and with them an
extremum that lies between two ticks; what `downsample_extrema` keeps are the extrema of what it
is given.
-/

set_option autoImplicit false

namespace CryptoNav.Pnl

open CryptoNav.Lib

/-! ## Resampling -/

/-- `point` has the values of the last of `points` that is not after it. -/
def Holds (points : List PnlPoint) (point : PnlPoint) : Prop :=
  ∃ before last after, points = before ++ last :: after ∧ last.ts ≤ point.ts ∧
    (∀ next ∈ after, point.ts < next.ts) ∧ point = { last with ts := point.ts }

/-- The samples of a curve: its points at the start, at the multiples of the interval and at the
    end. -/
structure SampledAndHeld (points : List PnlPoint) (startMs endMs intervalMs : ℤ)
    (sampled : List PnlPoint) : Prop where
  times : ∀ ts, ts ∈ sampled.map PnlPoint.ts ↔
    ts = startMs ∨ ts = endMs ∨ (startMs < ts ∧ ts < endMs ∧ intervalMs ∣ ts)
  increasing : sampled.Pairwise fun a b => a.ts < b.ts
  held : ∀ point ∈ sampled, Holds points point

/-- Where `push_at` stands: `current` is the last point taken off, at the time of the last sample. -/
def Cursor (points : List PnlPoint) (current : PnlPoint) (rest : List PnlPoint) : Prop :=
  ∃ before last, points = before ++ last :: rest ∧ last.ts ≤ current.ts ∧
    current = { last with ts := current.ts }

variable {points rest : List PnlPoint} {current : PnlPoint}

theorem Cursor.holds (h : Cursor points current rest) (hrest : ∀ next ∈ rest, current.ts < next.ts) :
    Holds points current := by
  obtain ⟨before, last, hpoints, hle, hcurrent⟩ := h
  exact ⟨before, last, rest, hpoints, hle, hrest, hcurrent⟩

/-- One call of the closure `push_at`: the sample at `ts`, and the points still ahead. -/
def pushAt (ts : ℤ) (current : PnlPoint) (rest : List PnlPoint) : PnlPoint × List PnlPoint :=
  ({ (advanceTo ts current rest).1 with ts }, (advanceTo ts current rest).2)

@[simp] theorem pushAt_ts (ts : ℤ) (current : PnlPoint) (rest : List PnlPoint) :
    (pushAt ts current rest).1.ts = ts := rfl

theorem resampleTicks_succ {endMs intervalMs tickMs : ℤ} (fuel : ℕ) (hlt : tickMs < endMs)
    (hne : saturate (tickMs + intervalMs) ≠ tickMs) :
    resampleTicks endMs intervalMs (fuel + 1) tickMs current rest =
      ((pushAt tickMs current rest).1 :: (resampleTicks endMs intervalMs fuel
          (saturate (tickMs + intervalMs)) (pushAt tickMs current rest).1
          (pushAt tickMs current rest).2).1,
        (resampleTicks endMs intervalMs fuel (saturate (tickMs + intervalMs))
          (pushAt tickMs current rest).1 (pushAt tickMs current rest).2).2) := by
  rw [resampleTicks, if_pos hlt]
  simp only [if_neg hne]
  rfl

/-- A `push_at` moves the cursor to its time and leaves only later points ahead of it. -/
theorem Cursor.advance (hsorted : points.Pairwise fun a b => a.ts < b.ts) {ts : ℤ}
    (h : Cursor points current rest) (hts : current.ts ≤ ts) :
    Cursor points (pushAt ts current rest).1 (pushAt ts current rest).2 ∧
      ∀ next ∈ (pushAt ts current rest).2, ts < next.ts := by
  induction rest generalizing current with
  | nil =>
    obtain ⟨before, last, hpoints, hle, hcurrent⟩ := h
    refine ⟨⟨before, last, hpoints, hle.trans hts, ?_⟩, fun next hnext => (by cases hnext)⟩
    rw [pushAt, advanceTo, hcurrent]
  | cons next rest ih =>
    obtain ⟨before, last, hpoints, hle, hcurrent⟩ := h
    by_cases hnext : next.ts ≤ ts
    · rw [pushAt, advanceTo, if_pos hnext]
      refine ih ⟨before ++ [last], next, ?_, le_rfl, rfl⟩ hnext
      rw [hpoints, List.append_assoc]
      rfl
    · rw [pushAt, advanceTo, if_neg hnext]
      refine ⟨⟨before, last, hpoints, hle.trans hts, ?_⟩, ?_⟩
      · rw [hcurrent]
      · -- the points ahead are sorted, and the first of them is late already
        rw [hpoints] at hsorted
        have hahead := (List.pairwise_cons.mp (List.pairwise_append.mp hsorted).2.1).2
        intro later hlater
        rcases List.mem_cons.mp hlater with rfl | hlater
        · exact not_le.mp hnext
        · exact (not_le.mp hnext).trans ((List.pairwise_cons.mp hahead).1 later hlater)

theorem resampleTicks_of_le {endMs intervalMs tickMs : ℤ} (fuel : ℕ) (h : endMs ≤ tickMs) :
    resampleTicks endMs intervalMs fuel tickMs current rest = ([], current, rest) := by
  cases fuel with
  | zero => rfl
  | succ fuel => rw [resampleTicks, if_neg (not_lt.mpr h)]

/-- A tick that saturates is past the end either way. -/
theorem resampleTicks_saturate {endMs intervalMs tickMs : ℤ} (fuel : ℕ) (hmin : i64Min ≤ tickMs)
    (hmax : endMs ≤ i64Max) :
    resampleTicks endMs intervalMs fuel (saturate tickMs) current rest =
      resampleTicks endMs intervalMs fuel tickMs current rest := by
  by_cases htick : tickMs ≤ i64Max
  · rw [saturate, min_eq_right htick, max_eq_right hmin]
  · have hover : saturate tickMs = i64Max := by
      rw [saturate, min_eq_left (not_le.mp htick).le]
      rfl
    rw [hover, resampleTicks_of_le fuel hmax,
      resampleTicks_of_le fuel (hmax.trans (not_le.mp htick).le)]

/-- The loop over the ticks takes one sample at each of them that is before the end. -/
structure Ticked (points : List PnlPoint) (tickMs endMs intervalMs : ℤ)
    (result : List PnlPoint × PnlPoint × List PnlPoint) : Prop where
  times : ∀ ts, ts ∈ result.1.map PnlPoint.ts ↔
    (tickMs ≤ ts ∧ intervalMs ∣ ts - tickMs) ∧ ts < endMs
  increasing : result.1.Pairwise fun a b => a.ts < b.ts
  held : ∀ point ∈ result.1, Holds points point
  cursor : Cursor points result.2.1 result.2.2
  before_end : result.2.1.ts ≤ endMs

theorem dvd_sub_iff_next {interval tick ts : ℤ} (hinterval : 0 < interval) :
    (tick ≤ ts ∧ interval ∣ ts - tick) ↔
      ts = tick ∨ (tick + interval ≤ ts ∧ interval ∣ ts - (tick + interval)) := by
  constructor
  · rintro ⟨hle, k, hk⟩
    rcases eq_or_lt_of_le hle with heq | hlt
    · exact .inl heq.symm
    · have hpos : 0 < k := by
        by_contra hneg
        nlinarith
      refine .inr ⟨by nlinarith, k - 1, by linarith⟩
  · rintro (rfl | ⟨hle, k, hk⟩)
    · exact ⟨le_rfl, by simp⟩
    · exact ⟨by linarith, k + 1, by linarith⟩

theorem ticked_resampleTicks (hsorted : points.Pairwise fun a b => a.ts < b.ts)
    {endMs intervalMs : ℤ} (hinterval : 0 < intervalMs) (hmax : endMs ≤ i64Max) (fuel : ℕ)
    {tickMs : ℤ} (hmin : i64Min ≤ tickMs) (hfuel : endMs ≤ tickMs + fuel * intervalMs)
    (hcursor : Cursor points current rest) (htick : current.ts ≤ tickMs)
    (hend : current.ts ≤ endMs) :
    Ticked points tickMs endMs intervalMs
      (resampleTicks endMs intervalMs fuel tickMs current rest) := by
  induction fuel generalizing tickMs current rest with
  | zero =>
    refine ⟨fun ts => ⟨fun h => (by cases h), fun ⟨⟨hle, _⟩, hlt⟩ => ?_⟩, .nil,
      fun point h => (by cases h), hcursor, hend⟩
    have hpast : endMs ≤ tickMs := by simpa using hfuel
    omega
  | succ fuel ih =>
    by_cases hlt : tickMs < endMs
    · obtain ⟨hnext, hahead⟩ := hcursor.advance hsorted htick
      have hheld := hnext.holds hahead
      have hne : saturate (tickMs + intervalMs) ≠ tickMs := by
        simp only [saturate]
        omega
      have hon : ∀ ts, ts = tickMs → ts < endMs := fun ts h => h ▸ hlt
      have hmin' : i64Min ≤ tickMs + intervalMs := by omega
      have hfuel' : endMs ≤ tickMs + intervalMs + fuel * intervalMs := by
        push_cast at hfuel
        linarith
      obtain ⟨htimes, hincreasing, hrest, hcursor', hbefore⟩ :=
        ih hmin' hfuel' hnext
          (show tickMs ≤ tickMs + intervalMs by omega) hlt.le
      rw [resampleTicks_succ fuel hlt hne, resampleTicks_saturate fuel hmin' hmax]
      refine ⟨fun ts => ?_, List.pairwise_cons.mpr ⟨fun later hlater => ?_, hincreasing⟩,
        List.forall_mem_cons.mpr ⟨hheld, hrest⟩, hcursor', hbefore⟩
      · rw [List.map_cons, List.mem_cons, htimes, pushAt_ts, or_congr_left (iff_self_and.mpr (hon ts)),
          ← or_and_right, ← dvd_sub_iff_next hinterval]
      · have hlate := ((htimes later.ts).mp (List.mem_map_of_mem hlater)).1.1
        show tickMs < later.ts
        omega
    · rw [resampleTicks, if_neg hlt]
      refine ⟨fun ts => ⟨fun h => (by cases h), fun ⟨⟨hle, _⟩, hbefore⟩ => ?_⟩, .nil,
        fun point h => (by cases h), hcursor, hend⟩
      omega

/-- The same of the first tick, which saturates twice. -/
theorem resampleTicks_first {startMs endMs intervalMs : ℤ} (fuel : ℕ) (hinterval : 0 < intervalMs)
    (hmin : i64Min ≤ startMs) (hmax : endMs ≤ i64Max) :
    resampleTicks endMs intervalMs fuel (saturate (saturate (startMs / intervalMs + 1) * intervalMs))
        current rest =
      resampleTicks endMs intervalMs fuel ((startMs / intervalMs + 1) * intervalMs) current rest := by
  have hquot : startMs < (startMs / intervalMs + 1) * intervalMs :=
    Int.lt_ediv_add_one_mul_self startMs hinterval
  by_cases htick : startMs / intervalMs + 1 ≤ i64Max
  · have hlow : i64Min ≤ startMs / intervalMs + 1 := by
      have hneg : i64Min * intervalMs ≤ i64Min := by
        simp only [i64Min]
        omega
      have := (Int.le_ediv_iff_mul_le hinterval).mpr (hneg.trans hmin)
      omega
    have hexact : saturate (startMs / intervalMs + 1) = startMs / intervalMs + 1 := by
      rw [saturate, min_eq_right htick, max_eq_right hlow]
    rw [hexact, resampleTicks_saturate fuel (hmin.trans hquot.le) hmax]
  · have hover : saturate (startMs / intervalMs + 1) = i64Max := by
      rw [saturate, min_eq_left (not_le.mp htick).le]
      rfl
    have hpast : i64Max ≤ i64Max * intervalMs := le_mul_of_one_le_right (by decide) (by omega)
    have hlate : i64Max * intervalMs ≤ (startMs / intervalMs + 1) * intervalMs :=
      Int.mul_le_mul_of_nonneg_right (not_le.mp htick).le hinterval.le
    have hlow : i64Min ≤ i64Max * intervalMs := le_trans (by decide) hpast
    rw [hover, resampleTicks_saturate fuel hlow hmax,
      resampleTicks_of_le fuel (hmax.trans hpast),
      resampleTicks_of_le fuel (hmax.trans (hpast.trans hlate))]

/-- The first tick is the first multiple of the interval after the start. -/
theorem first_tick {startMs intervalMs ts : ℤ} (hinterval : 0 < intervalMs) :
    ((startMs / intervalMs + 1) * intervalMs ≤ ts ∧
      intervalMs ∣ ts - (startMs / intervalMs + 1) * intervalMs) ↔
        startMs < ts ∧ intervalMs ∣ ts := by
  rw [dvd_sub_left (Dvd.intro_left _ rfl)]
  refine and_congr_left fun ⟨k, hk⟩ => ?_
  rw [hk, mul_comm intervalMs k, mul_le_mul_iff_left₀ hinterval, ← Int.ediv_lt_iff_lt_mul hinterval]
  omega

/-- The first sample, the ticks and the last sample together. -/
theorem Ticked.sampledAndHeld (hsorted : points.Pairwise fun a b => a.ts < b.ts)
    {endMs intervalMs : ℤ} {start : PnlPoint} (hinterval : 0 < intervalMs)
    (hend : start.ts ≤ endMs) (hstart : Holds points start)
    {result : List PnlPoint × PnlPoint × List PnlPoint}
    (h : Ticked points ((start.ts / intervalMs + 1) * intervalMs) endMs intervalMs result) :
    SampledAndHeld points start.ts endMs intervalMs
      (if start.ts < endMs then
        start :: result.1 ++ [(pushAt endMs result.2.1 result.2.2).1]
      else start :: result.1) := by
  have htimes : ∀ ts, ts ∈ result.1.map PnlPoint.ts ↔
      (start.ts < ts ∧ intervalMs ∣ ts) ∧ ts < endMs := by
    intro ts
    rw [h.times, first_tick hinterval]
  have hincreasing : (start :: result.1).Pairwise fun a b => a.ts < b.ts := by
    refine List.pairwise_cons.mpr ⟨fun later hlater => ?_, h.increasing⟩
    exact ((htimes later.ts).mp (List.mem_map_of_mem hlater)).1.1
  have hheld : ∀ point ∈ start :: result.1, Holds points point :=
    List.forall_mem_cons.mpr ⟨hstart, h.held⟩
  by_cases hlt : start.ts < endMs
  · rw [if_pos hlt]
    obtain ⟨hlast, hnone⟩ := h.cursor.advance hsorted h.before_end
    constructor
    · intro ts
      rw [List.map_append, List.mem_append, List.map_cons, List.mem_cons, htimes, List.map_singleton,
        List.mem_singleton, pushAt_ts]
      tauto
    · refine List.pairwise_append.mpr ⟨hincreasing, List.pairwise_singleton _ _, ?_⟩
      intro a ha b hb
      rw [List.mem_singleton.mp hb, pushAt_ts]
      rcases List.mem_cons.mp ha with rfl | ha
      · exact hlt
      · exact ((htimes a.ts).mp (List.mem_map_of_mem ha)).2
    · intro point hpoint
      rcases List.mem_append.mp hpoint with hpoint | hpoint
      · exact hheld point hpoint
      · rw [List.mem_singleton.mp hpoint]
        exact hlast.holds hnone
  · rw [if_neg hlt]
    refine ⟨fun ts => ?_, hincreasing, hheld⟩
    have hsame : start.ts = endMs := le_antisymm hend (not_lt.mp hlt)
    rw [List.map_cons, List.mem_cons, htimes, ← hsame]
    constructor
    · rintro (h | ⟨⟨hafter, -⟩, hbefore⟩)
      · exact .inl h
      · exact absurd hafter (lt_asymm hbefore)
    · rintro (h | h | ⟨hafter, hbefore, -⟩)
      · exact .inl h
      · exact .inl h
      · exact absurd hafter (lt_asymm hbefore)

/-- **Resampling is sample and hold**: one point at the start, at each multiple of the interval
    between start and end, and at the end, with the values of the last point of the curve that is
    not after it. Ticks that saturate are at the end of the clock's range, so the range is all that
    is asked of the times. -/
theorem resampleFixedInterval_sampledAndHeld {startMs endMs intervalMs : ℤ}
    (hsorted : points.Pairwise fun a b => a.ts < b.ts)
    (hfirst : points.head?.map PnlPoint.ts = some startMs) (hend : startMs ≤ endMs)
    (hinterval : 0 < intervalMs) (hmin : i64Min ≤ startMs) (hmax : endMs ≤ i64Max) :
    SampledAndHeld points startMs endMs intervalMs
      (resampleFixedInterval points startMs endMs intervalMs) := by
  cases points with
  | nil => cases hfirst
  | cons first rest =>
    obtain rfl : first.ts = startMs := Option.some.inj hfirst
    have hstart : Cursor (first :: rest) first rest := ⟨[], first, rfl, le_rfl, rfl⟩
    obtain ⟨hcursor, hahead⟩ := hstart.advance hsorted le_rfl
    have hquot : first.ts < (first.ts / intervalMs + 1) * intervalMs :=
      Int.lt_ediv_add_one_mul_self first.ts hinterval
    have hspan : endMs - first.ts < ((endMs - first.ts) / intervalMs + 1) * intervalMs :=
      Int.lt_ediv_add_one_mul_self _ hinterval
    have hspan0 : 0 ≤ (endMs - first.ts) / intervalMs :=
      Int.ediv_nonneg (by omega) hinterval.le
    have hfuel : endMs ≤ (first.ts / intervalMs + 1) * intervalMs
        + ((((endMs - first.ts) / intervalMs + 2).toNat : ℕ) : ℤ) * intervalMs := by
      rw [Int.toNat_of_nonneg (by omega)]
      nlinarith
    have hticked := ticked_resampleTicks hsorted hinterval hmax _ (by omega) hfuel hcursor
      hquot.le hend
    rw [resampleFixedInterval, if_neg (not_or.mpr ⟨not_le.mpr hinterval, not_lt.mpr hend⟩)]
    simp only [resampleTicks_first _ hinterval hmin hmax]
    have hsample : (pushAt first.ts first rest).1.ts ≤ endMs := hend
    have hsampled := hticked.sampledAndHeld hsorted hinterval hsample (hcursor.holds hahead)
    exact hsampled

theorem resampleFixedInterval_quarter_hours :
    let point (ts : ℤ) (pnl : ℚ) : PnlPoint := { ts, totalPnlUsdt := pnl }
    let points := [point 100000 1, point 950000 2, point 1810000 3]
    SampledAndHeld points 100000 1810000 900000
      (resampleFixedInterval points 100000 1810000 900000) :=
  resampleFixedInterval_sampledAndHeld (by decide +kernel) rfl (by decide) (by decide) (by decide)
    (by decide)

/-! ## Downsampling -/

/-- What a thinned curve keeps of the curve. -/
structure KeepsShape (points : List PnlPoint) (maxPoints : ℕ) (sampled : List PnlPoint) : Prop where
  bound : sampled.length ≤ maxPoints
  sublist : sampled.Sublist points
  increasing : sampled.Pairwise fun a b => a.ts < b.ts
  first : sampled.head? = points.head?
  last : sampled.getLast? = points.getLast?
  least : ∀ value ∈ valueSelectors, points ≠ [] → ∃ p ∈ sampled, ∀ q ∈ points, value p ≤ value q
  greatest : ∀ value ∈ valueSelectors, points ≠ [] → ∃ p ∈ sampled, ∀ q ∈ points, value q ≤ value p

section Chunks

variable {α : Type} {size : ℕ}

/-- The chunks are the list cut up. -/
theorem flatten_chunks (hsize : 0 < size) {fuel : ℕ} {l : List α} (h : l.length ≤ fuel) :
    (chunks size fuel l).flatten = l := by
  induction fuel generalizing l with
  | zero => rw [List.length_eq_zero_iff.mp (Nat.le_zero.mp h)]; rfl
  | succ fuel ih =>
    cases l with
    | nil => rfl
    | cons a l =>
      have hrest : ((a :: l).drop size).length ≤ fuel := by
        rw [List.length_drop]
        omega
      rw [chunks, List.flatten_cons, ih hrest, List.take_append_drop]

/-- There are no more of them than it takes to hold the list. -/
theorem length_chunks_le {fuel n : ℕ} {l : List α} (h : l.length ≤ n * size) :
    (chunks size fuel l).length ≤ n := by
  induction fuel generalizing l n with
  | zero => exact Nat.zero_le n
  | succ fuel ih =>
    cases l with
    | nil => exact Nat.zero_le n
    | cons a l =>
      cases n with
      | zero => simp at h
      | succ n =>
        have hrest : ((a :: l).drop size).length ≤ n * size := by
          rw [List.length_drop]
          rw [Nat.succ_mul] at h
          omega
        rw [chunks, List.length_cons]
        exact Nat.succ_le_succ (ih hrest)

theorem length_flatMap_le {β : Type} {f : α → List β} {n : ℕ} (h : ∀ a, (f a).length ≤ n)
    (l : List α) : (l.flatMap f).length ≤ l.length * n := by
  induction l with
  | nil => exact Nat.zero_le _
  | cons a l ih =>
    rw [List.flatMap_cons, List.length_append, List.length_cons, Nat.succ_mul, Nat.add_comm]
    exact Nat.add_le_add ih (h a)

end Chunks

section Extrema

variable {α : Type} {value : α → ℚ}

theorem best_minBy (value : α → ℚ) (l : List α) :
    Best (fun a b => value a ≤ value b) (minBy value l) l := by
  cases l with
  | nil => rfl
  | cons a l =>
    have hrefl : ∀ b, value b ≤ value b := fun b => le_refl (value b)
    have htrans : ∀ b c d, value b ≤ value c → value c ≤ value d → value b ≤ value d :=
      fun _ _ _ => le_trans
    have hsingle : Best (fun a b => value a ≤ value b) (some a) [a] := Best.single hrefl a
    refine hsingle.foldl hrefl htrans fun a b => ?_
    by_cases h : value b < value a
    · exact .inr ⟨if_pos h, h.le⟩
    · exact .inl ⟨if_neg h, not_lt.mp h⟩

theorem best_maxBy (value : α → ℚ) (l : List α) :
    Best (fun a b => value b ≤ value a) (maxBy value l) l := by
  cases l with
  | nil => rfl
  | cons a l =>
    have hrefl : ∀ b, value b ≤ value b := fun b => le_refl (value b)
    have hsingle : Best (fun a b => value b ≤ value a) (some a) [a] := Best.single hrefl a
    refine hsingle.foldl hrefl (fun _ _ _ hab hbc => hbc.trans hab) fun a b => ?_
    by_cases h : value a ≤ value b
    · exact .inr ⟨if_pos h, h⟩
    · exact .inl ⟨if_neg h, (not_le.mp h).le⟩

end Extrema

section Bucket

variable {bucket : List PnlPoint}

/-- The points a bucket keeps, before they are put in order. -/
def extrema (bucket : List PnlPoint) : List PnlPoint :=
  valueSelectors.flatMap fun value => (minBy value bucket).toList ++ (maxBy value bucket).toList

theorem extrema_subset (bucket : List PnlPoint) : extrema bucket ⊆ bucket := by
  intro point hpoint
  obtain ⟨value, -, hpoint⟩ := List.mem_flatMap.mp hpoint
  rcases List.mem_append.mp hpoint with hleast | hgreatest
  · exact (best_minBy value bucket).mem_of_toList hleast
  · exact (best_maxBy value bucket).mem_of_toList hgreatest

theorem length_extrema_le (bucket : List PnlPoint) :
    (extrema bucket).length ≤ valueSelectors.length * 2 := by
  refine length_flatMap_le (fun value => ?_) valueSelectors
  have hone : ∀ best : Option PnlPoint, best.toList.length ≤ 1 := fun best => by cases best <;> simp
  rw [List.length_append]
  exact Nat.add_le_add (hone (minBy value bucket)) (hone (maxBy value bucket))

theorem length_bucketExtrema_le (bucket : List PnlPoint) :
    (bucketExtrema bucket).length ≤ valueSelectors.length * 2 :=
  calc (bucketExtrema bucket).length
      ≤ (sortByKey PnlPoint.ts (extrema bucket)).length := (List.destutter_sublist _ _).length_le
    _ = (extrema bucket).length := (sortByKey_perm PnlPoint.ts _).length_eq
    _ ≤ valueSelectors.length * 2 := length_extrema_le bucket

theorem bucketExtrema_increasing (bucket : List PnlPoint) :
    (bucketExtrema bucket).Pairwise fun a b => a.ts < b.ts :=
  destutter_strict (sortByKey_pairwise PnlPoint.ts (extrema bucket))

/-- Where points have different times, dropping repeated times drops no extremum. -/
theorem mem_bucketExtrema (h : bucket.Pairwise fun a b => a.ts < b.ts) {point : PnlPoint} :
    point ∈ bucketExtrema bucket ↔ point ∈ extrema bucket := by
  have hstrict := List.pairwise_map.mpr (h.imp ne_of_lt)
  have hsame : ∀ a ∈ sortByKey PnlPoint.ts (extrema bucket),
      ∀ b ∈ sortByKey PnlPoint.ts (extrema bucket), a.ts ≠ b.ts ↔ a ≠ b := by
    intro a ha b hb
    have hinj := List.inj_on_of_nodup_map hstrict (extrema_subset bucket (mem_sortByKey.mp ha))
      (extrema_subset bucket (mem_sortByKey.mp hb))
    exact not_congr ⟨hinj, congrArg PnlPoint.ts⟩
  have hmap := List.map_destutter (f := id) hsame
  rw [List.map_id, List.map_id] at hmap
  rw [show bucketExtrema bucket = _ from hmap, mem_destutter, mem_sortByKey]

/-- The extrema of a bucket are some of its points, in order. -/
theorem bucketExtrema_sublist (h : bucket.Pairwise fun a b => a.ts < b.ts) :
    (bucketExtrema bucket).Sublist bucket :=
  sublist_of_strictly_sorted PnlPoint.ts (bucketExtrema_increasing bucket) h fun _ hpoint =>
    extrema_subset bucket ((mem_bucketExtrema h).mp hpoint)

end Bucket

/-- Between them the buckets hold a least and a greatest point of every value of the interior. -/
theorem exists_extremum {size : ℕ} {interior : List PnlPoint} (hsize : 0 < size)
    (hsorted : interior.Pairwise fun a b => a.ts < b.ts) {r : PnlPoint → PnlPoint → Prop}
    {best : List PnlPoint → Option PnlPoint} (hbest : ∀ l, Best r (best l) l)
    (hextrema : ∀ bucket, (best bucket).toList ⊆ extrema bucket) {point : PnlPoint}
    (hpoint : point ∈ interior) :
    ∃ p ∈ (chunks size interior.length interior).flatMap bucketExtrema, r p point := by
  have hflatten := flatten_chunks hsize (le_refl interior.length)
  rw [← hflatten] at hpoint
  obtain ⟨bucket, hbucket, hpoint⟩ := List.mem_flatten.mp hpoint
  have hstrict : bucket.Pairwise fun a b => a.ts < b.ts := by
    rw [← hflatten] at hsorted
    exact (List.pairwise_flatten.mp hsorted).1 bucket hbucket
  cases h : best bucket with
  | none =>
    have hnil := hbest bucket
    rw [h] at hnil
    exact absurd (show bucket = [] from hnil) (List.ne_nil_of_mem hpoint)
  | some p =>
    have hleast := hbest bucket
    rw [h] at hleast
    have hkept : p ∈ extrema bucket := hextrema bucket (h ▸ Option.mem_toList.mpr rfl)
    exact ⟨p, List.mem_flatMap.mpr ⟨bucket, hbucket, (mem_bucketExtrema hstrict).mpr hkept⟩,
      hleast.2 point hpoint⟩

/-- The buckets cover the interior, and there are no more of them than there is room for. -/
theorem bucket_size {interior maxPoints : ℕ} (hmax : 10 ≤ maxPoints) (hinterior : 0 < interior) :
    let bucketCount := max ((maxPoints - 2) / (valueSelectors.length * 2)) 1
    let bucketSize := (interior + bucketCount - 1) / bucketCount
    0 < bucketSize ∧ interior ≤ bucketCount * bucketSize ∧
      bucketCount * (valueSelectors.length * 2) + 2 ≤ maxPoints := by
  intro bucketCount bucketSize
  have hcount : 0 < bucketCount := lt_of_lt_of_le Nat.one_pos (le_max_right _ _)
  have hroom : bucketCount = (maxPoints - 2) / 8 := max_eq_left (show 1 ≤ (maxPoints - 2) / 8 by omega)
  have hdiv : bucketCount * bucketSize + (interior + bucketCount - 1) % bucketCount
      = interior + bucketCount - 1 := Nat.div_add_mod _ _
  have hmod := Nat.mod_lt (interior + bucketCount - 1) hcount
  refine ⟨Nat.div_pos (by omega) hcount, by omega, ?_⟩
  show bucketCount * 8 + 2 ≤ maxPoints
  omega

/-- The ends of a curve and what its buckets hold stand for all its points. -/
theorem exists_extremum_of_curve {size : ℕ} {first last : PnlPoint} {interior : List PnlPoint}
    (hsize : 0 < size) (hsorted : interior.Pairwise fun a b => a.ts < b.ts)
    {r : PnlPoint → PnlPoint → Prop} (hrefl : ∀ a, r a a) (htrans : ∀ a b c, r a b → r b c → r a c)
    {best : List PnlPoint → Option PnlPoint} (hbest : ∀ l, Best r (best l) l)
    (hextrema : ∀ bucket, (best bucket).toList ⊆ extrema bucket) :
    ∃ p ∈ first :: (chunks size interior.length interior).flatMap bucketExtrema ++ [last],
      ∀ q ∈ first :: interior ++ [last], r p q := by
  obtain ⟨least, hmem, hleast⟩ := (hbest (first :: interior ++ [last])).exists_mem (by simp)
  suffices h : ∃ p ∈ first :: (chunks size interior.length interior).flatMap bucketExtrema ++ [last],
      r p least by
    obtain ⟨p, hp, hr⟩ := h
    exact ⟨p, hp, fun q hq => htrans p least q hr (hleast q hq)⟩
  rcases List.mem_append.mp hmem with hmem | hmem
  · rcases List.mem_cons.mp hmem with rfl | hmem
    · exact ⟨least, List.mem_cons_self, hrefl least⟩
    · obtain ⟨p, hp, hr⟩ := exists_extremum hsize hsorted hbest hextrema hmem
      exact ⟨p, List.mem_append_left _ (List.mem_cons_of_mem _ hp), hr⟩
  · exact ⟨least, List.mem_append_right _ hmem, hrefl least⟩

/-- The buckets hold some of the interior, in order. -/
theorem flatMap_bucketExtrema_sublist {size : ℕ} {interior : List PnlPoint} (hsize : 0 < size)
    (hsorted : interior.Pairwise fun a b => a.ts < b.ts) :
    ((chunks size interior.length interior).flatMap bucketExtrema).Sublist interior := by
  have hflatten := flatten_chunks hsize (le_refl interior.length)
  generalize chunks size interior.length interior = buckets at hflatten ⊢
  subst hflatten
  induction buckets with
  | nil => exact .slnil
  | cons bucket buckets ih =>
    rw [List.flatten_cons] at hsorted ⊢
    obtain ⟨hbucket, hrest, -⟩ := List.pairwise_append.mp hsorted
    exact (bucketExtrema_sublist hbucket).append (ih hrest)

theorem exists_interior {α : Type} {l : List α} (h : 2 ≤ l.length) :
    ∃ first interior last, l = first :: interior ++ [last] := by
  obtain ⟨first, rest, rfl⟩ := List.exists_cons_of_length_pos (show 0 < l.length by omega)
  have hrest : rest ≠ [] := by
    rintro rfl
    simp at h
  exact ⟨first, rest.dropLast, rest.getLast hrest, by
    rw [List.cons_append, List.dropLast_append_getLast]⟩

theorem keepsShape_self {points : List PnlPoint} {maxPoints : ℕ}
    (hsorted : points.Pairwise fun a b => a.ts < b.ts) (hlength : points.length ≤ maxPoints) :
    KeepsShape points maxPoints points where
  bound := hlength
  sublist := .refl points
  increasing := hsorted
  first := rfl
  last := rfl
  least value _ hne := (best_minBy value points).exists_mem hne
  greatest value _ hne := (best_maxBy value points).exists_mem hne

/-- **Downsampling keeps the shape of the curve** within the number of points asked for: some of its
    points in their order, the two ends among them and, of every value that is plotted, a point
    where it is least and one where it is greatest. -/
theorem downsampleExtrema_keepsShape {points : List PnlPoint} {maxPoints : ℕ}
    (hsorted : points.Pairwise fun a b => a.ts < b.ts) (hmax : 10 ≤ maxPoints) :
    KeepsShape points maxPoints (downsampleExtrema points maxPoints) := by
  by_cases hshort : points.length ≤ maxPoints
  · rw [downsampleExtrema, if_pos (.inl hshort)]
    exact keepsShape_self hsorted hshort
  · obtain ⟨first, interior, last, rfl⟩ := exists_interior (show 2 ≤ points.length by omega)
    have hinterior : 0 < interior.length := by
      rw [List.length_append, List.length_cons, List.length_singleton] at hshort
      omega
    obtain ⟨hsize, hcover, hroom⟩ := bucket_size hmax hinterior
    have hcut : ((first :: interior ++ [last]).drop 1).dropLast = interior := by simp
    have hlast : (first :: interior ++ [last]).getLast?.toList = [last] := by
      rw [List.getLast?_concat]
      rfl
    have hinner : interior.Pairwise fun a b => a.ts < b.ts :=
      (List.pairwise_cons.mp (List.pairwise_append.mp hsorted).1).2
    rw [downsampleExtrema, if_neg (not_or.mpr ⟨hshort, not_lt.mpr hmax⟩)]
    simp only [hcut, hlast]
    generalize max ((maxPoints - 2) / (valueSelectors.length * 2)) 1 = bucketCount
      at hsize hcover hroom ⊢
    generalize (interior.length + bucketCount - 1) / bucketCount = size at hsize hcover ⊢
    have hchunks : (chunks size interior.length interior).length ≤ bucketCount :=
      length_chunks_le hcover
    have hbuckets := length_flatMap_le length_bucketExtrema_le (chunks size interior.length interior)
    have hsublist : (first :: (chunks size interior.length interior).flatMap bucketExtrema
        ++ [last]).Sublist (first :: interior ++ [last]) :=
      ((flatMap_bucketExtrema_sublist hsize hinner).cons_cons first).append (.refl _)
    refine ⟨?_, hsublist, hsorted.sublist hsublist, rfl, ?_, ?_, ?_⟩
    · calc (first :: (chunks size interior.length interior).flatMap bucketExtrema ++ [last]).length
          = ((chunks size interior.length interior).flatMap bucketExtrema).length + 2 := by simp
        _ ≤ (chunks size interior.length interior).length * (valueSelectors.length * 2) + 2 :=
          Nat.add_le_add_right hbuckets 2
        _ ≤ bucketCount * (valueSelectors.length * 2) + 2 :=
          Nat.add_le_add_right (Nat.mul_le_mul_right _ hchunks) 2
        _ ≤ maxPoints := hroom
    · exact List.getLast?_concat.trans List.getLast?_concat.symm
    · intro value hvalue _
      refine exists_extremum_of_curve hsize hinner (fun _ => le_refl _)
        (fun _ _ _ => le_trans) (best_minBy value) fun bucket p hp => ?_
      exact List.mem_flatMap.mpr ⟨value, hvalue, List.mem_append_left _ hp⟩
    · intro value hvalue _
      refine exists_extremum_of_curve hsize hinner (fun _ => le_refl _)
        (fun _ _ _ hab hbc => le_trans hbc hab) (best_maxBy value) fun bucket p hp => ?_
      exact List.mem_flatMap.mpr ⟨value, hvalue, List.mem_append_right _ hp⟩

/-- A point an hour, of a value that swings. -/
theorem downsampleExtrema_twelve_hours :
    let points := (List.range 12).map fun hour : ℕ =>
      ({ ts := 3600000 * hour, totalPnlUsdt := if hour % 2 = 0 then hour else -hour } : PnlPoint)
    KeepsShape points 10 (downsampleExtrema points 10) :=
  downsampleExtrema_keepsShape (by decide +kernel) (by decide)

end CryptoNav.Pnl
