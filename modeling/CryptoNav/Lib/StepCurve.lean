import Mathlib.Data.List.Induction
import Mathlib.Data.List.TakeWhile
import Mathlib.Order.Bounds.Basic
import Mathlib.Order.Interval.Set.Defs
import Mathlib.Order.MinMax
import CryptoNav.Lib.Sorting

/-!
# Step curves and their peaks

A curve over time that only changes at the points of a list: between two of them it keeps the value
of the earlier one, before the first an opening value. Its peak at a time is the greatest value it
has had so far. A program follows the peak along the list and keeps the greatest of some measure of
peak and value, such as how far the value has fallen; `scanPeaks_isGreatestFall` says that this is
the greatest along the whole curve.

Times and values are linear orders and nothing more: how far a curve has fallen is a parameter
`f` of peak and value, so that an absolute fall and a relative one are two uses of the same
theorem, and the greatest fall is greatest in the order of whatever `f` returns. Values between
two points are not interpolated, and a curve without points is its opening value everywhere.
Points of one time have to have one value (`IsCurve`); which of two different ones would count
is not decided here.
-/

set_option autoImplicit false

namespace CryptoNav.Lib

variable {T K L : Type*} [LinearOrder T] [LinearOrder K] [LinearOrder L]

/-! ## Following the peak along a list -/

theorem foldl_max_isGreatest (peak : K) (values : List K) :
    IsGreatest (insert peak {v | v ∈ values}) (values.foldl max peak) := by
  induction values generalizing peak with
  | nil => exact ⟨.inl rfl, fun v hv => (hv.resolve_right (by simp)).le⟩
  | cons v values ih =>
    obtain ⟨hmem, hle⟩ := ih (max peak v)
    constructor
    · rcases hmem with hmax | hmem
      · rw [List.foldl_cons, hmax]
        rcases max_choice peak v with h | h
        · exact .inl h
        · rw [h]
          exact .inr List.mem_cons_self
      · exact .inr (List.mem_cons_of_mem _ hmem)
    · have hbase : max peak v ≤ (v :: values).foldl max peak := hle (.inl rfl)
      rintro w (rfl | hw)
      · exact (le_max_left _ _).trans hbase
      · rcases List.mem_cons.mp hw with rfl | hw
        · exact (le_max_right _ _).trans hbase
        · exact hle (.inr hw)

/-- Values that are no greater leave the peak where it is. -/
theorem foldl_max_of_le {peak : K} {values : List K} (h : ∀ v ∈ values, v ≤ peak) :
    values.foldl max peak = peak := by
  induction values with
  | nil => rfl
  | cons v values ih =>
    obtain ⟨hv, hvalues⟩ := List.forall_mem_cons.mp h
    rw [List.foldl_cons, max_eq_left hv]
    exact ih hvalues

/-- The greatest `f peak value` so far, where the peak takes each value in first. -/
def scanPeaks (f : K → K → L) (peak : K) (greatest : L) : List K → L
  | [] => greatest
  | v :: values => scanPeaks f (max peak v) (max greatest (f (max peak v) v)) values

theorem scanPeaks_isGreatest (f : K → K → L) (peak : K) (greatest : L) (values : List K) :
    IsGreatest (insert greatest {x | ∃ before v after, values = before ++ v :: after ∧
        x = f ((before ++ [v]).foldl max peak) v})
      (scanPeaks f peak greatest values) := by
  induction values generalizing peak greatest with
  | nil =>
    refine ⟨.inl rfl, ?_⟩
    rintro x (rfl | ⟨before, v, after, h, -⟩)
    · exact le_rfl
    · exact absurd h (by simp)
  | cons v values ih =>
    obtain ⟨hmem, hle⟩ := ih (max peak v) (max greatest (f (max peak v) v))
    constructor
    · rcases hmem with hmax | ⟨before, w, after, rfl, hx⟩
      · rw [scanPeaks, hmax]
        rcases max_choice greatest (f (max peak v) v) with h | h
        · exact .inl h
        · exact .inr ⟨[], v, values, rfl, h⟩
      · exact .inr ⟨v :: before, w, after, rfl, hx⟩
    · have hbase : max greatest (f (max peak v) v) ≤ scanPeaks f peak greatest (v :: values) :=
        hle (.inl rfl)
      rintro x (rfl | ⟨before, w, after, hsplit, rfl⟩)
      · exact (le_max_left _ _).trans hbase
      · cases before with
        | nil =>
          obtain ⟨rfl, -⟩ := List.cons.inj hsplit
          exact (le_max_right _ _).trans hbase
        | cons u before =>
          obtain ⟨rfl, hrest⟩ := List.cons.inj hsplit
          exact hle (.inr ⟨before, w, after, hrest, rfl⟩)

/-- `v` is in the list, and `u` at its place or before it. -/
def UpTo (values : List K) (u v : K) : Prop :=
  ∃ before after, values = before ++ v :: after ∧ u ∈ before ++ [v]

omit [LinearOrder K] in
theorem UpTo.mem {values : List K} {u v : K} (h : UpTo values u v) : u ∈ values ∧ v ∈ values := by
  obtain ⟨before, after, rfl, hu⟩ := h
  refine ⟨?_, List.mem_append_right _ List.mem_cons_self⟩
  rw [← List.singleton_append, ← List.append_assoc]
  exact List.mem_append_left _ hu

/-- Where `f` grows with the peak, the peak may be any value so far. -/
theorem scanPeaks_isGreatest_upTo {f : K → K → L} {first : K} {values : List K}
    (hmono : ∀ x ∈ first :: values, ∀ y ∈ first :: values, ∀ v ∈ first :: values, x ≤ y →
      f x v ≤ f y v) :
    IsGreatest {x | ∃ u v, UpTo (first :: values) u v ∧ x = f u v}
      (scanPeaks f first (f first first) values) := by
  obtain ⟨hmem, hle⟩ := scanPeaks_isGreatest f first (f first first) values
  constructor
  · rcases hmem with hfirst | ⟨before, v, after, hsplit, hx⟩
    · exact ⟨first, first, ⟨[], values, rfl, List.mem_cons_self⟩, hfirst⟩
    · refine ⟨_, v, ⟨first :: before, after, congrArg (first :: ·) hsplit, ?_⟩, hx⟩
      exact List.mem_cons.mpr (foldl_max_isGreatest first (before ++ [v])).1
  · rintro x ⟨u, v, hupTo, rfl⟩
    obtain ⟨hu, hv⟩ := hupTo.mem
    obtain ⟨before, after, hsplit, hbefore⟩ := hupTo
    cases before with
    | nil =>
      obtain ⟨rfl, -⟩ := List.cons.inj hsplit
      rw [List.mem_singleton.mp hbefore]
      exact hle (.inl rfl)
    | cons c before =>
      obtain ⟨rfl, hrest⟩ := List.cons.inj hsplit
      have hpeak := foldl_max_isGreatest first (before ++ [v])
      have hpeakMem : (before ++ [v]).foldl max first ∈ first :: values := by
        rcases hpeak.1 with hfirst | hmem
        · rw [hfirst]
          exact List.mem_cons_self
        · exact List.mem_cons_of_mem _ (UpTo.mem ⟨before, after, hrest, hmem⟩).1
      have hup : u ≤ (before ++ [v]).foldl max first := hpeak.2 (List.mem_cons.mp hbefore)
      exact (hmono u hu _ hpeakMem v hv hup).trans (hle (.inr ⟨before, v, after, hrest, rfl⟩))

/-! ## Curves -/

/-- The value at `t` of the curve through `points`. -/
def stepAt (opening : K) (points : List (T × K)) (t : T) : K :=
  ((points.takeWhile (·.1 ≤ t)).getLast?).elim opening (·.2)

/-- The greatest value of a curve from `start` to `t`, its opening value counted. -/
def IsPeak (opening : K) (curve : T → K) (start t : T) (peak : K) : Prop :=
  IsGreatest (insert opening (curve '' Set.Icc start t)) peak

/-- The greatest `f peak value` along a curve; it starts at its peak. -/
def IsGreatestFall (f : K → K → L) (opening : K) (curve : T → K) (start ending : T) (x : L) : Prop :=
  IsGreatest (insert (f opening opening)
    {x | ∃ t ∈ Set.Icc start ending, ∃ peak, IsPeak opening curve start t peak ∧
      x = f peak (curve t)}) x

/-- There is one such. -/
theorem IsGreatestFall.unique {f : K → K → L} {opening : K} {curve : T → K} {start ending : T}
    {x y : L} (hx : IsGreatestFall f opening curve start ending x)
    (hy : IsGreatestFall f opening curve start ending y) : x = y := IsGreatest.unique hx hy

/-- Points in order of time; those of one time have one value. -/
structure IsCurve (points : List (T × K)) : Prop where
  sorted : points.Pairwise fun a b => a.1 ≤ b.1
  single : points.Pairwise fun a b => a.1 = b.1 → a.2 = b.2

variable {opening : K} {points : List (T × K)}

omit [LinearOrder K] [LinearOrder L] in
/-- A curve of other values has them throughout. -/
theorem stepAt_map (f : K → L) (t : T) :
    stepAt (f opening) (points.map fun c => (c.1, f c.2)) t = f (stepAt opening points t) := by
  have htake : (points.map fun c => (c.1, f c.2)).takeWhile (·.1 ≤ t)
      = (points.takeWhile (·.1 ≤ t)).map fun c => (c.1, f c.2) := by
    rw [List.takeWhile_map]
    rfl
  rw [stepAt, stepAt, htake, List.getLast?_map]
  cases (points.takeWhile (·.1 ≤ t)).getLast? with
  | none => rfl
  | some c => rfl

omit [LinearOrder K] [LinearOrder L] in
theorem IsCurve.map (h : IsCurve points) (f : K → L) :
    IsCurve (points.map fun c => (c.1, f c.2)) where
  sorted := List.pairwise_map.mpr h.sorted
  single := List.pairwise_map.mpr (h.single.imp fun hab heq => congrArg f (hab heq))

omit [LinearOrder K] in
theorem IsCurve.filter (h : IsCurve points) (p : T × K → Bool) : IsCurve (points.filter p) where
  sorted := h.sorted.filter p
  single := h.single.filter p

omit [LinearOrder K] in
/-- Up to the time of a point, the points are those before it and some of the same value. -/
theorem IsCurve.takeWhile_eq {before after : List (T × K)} {c : T × K}
    (h : IsCurve (before ++ c :: after)) : ∃ same : List (T × K),
      (before ++ c :: after).takeWhile (·.1 ≤ c.1) = before ++ c :: same ∧
      ∀ d ∈ same, d.2 = c.2 := by
  obtain ⟨-, hafter, hbefore⟩ := List.pairwise_append.mp h.sorted
  obtain ⟨-, hsingle, -⟩ := List.pairwise_append.mp h.single
  refine ⟨after.takeWhile (·.1 ≤ c.1), ?_, fun d hd => ?_⟩
  · rw [List.takeWhile_append_of_pos fun d hd => decide_eq_true (hbefore d hd c List.mem_cons_self),
      List.takeWhile_cons_of_pos (by simp)]
  · have hmem := (List.takeWhile_prefix _).subset hd
    have hle : d.1 ≤ c.1 := by simpa using List.mem_takeWhile_imp hd
    exact ((List.pairwise_cons.mp hsingle).1 d hmem
      (le_antisymm ((List.pairwise_cons.mp hafter).1 d hmem) hle)).symm

omit [LinearOrder K] in
/-- The curve goes through its points. -/
theorem IsCurve.stepAt_of_mem (h : IsCurve points) {c : T × K} (hc : c ∈ points) :
    stepAt opening points c.1 = c.2 := by
  obtain ⟨before, after, rfl⟩ := List.append_of_mem hc
  obtain ⟨same, htake, hsame⟩ := h.takeWhile_eq
  rw [stepAt, htake]
  cases same using List.reverseRecOn with
  | nil => rw [List.getLast?_concat]; rfl
  | append_singleton same d =>
    rw [← List.cons_append, ← List.append_assoc, List.getLast?_concat]
    exact hsame d (List.mem_append_right _ (List.mem_singleton.mpr rfl))

/-- The peak at a time is the greatest of the points up to it. -/
theorem IsCurve.isPeak (h : IsCurve points) {start ending t : T} {curve : T → K}
    (hmem : ∀ c ∈ points, start ≤ c.1)
    (hcurve : ∀ u ∈ Set.Icc start ending, curve u = stepAt opening points u) (ht : t ≤ ending) :
    IsPeak opening curve start t
      (((points.takeWhile (·.1 ≤ t)).map (·.2)).foldl max opening) := by
  obtain ⟨hgreatest, hle⟩ := foldl_max_isGreatest opening ((points.takeWhile (·.1 ≤ t)).map (·.2))
  constructor
  · rcases hgreatest with hopening | hvalue
    · exact .inl hopening
    · obtain ⟨c, hc, hvalue⟩ := List.mem_map.mp hvalue
      have hin := (List.takeWhile_prefix _).subset hc
      have hct : c.1 ≤ t := by simpa using List.mem_takeWhile_imp hc
      refine .inr ⟨c.1, ⟨hmem c hin, hct⟩, ?_⟩
      rw [hcurve c.1 ⟨hmem c hin, hct.trans ht⟩, h.stepAt_of_mem hin, hvalue]
  · rintro v (rfl | ⟨u, ⟨hu, hut⟩, rfl⟩)
    · exact hle (.inl rfl)
    · rw [hcurve u ⟨hu, hut.trans ht⟩, stepAt]
      cases hlast : (points.takeWhile (·.1 ≤ u)).getLast? with
      | none => exact hle (.inl rfl)
      | some c =>
        -- What comes before `u` comes before `t`.
        have hweaker := takeWhile_eq_append (p := fun d : T × K => decide (d.1 ≤ u))
          (q := fun d => decide (d.1 ≤ t))
          (fun d hd => decide_eq_true ((of_decide_eq_true hd).trans hut)) points
        refine hle (.inr (List.mem_map.mpr ⟨c, ?_, rfl⟩))
        rw [hweaker]
        exact List.mem_append_left _ (List.mem_of_getLast? hlast)

/-- **The scan finds the greatest fall** of the curve: it suffices to look at the points. -/
theorem scanPeaks_isGreatestFall (f : K → K → L) (h : IsCurve points) {start ending : T}
    {curve : T → K} (hmem : ∀ c ∈ points, c.1 ∈ Set.Icc start ending)
    (hcurve : ∀ t ∈ Set.Icc start ending, curve t = stepAt opening points t) :
    IsGreatestFall f opening curve start ending
      (scanPeaks f opening (f opening opening) (points.map (·.2))) := by
  have hpeak : ∀ t ≤ ending, IsPeak opening curve start t _ := fun t ht =>
    h.isPeak (fun c hc => (hmem c hc).1) hcurve ht
  obtain ⟨hgreatest, hle⟩ :=
    scanPeaks_isGreatest f opening (f opening opening) (points.map (·.2))
  constructor
  · rcases hgreatest with hopening | ⟨before, v, after, hsplit, hx⟩
    · exact .inl hopening
    · obtain ⟨first, rest, rfl, rfl, hrest⟩ := List.map_eq_append_iff.mp hsplit
      obtain ⟨c, last, rfl, rfl, rfl⟩ := List.map_eq_cons_iff.mp hrest
      have hc : c ∈ first ++ c :: last := List.mem_append_right _ List.mem_cons_self
      refine .inr ⟨c.1, hmem c hc, _, hpeak c.1 (hmem c hc).2, ?_⟩
      rw [hcurve c.1 (hmem c hc), h.stepAt_of_mem hc, hx]
      refine congrArg (f · c.2) ?_
      obtain ⟨same, htake, hsame⟩ := h.takeWhile_eq
      have happend : (first ++ c :: same).map (·.2)
          = (first.map (·.2) ++ [c.2]) ++ same.map (·.2) := by
        rw [List.map_append, List.map_cons, List.append_cons]
      rw [htake, happend]
      symm
      rw [@List.foldl_append _ _ _ _ (first.map (·.2) ++ [c.2]) (same.map (·.2))]
      apply foldl_max_of_le
      intro v hv
      obtain ⟨d, hd, rfl⟩ := List.mem_map.mp hv
      rw [hsame d hd, List.foldl_append]
      exact le_max_right _ _
  · rintro x (rfl | ⟨t, ht, peak, hispeak, rfl⟩)
    · exact hle (.inl rfl)
    · rw [hispeak.unique (hpeak t ht.2), hcurve t ht, stepAt]
      have hsplit := List.takeWhile_append_dropWhile (p := fun c : T × K => decide (c.1 ≤ t))
        (l := points)
      cases htake : points.takeWhile (·.1 ≤ t) using List.reverseRecOn with
      | nil => exact hle (.inl rfl)
      | append_singleton front c =>
        -- The fall at `t` is that at the last point before it.
        rw [htake] at hsplit
        rw [List.getLast?_concat, List.map_append]
        refine hle (.inr ⟨front.map (·.2), c.2, (points.dropWhile (·.1 ≤ t)).map (·.2), ?_, rfl⟩)
        rw [← List.map_cons, ← List.map_append, List.append_cons, hsplit]

end CryptoNav.Lib
