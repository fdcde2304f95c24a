import Mathlib.Data.List.Basic
import Mathlib.Data.List.Induction
import Mathlib.Data.Nat.Notation
import Mathlib.Order.MinMax

/-!
# A queue with a window and a limit

Arrivals queue up. From the front, those that have expired are dropped, up to the first one that has
not; then the front is dropped as far as the queue is too long. An arrival that has expired stays
where it stands behind one that has not (`kept_fresh_iff`). What has not expired stays where it is
among the last ones (`mem_kept_iff`).

Arrivals are kept in the order in which they came, which need not be the order of their times: a
clock may be set back, and a source may report late. That is the point of the file. With times
that never go back the window is exact, and then `kept` is what its name says; the equivalences
here say what is left of this without that assumption, and none of them bounds how long
something expired can stay.
-/

set_option autoImplicit false

namespace CryptoNav.Lib

variable {α : Type*} {expired : α → Bool} {limit : ℕ} {arrivals : List α}

/-- The arrivals that are kept. -/
def kept (expired : α → Bool) (limit : ℕ) (arrivals : List α) : List α :=
  (arrivals.dropWhile expired).drop ((arrivals.dropWhile expired).length - limit)

/-- The last arrivals, as many as can be kept. -/
def recent (limit : ℕ) (arrivals : List α) : List α := arrivals.drop (arrivals.length - limit)

theorem kept_suffix : kept expired limit arrivals <:+ arrivals :=
  (List.drop_suffix _ _).trans (List.dropWhile_suffix expired)

theorem length_kept :
    (kept expired limit arrivals).length = min limit (arrivals.dropWhile expired).length := by
  rw [kept, List.length_drop]
  omega

/-- Before an arrival that has not expired, the front ends. -/
theorem dropWhile_of_fresh {before after : List α} {a : α} (ha : expired a = false) :
    ∃ more, (before ++ a :: after).dropWhile expired = more ++ a :: after := by
  induction before with
  | nil => exact ⟨[], by rw [List.nil_append, List.dropWhile_cons_of_neg (by simp [ha])]⟩
  | cons b before ih =>
    rw [List.cons_append]
    by_cases hb : expired b = true
    · rw [List.dropWhile_cons_of_pos hb]
      exact ih
    · exact ⟨b :: before, by rw [List.dropWhile_cons_of_neg hb]; rfl⟩

/-- What has not expired is kept if it is recent. -/
theorem mem_kept_iff {a : α} (ha : expired a = false) :
    a ∈ kept expired limit arrivals ↔ a ∈ recent limit arrivals := by
  have hsuffix : arrivals.dropWhile expired <:+ arrivals := List.dropWhile_suffix expired
  constructor
  · -- Both are ends of the arrivals, and the recent ones are not fewer.
    intro hmem
    have hlength := @length_kept α expired limit arrivals
    have hle : (kept expired limit arrivals).length ≤ (recent limit arrivals).length := by
      have := hsuffix.length_le
      rw [hlength, recent, List.length_drop]
      omega
    exact (List.suffix_of_suffix_length_le kept_suffix (List.drop_suffix _ _) hle).subset hmem
  · intro hmem
    obtain ⟨u, v, hsplit⟩ := List.append_of_mem hmem
    have harrivals : arrivals = (arrivals.take (arrivals.length - limit) ++ u) ++ a :: v := by
      rw [List.append_assoc, ← hsplit, recent, List.take_append_drop]
    obtain ⟨more, hmore⟩ := @dropWhile_of_fresh α expired
      (arrivals.take (arrivals.length - limit) ++ u) v a ha
    rw [← harrivals] at hmore
    have hv : v.length < limit := by
      have hlength := congrArg List.length hsplit
      rw [recent, List.length_drop, List.length_append, List.length_cons] at hlength
      omega
    rw [kept, hmore, List.drop_append_of_le_length]
    · exact List.mem_append_right _ List.mem_cons_self
    · rw [List.length_append, List.length_cons]
      omega

/-- **All that is kept is fresh** just when among the recent arrivals none that has expired stands
    behind one that has not. -/
theorem kept_fresh_iff : (∀ a ∈ kept expired limit arrivals, expired a = false) ↔
    ∀ before a after, arrivals = before ++ a :: after → after.length < limit → expired a →
      ∀ b ∈ before, expired b := by
  constructor
  · intro h before a after hsplit hafter ha b hb
    by_contra hfresh
    rw [Bool.not_eq_true] at hfresh
    obtain ⟨u, v, rfl⟩ := List.append_of_mem hb
    rw [List.append_assoc, List.cons_append] at hsplit
    obtain ⟨more, hmore⟩ := @dropWhile_of_fresh α expired u (v ++ a :: after) b hfresh
    have hkept : a ∈ kept expired limit arrivals := by
      have hrest : arrivals.dropWhile expired = (more ++ b :: v) ++ a :: after := by
        rw [hsplit, hmore]
        simp only [List.append_assoc, List.cons_append]
      rw [kept, hrest, List.drop_append_of_le_length]
      · exact List.mem_append_right _ List.mem_cons_self
      · rw [List.length_append, List.length_cons]
        omega
    have hnot := h a hkept
    rw [ha] at hnot
    cases hnot
  · intro h a hmem
    by_contra ha
    rw [Bool.not_eq_false] at ha
    obtain ⟨u, v, hsplit⟩ := List.append_of_mem hmem
    obtain ⟨w, hw⟩ := @kept_suffix α expired limit arrivals
    rw [hsplit, ← List.append_assoc] at hw
    have hlength := @length_kept α expired limit arrivals
    rw [hsplit, List.length_append, List.length_cons] at hlength
    -- All up to `a` has expired, so that nothing of it would have been kept.
    have hexpired := h (w ++ u) a v hw.symm (by omega) ha
    have hdrop : arrivals.dropWhile expired = v.dropWhile expired := by
      rw [← hw, ← List.singleton_append, ← List.append_assoc, List.dropWhile_append_of_pos]
      intro b hb
      rcases List.mem_append.mp hb with hb | hb
      · exact hexpired b hb
      · rw [List.mem_singleton.mp hb]
        exact ha
    have hle : (v.dropWhile expired).length ≤ v.length := (List.dropWhile_suffix expired).length_le
    rw [hdrop] at hlength
    omega

/-- What is dropped from a queue that is not too long has expired. -/
theorem kept_of_length_le (h : (arrivals.dropWhile expired).length ≤ limit) :
    arrivals = arrivals.takeWhile expired ++ kept expired limit arrivals := by
  rw [kept, Nat.sub_eq_zero_of_le h, List.drop_zero, List.takeWhile_append_dropWhile]

/-! ## The last arrival -/

variable {κ : Type*} [LinearOrder κ]

/-- The last one is the greatest. -/
def NewestLast (key : α → κ) (arrivals : List α) (among : List α) : Prop :=
  ∀ before last, arrivals = before ++ [last] → ∀ a ∈ among, key a ≤ key last

theorem getLast?_eq_max?_iff (key : α → κ) (l : List α) :
    l.getLast?.map key = (l.map key).max? ↔ NewestLast key l l := by
  cases l using List.reverseRecOn with
  | nil => exact iff_of_true rfl fun before last h => absurd h (by simp)
  | append_singleton l a _ =>
    rw [List.getLast?_concat, Option.map_some, eq_comm, List.max?_eq_some_iff]
    constructor
    · rintro ⟨-, hle⟩ before last heq b hb
      obtain ⟨-, hlast⟩ := List.append_inj' heq rfl
      rw [← List.singleton_inj.mp hlast]
      exact hle _ (List.mem_map_of_mem hb)
    · intro h
      refine ⟨List.mem_map_of_mem (List.mem_append_right _ (List.mem_singleton.mpr rfl)), ?_⟩
      intro k hk
      obtain ⟨b, hb, rfl⟩ := List.mem_map.mp hk
      exact h l a rfl b hb

/-- Where all that is kept is fresh, its last one is the last arrival. -/
theorem newestLast_kept_iff (key : α → κ)
    (h : ∀ a ∈ kept expired limit arrivals, expired a = false) :
    NewestLast key (kept expired limit arrivals) (kept expired limit arrivals) ↔
      NewestLast key arrivals ((recent limit arrivals).filter fun a => !expired a) := by
  obtain ⟨w, hw⟩ := @kept_suffix α expired limit arrivals
  have hmem : ∀ a, a ∈ (recent limit arrivals).filter (fun a => !expired a) ↔
      a ∈ kept expired limit arrivals := by
    intro a
    rw [List.mem_filter, Bool.not_eq_true']
    constructor
    · rintro ⟨ha, hfresh⟩
      exact (mem_kept_iff hfresh).mpr ha
    · intro ha
      exact ⟨(mem_kept_iff (h a ha)).mp ha, h a ha⟩
  constructor
  · intro hnewest before last hsplit a ha
    rw [hmem] at ha
    obtain ⟨queue, hqueue⟩ : ∃ queue, kept expired limit arrivals = queue ++ [last] := by
      have hne := List.ne_nil_of_mem ha
      refine ⟨(kept expired limit arrivals).dropLast, ?_⟩
      have hlast : (kept expired limit arrivals).getLast hne = last := by
        have hgetLast : arrivals.getLast? = some last := by rw [hsplit, List.getLast?_concat]
        rw [← hw, List.getLast?_append_of_ne_nil _ hne, List.getLast?_eq_some_getLast hne] at hgetLast
        exact Option.some.inj hgetLast
      rw [← hlast, List.dropLast_append_getLast]
    exact hnewest queue last hqueue a ha
  · intro hnewest queue last hqueue a ha
    refine hnewest (w ++ queue) last ?_ a ((hmem a).mpr ha)
    rw [← hw, hqueue, List.append_assoc]

end CryptoNav.Lib
