import Mathlib.Algebra.Order.Group.Nat
import Mathlib.Data.List.Pairwise
import Mathlib.Order.Defs.LinearOrder

/-!
# Pages of a sorted list

A page is the first so many elements of a list that a cursor has cut off at one end. In a list sorted
by what the cursor is compared with, the page is again cut off by a cursor, that of its last element
(`filter_le_last`), so that it is what lies between the two. A page that is asked for by where it
starts extends what has been read of the list, if it starts no later than that ends
(`mem_take_or_page`). Pages that follow each other are together the page from the first start to the
last end (`filter_between_append`), sorted or not.

Both kinds of page are of a list that stands still. A list that grows or changes while it is
being read is left out: then a page asked for by position may repeat or skip elements, and
whoever needs more has to say what it can rely on. The size of a page is a bound on it and not a
promise that it is full, and nothing here decides when to stop.
-/

set_option autoImplicit false

namespace CryptoNav.Lib

variable {α κ : Type*} [LinearOrder κ] {key : α → κ}

/-- A sorted list is what lies below a bound and then what does not. -/
theorem filter_lt_append {l : List α} (h : l.Pairwise fun a b => key a ≤ key b) (bound : κ) :
    l.filter (fun a => key a < bound) ++ l.filter (fun a => bound ≤ key a) = l := by
  induction l with
  | nil => rfl
  | cons a l ih =>
    obtain ⟨hfirst, hrest⟩ := List.pairwise_cons.mp h
    have hih := ih hrest
    by_cases ha : key a < bound
    · simp only [List.filter_cons, ha, not_le.mpr ha, decide_true, decide_false, if_true,
        Bool.false_eq_true, if_false, List.cons_append, hih]
    · have hempty : l.filter (fun a => key a < bound) = [] := by
        refine List.filter_eq_nil_iff.mpr fun b hb hlt => ha ?_
        exact lt_of_le_of_lt (hfirst b hb) (of_decide_eq_true hlt)
      rw [hempty, List.nil_append] at hih
      simp only [List.filter_cons, ha, not_lt.mp ha, decide_true, decide_false, if_true,
        Bool.false_eq_true, if_false, hempty, List.nil_append, hih]

/-- **A page ends where its last element does.** -/
theorem filter_le_last {l : List α} (h : l.Pairwise fun a b => key a < key b) {n : ℕ} {last : α}
    (hlast : (l.take n).getLast? = some last) :
    l.filter (fun a => key a ≤ key last) = l.take n := by
  obtain ⟨front, hfront⟩ := List.getLast?_eq_some_iff.mp hlast
  have hsplit := List.take_append_drop n l
  rw [← hsplit] at h
  obtain ⟨hpage, -, hafter⟩ := List.pairwise_append.mp h
  rw [hfront] at hpage
  have hwithin : ∀ a ∈ l.take n, key a ≤ key last := by
    intro a ha
    rw [hfront] at ha
    rcases List.mem_append.mp ha with ha | ha
    · exact le_of_lt ((List.pairwise_append.mp hpage).2.2 a ha last (List.mem_singleton.mpr rfl))
    · rw [List.mem_singleton.mp ha]
  have hpast : ∀ a ∈ l.drop n, ¬key a ≤ key last := by
    intro a ha
    exact not_le.mpr (hafter last (List.mem_of_getLast? hlast) a ha)
  have hwhole : l.filter (fun a => key a ≤ key last) =
      (l.take n ++ l.drop n).filter (fun a => key a ≤ key last) := by rw [hsplit]
  rw [hwhole, List.filter_append, List.filter_eq_self.mpr fun a ha => decide_eq_true (hwithin a ha),
    List.filter_eq_nil_iff.mpr fun a ha hle => hpast a ha (of_decide_eq_true hle), List.append_nil]

/-! ## Pages by position -/

theorem mem_take_of_le {α : Type*} {l : List α} {a : α} {m n : ℕ} (h : m ≤ n)
    (ha : a ∈ l.take m) : a ∈ l.take n :=
  (List.take_prefix_take_left h).subset ha

theorem mem_take_or_page {α : Type*} {l : List α} {a : α} {start read n : ℕ} (h : start ≤ read) :
    a ∈ l.take read ∨ a ∈ (l.drop start).take n ↔ a ∈ l.take (max read (start + n)) := by
  have hpage : a ∈ l.take (start + n) ↔ a ∈ l.take start ∨ a ∈ (l.drop start).take n := by
    rw [List.take_add, List.mem_append]
  constructor
  · rintro (ha | ha)
    · exact mem_take_of_le (le_max_left _ _) ha
    · exact mem_take_of_le (le_max_right _ _) (hpage.mpr (.inr ha))
  · intro ha
    rcases le_total (start + n) read with hle | hle
    · rw [max_eq_left hle] at ha
      exact .inl ha
    · rw [max_eq_right hle, hpage] at ha
      exact ha.imp_left (mem_take_of_le h)

/-- Two stretches of time that follow each other; what has no time is in neither. -/
theorem filter_between_append {time : α → Option κ} (l : List α) {start middle ending : κ}
    (hstart : start ≤ middle) (hend : middle ≤ ending) :
    ((l.filter fun a => (time a).any fun t => start ≤ t && t < middle) ++
      l.filter fun a => (time a).any fun t => middle ≤ t && t < ending).Perm
      (l.filter fun a => (time a).any fun t => start ≤ t && t < ending) := by
  refine ((List.filter_append_perm (fun a => (time a).any (· < middle)) _).symm.trans ?_).symm
  refine List.Perm.append (.of_eq ?_) (.of_eq ?_)
  all_goals
    rw [List.filter_filter]
    refine List.filter_congr fun a _ => ?_
    cases time a with
    | none => rfl
    | some t =>
      simp only [Option.any_some]
      grind

end CryptoNav.Lib
