import Mathlib.Algebra.BigOperators.Group.List.Basic
import Mathlib.Algebra.Order.BigOperators.Group.List
import Mathlib.Algebra.Order.Ring.Rat
import Mathlib.Data.List.Induction

/-!
# Sums of rounded numbers

A finite floating-point number is a rational, and an operation on two of them is the exact one
followed by a rounding. A program whose sums go through the hook `fl` is written once and read
twice: with `unrounded`, which is what is meant wherever nothing else is said, its sums are exact;
and what is proved over any `[Rounding]` holds of the machine's numbers too. All that is asked of
`fl` is that zero stays zero, so of rounded sums nothing is left of associativity: in which order
numbers are added, and in which parts, is part of the result.

Numbers of one `Grid` are the exception: as long as they stay on it, their sums and differences are
the exact ones. Infinities and NaN are no rationals, so a sum past the greatest finite number is
left out.

The hook is a class because the definitions that use it should read as the program does, without
an argument for every sum; the price is that a statement has to name the rounding where it means
another one than `unrounded`. Products and quotients have no hook of their own, since they are
rounded where they are formed and not where they are added up.
-/

set_option autoImplicit false

namespace CryptoNav.Lib

/-- How the exact result of an operation is rounded. -/
class Rounding where
  fl : ℚ → ℚ
  fl_zero : fl 0 = 0

/-- Exact arithmetic. -/
instance unrounded : Rounding := ⟨fun q => q, rfl⟩

@[simp] theorem fl_unrounded (q : ℚ) : Rounding.fl q = q := rfl

@[simp] theorem fl_sub_self [Rounding] (q : ℚ) : Rounding.fl (q - q) = 0 := by
  rw [sub_self, Rounding.fl_zero]

/-! ## Running sums -/

/-- `sum += x` for one number after the other, starting from the first. -/
def runningSum [Rounding] : List ℚ → ℚ
  | [] => 0
  | x :: xs => xs.foldl (fun sum x => Rounding.fl (sum + x)) x

theorem runningSum_single [Rounding] (x : ℚ) : runningSum [x] = x := rfl

theorem runningSum_append_single [Rounding] {xs : List ℚ} (h : xs ≠ []) (x : ℚ) :
    runningSum (xs ++ [x]) = Rounding.fl (runningSum xs + x) := by
  cases xs with
  | nil => exact absurd rfl h
  | cons y ys => exact List.foldl_append

/-- Without rounding a running sum is the sum. -/
theorem runningSum_unrounded (xs : List ℚ) : runningSum xs = xs.sum := by
  induction xs using List.reverseRecOn with
  | nil => rfl
  | append_singleton xs x ih =>
    by_cases h : xs = []
    · rw [h, List.nil_append, runningSum_single, List.sum_singleton]
    · rw [runningSum_append_single h, fl_unrounded, ih, List.sum_append, List.sum_singleton]

/-! ## Grids -/

/-- Numbers that have their sums and differences among them, a sum as long as one of them is as
    great, and that are not rounded: the multiples of a unit up to some bound. -/
structure Grid [Rounding] (G : ℚ → Prop) : Prop where
  zero : G 0
  nonneg : ∀ {a}, G a → 0 ≤ a
  sub : ∀ {a b}, G a → G b → b ≤ a → G (a - b)
  add : ∀ {a b c}, G a → G b → G c → a + b ≤ c → G (a + b)
  fl : ∀ {a}, G a → Rounding.fl a = a

/-- Without rounding there is no bound, and no unit. -/
theorem grid_unrounded : Grid fun q : ℚ => 0 ≤ q where
  zero := le_rfl
  nonneg := id
  sub := fun _ _ h => sub_nonneg.mpr h
  add := fun ha hb _ _ => add_nonneg ha hb
  fl := fun _ => rfl

namespace Grid

variable [Rounding] {G : ℚ → Prop}

theorem fl_sub (hG : Grid G) {a b : ℚ} (ha : G a) (hb : G b) (h : b ≤ a) :
    Rounding.fl (a - b) = a - b := hG.fl (hG.sub ha hb h)

theorem fl_add (hG : Grid G) {a b c : ℚ} (ha : G a) (hb : G b) (hc : G c) (h : a + b ≤ c) :
    Rounding.fl (a + b) = a + b := hG.fl (hG.add ha hb hc h)

theorem sum_nonneg (hG : Grid G) {xs : List ℚ} (hxs : ∀ x ∈ xs, G x) : 0 ≤ xs.sum :=
  List.sum_nonneg fun x hx => hG.nonneg (hxs x hx)

/-- Numbers added one after the other, their sum being on the grid. -/
theorem foldl_fl_add (hG : Grid G) {a c : ℚ} {xs : List ℚ} (ha : G a) (hxs : ∀ x ∈ xs, G x)
    (hc : G c) (h : a + xs.sum ≤ c) :
    xs.foldl (fun sum x => Rounding.fl (sum + x)) a = a + xs.sum ∧ G (a + xs.sum) := by
  induction xs generalizing a with
  | nil => simpa using ha
  | cons x xs ih =>
    obtain ⟨hx, hxs⟩ := List.forall_mem_cons.mp hxs
    rw [List.sum_cons, ← add_assoc] at h ⊢
    have hle : a + x ≤ c := (le_add_of_nonneg_right (hG.sum_nonneg hxs)).trans h
    rw [List.foldl_cons, hG.fl_add ha hx hc hle]
    exact ih (hG.add ha hx hc hle) hxs h

/-- Up to a number on the grid a running sum is the sum. -/
theorem runningSum_eq (hG : Grid G) {c : ℚ} {xs : List ℚ} (hxs : ∀ x ∈ xs, G x) (hc : G c)
    (h : xs.sum ≤ c) : runningSum xs = xs.sum ∧ G xs.sum := by
  cases xs with
  | nil => exact ⟨rfl, hG.zero⟩
  | cons x xs =>
    obtain ⟨hx, hxs⟩ := List.forall_mem_cons.mp hxs
    rw [List.sum_cons] at h ⊢
    exact hG.foldl_fl_add hx hxs hc h

end Grid
end CryptoNav.Lib
