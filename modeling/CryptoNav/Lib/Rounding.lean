import CryptoNav.Lib.Decimal
import CryptoNav.Lib.RunningSum
import Mathlib

/-!
# Rounding to binary64 numbers

The rounding of Lean's `Float` operations as a function of the exact result. Between two powers of
two `nearest` rounds to a multiple of the last place kept there, halves to even; it is monotone.
The machine shifts mantissas instead and keeps two bits of what it drops (`extend`); that the two
agree is `rounded_roundWithAccuracy`, with `rounded_round` and `rounded_divCore` for the forms in
which sums and quotients arrive.

`Lib.Binary64` and the reading of decimals use the rounding as a map of exact numbers;
`binary64` is the same map as the rounding of a program's sums. `nearest` knows no greatest
number: beyond it an operation overflows to an infinity, which no rational stands for, so that
what is proved of sums is about sums that stay in range. Small numbers are not left out. Their
last place is fixed, and of multiples of one place (`InUnits`) that need no more digits than
there are, no sum is rounded.
-/

set_option autoImplicit false

namespace CryptoNav.Lib

open Float.Model Float.Model.UnpackedFloat

/-! ## Rounding to a natural number -/

theorem floor_toNat (x : ℚ) : x.floor.toNat = ⌊x⌋₊ := rfl

theorem roundHalfEven_add (n : ℕ) {f : ℚ} (h0 : 0 ≤ f) (h1 : f < 1) :
    roundHalfEven (n + f) =
      if f < 1 / 2 ∨ (f = 1 / 2 ∧ n % 2 = 0) then n else n + 1 := by
  have hfloor : ⌊(n : ℚ) + f⌋₊ = n := by
    rw [Nat.floor_eq_iff (by positivity)]
    exact ⟨by linarith, by linarith⟩
  simp only [roundHalfEven, floor_toNat, hfloor, add_sub_cancel_left]

/-- A non-negative number is a natural number and a fraction. -/
theorem exists_nat_add {x : ℚ} (h : 0 ≤ x) : ∃ (n : ℕ) (f : ℚ), 0 ≤ f ∧ f < 1 ∧ x = n + f :=
  ⟨⌊x⌋₊, x - ⌊x⌋₊, by linarith [Nat.floor_le h], by linarith [Nat.lt_floor_add_one x], by ring⟩

theorem le_roundHalfEven {n : ℕ} {x : ℚ} (h : (n : ℚ) ≤ x) : n ≤ roundHalfEven x := by
  obtain ⟨k, f, h0, h1, rfl⟩ := exists_nat_add ((Nat.cast_nonneg n).trans h)
  have hk : n ≤ k := by
    have : (n : ℚ) < (k + 1 : ℕ) := by push_cast; linarith
    exact Nat.lt_succ_iff.mp (by exact_mod_cast this)
  rw [roundHalfEven_add k h0 h1]
  split <;> omega

theorem roundHalfEven_le {n : ℕ} {x : ℚ} (h0 : 0 ≤ x) (h : x ≤ n) : roundHalfEven x ≤ n := by
  obtain ⟨k, f, hf0, hf1, rfl⟩ := exists_nat_add h0
  rw [roundHalfEven_add k hf0 hf1]
  rcases hf0.eq_or_lt with rfl | hpos
  · simp only [add_zero, Nat.cast_le] at h
    simpa using h
  · have hk : k < n := by
      have : (k : ℚ) < n := by linarith
      exact_mod_cast this
    split <;> omega

@[simp] theorem roundHalfEven_natCast (n : ℕ) : roundHalfEven n = n :=
  le_antisymm (roundHalfEven_le (Nat.cast_nonneg n) le_rfl) (le_roundHalfEven le_rfl)

theorem roundHalfEven_mono {x y : ℚ} (h0 : 0 ≤ x) (h : x ≤ y) :
    roundHalfEven x ≤ roundHalfEven y := by
  obtain ⟨k, f, hf0, hf1, rfl⟩ := exists_nat_add h0
  rcases le_or_gt ((k + 1 : ℕ) : ℚ) y with hy | hy
  · calc roundHalfEven (k + f) ≤ k + 1 := roundHalfEven_le h0 (by push_cast; linarith)
      _ ≤ roundHalfEven y := le_roundHalfEven hy
  · -- both lie between the same two natural numbers
    have hg : y = k + (y - k) := by ring
    rw [hg, roundHalfEven_add k hf0 hf1,
      roundHalfEven_add k (by linarith) (by push_cast at hy; linarith)]
    split
    · split <;> omega
    · rename_i hf
      rw [if_neg]
      rintro (hlt | ⟨heq, heven⟩)
      · exact hf (.inl (by linarith))
      · rcases (show f ≤ 1 / 2 by linarith).lt_or_eq with hlt | hhalf
        · exact hf (.inl hlt)
        · exact hf (.inr ⟨hhalf, heven⟩)

/-! ## Rounding to a binary64 magnitude -/

/-- The exponent of the last binary place that a number of this magnitude keeps. -/
def lastPlace (x : ℚ) : ℤ := max (Int.log 2 x - 52) (-1074)

/-- The nearest magnitude, the even one of two that are as near, were there no greatest one. -/
def nearest (x : ℚ) : ℚ := roundHalfEven (x / 2 ^ lastPlace x) * 2 ^ lastPlace x

theorem lastPlace_mono {x y : ℚ} (hx : 0 < x) (h : x ≤ y) : lastPlace x ≤ lastPlace y :=
  max_le_max (by have := Int.log_mono_right (b := 2) hx h; omega) le_rfl

/-- A number has at most 53 binary places before its last one. -/
theorem div_lastPlace_lt (x : ℚ) : x / 2 ^ lastPlace x < 2 ^ 53 := by
  have hlog : x < 2 ^ (Int.log 2 x + 1) := Int.lt_zpow_succ_log_self one_lt_two x
  have hle : (2 : ℚ) ^ (Int.log 2 x + 1) ≤ 2 ^ (53 + lastPlace x) :=
    zpow_le_zpow_right₀ one_le_two (by rw [lastPlace]; omega)
  rw [div_lt_iff₀ (by positivity)]
  calc x < 2 ^ (53 + lastPlace x) := hlog.trans_le hle
    _ = 2 ^ 53 * 2 ^ lastPlace x := by rw [zpow_add₀ two_ne_zero]; rfl

theorem le_div_lastPlace {x : ℚ} (hx : 0 < x) (h : -1074 < lastPlace x) :
    2 ^ 52 ≤ x / 2 ^ lastPlace x := by
  have hlog : (2 : ℚ) ^ Int.log 2 x ≤ x := Int.zpow_log_le_self one_lt_two hx
  rw [le_div_iff₀ (by positivity)]
  calc (2 : ℚ) ^ 52 * 2 ^ lastPlace x = 2 ^ (52 + lastPlace x) := by
        rw [zpow_add₀ two_ne_zero]; rfl
    _ = 2 ^ Int.log 2 x := by congr 1; rw [lastPlace] at h ⊢; omega
    _ ≤ x := hlog

theorem nearest_nonneg (x : ℚ) : 0 ≤ nearest x := by unfold nearest; positivity

@[simp] theorem nearest_zero : nearest 0 = 0 := by
  have h : roundHalfEven 0 = 0 := by exact_mod_cast roundHalfEven_natCast 0
  simp [nearest, h]

theorem nearest_mono {x y : ℚ} (h0 : 0 ≤ x) (h : x ≤ y) : nearest x ≤ nearest y := by
  rcases h0.eq_or_lt with rfl | hx
  · rw [nearest_zero]
    exact nearest_nonneg y
  · have hplace := lastPlace_mono hx h
    rcases hplace.eq_or_lt with heq | hlt
    · simp only [nearest, heq]
      gcongr
      exact roundHalfEven_mono (by positivity) (by gcongr)
    · -- the smaller number rounds to at most 2 ^ 53 units of its last place, half as many of which
      -- the greater one has at least
      have hsmall : roundHalfEven (x / 2 ^ lastPlace x) ≤ 2 ^ 53 :=
        roundHalfEven_le (by positivity) (by exact_mod_cast (div_lastPlace_lt x).le)
      have hgreat : 2 ^ 52 ≤ roundHalfEven (y / 2 ^ lastPlace y) :=
        le_roundHalfEven (by
          exact_mod_cast le_div_lastPlace (hx.trans_le h) (by
            have : -1074 ≤ lastPlace x := le_max_right _ _
            omega))
      calc nearest x ≤ (2 ^ 53 : ℕ) * 2 ^ lastPlace x := by
            unfold nearest
            gcongr
        _ = 2 ^ 52 * 2 ^ (lastPlace x + 1) := by
            rw [zpow_add₀ two_ne_zero, zpow_one]
            norm_num
            ring
        _ ≤ (roundHalfEven (y / 2 ^ lastPlace y) : ℚ) * 2 ^ lastPlace y := by
            gcongr
            · exact_mod_cast hgreat
            · exact one_le_two
            · omega

theorem log_eq_log2_add {x : ℚ} {e : ℤ} (h : ⌊x / 2 ^ e⌋₊ ≠ 0) :
    Int.log 2 x = (⌊x / 2 ^ e⌋₊).log2 + e := by
  set m := ⌊x / 2 ^ e⌋₊ with hm
  have hpos : 0 < x / 2 ^ e := Nat.pos_of_floor_pos (Nat.pos_of_ne_zero h)
  have hx : 0 < x := (div_pos_iff_of_pos_right (by positivity)).mp hpos
  have hlow : (m : ℚ) * 2 ^ e ≤ x := (le_div_iff₀ (by positivity)).mp (Nat.floor_le hpos.le)
  have hhigh : x < (m + 1 : ℕ) * 2 ^ e := by
    rw [← div_lt_iff₀ (by positivity)]
    exact_mod_cast Nat.lt_floor_add_one (x / 2 ^ e)
  apply le_antisymm
  · apply Int.lt_add_one_iff.mp
    rw [← Int.lt_zpow_iff_log_lt one_lt_two hx]
    calc x < (m + 1 : ℕ) * 2 ^ e := hhigh
      _ ≤ (2 ^ (m.log2 + 1) : ℕ) * 2 ^ e := by
          gcongr
          exact Nat.lt_log2_self
      _ = _ := by
          push_cast
          rw [← zpow_natCast, ← zpow_add₀ two_ne_zero]
          push_cast
          congr 1
          ring
  · rw [← Int.zpow_le_iff_le_log one_lt_two hx]
    calc ((2 : ℕ) : ℚ) ^ ((m.log2 : ℤ) + e) = (2 ^ m.log2 : ℕ) * 2 ^ e := by
          push_cast
          rw [zpow_add₀ two_ne_zero, zpow_natCast]
      _ ≤ m * 2 ^ e := by
          gcongr
          exact Nat.log2_self_le h
      _ ≤ x := hlow

theorem log_mul_zpow {m : ℕ} (hm : 0 < m) (e : ℤ) :
    Int.log 2 ((m : ℚ) * 2 ^ e) = m.log2 + e := by
  have hself : (m : ℚ) * 2 ^ e / 2 ^ e = m := mul_div_cancel_right₀ _ (by positivity)
  rw [log_eq_log2_add (e := e)]
  all_goals rw [hself, Nat.floor_natCast]
  exact hm.ne'

/-- A number of fewer than 2 ^ 53 units is one of those that a mantissa holds. -/
theorem nearest_units {k : ℕ} {e : ℤ} (hk : k < 2 ^ 53) (he : -1074 ≤ e) :
    nearest (k * 2 ^ e) = k * 2 ^ e := by
  rcases Nat.eq_zero_or_pos k with rfl | hpos
  · simp
  · have hlog : k.log2 ≤ 52 := Nat.lt_succ_iff.mp ((Nat.log2_lt hpos.ne').mpr hk)
    have hplace : lastPlace ((k : ℚ) * 2 ^ e) ≤ e := by
      rw [lastPlace, log_mul_zpow hpos]
      omega
    obtain ⟨d, hd⟩ := Int.le.dest hplace
    have hunits : (k : ℚ) * 2 ^ e / 2 ^ lastPlace ((k : ℚ) * 2 ^ e) = (k * 2 ^ d : ℕ) := by
      rw [div_eq_iff (by positivity)]
      nth_rewrite 1 [← hd]
      rw [zpow_add₀ two_ne_zero, zpow_natCast]
      push_cast
      ring
    rw [nearest, hunits, roundHalfEven_natCast, ← hunits, div_mul_cancel₀ _ (by positivity)]

/-! ## The operations of a program -/

/-- What an operation makes of its exact result, were there no greatest number. -/
def roundBinary64 (q : ℚ) : ℚ := if 0 ≤ q then nearest q else -nearest (-q)

/-- The arithmetic of finite `f64`s. -/
@[reducible] def binary64 : Rounding where
  fl := roundBinary64
  fl_zero := by simp [roundBinary64]

/-- Fewer than 2 ^ 53 units of `2 ^ e`. -/
def InUnits (e : ℤ) (q : ℚ) : Prop := ∃ k : ℕ, k < 2 ^ 53 ∧ q = k * 2 ^ e

theorem inUnits_iff {e : ℤ} {q : ℚ} :
    InUnits e q ↔ ⌊q / 2 ^ e⌋₊ < 2 ^ 53 ∧ q = ⌊q / 2 ^ e⌋₊ * 2 ^ e := by
  constructor
  · rintro ⟨k, hk, rfl⟩
    rw [mul_div_cancel_right₀ _ (by positivity), Nat.floor_natCast]
    exact ⟨hk, rfl⟩
  · exact fun h => ⟨_, h⟩

instance (e : ℤ) : DecidablePred (InUnits e) := fun _ => decidable_of_iff' _ inUnits_iff

/-- **Numbers of one unit** are added and subtracted exactly, up to 2 ^ 53 units of it. -/
theorem binary64_grid {e : ℤ} (he : -1074 ≤ e) : @Grid binary64 (InUnits e) := by
  let _ := binary64
  constructor
  · exact ⟨0, by decide, by simp⟩
  · rintro _ ⟨k, -, rfl⟩
    positivity
  · rintro _ _ ⟨j, hj, rfl⟩ ⟨k, -, rfl⟩ hle
    have hkj : k ≤ j := by
      exact_mod_cast le_of_mul_le_mul_right hle (by positivity : (0 : ℚ) < 2 ^ e)
    refine ⟨j - k, (Nat.sub_le _ _).trans_lt hj, ?_⟩
    rw [Nat.cast_sub hkj, sub_mul]
  · rintro _ _ _ ⟨j, -, rfl⟩ ⟨k, -, rfl⟩ ⟨l, hl, rfl⟩ hle
    rw [← add_mul] at hle
    have hjk : j + k ≤ l := by
      exact_mod_cast le_of_mul_le_mul_right hle (by positivity : (0 : ℚ) < 2 ^ e)
    exact ⟨j + k, hjk.trans_lt hl, by push_cast; ring⟩
  · rintro _ ⟨k, hk, rfl⟩
    show roundBinary64 _ = _
    rw [roundBinary64, if_pos (by positivity), nearest_units hk he]

/-! ## The machine's rounding -/

/-- What is kept of a non-negative number: its whole part, whether a half or more is left, and
    whether there is anything else. -/
def extend (x : ℚ) : ExtendedMantissa where
  mantissa := ⌊x⌋₊
  roundBit := 1 / 2 ≤ x - ⌊x⌋₊
  stickyBit := x - ⌊x⌋₊ ≠ 0 ∧ x - ⌊x⌋₊ ≠ 1 / 2

theorem extend_add (n : ℕ) {f : ℚ} (h0 : 0 ≤ f) (h1 : f < 1) :
    extend (n + f) =
      { mantissa := n, roundBit := 1 / 2 ≤ f, stickyBit := f ≠ 0 ∧ f ≠ 1 / 2 } := by
  have hfloor : ⌊(n : ℚ) + f⌋₊ = n := by
    rw [Nat.floor_eq_iff (by positivity)]
    exact ⟨by linarith, by linarith⟩
  simp only [extend, hfloor, add_sub_cancel_left]

theorem roundedMantissa_extend {x : ℚ} (h : 0 ≤ x) :
    (extend x).roundedMantissa = roundHalfEven x := by
  obtain ⟨n, f, h0, h1, rfl⟩ := exists_nat_add h
  rw [extend_add n h0 h1, roundHalfEven_add n h0 h1]
  rcases lt_trichotomy f (1 / 2) with hlt | heq | hgt
  · rw [decide_eq_false hlt.not_ge, if_pos (.inl hlt)]
    by_cases hf : f ≠ 0 ∧ f ≠ 1 / 2
    · rw [decide_eq_true hf]; rfl
    · rw [decide_eq_false hf]; rfl
  · have hhalf : ¬(f ≠ 0 ∧ f ≠ 1 / 2) := fun hf => hf.2 heq
    have hrounded : ExtendedMantissa.roundedMantissa ⟨n, true, false⟩ = n + n % 2 := rfl
    rw [decide_eq_true heq.ge, decide_eq_false hhalf, hrounded]
    simp only [heq, lt_self_iff_false, false_or, true_and]
    split <;> omega
  · have hf : f ≠ 0 ∧ f ≠ 1 / 2 := ⟨by linarith, hgt.ne'⟩
    rw [decide_eq_true hgt.le, decide_eq_true hf, if_neg]
    · rfl
    · rintro (hlt | ⟨heq, -⟩)
      · exact hgt.not_gt hlt
      · exact hgt.ne' heq

theorem shiftRightOne_extend {x : ℚ} (h : 0 ≤ x) :
    (extend x).shiftRightOne = extend (x / 2) := by
  obtain ⟨n, f, h0, h1, rfl⟩ := exists_nat_add h
  have hhalf : ((n : ℚ) + f) / 2 = (n / 2 : ℕ) + ((n % 2 : ℕ) + f) / 2 := by
    have := Nat.div_add_mod n 2
    have hq : (n : ℚ) = 2 * (n / 2 : ℕ) + (n % 2 : ℕ) := by exact_mod_cast this.symm
    linarith
  have hmod : ((n % 2 : ℕ) : ℚ) ≤ 1 := by exact_mod_cast Nat.lt_succ_iff.mp (Nat.mod_lt n two_pos)
  rw [hhalf, extend_add n h0 h1,
    extend_add (n / 2) (by positivity) (by linarith)]
  have hbits : ((decide (1 / 2 ≤ f)) || decide (f ≠ 0 ∧ f ≠ 1 / 2)) = decide (f ≠ 0) := by
    rw [← Bool.decide_or, decide_eq_decide]
    constructor
    · rintro (hf | ⟨hf, -⟩)
      · linarith
      · exact hf
    · intro hf
      by_cases hhalf : f = 1 / 2
      · exact .inl hhalf.ge
      · exact .inr ⟨hf, hhalf⟩
  simp only [ExtendedMantissa.shiftRightOne, ExtendedMantissa.mk.injEq, true_and, hbits]
  rcases Nat.mod_two_eq_zero_or_one n with hn | hn
  · rw [hn]
    refine ⟨?_, ?_⟩
    · rw [decide_eq_false (by push_cast; linarith)]
      rfl
    · rw [decide_eq_decide]
      constructor
      · exact fun hf => ⟨by push_cast; linarith [lt_of_le_of_ne h0 hf.symm], by push_cast; linarith⟩
      · rintro ⟨hf, -⟩ rfl
        simp at hf
  · rw [hn]
    refine ⟨?_, ?_⟩
    · rw [decide_eq_true (by push_cast; linarith)]
      rfl
    · rw [decide_eq_decide]
      constructor
      · intro hf
        have hpos : 0 < f := lt_of_le_of_ne h0 (Ne.symm hf)
        exact ⟨by push_cast; linarith, by push_cast; linarith⟩
      · rintro ⟨-, hf⟩ rfl
        simp at hf

theorem shiftRight_extend {x : ℚ} (h : 0 ≤ x) (k : ℕ) :
    extend x >>> k = extend (x / 2 ^ k) := by
  change Nat.repeat ExtendedMantissa.shiftRightOne k (extend x) = _
  induction k with
  | zero => simp [Nat.repeat]
  | succ k ih =>
    rw [Nat.repeat, ih, shiftRightOne_extend (by positivity), div_div, pow_succ]

/-- A magnitude as a bit pattern stores it, but for an exponent that may be too great. -/
def Canonical (m : ℕ) (e : ℤ) : Prop := m < 2 ^ 53 ∧ -1074 ≤ e ∧ (m < 2 ^ 52 → e = -1074)

/-- The signed number nearest to a magnitude, were there no greatest one. -/
inductive Rounded (s : Sign) (x : ℚ) : UnpackedFloat → Prop
  | zero (h : nearest x = 0) : Rounded s x (.zero s)
  | finite {m : ℕ} {e : ℤ} (hm : 0 < m) (hc : Canonical m e) (h : nearest x = m * 2 ^ e) :
      Rounded s x (.finite s m e hm)

theorem targetExponent_binary64 (m : ℕ) (e : ℤ) :
    Format.binary64.targetExponent (totalExponent m e) = max (m.log2 + e - 52) (-1074) := by
  simp only [Format.targetExponent, totalExponent, Format.mantissaBits, Format.minExponent]
  norm_num
  omega

theorem mantissa_of_extend {m : ℕ} {acc : Accuracy} {x : ℚ}
    (h : ExtendedMantissa.ofMantissaAndAccuracy m acc = extend x) : m = ⌊x⌋₊ := by
  have hm : (ExtendedMantissa.ofMantissaAndAccuracy m acc).mantissa = m := by
    rcases acc with _ | (_ | _ | _) <;> rfl
  rw [← hm, h]
  rfl

/-- The first shift leaves what is kept of the number in units of its last place. -/
theorem shiftToTargetExponent_extend {m : ℕ} {e : ℤ} {acc : Accuracy} {x : ℚ} (hx : 0 < x)
    (hacc : ExtendedMantissa.ofMantissaAndAccuracy m acc = extend (x / 2 ^ e))
    (he : e ≤ lastPlace x) :
    shiftToTargetExponent .binary64 m e acc = (extend (x / 2 ^ lastPlace x), lastPlace x) := by
  have hm := mantissa_of_extend hacc
  have hamount : (Format.binary64.targetExponent (totalExponent m e) - e).toNat =
      (lastPlace x - e).toNat := by
    rw [targetExponent_binary64]
    by_cases hzero : m = 0
    · -- the number is below the unit it is given in, so both reach the least place
      have hsmall : x < (2 : ℕ) ^ e := by
        rw [hzero] at hm
        have := Nat.floor_eq_zero.mp hm.symm
        exact_mod_cast (div_lt_one (by positivity)).mp this
      have hlog := (Int.lt_zpow_iff_log_lt one_lt_two hx).mp hsmall
      simp only [hzero, Nat.log2_zero, Nat.cast_zero, lastPlace] at he ⊢
      omega
    · rw [lastPlace, log_eq_log2_add (e := e) (by omega), ← hm]
  have hshift : ((lastPlace x - e).toNat : ℤ) = lastPlace x - e := Int.toNat_of_nonneg (by omega)
  simp only [shiftToTargetExponent, shiftToExponent, hamount, hacc, hshift]
  rw [shiftRight_extend (by positivity), div_div, ← zpow_natCast, hshift, ← zpow_add₀ two_ne_zero]
  simp

/-- The second shift only makes room for a mantissa that rounding made a power of two. -/
theorem shiftToTargetExponent_exact {r : ℕ} {e : ℤ} (hr : r ≤ 2 ^ 53) (he : -1074 ≤ e) :
    shiftToTargetExponent .binary64 r e .exact =
      if r < 2 ^ 53 then (⟨r, false, false⟩, e) else (⟨2 ^ 52, false, false⟩, e + 1) := by
  split
  · rename_i hlt
    have hlog : r.log2 ≤ 52 := by
      rcases Nat.eq_zero_or_pos r with rfl | hpos
      · simp
      · exact Nat.lt_succ_iff.mp ((Nat.log2_lt hpos.ne').mpr hlt)
    have hamount : (Format.binary64.targetExponent (totalExponent r e) - e).toNat = 0 := by
      rw [targetExponent_binary64]
      omega
    simp only [shiftToTargetExponent, shiftToExponent, hamount]
    simp [HShiftRight.hShiftRight, Nat.repeat, ExtendedMantissa.ofMantissaAndAccuracy]
  · have heq : r = 2 ^ 53 := by omega
    have hamount : (Format.binary64.targetExponent (totalExponent (2 ^ 53) e) - e).toNat = 1 := by
      rw [targetExponent_binary64, Nat.log2_two_pow]
      omega
    simp only [shiftToTargetExponent, shiftToExponent, heq, hamount]
    rfl

theorem rounded_roundWithAccuracy (s : Sign) {m : ℕ} {e : ℤ} {acc : Accuracy} {x : ℚ}
    (hx : 0 < x) (hacc : ExtendedMantissa.ofMantissaAndAccuracy m acc = extend (x / 2 ^ e))
    (he : e ≤ lastPlace x) : Rounded s x (roundWithAccuracy .binary64 s m e acc) := by
  have hplace : -1074 ≤ lastPlace x := le_max_right _ _
  have hr : roundHalfEven (x / 2 ^ lastPlace x) ≤ 2 ^ 53 :=
    roundHalfEven_le (by positivity) (by exact_mod_cast (div_lastPlace_lt x).le)
  simp only [roundWithAccuracy, shiftToTargetExponent_extend hx hacc he,
    roundedMantissa_extend (show 0 ≤ x / 2 ^ lastPlace x by positivity),
    shiftToTargetExponent_exact hr hplace]
  by_cases hlt : roundHalfEven (x / 2 ^ lastPlace x) < 2 ^ 53
  · simp only [hlt, ↓reduceIte]
    split
    · rename_i hzero
      exact .zero (by simp [nearest, hzero])
    · rename_i hzero
      refine .finite _ ⟨hlt, hplace, fun hsmall => ?_⟩ rfl
      by_contra hne
      have := le_roundHalfEven (n := 2 ^ 52) (x := x / 2 ^ lastPlace x)
        (by exact_mod_cast le_div_lastPlace hx (by omega))
      omega
  · simp only [hlt, ↓reduceIte]
    refine .finite _ ⟨by norm_num, by omega, by norm_num⟩ ?_
    rw [nearest, show roundHalfEven (x / 2 ^ lastPlace x) = 2 ^ 53 by omega,
      zpow_add₀ two_ne_zero]
    norm_num
    ring

theorem extend_natCast (n : ℕ) :
    extend n = ExtendedMantissa.ofMantissaAndAccuracy n .exact := by
  have h := extend_add n le_rfl zero_lt_one
  rw [add_zero] at h
  rw [h, decide_eq_false (by norm_num), decide_eq_false (by simp)]
  rfl

theorem rounded_round (s : Sign) {m : ℕ} (hm : 0 < m) (e : ℤ) :
    Rounded s (m * 2 ^ e) (UnpackedFloat.round .binary64 s m e) := by
  have hx : (0 : ℚ) < m * 2 ^ e := by positivity
  have hplace : Format.binary64.targetExponent (totalExponent m e) = lastPlace (m * 2 ^ e) := by
    rw [targetExponent_binary64, lastPlace, log_mul_zpow hm]
  simp only [UnpackedFloat.round, decreaseExponent, hplace]
  apply rounded_roundWithAccuracy s hx
  · rw [← extend_natCast]
    congr 1
    rw [Nat.shiftLeft_eq, zpow_sub₀ two_ne_zero, zpow_natCast]
    push_cast
    field_simp
  · omega

theorem extend_div (a : ℕ) {b : ℕ} (hb : 0 < b) :
    extend (a / b) =
      ExtendedMantissa.ofMantissaAndAccuracy (a / b) (accuracyOfFraction (a % b) b) := by
  have hbq : (0 : ℚ) < b := by exact_mod_cast hb
  have hmod : ((a % b : ℕ) : ℚ) < b := by exact_mod_cast Nat.mod_lt a hb
  have hsplit : (a : ℚ) / b = (a / b : ℕ) + (a % b : ℕ) / b := by
    have h : (a : ℚ) = b * (a / b : ℕ) + (a % b : ℕ) := by exact_mod_cast (Nat.div_add_mod a b).symm
    field_simp
    linarith
  have hhalf : (1 / 2 : ℚ) ≤ (a % b : ℕ) / b ↔ b ≤ 2 * (a % b) := by
    rw [div_le_div_iff₀ two_pos hbq]
    norm_cast
    omega
  have heq : ((a % b : ℕ) : ℚ) / b = 1 / 2 ↔ 2 * (a % b) = b := by
    rw [div_eq_div_iff hbq.ne' two_ne_zero]
    norm_cast
    omega
  have hzero : ((a % b : ℕ) : ℚ) / b = 0 ↔ a % b = 0 := by
    rw [div_eq_zero_iff, or_iff_left hbq.ne', Nat.cast_eq_zero]
  rw [hsplit, extend_add _ (by positivity) ((div_lt_one hbq).mpr hmod)]
  simp only [hhalf, ne_eq, heq, hzero, accuracyOfFraction]
  split
  · rename_i hr
    rw [decide_eq_false (by omega), decide_eq_false (by omega)]
    rfl
  · rename_i hr
    rcases hc : compare (2 * (a % b)) b with _ | _ | _
    · have := Nat.compare_eq_lt.mp hc
      rw [decide_eq_false (by omega), decide_eq_true (by omega)]
      rfl
    · have := Nat.compare_eq_eq.mp hc
      rw [decide_eq_true (by omega), decide_eq_false (by omega)]
      rfl
    · have := Nat.compare_eq_gt.mp hc
      rw [decide_eq_true (by omega), decide_eq_true (by omega)]
      rfl

/-- The exact quotient lies at most one binary place below the quotient of the leading places. -/
theorem le_log_div {a b : ℚ} (ha : 0 < a) (hb : 0 < b) :
    Int.log 2 a - Int.log 2 b - 1 ≤ Int.log 2 (a / b) := by
  rw [← Int.zpow_le_iff_le_log one_lt_two (div_pos ha hb), le_div_iff₀ hb]
  have hlow : ((2 : ℕ) : ℚ) ^ Int.log 2 a ≤ a := Int.zpow_log_le_self one_lt_two ha
  have hhigh : b < ((2 : ℕ) : ℚ) ^ (Int.log 2 b + 1) := Int.lt_zpow_succ_log_self one_lt_two b
  calc ((2 : ℕ) : ℚ) ^ (Int.log 2 a - Int.log 2 b - 1) * b
      ≤ ((2 : ℕ) : ℚ) ^ (Int.log 2 a - Int.log 2 b - 1) * ((2 : ℕ) : ℚ) ^ (Int.log 2 b + 1) := by
        gcongr
    _ = ((2 : ℕ) : ℚ) ^ Int.log 2 a := by
        rw [← zpow_add₀ (by norm_num)]
        congr 1
        ring
    _ ≤ a := hlow

theorem rounded_divCore (s : Sign) {m₁ m₂ : ℕ} (h₁ : 0 < m₁) (h₂ : 0 < m₂) (e₁ e₂ : ℤ) :
    Rounded s (m₁ * 2 ^ e₁ / (m₂ * 2 ^ e₂))
      (roundWithAccuracy .binary64 s (divCore .binary64 m₁ e₁ m₂ e₂).1
        (divCore .binary64 m₁ e₁ m₂ e₂).2.1 (divCore .binary64 m₁ e₁ m₂ e₂).2.2) := by
  have hquot := le_log_div (show (0 : ℚ) < m₁ * 2 ^ e₁ by positivity)
    (show (0 : ℚ) < m₂ * 2 ^ e₂ by positivity)
  rw [log_mul_zpow h₁, log_mul_zpow h₂] at hquot
  have htarget : Format.binary64.targetExponent (totalExponent m₁ e₁ - totalExponent m₂ e₂) =
      max (m₁.log2 + e₁ - (m₂.log2 + e₂) - 53) (-1074) := by
    simp only [Format.targetExponent, totalExponent, Format.mantissaBits, Format.minExponent]
    norm_num
    omega
  simp only [divCore, htarget]
  apply rounded_roundWithAccuracy s (by positivity)
  · rw [← extend_div _ h₂]
    congr 1
    set t := min (e₁ - e₂) (max (m₁.log2 + e₁ - (m₂.log2 + e₂) - 53) (-1074)) with ht
    have hshift : ((e₁ - e₂ - t).toNat : ℤ) = e₁ - e₂ - t := Int.toNat_of_nonneg (by omega)
    rw [Nat.shiftLeft_eq]
    push_cast
    rw [← zpow_natCast, hshift, zpow_sub₀ two_ne_zero, zpow_sub₀ two_ne_zero]
    field_simp
  · rw [lastPlace]
    omega

end CryptoNav.Lib
