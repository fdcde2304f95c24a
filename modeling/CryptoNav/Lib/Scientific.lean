import CryptoNav.Lib.Binary64
import Mathlib.Tactic.IntervalCases

/-!
# Decimals that read as zero

A decimal text is read as the number zero only if its value is zero or below the least number there
is (`value_lt_of_toFloat_eq_zero`).

A program that skips whatever reads as zero relies on this: nothing of any size is skipped. The
converse, that every smaller value reads as zero, is left out; it fails between half of the
least number and that number, where the reading rounds up. Lean reads a decimal in two ways,
with one multiplication or division where digits and exponent are small and with integer
arithmetic otherwise, and the file follows them one after the other.
-/

set_option autoImplicit false

namespace CryptoNav.Lib

open Float.Model Float.Model.UnpackedFloat

/-- The least number above zero. -/
def least : ℚ := 2 ^ (-1074 : ℤ)

theorem least_pos : 0 < least := by unfold least; positivity

/-- A number above zero, be it infinite. -/
def Positive : UnpackedFloat → Prop
  | .finite .positive .. | .infinity .positive => True
  | _ => False

/-- Nothing from the least number on is rounded to zero. -/
theorem positive_of_rounded {x : ℚ} {u : UnpackedFloat} (hx : least ≤ x)
    (h : Rounded .positive x u) :
    Positive (UnpackedFloat.unpack .binary64 (UnpackedFloat.pack .binary64 u)) := by
  cases h with
  | zero hzero =>
    have hself : nearest least = least := by
      have h := nearest_canonical one_pos (e := -1074) ⟨by norm_num, le_rfl, fun _ => rfl⟩
      rwa [Nat.cast_one, one_mul] at h
    have hmono := nearest_mono least_pos.le hx
    rw [hself, hzero] at hmono
    exact absurd hmono least_pos.not_ge
  | @finite m e hm hc hn =>
    rw [unpack_pack_finite _ hm hc]
    split <;> trivial

theorem rounded_mul {m₁ m₂ : ℕ} (h₁ : 0 < m₁) (h₂ : 0 < m₂) {e₁ e₂ : ℤ}
    (he : e₁ + e₂ ≤ lastPlace ((m₁ : ℚ) * m₂ * 2 ^ (e₁ + e₂))) :
    Rounded .positive ((m₁ : ℚ) * m₂ * 2 ^ (e₁ + e₂))
      (UnpackedFloat.mul .binary64 (.finite .positive m₁ e₁ h₁) (.finite .positive m₂ e₂ h₂)) := by
  apply rounded_roundWithAccuracy .positive (by positivity) _ he
  rw [← extend_natCast]
  congr 1
  push_cast
  field_simp

/-! ## The general way -/

theorem lt_least {m : ℕ} {e : ℤ} (he : e < -(2 ^ 11 + m.log2 : ℤ)) :
    (m : ℚ) * 10 ^ e < least := by
  have hdigits : (m : ℚ) < 2 ^ (m.log2 + 1 : ℤ) := by exact_mod_cast Nat.lt_log2_self
  calc (m : ℚ) * 10 ^ e < 2 ^ (m.log2 + 1 : ℤ) * 10 ^ e := by gcongr
    _ ≤ 2 ^ (m.log2 + 1 : ℤ) * 2 ^ e := by
        gcongr
        obtain ⟨n, rfl⟩ : ∃ n : ℕ, e = -n := ⟨(-e).toNat, by omega⟩
        rw [zpow_neg, zpow_neg, zpow_natCast, zpow_natCast]
        apply inv_anti₀ (by positivity)
        gcongr
        norm_num
    _ = 2 ^ (m.log2 + 1 + e : ℤ) := (zpow_add₀ two_ne_zero _ _).symm
    _ ≤ least := by
        unfold least
        gcongr
        · exact one_le_two
        · omega

theorem positive_ofScientific {m : ℕ} {e : ℤ} (h : least ≤ (m : ℚ) * 10 ^ e) :
    Positive (UnpackedFloat.unpack .binary64 (UnpackedFloat.pack .binary64
      (UnpackedFloat.ofScientific .binary64 m e))) := by
  have hm : m ≠ 0 := by
    rintro rfl
    rw [Nat.cast_zero, zero_mul] at h
    exact h.not_gt least_pos
  have hpos : 0 < m := Nat.pos_of_ne_zero hm
  rw [UnpackedFloat.ofScientific, dif_neg hm]
  split
  · rw [unpack_pack_infinity]
    trivial
  split
  · rename_i hlow
    exact absurd h (lt_least hlow).not_ge
  split
  · rename_i hnonneg
    have hten : ((10 : ℕ) ^ e.toNat : ℕ) = (10 : ℚ) ^ e := by
      rw [Nat.cast_pow, ← zpow_natCast, Int.toNat_of_nonneg hnonneg]
      rfl
    have hvalue : ((m <<< 53 : ℕ) : ℚ) * (10 ^ e.toNat : ℕ) * 2 ^ ((-53 : ℤ) + 0) = m * 10 ^ e := by
      rw [hten, Nat.shiftLeft_eq]
      push_cast
      norm_num
      ring
    have hone : (1 : ℚ) ≤ m * 10 ^ e := by
      have h1 : (1 : ℚ) ≤ m := by exact_mod_cast hpos
      have h2 : (1 : ℚ) ≤ 10 ^ e := one_le_zpow₀ (by norm_num) hnonneg
      nlinarith
    have hrounded := @rounded_mul (m <<< 53) (10 ^ e.toNat)
      (by rw [Nat.shiftLeft_eq]; positivity) (by positivity) (-53) 0 (by
        rw [hvalue, lastPlace]
        have := (Int.zpow_le_iff_le_log (b := 2) one_lt_two (by linarith : (0 : ℚ) < m * 10 ^ e)
          (x := 0)).mp (by simpa using hone)
        omega)
    rw [hvalue] at hrounded
    exact positive_of_rounded h hrounded
  · rename_i hneg
    have hten : ((10 ^ (-e).toNat : ℕ) : ℚ) = ((10 : ℚ) ^ e)⁻¹ := by
      rw [Nat.cast_pow, ← zpow_natCast, Int.toNat_of_nonneg (by omega), zpow_neg]
      rfl
    have hrounded := @rounded_divCore .positive m (10 ^ (-e).toNat) hpos (by positivity) 0 0
    have hvalue : (m : ℚ) * 2 ^ (0 : ℤ) / ((10 ^ (-e).toNat : ℕ) * 2 ^ (0 : ℤ)) = m * 10 ^ e := by
      rw [hten]
      field_simp
    rw [hvalue] at hrounded
    exact positive_of_rounded h hrounded

/-! ## The fast way -/

/-- A power of ten of the table, whose value is at least one and below `2 ^ 74`. -/
def isTenPower : UnpackedFloat → Bool
  | .finite .positive n d _ => 2 ^ 52 ≤ n && n < 2 ^ 53 && -52 ≤ d && d ≤ 21
  | _ => false

theorem isTenPower_table : ∀ e : Fin 23,
    isTenPower (Float.exactlyRepresentablePowersOfTen[e]).toModel.unpack = true := by
  decide +kernel

theorem zpow_one_le {n : ℕ} {d : ℤ} (hn : 2 ^ 52 ≤ n) (hd : -52 ≤ d) : (1 : ℚ) ≤ n * 2 ^ d :=
  calc (1 : ℚ) = (2 ^ 52 : ℕ) * 2 ^ (-52 : ℤ) := by norm_num
    _ ≤ n * 2 ^ d := by
        gcongr
        exact one_le_two

/-- A whole number other than zero is at least one as a number, unless it is infinite. -/
theorem ofNat_cases {m : ℕ} (hm : 0 < m) :
    (∃ (n : ℕ) (d : ℤ) (hn : 0 < n), 2 ^ 52 ≤ n ∧ (1 : ℚ) ≤ n * 2 ^ d ∧
      UnpackedFloat.unpack .binary64 (UnpackedFloat.pack .binary64
        (UnpackedFloat.ofNat .binary64 m)) = .finite .positive n d hn) ∨
    UnpackedFloat.unpack .binary64 (UnpackedFloat.pack .binary64
      (UnpackedFloat.ofNat .binary64 m)) = .infinity .positive := by
  have hround : UnpackedFloat.ofNat .binary64 m = UnpackedFloat.round .binary64 .positive m 0 := by
    rw [UnpackedFloat.ofNat, UnpackedFloat.ofInt, UnpackedFloat.normalize,
      compare_gt_iff_gt.mpr (by exact_mod_cast hm)]
    rfl
  have hone : (1 : ℚ) ≤ nearest (m * 2 ^ (0 : ℤ)) := by
    have hself := nearest_canonical (m := 2 ^ 52) (e := -52) (by norm_num) (by
      refine ⟨by norm_num, by norm_num, fun h => absurd h (lt_irrefl _)⟩)
    have hvalue : ((2 ^ 52 : ℕ) : ℚ) * 2 ^ (-52 : ℤ) = 1 := by norm_num
    rw [hvalue] at hself
    rw [← hself]
    refine nearest_mono zero_le_one ?_
    rw [zpow_zero, mul_one]
    exact_mod_cast hm
  rw [hround]
  have hrounded := rounded_round .positive hm 0
  generalize UnpackedFloat.round .binary64 .positive m 0 = u at hrounded
  cases hrounded with
  | zero h =>
    rw [h] at hone
    norm_num at hone
  | @finite n d hn hc h =>
    rw [unpack_pack_finite _ hn hc]
    rw [h] at hone
    split
    · refine .inl ⟨n, d, hn, ?_, hone, rfl⟩
      by_contra hsmall
      have hd : d = -1074 := hc.2.2 (by omega)
      have : (n : ℚ) * 2 ^ d < 1 := by
        calc (n : ℚ) * 2 ^ d < (2 ^ 52 : ℕ) * 2 ^ d := by
              gcongr
              omega
          _ ≤ 1 := by
              rw [hd, Nat.cast_pow, Nat.cast_ofNat, ← zpow_natCast, ← zpow_add₀ two_ne_zero]
              exact zpow_le_one_of_nonpos₀ one_le_two (by norm_num)
      linarith
    · exact .inr rfl

theorem positive_fast {m : ℕ} (hm : 0 < m) {p : Float} (hp : isTenPower p.toModel.unpack = true) :
    Positive (UnpackedFloat.unpack .binary64 (UnpackedFloat.pack .binary64 (UnpackedFloat.mul .binary64
      (UnpackedFloat.unpack .binary64 (UnpackedFloat.pack .binary64 (UnpackedFloat.ofNat .binary64 m)))
        p.toModel.unpack))) ∧
    Positive (UnpackedFloat.unpack .binary64 (UnpackedFloat.pack .binary64 (UnpackedFloat.div .binary64
      (UnpackedFloat.unpack .binary64 (UnpackedFloat.pack .binary64 (UnpackedFloat.ofNat .binary64 m)))
        p.toModel.unpack))) := by
  generalize p.toModel.unpack = b at hp
  rcases b with t | _ | t | ⟨t, k, c, hk⟩ <;> try contradiction
  cases t
  · contradiction
  simp only [isTenPower, Bool.and_eq_true, decide_eq_true_eq] at hp
  obtain ⟨⟨⟨hklow, hkhigh⟩, hclow⟩, hchigh⟩ := hp
  have hten := zpow_one_le hklow hclow
  have hleast : least ≤ 1 := zpow_le_one_of_nonpos₀ one_le_two (by norm_num)
  rcases ofNat_cases hm with ⟨n, d, hn, hlow, hone, hx⟩ | hx
  · rw [hx]
    constructor
    · refine positive_of_rounded ?_ (rounded_mul hn hk ?_)
      · calc least ≤ 1 * 1 := by linarith
          _ ≤ (n * 2 ^ d) * (k * 2 ^ c) := by gcongr
          _ = n * k * 2 ^ (d + c) := by rw [zpow_add₀ two_ne_zero]; ring
      · have hlog := log_mul_zpow (Nat.mul_pos hn hk) (d + c)
        rw [Nat.cast_mul] at hlog
        have hbig : 52 ≤ (n * k).log2 := by
          rw [Nat.le_log2 (by positivity)]
          calc 2 ^ 52 ≤ n := hlow
            _ ≤ n * k := Nat.le_mul_of_pos_right n hk
        rw [lastPlace, hlog]
        omega
    · refine positive_of_rounded ?_ (rounded_divCore .positive hn hk d c)
      have hkpos : (0 : ℚ) < k * 2 ^ c := by positivity
      have htop : (k : ℚ) * 2 ^ c ≤ 2 ^ (74 : ℤ) :=
        calc (k : ℚ) * 2 ^ c ≤ (2 ^ 53 : ℕ) * 2 ^ (21 : ℤ) := by
              gcongr
              exact one_le_two
          _ = 2 ^ (74 : ℤ) := by norm_num
      calc least ≤ 2 ^ (-74 : ℤ) := by
            unfold least
            gcongr
            · exact one_le_two
            · norm_num
        _ = 1 / 2 ^ (74 : ℤ) := by rw [zpow_neg, one_div]
        _ ≤ n * 2 ^ d / (k * 2 ^ c) := by gcongr
  · rw [hx]
    constructor
    · change Positive (UnpackedFloat.unpack .binary64 (UnpackedFloat.pack .binary64
        (.infinity .positive)))
      rw [unpack_pack_infinity]
      trivial
    · change Positive (UnpackedFloat.unpack .binary64 (UnpackedFloat.pack .binary64
        (.infinity .positive)))
      rw [unpack_pack_infinity]
      trivial

/-! ## Texts -/

theorem not_positive_zero {a : UnpackedFloat} (ha : Positive a) (s : Sign) :
    a.beq (.zero s) = false := by
  rcases a with t | _ | t | ⟨t, n, d, hn⟩ <;> first | exact ha.elim | skip
  all_goals cases t <;> first | exact ha.elim | rfl

/-- **A decimal that reads as zero is below the least number.** -/
theorem value_lt_of_toFloat_eq_zero {d : Decimal} (hsign : d.negative = false)
    (h : (d.toFloat == 0) = true) : d.value < least := by
  by_contra hge
  have hvalue : least ≤ (d.digits : ℚ) * 10 ^ d.exponent := by
    rw [Decimal.value, hsign] at hge
    simpa using hge
  have hdigits : 0 < d.digits := by
    rw [Nat.pos_iff_ne_zero]
    intro hzero
    rw [hzero, Nat.cast_zero, zero_mul] at hvalue
    exact hvalue.not_gt least_pos
  have hpos : Positive d.toFloat.toModel.unpack := by
    have hread : d.toFloat = Float.ofScientific d.digits (d.exponent < 0) d.exponent.natAbs := by
      rw [Decimal.toFloat, hsign]
      rfl
    rw [hread, Float.ofScientific]
    split
    · rename_i hfast
      have htable := isTenPower_table ⟨d.exponent.natAbs, by omega⟩
      have hnat : d.digits.toUInt64.toNat = d.digits :=
        Nat.mod_eq_of_lt (lt_trans hfast.1 (by norm_num))
      have hboth := positive_fast hdigits htable
      rw [← hnat] at hboth
      split
      · exact hboth.2
      · exact hboth.1
    · have hexp : (if (decide (d.exponent < 0)) = true then Int.negOfNat d.exponent.natAbs
          else Int.ofNat d.exponent.natAbs) = d.exponent := by
        rcases hd : d.exponent with n | n
        · rfl
        · rw [if_pos (decide_eq_true (Int.negSucc_lt_zero n))]
          rfl
      rw [hexp]
      exact positive_ofScientific hvalue
  have hzero : (0 : Float).toModel.unpack = .zero .positive := by rfl
  change d.toFloat.toModel.unpack.beq (0 : Float).toModel.unpack = true at h
  rw [hzero, not_positive_zero hpos] at h
  cases h

end CryptoNav.Lib
