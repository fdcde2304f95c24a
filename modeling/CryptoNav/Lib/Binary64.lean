import CryptoNav.Lib.Rounding

/-!
# The order of binary64 numbers

What programs rely on when they compare computed `Float`s: the order of the numbers is that of the
extended line on which their bit patterns lie (`le_iff`, `lt_iff`), and subtraction and division of
finite numbers are the exact operations followed by a monotone rounding (`landing`).

Lean gives `Float` a model, an unpacked sign, exponent and mantissa, and states the operations
on it; orders and monotonicity are not stated, and are proved here from the bits up. Two zeros
are one point of the line and NaN none, which is why `extent` is partial and why `le_iff` speaks
of points and not of numbers: `≤` on `Float` is neither total nor antisymmetric.

Only what programs that compare need is here: subtraction, and division of what is not negative
by what is positive. Addition and multiplication are left out, and so is every statement about
how far a result is from the exact one. Monotonicity needs neither.
-/

set_option autoImplicit false

namespace CryptoNav.Lib

open Float.Model Float.Model.UnpackedFloat

/-! ## Bit patterns -/

/-- What a bit pattern can hold. -/
def Stored : UnpackedFloat → Prop
  | .finite _ m e _ => Canonical m e ∧ e ≤ 971
  | _ => True

theorem toNat_implicit (v : BitVec 52) : (1#1 ++ v).toNat = 2 ^ 52 + v.toNat := by
  rw [BitVec.toNat_append, ← Nat.shiftLeft_add_eq_or_of_lt v.isLt]
  rfl

theorem exponentBias_binary64 : Format.binary64.exponentBias = 1023 := rfl

theorem stored_unpack (b : BitVec Format.binary64.numBits) :
    Stored (UnpackedFloat.unpack .binary64 b) := by
  have hexp : (unpackExponent b).toNat < 2048 := (unpackExponent b).isLt
  have hman : (unpackMantissa b).toNat < 2 ^ 52 := (unpackMantissa b).isLt
  simp only [UnpackedFloat.unpack, exponentBias_binary64]
  split
  · split <;> trivial
  · rename_i hones
    have hlast : (unpackExponent b).toNat ≠ 2047 := fun h => hones (BitVec.eq_of_toNat_eq h)
    split
    · rename_i hzero
      split
      · trivial
      · refine ⟨⟨by omega, ?_, fun _ => ?_⟩, ?_⟩ <;> simp [hzero]
    · rename_i hne
      have hfirst : (unpackExponent b).toNat ≠ 0 := fun h => hne (BitVec.eq_of_toNat_eq h)
      have hm := toNat_implicit (unpackMantissa b)
      refine ⟨⟨?_, ?_, ?_⟩, ?_⟩ <;> push_cast <;> omega

theorem pack_finite (s : Sign) {m : ℕ} {e : ℤ} (hm : 0 < m) (hc : Canonical m e) :
    UnpackedFloat.pack .binary64 (.finite s m e hm) =
      if 971 < e then packedInfinity .binary64 s
      else if 2 ^ 52 ≤ m then
        packComponents .binary64 s (BitVec.ofNat 11 (e + 1075).toNat) (BitVec.ofNat 52 m)
      else packComponents .binary64 s 0#11 (BitVec.ofNat 52 m) := by
  obtain ⟨hlt, hlow, hsub⟩ := hc
  have hbiased : (e + Format.binary64.exponentBias +
      Format.binary64.mantissaBitsWithoutImplicit).toNat = (e + 1075).toNat := by
    rw [exponentBias_binary64]
    norm_num [add_assoc]
  have hover : 2 ^ Format.binary64.exponentBits ≤ (e + 1075).toNat + 1 ↔ 971 < e := by
    change 2 ^ 11 ≤ (e + 1075).toNat + 1 ↔ 971 < e
    omega
  have hnormal : m.log2 + 1 = Format.binary64.mantissaBits ↔ 2 ^ 52 ≤ m := by
    have hbits : Format.binary64.mantissaBits = 53 := rfl
    rw [hbits, Nat.add_right_cancel_iff (n := 1) (m := m.log2) (k := 52), Nat.log2_eq_iff hm.ne']
    exact ⟨And.left, fun h => ⟨h, hlt⟩⟩
  rw [UnpackedFloat.pack, hbiased, if_congr hover rfl rfl, if_congr hnormal rfl rfl]

/-- A number comes back from its bit pattern; one whose exponent is too great is an infinity. -/
theorem unpack_pack_finite (s : Sign) {m : ℕ} {e : ℤ} (hm : 0 < m) (hc : Canonical m e) :
    UnpackedFloat.unpack .binary64 (UnpackedFloat.pack .binary64 (.finite s m e hm)) =
      if e ≤ 971 then .finite s m e hm else .infinity s := by
  obtain ⟨hlt, hlow, hsub⟩ := hc
  have hmantissa : (BitVec.ofNat 52 m).toNat = m % 2 ^ 52 := BitVec.toNat_ofNat m 52
  rw [pack_finite s hm ⟨hlt, hlow, hsub⟩]
  by_cases hover : 971 < e
  · rw [if_pos hover, if_neg (show ¬e ≤ 971 by omega)]
    simp [UnpackedFloat.unpack, packedInfinity]
  · rw [if_neg hover, if_pos (show e ≤ 971 by omega)]
    by_cases hnormal : 2 ^ 52 ≤ m
    · rw [if_pos hnormal]
      simp only [UnpackedFloat.unpack, unpackExponent_packComponents,
        unpackMantissa_packComponents, unpackSign_packComponents, Sign.ofBitVec_toBitVec,
        exponentBias_binary64]
      have hexp : (BitVec.ofNat 11 (e + 1075).toNat).toNat = (e + 1075).toNat := by
        rw [BitVec.toNat_ofNat, Nat.mod_eq_of_lt (by omega)]
      rw [if_neg, if_neg]
      · simp only [finite.injEq, true_and, hexp]
        have := toNat_implicit (BitVec.ofNat 52 m)
        refine ⟨by omega, by push_cast; omega⟩
      · intro h
        have := congrArg BitVec.toNat h
        rw [hexp] at this
        change _ = 0 at this
        omega
      · intro h
        have := congrArg BitVec.toNat h
        rw [hexp] at this
        change _ = 2047 at this
        omega
    · rw [if_neg hnormal]
      simp only [UnpackedFloat.unpack, unpackExponent_packComponents,
        unpackMantissa_packComponents, unpackSign_packComponents, Sign.ofBitVec_toBitVec,
        exponentBias_binary64]
      have hne : BitVec.ofNat 52 m ≠ 0#52 := by
        intro h
        have := congrArg BitVec.toNat h
        rw [hmantissa] at this
        change _ = 0 at this
        omega
      rw [if_neg (by decide), if_pos trivial, dif_neg hne]
      simp only [finite.injEq, true_and, hmantissa]
      refine ⟨by omega, ?_⟩
      rw [hsub (by omega)]
      rfl

theorem unpack_pack_infinity (s : Sign) :
    UnpackedFloat.unpack .binary64 (UnpackedFloat.pack .binary64 (.infinity s)) = .infinity s := by
  simp [UnpackedFloat.pack, UnpackedFloat.unpack, packedInfinity]

theorem unpack_pack_zero (s : Sign) :
    UnpackedFloat.unpack .binary64 (UnpackedFloat.pack .binary64 (.zero s)) = .zero s := by
  simp [UnpackedFloat.pack, UnpackedFloat.unpack, packedZero]

theorem unpack_pack_notANumber :
    UnpackedFloat.unpack .binary64 (UnpackedFloat.pack .binary64 .notANumber) = .notANumber := by
  simp [UnpackedFloat.pack, UnpackedFloat.unpack, packedNaN]

/-! ## The extended line -/

abbrev Line : Type := WithBot (WithTop ℚ)

def point (q : ℚ) : Line := ((q : WithTop ℚ) : WithBot (WithTop ℚ))

@[simp] theorem point_le_point {p q : ℚ} : point p ≤ point q ↔ p ≤ q := by simp [point]

@[simp] theorem point_lt_point {p q : ℚ} : point p < point q ↔ p < q := by simp [point]

theorem point_lt_top (q : ℚ) : point q < ⊤ := WithBot.coe_lt_coe.mpr (WithTop.coe_lt_top q)

theorem bot_lt_point (q : ℚ) : ⊥ < point q := WithBot.bot_lt_coe _

/-- The value of a finite number. -/
def value : UnpackedFloat → ℚ
  | .finite .negative m e _ => -(m * 2 ^ e)
  | .finite .positive m e _ => m * 2 ^ e
  | _ => 0

/-- The place of a number on the extended line. -/
def place : UnpackedFloat → Option Line
  | .notANumber => none
  | .infinity .negative => some ⊥
  | .infinity .positive => some ⊤
  | a => some (point (value a))

def extent (x : Float) : Option Line := place x.toModel.unpack

/-- The magnitude from which on a result is infinite. -/
def overflow : ℚ := 2 ^ (1024 : ℤ)

/-- Where the result of an operation lands whose exact value is `q`. -/
def landing (q : ℚ) : Line :=
  if 0 ≤ q then if nearest q < overflow then point (nearest q) else ⊤
  else if nearest (-q) < overflow then point (-nearest (-q)) else ⊥

theorem landing_mono {p q : ℚ} (h : p ≤ q) : landing p ≤ landing q := by
  simp only [landing]
  by_cases hp : 0 ≤ p
  · have hn := nearest_mono hp h
    rw [if_pos hp, if_pos (hp.trans h)]
    split
    · split
      · exact point_le_point.mpr hn
      · exact le_top
    · rw [if_neg (by linarith)]
  · rw [if_neg hp]
    split
    · split
      · have h0 := nearest_nonneg (-p)
        have h1 := nearest_nonneg q
        split
        · exact point_le_point.mpr (by linarith)
        · exact le_top
      · have hn : nearest (-q) ≤ nearest (-p) := nearest_mono (by linarith) (by linarith)
        rw [if_pos (by linarith)]
        exact point_le_point.mpr (by linarith)
    · exact bot_le

/-- A canonical magnitude has an exponent in range exactly when it is below the overflow. -/
theorem canonical_lt_iff {m : ℕ} {e : ℤ} (hc : Canonical m e) :
    (m : ℚ) * 2 ^ e < overflow ↔ e ≤ 971 := by
  obtain ⟨hlt, hlow, hsub⟩ := hc
  have hsplit : ∀ a b : ℤ, a + b = 1024 → (2 : ℚ) ^ a * 2 ^ b = overflow := by
    intro a b h
    rw [← zpow_add₀ two_ne_zero, h, overflow]
  constructor
  · intro h
    by_contra hgt
    have hm : 2 ^ 52 ≤ m := by
      by_contra hsmall
      have := hsub (by omega)
      omega
    have : overflow ≤ m * 2 ^ e := by
      calc overflow = 2 ^ (52 : ℤ) * 2 ^ (972 : ℤ) := (hsplit 52 972 rfl).symm
        _ ≤ m * 2 ^ e := by
            gcongr
            · exact_mod_cast hm
            · exact one_le_two
            · omega
    linarith
  · intro h
    calc (m : ℚ) * 2 ^ e < 2 ^ (53 : ℤ) * 2 ^ e := by
          gcongr
          exact_mod_cast hlt
      _ ≤ 2 ^ (53 : ℤ) * 2 ^ (971 : ℤ) := by
          gcongr
          exact one_le_two
      _ = overflow := hsplit 53 971 rfl

theorem place_unpack_pack {s : Sign} {x : ℚ} {u : UnpackedFloat} (hx : 0 < x)
    (h : Rounded s x u) :
    place (UnpackedFloat.unpack .binary64 (UnpackedFloat.pack .binary64 u)) =
      some (landing (match s with | .positive => x | .negative => -x)) := by
  cases h with
  | zero hn =>
    have hover : (0 : ℚ) < overflow := by unfold overflow; positivity
    rw [unpack_pack_zero]
    cases s <;> simp [place, value, landing, hx.le, hx.not_ge, hn, hover]
  | @finite m e hm hc hn =>
    rw [unpack_pack_finite s hm hc]
    have hlt := canonical_lt_iff hc
    rw [← hn] at hlt
    by_cases he : e ≤ 971
    · rw [if_pos he]
      cases s <;> simp [place, value, landing, hx.le, hx.not_ge, hlt.mpr he, ← hn]
    · rw [if_neg he]
      cases s <;> simp [place, landing, hx.le, hx.not_ge, he, hlt]

/-! ## Comparing -/

theorem mul_zpow_lt_of_exponent_lt {m₁ m₂ : ℕ} {e₁ e₂ : ℤ} (h₁ : Canonical m₁ e₁)
    (h₂ : Canonical m₂ e₂) (h : e₁ < e₂) : (m₁ : ℚ) * 2 ^ e₁ < m₂ * 2 ^ e₂ := by
  obtain ⟨hlt, hlow, -⟩ := h₁
  obtain ⟨-, -, hsub⟩ := h₂
  have hm : 2 ^ 52 ≤ m₂ := by
    by_contra hsmall
    have := hsub (by omega)
    omega
  calc (m₁ : ℚ) * 2 ^ e₁ < (2 ^ 53 : ℕ) * 2 ^ e₁ := by gcongr
    _ = (2 ^ 52 : ℕ) * 2 ^ (e₁ + 1) := by
        rw [zpow_add₀ two_ne_zero]
        push_cast
        ring
    _ ≤ m₂ * 2 ^ e₂ := by
        gcongr
        · exact one_le_two
        · omega

theorem compare_canonical {m₁ m₂ : ℕ} {e₁ e₂ : ℤ} (h₁ : Canonical m₁ e₁) (h₂ : Canonical m₂ e₂) :
    (compare e₁ e₂).then (compare m₁ m₂) = compare ((m₁ : ℚ) * 2 ^ e₁) (m₂ * 2 ^ e₂) := by
  rcases lt_trichotomy e₁ e₂ with hlt | rfl | hgt
  · rw [compare_lt_iff_lt.mpr hlt,
      compare_lt_iff_lt.mpr (mul_zpow_lt_of_exponent_lt h₁ h₂ hlt)]
    rfl
  · have hpos : (0 : ℚ) < 2 ^ e₁ := by positivity
    rw [compare_eq_iff_eq.mpr (rfl : e₁ = e₁)]
    rcases lt_trichotomy m₁ m₂ with hlt | rfl | hgt
    · rw [compare_lt_iff_lt.mpr hlt, compare_lt_iff_lt.mpr]
      · rfl
      · exact mul_lt_mul_of_pos_right (by exact_mod_cast hlt) hpos
    · rw [compare_eq_iff_eq.mpr (rfl : m₁ = m₁), compare_eq_iff_eq.mpr rfl]
      rfl
    · rw [compare_gt_iff_gt.mpr hgt, compare_gt_iff_gt.mpr]
      · rfl
      · exact mul_lt_mul_of_pos_right (by exact_mod_cast hgt) hpos
  · rw [compare_gt_iff_gt.mpr hgt,
      compare_gt_iff_gt.mpr (mul_zpow_lt_of_exponent_lt h₂ h₁ hgt)]
    rfl

theorem isLE_compare {α : Type*} [LinearOrder α] (a b : α) : (compare a b).isLE = true ↔ a ≤ b := by
  rw [← compare_le_iff_le]
  cases compare a b <;> simp

theorem compare_neg_neg (x y : ℚ) : compare (-x) (-y) = (compare x y).swap := by
  rcases lt_trichotomy x y with hlt | rfl | hgt
  · rw [compare_lt_iff_lt.mpr hlt, compare_gt_iff_gt.mpr (neg_lt_neg hlt)]
    rfl
  · simp
  · rw [compare_gt_iff_gt.mpr hgt, compare_lt_iff_lt.mpr (neg_lt_neg hgt)]
    rfl

theorem compare_value {a b : UnpackedFloat} (ha : Stored a) (hb : Stored b)
    (fa : a.isFinite = true) (fb : b.isFinite = true) :
    a.compare b = some (compare (value a) (value b)) := by
  have hpos : ∀ {m : ℕ} {e : ℤ}, 0 < m → (0 : ℚ) < m * 2 ^ e := fun hm => by positivity
  have hneg : ∀ {m : ℕ} {e : ℤ}, 0 < m → -((m : ℚ) * 2 ^ e) < 0 := fun hm =>
    neg_lt_zero.mpr (by positivity)
  rcases a with s | _ | s | ⟨s, m, e, hm⟩ <;> rcases b with t | _ | t | ⟨t, n, d, hn⟩ <;>
    try contradiction
  · exact congrArg some (compare_eq_iff_eq.mpr rfl).symm
  · cases t
    · exact congrArg some (compare_gt_iff_gt.mpr (hneg hn)).symm
    · exact congrArg some (compare_lt_iff_lt.mpr (hpos hn)).symm
  · cases s
    · exact congrArg some (compare_lt_iff_lt.mpr (hneg hm)).symm
    · exact congrArg some (compare_gt_iff_gt.mpr (hpos hm)).symm
  · cases s <;> cases t
    · simp only [UnpackedFloat.compare, value, compare_canonical ha.1 hb.1, compare_neg_neg]
    · exact congrArg some (compare_lt_iff_lt.mpr ((hneg hm).trans (hpos hn))).symm
    · exact congrArg some (compare_gt_iff_gt.mpr ((hneg hn).trans (hpos hm))).symm
    · simp only [UnpackedFloat.compare, value, compare_canonical ha.1 hb.1]

theorem place_of_isFinite {a : UnpackedFloat} (h : a.isFinite = true) :
    place a = some (point (value a)) := by
  rcases a with s | _ | s | _ <;> first | contradiction | rfl

/-- The machine's comparison is the order of the extended line. -/
theorem compare_place {a b : UnpackedFloat} (ha : Stored a) (hb : Stored b) :
    a.compare b = (place a).bind fun p => (place b).map (compare p) := by
  have hpoint : ∀ x y : ℚ, compare (point x) (point y) = compare x y := by
    intro x y
    rcases lt_trichotomy x y with hlt | rfl | hgt
    · rw [compare_lt_iff_lt.mpr hlt, compare_lt_iff_lt.mpr (point_lt_point.mpr hlt)]
    · simp
    · rw [compare_gt_iff_gt.mpr hgt, compare_gt_iff_gt.mpr (point_lt_point.mpr hgt)]
  have hends : (⊥ : Line) < ⊤ := WithBot.bot_lt_coe _
  by_cases fa : a.isFinite = true
  · rw [place_of_isFinite fa]
    by_cases fb : b.isFinite = true
    · simp [compare_value ha hb fa fb, place_of_isFinite fb, hpoint]
    · rcases b with t | _ | t | _
      · cases t
        · simp only [place, Option.bind_some, Option.map_some]
          rw [compare_gt_iff_gt.mpr (bot_lt_point _)]
          rcases a with s | _ | s | _ <;> first | contradiction | rfl
        · simp only [place, Option.bind_some, Option.map_some]
          rw [compare_lt_iff_lt.mpr (point_lt_top _)]
          rcases a with s | _ | s | _ <;> first | contradiction | rfl
      · rcases a with s | _ | s | _ <;> rfl
      · contradiction
      · contradiction
  · rcases a with s | _ | s | _
    · by_cases fb : b.isFinite = true
      · rw [place_of_isFinite fb]
        cases s
        · simp only [place, Option.bind_some, Option.map_some]
          rw [compare_lt_iff_lt.mpr (bot_lt_point _)]
          rcases b with t | _ | t | _ <;> first | contradiction | rfl
        · simp only [place, Option.bind_some, Option.map_some]
          rw [compare_gt_iff_gt.mpr (point_lt_top _)]
          rcases b with t | _ | t | _ <;> first | contradiction | rfl
      · rcases b with t | _ | t | _
        · cases s <;> cases t <;> simp only [place, Option.bind_some, Option.map_some]
          · exact congrArg some (compare_eq_iff_eq.mpr rfl).symm
          · exact congrArg some (compare_lt_iff_lt.mpr hends).symm
          · exact congrArg some (compare_gt_iff_gt.mpr hends).symm
          · exact congrArg some (compare_eq_iff_eq.mpr rfl).symm
        · cases s <;> rfl
        · contradiction
        · contradiction
    · rfl
    · contradiction
    · contradiction

theorem stored_toModel (x : Float) : Stored x.toModel.unpack := stored_unpack _

theorem le_iff {x y : Float} :
    x ≤ y ↔ ∃ p q, extent x = some p ∧ extent y = some q ∧ p ≤ q := by
  have h : x ≤ y ↔ (x.toModel.unpack.compare y.toModel.unpack).any (·.isLE) = true := by
    change (decide (x.toModel ≤ y.toModel)) = true ↔ _
    rw [decide_eq_true_iff]
    rfl
  rw [h, compare_place (stored_toModel x) (stored_toModel y)]
  simp only [extent]
  cases place x.toModel.unpack <;> cases place y.toModel.unpack <;> simp [isLE_compare]

theorem lt_iff {x y : Float} :
    x < y ↔ ∃ p q, extent x = some p ∧ extent y = some q ∧ p < q := by
  have h : x < y ↔ x.toModel.unpack.compare y.toModel.unpack = some .lt := by
    change (decide (x.toModel < y.toModel)) = true ↔ _
    rw [decide_eq_true_iff]
    change (_ == _) = true ↔ _
    rw [beq_iff_eq]
  rw [h, compare_place (stored_toModel x) (stored_toModel y)]
  simp only [extent]
  cases place x.toModel.unpack <;> cases place y.toModel.unpack <;> simp [compare_lt_iff_lt]

theorem extent_finite {x : Float} (h : x.isFinite = true) :
    extent x = some (point (value x.toModel.unpack)) := place_of_isFinite h

theorem extent_not_finite {x : Float} (h : ¬x.isFinite = true) :
    extent x = none ∨ extent x = some ⊥ ∨ extent x = some ⊤ := by
  change ¬x.toModel.unpack.isFinite = true at h
  change place x.toModel.unpack = _ ∨ place x.toModel.unpack = _ ∨ place x.toModel.unpack = _
  generalize x.toModel.unpack = a at h
  rcases a with s | _ | s | _
  · cases s
    · exact .inr (.inl rfl)
    · exact .inr (.inr rfl)
  · exact .inl rfl
  · exact absurd rfl h
  · exact absurd rfl h

/-- What lies between finite numbers is finite. -/
theorem isFinite_of_extent {x : Float} {c : Line} {p q : ℚ} (hx : extent x = some c)
    (hp : point p ≤ c) (hq : c ≤ point q) : x.isFinite = true := by
  by_contra h
  rcases extent_not_finite h with hn | hn | hn <;> rw [hx] at hn
  · cases hn
  · rw [Option.some_injective _ hn] at hp
    exact (bot_lt_point p).not_ge hp
  · rw [Option.some_injective _ hn] at hq
    exact (point_lt_top q).not_ge hq

@[simp] theorem extent_zero : extent 0 = some (point 0) := rfl

/-! ## Operations -/

theorem le_trans_float {x y z : Float} (hxy : x ≤ y) (hyz : y ≤ z) : x ≤ z := by
  obtain ⟨p, q, hp, hq, hpq⟩ := le_iff.mp hxy
  obtain ⟨q', r, hq', hr, hqr⟩ := le_iff.mp hyz
  obtain rfl : q = q' := Option.some_injective _ (hq.symm.trans hq')
  exact le_iff.mpr ⟨p, r, hp, hr, hpq.trans hqr⟩

theorem isNaN_iff {x : Float} : x.isNaN = true ↔ extent x = none := by
  change x.toModel.unpack.isNaN = true ↔ place x.toModel.unpack = none
  rcases x.toModel.unpack with (_ | _) | _ | _ | ⟨_ | _, _, _, _⟩ <;>
    simp [UnpackedFloat.isNaN, place]

theorem le_total_float {x y : Float} (hx : ¬x.isNaN = true) (hy : ¬y.isNaN = true) :
    x ≤ y ∨ y ≤ x := by
  rw [isNaN_iff] at hx hy
  obtain ⟨p, hp⟩ := Option.ne_none_iff_exists'.mp hx
  obtain ⟨q, hq⟩ := Option.ne_none_iff_exists'.mp hy
  exact (le_total p q).imp (fun h => le_iff.mpr ⟨p, q, hp, hq, h⟩)
    (fun h => le_iff.mpr ⟨q, p, hq, hp, h⟩)

theorem lt_of_not_le_float {x y : Float} (hx : ¬x.isNaN = true) (hy : ¬y.isNaN = true)
    (h : ¬x ≤ y) : y < x := by
  rw [isNaN_iff] at hx hy
  obtain ⟨p, hp⟩ := Option.ne_none_iff_exists'.mp hx
  obtain ⟨q, hq⟩ := Option.ne_none_iff_exists'.mp hy
  exact lt_iff.mpr ⟨q, p, hq, hp, not_le.mp fun hle => h (le_iff.mpr ⟨p, q, hp, hq, hle⟩)⟩

theorem not_isNaN_of_isFinite {x : Float} (h : x.isFinite = true) : ¬x.isNaN = true := by
  rw [isNaN_iff, extent_finite h]
  exact Option.some_ne_none _

theorem not_le_of_lt_float {x y : Float} (h : x < y) : ¬y ≤ x := by
  obtain ⟨p, q, hp, hq, hlt⟩ := lt_iff.mp h
  intro hle
  obtain ⟨q', p', hq', hp', hle⟩ := le_iff.mp hle
  obtain rfl := Option.some_injective _ (hp.symm.trans hp')
  obtain rfl := Option.some_injective _ (hq.symm.trans hq')
  exact hle.not_gt hlt

theorem not_le_of_isNaN {x y : Float} (h : y.isNaN = true) : ¬x ≤ y := by
  intro hle
  obtain ⟨p, q, -, hq, -⟩ := le_iff.mp hle
  rw [isNaN_iff.mp h] at hq
  cases hq

/-- A stored magnitude is its own nearest one. -/
theorem nearest_canonical {m : ℕ} {e : ℤ} (hm : 0 < m) (hc : Canonical m e) :
    nearest (m * 2 ^ e) = m * 2 ^ e := by
  obtain ⟨hlt, hlow, hsub⟩ := hc
  have hself : (m : ℚ) * 2 ^ e / 2 ^ e = m := mul_div_cancel_right₀ _ (by positivity)
  have hplace : lastPlace ((m : ℚ) * 2 ^ e) = e := by
    rw [lastPlace, log_mul_zpow hm]
    by_cases hnormal : 2 ^ 52 ≤ m
    · rw [(Nat.log2_eq_iff hm.ne').mpr ⟨hnormal, hlt⟩]
      push_cast
      omega
    · have := (Nat.log2_lt (k := 52) hm.ne').mpr (by omega)
      have := hsub (by omega)
      omega
  rw [nearest, hplace, hself, roundHalfEven_natCast]

theorem landing_value {a : UnpackedFloat} (ha : Stored a) (fa : a.isFinite = true) :
    landing (value a) = point (value a) := by
  rcases a with s | _ | s | ⟨s, m, e, hm⟩
  · contradiction
  · contradiction
  · have hover : (0 : ℚ) < overflow := by unfold overflow; positivity
    simp [landing, value, hover]
  · have hx : (0 : ℚ) < m * 2 ^ e := by positivity
    have hlt := (canonical_lt_iff ha.1).mpr ha.2
    have hn := nearest_canonical hm ha.1
    cases s <;> simp [landing, value, hx.le, hx.not_ge, hn, hlt]

theorem unpack_pack_stored {a : UnpackedFloat} (ha : Stored a) :
    UnpackedFloat.unpack .binary64 (UnpackedFloat.pack .binary64 a) = a := by
  rcases a with s | _ | s | ⟨s, m, e, hm⟩
  · exact unpack_pack_infinity s
  · exact unpack_pack_notANumber
  · exact unpack_pack_zero s
  · rw [unpack_pack_finite s hm ha.1, if_pos ha.2]

/-- What an operation answers that returns one of its finite operands. -/
theorem place_unpack_pack_finite {a : UnpackedFloat} (ha : Stored a) (fa : a.isFinite = true) :
    place (UnpackedFloat.unpack .binary64 (UnpackedFloat.pack .binary64 a)) =
      some (landing (value a)) := by
  rw [unpack_pack_stored ha, place_of_isFinite fa, landing_value ha fa]

theorem place_normalize (n e : ℤ) :
    place (UnpackedFloat.unpack .binary64 (UnpackedFloat.pack .binary64
      (normalize .binary64 n e .positive))) = some (landing (n * 2 ^ e)) := by
  have hover : (0 : ℚ) < overflow := by unfold overflow; positivity
  rw [UnpackedFloat.normalize]
  rcases lt_trichotomy n 0 with hneg | rfl | hpos
  · have hcast : (n : ℚ) = -((-n).toNat : ℕ) := by
      have : ((-n).toNat : ℤ) = -n := Int.toNat_of_nonneg (by omega)
      have hq : (((-n).toNat : ℤ) : ℚ) = ((-n : ℤ) : ℚ) := by rw [this]
      push_cast at hq
      linarith
    rw [compare_lt_iff_lt.mpr hneg, hcast, neg_mul]
    exact place_unpack_pack (by positivity [show 0 < (-n).toNat by omega])
      (rounded_round .negative (by omega) e)
  · rw [compare_eq_iff_eq.mpr rfl, unpack_pack_zero]
    simp [place, value, landing, hover]
  · have hcast : (n : ℚ) = (n.toNat : ℕ) := by
      have : (n.toNat : ℤ) = n := Int.toNat_of_nonneg (by omega)
      have hq : ((n.toNat : ℤ) : ℚ) = (n : ℚ) := by rw [this]
      push_cast at hq
      linarith
    rw [compare_gt_iff_gt.mpr hpos, hcast]
    exact place_unpack_pack (by positivity [show 0 < n.toNat by omega])
      (rounded_round .positive (by omega) e)

theorem decreaseExponent_mul (m : ℕ) {e t : ℤ} (h : t ≤ e) :
    ((decreaseExponent m e t).1 : ℚ) * 2 ^ t = m * 2 ^ e := by
  have hshift : ((e - t).toNat : ℤ) = e - t := Int.toNat_of_nonneg (by omega)
  simp only [decreaseExponent, Nat.shiftLeft_eq]
  push_cast
  rw [← zpow_natCast, hshift, mul_assoc, ← zpow_add₀ two_ne_zero, sub_add_cancel]

theorem value_finite (s : Sign) {m : ℕ} {e : ℤ} (hm : 0 < m) :
    value (.finite s m e hm) = s.apply m * 2 ^ e := by
  cases s <;> simp [value, Sign.apply]

/-- Subtraction of finite numbers is exact but for the rounding of the result. -/
theorem place_sub {a b : UnpackedFloat} (ha : Stored a) (hb : Stored b)
    (fa : a.isFinite = true) (fb : b.isFinite = true) :
    place (UnpackedFloat.unpack .binary64 (UnpackedFloat.pack .binary64
      (UnpackedFloat.sub .binary64 a b))) = some (landing (value a - value b)) := by
  rcases a with s | _ | s | ⟨s, m, e, hm⟩ <;> rcases b with t | _ | t | ⟨t, n, d, hn⟩ <;>
    try contradiction
  · have hzero : ∃ r, UnpackedFloat.sub .binary64 (.zero s) (.zero t) = .zero r := by
      simp only [UnpackedFloat.sub]
      split <;> exact ⟨_, rfl⟩
    obtain ⟨r, hr⟩ := hzero
    rw [hr, place_unpack_pack_finite (a := .zero r) trivial rfl]
    simp [value]
  · have hsub : UnpackedFloat.sub .binary64 (.zero s) (.finite t n d hn) = .finite (-t) n d hn := rfl
    have hneg : Stored (.finite (-t) n d hn) := hb
    have hvalue : value (.finite (-t) n d hn) = value (.zero s) - value (.finite t n d hn) := by
      cases t
      · exact ((zero_sub _).trans (neg_neg _)).symm
      · exact (zero_sub _).symm
    rw [hsub, place_unpack_pack_finite hneg rfl, hvalue]
  · have hsub : UnpackedFloat.sub .binary64 (.finite s m e hm) (.zero t) = .finite s m e hm := rfl
    rw [hsub, place_unpack_pack_finite ha rfl]
    simp [value]
  · simp only [UnpackedFloat.sub]
    rw [place_normalize, value_finite, value_finite]
    congr 2
    have h₁ := decreaseExponent_mul m (min_le_left e d)
    have h₂ := decreaseExponent_mul n (min_le_right e d)
    cases s <;> cases t <;> simp only [Sign.apply] <;> push_cast <;> linarith

theorem extent_sub {x y : Float} (hx : x.isFinite = true) (hy : y.isFinite = true) :
    extent (x - y) = some (landing (value x.toModel.unpack - value y.toModel.unpack)) :=
  place_sub (stored_toModel x) (stored_toModel y) hx hy

/-- Division of a non-negative number by a positive one is exact but for the rounding. -/
theorem place_div {a b : UnpackedFloat} (fa : a.isFinite = true) (h0 : 0 ≤ value a)
    (hb : 0 < value b) :
    place (UnpackedFloat.unpack .binary64 (UnpackedFloat.pack .binary64
      (UnpackedFloat.div .binary64 a b))) = some (landing (value a / value b)) := by
  rcases b with t | _ | t | ⟨t, n, d, hn⟩ <;> try exact absurd hb (lt_irrefl 0)
  cases t
  · have : (0 : ℚ) < n * 2 ^ d := by positivity
    simp only [value] at hb
    linarith
  · rcases a with s | _ | s | ⟨s, m, e, hm⟩
    · contradiction
    · contradiction
    · have hdiv : UnpackedFloat.div .binary64 (.zero s) (.finite .positive n d hn) =
          .zero (s / .positive) := rfl
      rw [hdiv, place_unpack_pack_finite (a := .zero (s / .positive)) trivial rfl]
      simp [value]
    · cases s
      · have : (0 : ℚ) < m * 2 ^ e := by positivity
        simp only [value] at h0
        linarith
      · exact place_unpack_pack (by positivity) (rounded_divCore .positive hm hn e d)

theorem extent_div {x y : Float} (hx : x.isFinite = true) (h0 : 0 ≤ value x.toModel.unpack)
    (hy : 0 < value y.toModel.unpack) :
    extent (x / y) = some (landing (value x.toModel.unpack / value y.toModel.unpack)) :=
  place_div hx h0 hy

theorem extent_top_div {x y : Float} (hx : extent x = some ⊤) (hy : 0 < value y.toModel.unpack) :
    extent (x / y) = some ⊤ := by
  change place (UnpackedFloat.unpack .binary64 (UnpackedFloat.pack .binary64
    (UnpackedFloat.div .binary64 x.toModel.unpack y.toModel.unpack))) = some ⊤
  rcases hy' : y.toModel.unpack with t | _ | t | ⟨t, n, d, hn⟩ <;> rw [hy'] at hy <;>
    try exact absurd hy (lt_irrefl 0)
  cases t
  · have : (0 : ℚ) < n * 2 ^ d := by positivity
    simp only [value] at hy
    linarith
  · have hinf : x.toModel.unpack = .infinity .positive := by
      change place x.toModel.unpack = some ⊤ at hx
      rcases hu : x.toModel.unpack with s | _ | s | ⟨s, m, e, hm⟩ <;> rw [hu] at hx
      · cases s
        · exact absurd (Option.some_injective _ hx) (WithBot.bot_lt_coe _).ne
        · rfl
      · cases hx
      · exact absurd (Option.some_injective _ hx) (point_lt_top _).ne
      · rw [place_of_isFinite rfl] at hx
        exact absurd (Option.some_injective _ hx) (point_lt_top _).ne
    rw [hinf]
    exact congrArg place (unpack_pack_infinity .positive)

/-- The difference of finite numbers keeps the order of the first ones. -/
theorem sub_le_sub_float {x x' y : Float} (hx : x.isFinite = true) (hx' : x'.isFinite = true)
    (hy : y.isFinite = true) (h : x ≤ x') : x - y ≤ x' - y := by
  obtain ⟨p, q, hp, hq, hpq⟩ := le_iff.mp h
  rw [extent_finite hx] at hp
  rw [extent_finite hx'] at hq
  obtain rfl := Option.some_injective _ hp
  obtain rfl := Option.some_injective _ hq
  have hv := point_le_point.mp hpq
  exact le_iff.mpr ⟨_, _, extent_sub hx hy, extent_sub hx' hy, landing_mono (by linarith)⟩

/-- A quotient is the greater, the greater the number and the smaller the divisor. -/
theorem div_le_div_float {x x' y y' : Float} (h0 : 0 ≤ x) (hx : x ≤ x') (hy' : 0 < y')
    (hfin : y.isFinite = true) (hy : y' ≤ y) : x / y ≤ x' / y' := by
  obtain ⟨z, p, hz, hp, h0p⟩ := le_iff.mp h0
  obtain rfl := Option.some_injective _ (extent_zero.symm.trans hz)
  obtain ⟨p₁, p', hp₁, hp', hpp'⟩ := le_iff.mp hx
  obtain rfl := Option.some_injective _ (hp.symm.trans hp₁)
  obtain ⟨z, c', hz, hc', h0c⟩ := lt_iff.mp hy'
  obtain rfl := Option.some_injective _ (extent_zero.symm.trans hz)
  obtain ⟨c₁, c, hc₁, hc, hcc⟩ := le_iff.mp hy
  obtain rfl := Option.some_injective _ (hc'.symm.trans hc₁)
  obtain rfl := Option.some_injective _ ((extent_finite hfin).symm.trans hc)
  have hfin' := isFinite_of_extent hc' h0c.le hcc
  obtain rfl := Option.some_injective _ ((extent_finite hfin').symm.trans hc')
  have hvy' : 0 < value y'.toModel.unpack := point_lt_point.mp h0c
  have hvy : value y'.toModel.unpack ≤ value y.toModel.unpack := point_le_point.mp hcc
  by_cases hinf' : x'.isFinite = true
  · obtain rfl := Option.some_injective _ ((extent_finite hinf').symm.trans hp')
    have hinf := isFinite_of_extent hp h0p hpp'
    obtain rfl := Option.some_injective _ ((extent_finite hinf).symm.trans hp)
    have hvx := point_le_point.mp h0p
    have hvx' := point_le_point.mp hpp'
    refine le_iff.mpr ⟨_, _, extent_div hinf hvx (hvy'.trans_le hvy),
      extent_div hinf' (hvx.trans hvx') hvy', landing_mono ?_⟩
    exact div_le_div₀ (hvx.trans hvx') hvx' hvy' hvy
  · have htop : extent x' = some ⊤ := by
      rcases extent_not_finite hinf' with hn | hn | hn
      · rw [hn] at hp'
        cases hp'
      · rw [hn] at hp'
        obtain rfl := Option.some_injective _ hp'
        exact absurd (h0p.trans hpp') (bot_lt_point 0).not_ge
      · exact hn
    have hquot : ∃ r, extent (x / y) = some r := by
      by_cases hinf : x.isFinite = true
      · obtain rfl := Option.some_injective _ ((extent_finite hinf).symm.trans hp)
        exact ⟨_, extent_div hinf (point_le_point.mp h0p) (hvy'.trans_le hvy)⟩
      · rcases extent_not_finite hinf with hn | hn | hn
        · rw [hn] at hp
          cases hp
        · rw [hn] at hp
          obtain rfl := Option.some_injective _ hp
          exact absurd h0p (bot_lt_point 0).not_ge
        · exact ⟨_, extent_top_div hn (hvy'.trans_le hvy)⟩
    obtain ⟨r, hr⟩ := hquot
    exact le_iff.mpr ⟨r, ⊤, hr, extent_top_div htop hvy', le_top⟩

theorem abs_nonneg_float {x y : Float} (h : x.abs ≤ y) : 0 ≤ x.abs := by
  obtain ⟨p, q, hp, -, -⟩ := le_iff.mp h
  refine le_iff.mpr ⟨_, p, extent_zero, hp, ?_⟩
  change place (UnpackedFloat.unpack .binary64 (UnpackedFloat.pack .binary64
    x.toModel.unpack.abs)) = some p at hp
  have hs := stored_toModel x
  generalize x.toModel.unpack = a at hp hs
  have habs : Stored a.abs := by
    rcases a with s | _ | s | _
    · trivial
    · trivial
    · trivial
    · exact hs
  rw [unpack_pack_stored habs] at hp
  rcases a with s | _ | s | ⟨s, m, e, hm⟩
  · obtain rfl := Option.some_injective _ hp
    exact le_top
  · cases hp
  · obtain rfl := Option.some_injective _ hp
    exact le_rfl
  · obtain rfl := Option.some_injective _ hp
    have hvalue : (0 : ℚ) ≤ m * 2 ^ e := by positivity
    exact point_le_point.mpr hvalue

theorem isFinite_of_pos_le {x x' : Float} (h0 : 0 < x') (h : x' ≤ x) (hx : x.isFinite = true) :
    x'.isFinite = true := by
  obtain ⟨z, c, hz, hc, h0c⟩ := lt_iff.mp h0
  obtain ⟨c₁, d, hc₁, hd, hcd⟩ := le_iff.mp h
  obtain rfl := Option.some_injective _ (extent_zero.symm.trans hz)
  obtain rfl := Option.some_injective _ (hc.symm.trans hc₁)
  obtain rfl := Option.some_injective _ ((extent_finite hx).symm.trans hd)
  exact isFinite_of_extent hc h0c.le hcd

/-- Only finite numbers have a finite difference. -/
theorem isFinite_of_sub {x y : Float} (hx : x.isFinite = true) (h : (x - y).isFinite = true) :
    y.isFinite = true := by
  change x.toModel.unpack.isFinite = true at hx
  change (UnpackedFloat.unpack .binary64 (UnpackedFloat.pack .binary64
    (UnpackedFloat.sub .binary64 x.toModel.unpack y.toModel.unpack))).isFinite = true at h
  change y.toModel.unpack.isFinite = true
  generalize x.toModel.unpack = a at hx h
  generalize y.toModel.unpack = b at h ⊢
  rcases b with t | _ | t | _
  · have hsub : UnpackedFloat.sub .binary64 a (.infinity t) = .infinity (-t) := by
      rcases a with s | _ | s | _
      · contradiction
      · contradiction
      · rfl
      · rfl
    rw [hsub, unpack_pack_infinity] at h
    contradiction
  · have hsub : UnpackedFloat.sub .binary64 a .notANumber = .notANumber := by
      rcases a with s | _ | s | _ <;> rfl
    rw [hsub, unpack_pack_notANumber] at h
    contradiction
  · rfl
  · rfl

end CryptoNav.Lib
