import Mathlib.Data.List.Basic
import Mathlib.Tactic.NormNum
import Mathlib.Tactic.Ring

/-!
# Numbers in a byte string

A number of `w` bytes, least significant first, and the reading of one at an offset, which fails
when the string ends too early. A field that could be read is what the string goes on with from
there (`drop_of_readLe`), so that a record is read field by field, and what is read is what was
written (`readLe_of_drop`).

A field that would reach beyond the end is absent as a whole: there is no reading of the bytes
that are there. Numbers of more than 64 bits and other byte orders are left out, since no format
read with this file has them; the width is a parameter all the same, because formats mix widths.
Two's complement is Lean's own `BitVec.toInt` at eight times the width.
-/

set_option autoImplicit false

namespace CryptoNav.Lib

/-- The `w` low bytes of `n`. -/
def leBytes : ℕ → ℕ → List UInt8
  | 0, _ => []
  | w + 1, n => UInt8.ofNat (n % 256) :: leBytes w (n / 256)

def ofLeBytes : List UInt8 → ℕ
  | [] => 0
  | b :: bytes => b.toNat + 256 * ofLeBytes bytes

@[simp] theorem length_leBytes (w n : ℕ) : (leBytes w n).length = w := by
  induction w generalizing n with
  | zero => rfl
  | succ w ih => simp only [leBytes, List.length_cons, ih]

theorem ofLeBytes_leBytes {w n : ℕ} (h : n < 256 ^ w) : ofLeBytes (leBytes w n) = n := by
  induction w generalizing n with
  | zero =>
    have hn : n = 0 := by simpa using h
    rw [hn]
    rfl
  | succ w ih =>
    have hrest : n / 256 < 256 ^ w := Nat.div_lt_of_lt_mul (by rwa [← pow_succ'])
    have hlow : (UInt8.ofNat (n % 256)).toNat = n % 256 := by
      rw [UInt8.toNat_ofNat']
      exact Nat.mod_eq_of_lt (Nat.mod_lt n (by norm_num))
    rw [leBytes, ofLeBytes, ih hrest, hlow]
    exact Nat.mod_add_div n 256

theorem ofLeBytes_lt (bytes : List UInt8) : ofLeBytes bytes < 256 ^ bytes.length := by
  induction bytes with
  | nil => simp [ofLeBytes]
  | cons b bytes ih =>
    have hb : b.toNat < 256 := b.toNat_lt
    rw [ofLeBytes, List.length_cons, pow_succ]
    omega

theorem leBytes_ofLeBytes (bytes : List UInt8) : leBytes bytes.length (ofLeBytes bytes) = bytes := by
  induction bytes with
  | nil => rfl
  | cons b bytes ih =>
    have hb : b.toNat < 256 := b.toNat_lt
    rw [List.length_cons, leBytes, ofLeBytes]
    congr 1
    · rw [Nat.add_mul_mod_self_left, Nat.mod_eq_of_lt hb, UInt8.ofNat_toNat]
    · rw [Nat.add_mul_div_left _ _ (by norm_num), Nat.div_eq_of_lt hb, Nat.zero_add, ih]

/-! ## Fields -/

/-- `slice::get(offset..offset + width)`. -/
def slot (bytes : List UInt8) (offset width : ℕ) : Option (List UInt8) :=
  if offset + width ≤ bytes.length then some ((bytes.drop offset).take width) else none

/-- The next field begins where the last one ends. -/
theorem drop_add_of_drop {bytes value rest : List UInt8} {offset : ℕ}
    (h : bytes.drop offset = value ++ rest) : bytes.drop (offset + value.length) = rest := by
  rw [← List.drop_drop, h, List.drop_left]

theorem drop_of_slot {bytes value : List UInt8} {offset width : ℕ}
    (h : slot bytes offset width = some value) :
    value.length = width ∧ bytes.drop offset = value ++ bytes.drop (offset + width) := by
  unfold slot at h
  split at h
  · rename_i hle
    cases h
    refine ⟨by rw [List.length_take, List.length_drop]; omega, ?_⟩
    rw [← List.drop_drop, List.take_append_drop]
  · cases h

theorem slot_of_drop {bytes value rest : List UInt8} {offset : ℕ} (hoffset : offset ≤ bytes.length)
    (h : bytes.drop offset = value ++ rest) : slot bytes offset value.length = some value := by
  have hlength : bytes.length - offset = value.length + rest.length := by
    rw [← List.length_drop, h, List.length_append]
  unfold slot
  rw [if_pos (by omega), h, List.take_left]

def readLe (bytes : List UInt8) (offset width : ℕ) : Option ℕ :=
  (slot bytes offset width).map ofLeBytes

theorem drop_of_readLe {bytes : List UInt8} {offset width n : ℕ}
    (h : readLe bytes offset width = some n) :
    n < 256 ^ width ∧ bytes.drop offset = leBytes width n ++ bytes.drop (offset + width) := by
  obtain ⟨value, hvalue, rfl⟩ := Option.map_eq_some_iff.mp h
  obtain ⟨rfl, hdrop⟩ := drop_of_slot hvalue
  exact ⟨ofLeBytes_lt value, by rw [leBytes_ofLeBytes]; exact hdrop⟩

theorem readLe_of_drop {bytes rest : List UInt8} {offset width n : ℕ}
    (hoffset : offset ≤ bytes.length) (hn : n < 256 ^ width)
    (h : bytes.drop offset = leBytes width n ++ rest) : readLe bytes offset width = some n := by
  have hslot := slot_of_drop hoffset h
  rw [length_leBytes] at hslot
  rw [readLe, hslot, Option.map_some, ofLeBytes_leBytes hn]

/-! ## Signed numbers -/

/-- The number of `w` bytes in two's complement. -/
def ofTwos (w n : ℕ) : ℤ := (BitVec.ofNat (8 * w) n).toInt

def twos (w : ℕ) (t : ℤ) : ℕ := (BitVec.ofInt (8 * w) t).toNat

theorem twos_ofTwos {w n : ℕ} (h : n < 256 ^ w) : twos w (ofTwos w n) = n := by
  have hpow : n < 2 ^ (8 * w) := by rwa [pow_mul]
  rw [twos, ofTwos, BitVec.ofInt_toInt, BitVec.toNat_ofNat, Nat.mod_eq_of_lt hpow]

theorem twos_lt (w : ℕ) (t : ℤ) : twos w t < 256 ^ w := by
  have h := (BitVec.ofInt (8 * w) t).isLt
  rwa [pow_mul] at h

theorem ofTwos_twos {w : ℕ} {t : ℤ} (hlow : -(2 ^ (8 * w - 1) : ℤ) ≤ t)
    (hhigh : t < 2 ^ (8 * w - 1)) (hw : 0 < w) : ofTwos w (twos w t) = t := by
  rw [twos, ofTwos, BitVec.ofNat_toNat, BitVec.setWidth_eq, BitVec.toInt_ofInt]
  have hsplit : (2 ^ (8 * w) : ℕ) = 2 * 2 ^ (8 * w - 1) := by
    rw [← pow_succ']
    congr 1
    omega
  apply Int.bmod_eq_of_le <;> rw [hsplit] <;> push_cast <;> omega

end CryptoNav.Lib
