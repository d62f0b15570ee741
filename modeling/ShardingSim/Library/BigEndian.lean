import Mathlib.Data.Nat.Size
import Mathlib.Tactic

/-! Bytes as a number, the highest first: its range, its order, which is the lexicographic one, and the zero bits in
front of it. -/
namespace BigEndian
set_option autoImplicit false

def value : List UInt8 → ℕ
  | [] => 0
  | b :: bs => b.toNat * 2 ^ (8 * bs.length) + value bs

/-- A lower digit makes a lower number, whatever follows. -/
theorem digit_lt {a b k r : ℕ} (hab : a < b) (hr : r < k) : a * k + r < b * k :=
  calc a * k + r < a * k + k := Nat.add_lt_add_left hr _
    _ = (a + 1) * k := (Nat.succ_mul a k).symm
    _ ≤ b * k := Nat.mul_le_mul_right k hab

theorem value_lt (bs : List UInt8) : value bs < 2 ^ (8 * bs.length) := by
  induction bs with
  | nil => exact Nat.one_pos
  | cons b bs ih =>
    rw [value, List.length_cons, Nat.mul_succ, Nat.pow_add, Nat.mul_comm (2 ^ _)]
    exact digit_lt b.toNat_lt ih

theorem value_eq_zero_iff (bs : List UInt8) : value bs = 0 ↔ ∀ b ∈ bs, b = 0 := by
  induction bs with
  | nil => exact iff_of_true rfl fun b hb => absurd hb List.not_mem_nil
  | cons b bs ih =>
    have hpow : 2 ^ (8 * bs.length) ≠ 0 := (Nat.two_pow_pos _).ne'
    have hb : b.toNat = 0 ↔ b = 0 := UInt8.toNat_inj (b := 0)
    rw [value, Nat.add_eq_zero_iff, Nat.mul_eq_zero, or_iff_left hpow, ih, hb, List.forall_mem_cons]

theorem value_cons_lt {a b : UInt8} {as bs : List UInt8} (hlen : as.length = bs.length) (h : a < b) :
    value (a :: as) < value (b :: bs) := by
  rw [value, value, ← hlen]
  exact Nat.lt_add_right _ (digit_lt (UInt8.lt_iff_toNat_lt.mp h) (value_lt as))

theorem value_cons_le_iff (b : UInt8) {as bs : List UInt8} (hlen : as.length = bs.length) :
    value (b :: as) ≤ value (b :: bs) ↔ value as ≤ value bs := by
  rw [value, value, hlen]
  exact Nat.add_le_add_iff_left

/-! ## Leading zeros -/

/-- The zero bits in front of a number of `width` bits. -/
def leadingZeros (width v : ℕ) : ℕ := width - v.size

theorem leadingZeros_le (width v : ℕ) : leadingZeros width v ≤ width := Nat.sub_le _ _

section LeadingZeros
variable {width v : ℕ}

theorem leadingZeros_zero : leadingZeros width 0 = width := by
  rw [leadingZeros, Nat.size_zero, Nat.sub_zero]

theorem leadingZeros_anti {w : ℕ} (h : v ≤ w) : leadingZeros width w ≤ leadingZeros width v :=
  Nat.sub_le_sub_left (Nat.size_le_size h) width

variable (hv : v < 2 ^ width)
include hv

theorem sub_leadingZeros : width - leadingZeros width v = v.size := Nat.sub_sub_self (Nat.size_le.mpr hv)

theorem lt_two_pow_sub_leadingZeros : v < 2 ^ (width - leadingZeros width v) := by
  rw [sub_leadingZeros hv]
  exact Nat.lt_size_self v

theorem two_pow_sub_leadingZeros_le (hpos : v ≠ 0) : 2 ^ (width - leadingZeros width v - 1) ≤ v := by
  have hsize : 0 < v.size := Nat.size_pos.mpr (Nat.pos_of_ne_zero hpos)
  rw [sub_leadingZeros hv]
  exact Nat.lt_size.mp (Nat.sub_one_lt hsize.ne')

theorem leadingZeros_eq_width_iff : leadingZeros width v = width ↔ v = 0 := by
  have hsize := Nat.size_le.mpr hv
  rw [← Nat.size_eq_zero, leadingZeros]
  omega

end LeadingZeros

/-- Digits below a number do not change where its bits begin. -/
theorem size_mul_two_pow_add {b r k : ℕ} (hb : b ≠ 0) (hr : r < 2 ^ k) : (b * 2 ^ k + r).size = b.size + k := by
  have hpos : 0 < b.size := Nat.size_pos.mpr (Nat.pos_of_ne_zero hb)
  apply le_antisymm
  · rw [Nat.size_le, Nat.pow_add]
    exact digit_lt (Nat.lt_size_self b) hr
  · have hlow : 2 ^ (b.size - 1) ≤ b := Nat.lt_size.mp (Nat.sub_one_lt hpos.ne')
    have hbits : 2 ^ (b.size - 1 + k) ≤ b * 2 ^ k + r := by
      rw [Nat.pow_add]
      exact Nat.le_add_right_of_le (Nat.mul_le_mul_right _ hlow)
    have hlt := Nat.lt_size.mpr hbits
    omega

theorem leadingZeros_cons_zero (bs : List UInt8) : leadingZeros (8 * (0 :: bs).length) (value (0 :: bs)) =
    8 + leadingZeros (8 * bs.length) (value bs) := by
  have hsize := Nat.size_le.mpr (value_lt bs)
  have hvalue : value (0 :: bs) = value bs := by
    rw [value, UInt8.toNat_zero, Nat.zero_mul, Nat.zero_add]
  rw [hvalue, leadingZeros, leadingZeros, List.length_cons]
  omega

theorem leadingZeros_cons {b : UInt8} (hb : b ≠ 0) (bs : List UInt8) :
    leadingZeros (8 * (b :: bs).length) (value (b :: bs)) = leadingZeros 8 b.toNat := by
  have hne : b.toNat ≠ 0 := fun h => hb (UInt8.toNat_inj.mp h)
  rw [value, leadingZeros, leadingZeros, size_mul_two_pow_add hne (value_lt bs), List.length_cons]
  omega

theorem leadingZeros_double {v : ℕ} (width : ℕ) (hpos : v ≠ 0) (hv : 2 * v < 2 ^ width) :
    leadingZeros width v = leadingZeros width (2 * v) + 1 := by
  have hsize := size_mul_two_pow_add (k := 1) hpos (Nat.two_pow_pos 1)
  have hle := Nat.size_le.mpr hv
  rw [Nat.pow_one, Nat.add_zero, Nat.mul_comm] at hsize
  rw [leadingZeros, leadingZeros]
  omega

end BigEndian
