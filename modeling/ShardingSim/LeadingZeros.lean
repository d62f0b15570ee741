import ShardingSim.Common
import ShardingSim.Library.BigEndian

/-! `count_leading_zeros` with its byte loop and its bit loop, which is run with a bound on its tests: eight are
enough for a byte that is not zero. The count is that of the number the bytes stand for
(`countLeadingZeros_eq`), modulo 2^32. -/
namespace ShardingSim
open BigEndian
set_option autoImplicit false

/-- `compare_bytes` of two arrays of one length: the sign of `memcmp`. -/
def compareBytes : List UInt8 → List UInt8 → Ordering
  | a :: as, b :: bs => if a < b then .lt else if b < a then .gt else compareBytes as bs
  | _, _ => .eq

/-- The loop over the bits of one byte; `none` where it has not ended after `fuel` tests. -/
def countBits (zeros : UInt32) (b : UInt8) : ℕ → Option UInt32
  | 0 => none
  | fuel + 1 => if b &&& 0x80 = 0 then countBits (zeros + 1) (b <<< 1) fuel else some zeros

/-- The loop over the bytes, which the first one that is not zero ends. -/
def countBytes (fuel : ℕ) (zeros : UInt32) : List UInt8 → Option UInt32
  | [] => some zeros
  | b :: rest => if b = 0 then countBytes fuel (zeros + 8) rest else countBits zeros b fuel

def countLeadingZeros (fuel : ℕ) (data : List UInt8) : Option UInt32 := countBytes fuel 0 data

/-! ## The loops -/

theorem and_0x80_eq_zero_iff (b : UInt8) : b &&& 0x80 = 0 ↔ b.toNat < 2 ^ 7 := by
  have hbits : ∀ x : BitVec 8, x &&& 0x80#8 = 0#8 ↔ x.toNat < 2 ^ 7 := by decide
  rw [← UInt8.toBitVec_inj]
  exact hbits b.toBitVec

theorem toNat_shiftLeft_one {b : UInt8} (h : b.toNat < 2 ^ 7) : (b <<< 1).toNat = 2 * b.toNat := by
  have hbits : ∀ x : BitVec 8, x.toNat < 2 ^ 7 → (x <<< 1).toNat = 2 * x.toNat := by decide
  exact hbits b.toBitVec h

theorem leadingZeros_byte {b : UInt8} (hb : b ≠ 0) : leadingZeros 8 b.toNat < 8 := by
  have hne : b.toNat ≠ 0 := fun h => hb (UInt8.toNat_inj.mp h)
  have hsize := Nat.size_pos.mpr (Nat.pos_of_ne_zero hne)
  rw [leadingZeros]
  omega

/-- The bit loop ends on every byte but zero, with a test for each zero bit and one for the bit set. -/
theorem countBits_eq {zeros : UInt32} {b : UInt8} {fuel : ℕ} (hb : b ≠ 0)
    (hfuel : leadingZeros 8 b.toNat < fuel) :
    countBits zeros b fuel = some (zeros + UInt32.ofNat (leadingZeros 8 b.toNat)) := by
  have hne : b.toNat ≠ 0 := fun h => hb (UInt8.toNat_inj.mp h)
  induction fuel generalizing zeros b with
  | zero => exact absurd hfuel (Nat.not_lt_zero _)
  | succ fuel ih =>
    rw [countBits]
    split
    · rename_i hlow
      have hlt := (and_0x80_eq_zero_iff b).mp hlow
      have hshift := toNat_shiftLeft_one hlt
      have hzeros := leadingZeros_double 8 hne (by omega)
      have hne' : (b <<< 1).toNat ≠ 0 := by omega
      have hb' : b <<< 1 ≠ 0 := fun h => hne' (congrArg UInt8.toNat h)
      rw [ih hb' (by rw [hshift]; omega) hne', hshift, hzeros, Nat.add_comm, UInt32.ofNat_add, UInt32.add_assoc]
      rfl
    · rename_i hhigh
      rw [and_0x80_eq_zero_iff, not_lt] at hhigh
      have hsize := Nat.lt_size.mpr hhigh
      have hzero : leadingZeros 8 b.toNat = 0 := by
        rw [leadingZeros]
        omega
      rw [hzero]
      exact congrArg some (UInt32.add_zero zeros).symm

theorem countBytes_eq {fuel : ℕ} (hfuel : 8 ≤ fuel) (zeros : UInt32) (data : List UInt8) :
    countBytes fuel zeros data =
      some (zeros + UInt32.ofNat (leadingZeros (8 * data.length) (value data))) := by
  induction data generalizing zeros with
  | nil => exact congrArg some (UInt32.add_zero zeros).symm
  | cons b rest ih =>
    rw [countBytes]
    split
    · rename_i hzero
      rw [hzero, ih, leadingZeros_cons_zero, UInt32.ofNat_add, UInt32.add_assoc]
      rfl
    · rename_i hb
      rw [countBits_eq hb (lt_of_lt_of_le (leadingZeros_byte hb) hfuel), leadingZeros_cons hb]

theorem countLeadingZeros_eq {fuel : ℕ} (hfuel : 8 ≤ fuel) (data : List UInt8) : countLeadingZeros fuel data =
    some (UInt32.ofNat (leadingZeros (8 * data.length) (value data))) := by
  rw [countLeadingZeros, countBytes_eq hfuel, UInt32.zero_add]

/-! ## The order -/

/-- `memcmp` of two arrays of one length orders the numbers that they stand for. -/
theorem compareBytes_iff {a b : List UInt8} (hlen : a.length = b.length) :
    compareBytes a b ≠ .gt ↔ value a ≤ value b := by
  induction a generalizing b with
  | nil =>
    obtain rfl := List.length_eq_zero_iff.mp hlen.symm
    exact iff_of_true nofun le_rfl
  | cons x as ih =>
    obtain _ | ⟨y, bs⟩ := b
    · cases hlen
    · have hrest : as.length = bs.length := Nat.succ.inj hlen
      rw [compareBytes]
      split
      · rename_i hlt
        exact iff_of_true nofun (value_cons_lt hrest hlt).le
      · rename_i hge
        split
        · rename_i hgt
          exact iff_of_false (fun h => h rfl) (not_le.mpr (value_cons_lt hrest.symm hgt))
        · rename_i hle
          obtain rfl := UInt8.le_antisymm (UInt8.not_lt.mp hle) (UInt8.not_lt.mp hge)
          rw [ih hrest, value_cons_le_iff x hrest]

/-! ## The count -/

theorem isZero_iff_value (data : List UInt8) : isZero data = true ↔ value data = 0 := by
  rw [isZero_iff, value_eq_zero_iff]

/-- In front of the number that the bytes stand for are `z` zero bits. -/
structure IsLeadingZeros (data : List UInt8) (z : ℕ) : Prop where
  le : z ≤ 8 * data.length
  upper : value data < 2 ^ (8 * data.length - z)
  lower : value data ≠ 0 → 2 ^ (8 * data.length - z - 1) ≤ value data
  all : z = 8 * data.length ↔ isZero data = true

theorem isLeadingZeros (data : List UInt8) :
    IsLeadingZeros data (leadingZeros (8 * data.length) (value data)) where
  le := leadingZeros_le _ _
  upper := lt_two_pow_sub_leadingZeros (value_lt data)
  lower := two_pow_sub_leadingZeros_le (value_lt data)
  all := by rw [leadingZeros_eq_width_iff (value_lt data), isZero_iff_value]

theorem toNat_leadingZeros {data : List UInt8} (hlen : data.length < 2 ^ 29) :
    (UInt32.ofNat (leadingZeros (8 * data.length) (value data))).toNat =
      leadingZeros (8 * data.length) (value data) := by
  have hle := leadingZeros_le (8 * data.length) (value data)
  exact UInt32.toNat_ofNat_of_lt' (lt_of_le_of_lt hle (by rw [UInt32.size]; omega))

/-- At 2^29 bytes the counter wraps. -/
theorem countLeadingZeros_wraps : countLeadingZeros 8 (List.replicate (2 ^ 29) 0) = some 0 := by
  have hvalue : value (List.replicate (2 ^ 29) 0) = 0 :=
    (value_eq_zero_iff _).mpr fun b hb => List.eq_of_mem_replicate hb
  rw [countLeadingZeros_eq le_rfl, hvalue, leadingZeros_zero, List.length_replicate]
  rfl

theorem countLeadingZeros_anti {a b : List UInt8} {za zb : UInt32} (hlen : a.length = b.length)
    (hlt : a.length < 2 ^ 29) (hle : compareBytes a b ≠ .gt) (ha : countLeadingZeros 8 a = some za)
    (hb : countLeadingZeros 8 b = some zb) : zb ≤ za := by
  rw [countLeadingZeros_eq le_rfl] at ha hb
  rw [← Option.some.inj ha, ← Option.some.inj hb, UInt32.le_iff_toNat_le, toNat_leadingZeros hlt,
    toNat_leadingZeros (hlen ▸ hlt), hlen]
  exact leadingZeros_anti ((compareBytes_iff hlen).mp hle)

/-- **Leading zeros.** Both loops end, the count is that of the number, and a string that `compare_bytes` puts
first has no fewer zeros in front. -/
theorem countLeadingZeros_spec :
    (∀ data : List UInt8, data.length < 2 ^ 29 → ∃ z : UInt32,
        (∀ fuel, 8 ≤ fuel → countLeadingZeros fuel data = some z) ∧ IsLeadingZeros data z.toNat) ∧
      (∀ (zeros : UInt32) (b : UInt8), b ≠ 0 →
        ∃ z, ∀ fuel, 8 ≤ fuel → countBits zeros b fuel = some z) ∧
      ∀ (a b : List UInt8) (za zb : UInt32), a.length = b.length → a.length < 2 ^ 29 →
        compareBytes a b ≠ .gt → countLeadingZeros 8 a = some za → countLeadingZeros 8 b = some zb →
          zb ≤ za := by
  refine ⟨fun data hlen => ?_, fun zeros b hb => ?_,
    fun a b za zb => countLeadingZeros_anti⟩
  · refine ⟨_, fun fuel hfuel => countLeadingZeros_eq hfuel data, ?_⟩
    rw [toNat_leadingZeros hlen]
    exact isLeadingZeros data
  · exact ⟨_, fun fuel hfuel => countBits_eq hb (lt_of_lt_of_le (leadingZeros_byte hb) hfuel)⟩

theorem countLeadingZeros_spec_sample : ∃ z : UInt32,
    (∀ fuel, 8 ≤ fuel → countLeadingZeros fuel [0, 0x20] = some z) ∧ IsLeadingZeros [0, 0x20] z.toNat :=
  countLeadingZeros_spec.1 [0, 0x20] (by decide)

end ShardingSim
