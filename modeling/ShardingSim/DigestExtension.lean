import ShardingSim.DigestPrefix

/-! Digests of more than 32 bytes. Each further byte is one of the first 32 with a mask that depends on its place
only, so that any 32 bytes in a row tell the digest at every length (`digest_window`). -/
namespace ShardingSim
open Blake3
set_option autoImplicit false

/-- What byte `i` is mixed with. -/
def extensionMask (i : ℕ) : UInt8 := if i < 32 then 0 else UInt8.ofNat (i / 2 ^ 8) ^^^ UInt8.ofNat i

theorem extendedByte_eq (first : ℕ → UInt8) (i : ℕ) : extendedByte first i = first (i % 32) ^^^ extensionMask i := by
  unfold extendedByte extensionMask
  split_ifs with hi
  · rw [Nat.mod_eq_of_lt hi, UInt8.xor_zero]
  · rw [UInt8.xor_assoc]

theorem xor_mask (a b mask : UInt8) : (a ^^^ mask) ^^^ (b ^^^ mask) = a ^^^ b := by
  rw [UInt8.xor_comm b, UInt8.xor_assoc, ← UInt8.xor_assoc mask, UInt8.xor_self, UInt8.zero_xor]

/-- A window of 32 places has one for each of the first bytes. -/
theorem first_eq_of_window {first other : ℕ → UInt8} {k : ℕ}
    (h : ∀ i, k ≤ i → i < k + 32 → extendedByte first i = extendedByte other i) {j : ℕ} (hj : j < 32) :
    first j = other j := by
  have hplace := h (k + (j + 32 - k % 32) % 32) (by omega) (by omega)
  have hmod : (k + (j + 32 - k % 32) % 32) % 32 = j := by omega
  rw [extendedByte_eq, extendedByte_eq, hmod] at hplace
  exact (UInt8.xor_left_inj _).mp hplace

section Windows
variable {self other : Blake3Hasher} {k n : ℕ}

theorem getElem?_blake3HasherFinalize {i : ℕ} (hi : i < n) : (blake3HasherFinalize self n)[i]? =
    some (extendedByte (wordsByte (compress (rootInput self.flags (finalCv self)))) i) := by
  rw [blake3HasherFinalize_eq, List.getElem?_map, List.getElem?_range hi, Option.map_some]

theorem first_eq_of_take_drop (hk : k + 32 ≤ n)
    (h : ((blake3HasherFinalize self n).drop k).take 32 = ((blake3HasherFinalize other n).drop k).take 32) {j : ℕ}
    (hj : j < 32) : wordsByte (compress (rootInput self.flags (finalCv self))) j =
      wordsByte (compress (rootInput other.flags (finalCv other))) j := by
  have hwindow : ∀ i, k ≤ i → i < k + 32 →
      extendedByte (wordsByte (compress (rootInput self.flags (finalCv self)))) i =
        extendedByte (wordsByte (compress (rootInput other.flags (finalCv other)))) i := by
    intro i hge hlt
    have hplace := congrArg (fun l => l[i - k]?) h
    simp only [List.getElem?_take_of_lt (show i - k < 32 by omega), List.getElem?_drop, Nat.add_sub_cancel' hge]
      at hplace
    rw [getElem?_blake3HasherFinalize (by omega), getElem?_blake3HasherFinalize (by omega)] at hplace
    exact Option.some.inj hplace
  exact first_eq_of_window hwindow hj

theorem blake3HasherFinalize_congr (h : ∀ j < 32, wordsByte (compress (rootInput self.flags (finalCv self))) j =
    wordsByte (compress (rootInput other.flags (finalCv other))) j) (m : ℕ) :
    blake3HasherFinalize self m = blake3HasherFinalize other m := by
  rw [blake3HasherFinalize_eq, blake3HasherFinalize_eq]
  refine List.map_congr_left fun i _ => ?_
  rw [extendedByte_eq, extendedByte_eq, h (i % 32) (Nat.mod_lt i (by decide))]

end Windows

/-- **Long digests.** Two digests agree in some window of 32 bytes exactly if they agree at every length; further
bytes do not tell messages apart. -/
theorem digest_window (self other : Blake3Hasher) {k n : ℕ} (hk : k + 32 ≤ n) :
    (((blake3HasherFinalize self n).drop k).take 32 = ((blake3HasherFinalize other n).drop k).take 32 ↔
        ∀ m, blake3HasherFinalize self m = blake3HasherFinalize other m) ∧
      ∀ i < n, (blake3HasherFinalize self n).getD i 0 ^^^ (blake3HasherFinalize other n).getD i 0 =
        (blake3HasherFinalize self n).getD (i % 32) 0 ^^^ (blake3HasherFinalize other n).getD (i % 32) 0 := by
  refine ⟨⟨fun h => blake3HasherFinalize_congr fun j hj => first_eq_of_take_drop hk h hj, fun h => by rw [h n]⟩,
    fun i hi => ?_⟩
  have hmod : i % 32 < n := (Nat.mod_le i 32).trans_lt hi
  simp only [List.getD_eq_getElem?_getD, getElem?_blake3HasherFinalize hi, getElem?_blake3HasherFinalize hmod,
    Option.getD_some, extendedByte_eq, Nat.mod_mod, xor_mask]

theorem digest_window_sample :
    (blake3HasherFinalize (blake3HasherInit uninitialised) 64).getD 40 0 ^^^
        (blake3HasherFinalize (blake3HasherUpdate (blake3HasherInit uninitialised) [97]) 64).getD 40 0 =
      (blake3HasherFinalize (blake3HasherInit uninitialised) 64).getD 8 0 ^^^
        (blake3HasherFinalize (blake3HasherUpdate (blake3HasherInit uninitialised) [97]) 64).getD 8 0 :=
  (digest_window (blake3HasherInit uninitialised) (blake3HasherUpdate (blake3HasherInit uninitialised) [97])
    (show 7 + 32 ≤ 64 by decide)).2 40 (by decide)

end ShardingSim
