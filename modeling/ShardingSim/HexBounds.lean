import Mathlib.Data.List.GetD
import ShardingSim.HexStrings
import ShardingSim.TransactionCodec

/-! What `hex_to_bytes_buf` reads. It is not told the length of the string, reads both digits of a pair before it
looks at either, and stops at the first pair that is not two digits: a string of digits that ends with a pair too
early makes it read the byte behind the terminator (`hexReads_inBounds_iff`). Its callers pass no such string
(`hexReads_callers`). -/
namespace ShardingSim
open ByteBuffer
set_option autoImplicit false

/-- `hexToBytesFrom` with the indices of `hex` that it reads, in order. -/
def hexToBytesReads {n : ℕ} (hex : List UInt8) (bytes : Vector UInt8 n) (i : ℕ) :
    ℕ → (Bool × Vector UInt8 n) × List ℕ
  | 0 => ((true, bytes), [])
  | k + 1 =>
    match hexCharValue (hex.getD (i * 2) 0), hexCharValue (hex.getD (i * 2 + 1) 0) with
    | some high, some low =>
      let rest := hexToBytesReads hex (write bytes i [(high <<< 4) ||| low]) (i + 1) k
      (rest.1, i * 2 :: (i * 2 + 1) :: rest.2)
    | _, _ => ((false, bytes), [i * 2, i * 2 + 1])

/-- The terminator is the last byte that belongs to the string. -/
def InString (hex : List UInt8) (reads : List ℕ) : Prop := ∀ r ∈ reads, r ≤ hex.length

/-- Behind the first `i` pairs come only digits, up to an even index. -/
def DigitsFrom (hex : List UInt8) (i : ℕ) : Prop := hex.length % 2 = 0 ∧ ∀ c ∈ hex.drop (i * 2), IsHexDigit c

section Reads
variable {n : ℕ} {hex : List UInt8}

theorem hexToBytesReads_fst (bytes : Vector UInt8 n) (i k : ℕ) :
    (hexToBytesReads hex bytes i k).1 = hexToBytesFrom hex bytes i k := by
  induction k generalizing bytes i with
  | zero => rfl
  | succ k ih =>
    rw [hexToBytesReads, hexToBytesFrom]
    cases hexCharValue (hex.getD (i * 2) 0) with
    | none => rfl
    | some high =>
      cases hexCharValue (hex.getD (i * 2 + 1) 0) with
      | none => rfl
      | some low => exact ih _ _

/-- A pair of the string: two digits and what follows, or the loop stops. -/
theorem reads_pair (hex : List UInt8) (bytes : Vector UInt8 n) (i k : ℕ) :
    (∃ bytes' : Vector UInt8 n, IsHexDigit (hex.getD (i * 2) 0) ∧ IsHexDigit (hex.getD (i * 2 + 1) 0) ∧
      (hexToBytesReads hex bytes i (k + 1)).2 =
        i * 2 :: (i * 2 + 1) :: (hexToBytesReads hex bytes' (i + 1) k).2) ∨
    ¬ (IsHexDigit (hex.getD (i * 2) 0) ∧ IsHexDigit (hex.getD (i * 2 + 1) 0)) ∧
      (hexToBytesReads hex bytes i (k + 1)).2 = [i * 2, i * 2 + 1] := by
  rw [hexToBytesReads, ← hexCharValue_isSome, ← hexCharValue_isSome]
  cases hexCharValue (hex.getD (i * 2) 0) with
  | none => exact Or.inr ⟨by simp, rfl⟩
  | some high =>
    cases hexCharValue (hex.getD (i * 2 + 1) 0) with
    | none => exact Or.inr ⟨by simp, rfl⟩
    | some low => exact Or.inl ⟨_, rfl, rfl, rfl⟩

theorem not_isHexDigit_zero : ¬ IsHexDigit 0 := by decide

/-- Two digits are two characters of the string. -/
theorem lt_length_of_isHexDigit {j : ℕ} (h : IsHexDigit (hex.getD j 0)) : j < hex.length := by
  by_contra hge
  rw [List.getD_eq_default _ _ (not_lt.mp hge)] at h
  exact not_isHexDigit_zero h

theorem digitsFrom_succ_iff {i : ℕ} (hlen : i * 2 + 1 < hex.length) : DigitsFrom hex i ↔
    (IsHexDigit (hex.getD (i * 2) 0) ∧ IsHexDigit (hex.getD (i * 2 + 1) 0)) ∧ DigitsFrom hex (i + 1) := by
  have hdrop : hex.drop (i * 2) = hex.getD (i * 2) 0 :: hex.getD (i * 2 + 1) 0 :: hex.drop ((i + 1) * 2) := by
    rw [List.drop_eq_getElem_cons (by omega), List.drop_eq_getElem_cons (by omega), List.getD_eq_getElem _ _ (by omega),
      List.getD_eq_getElem _ _ (by omega), Nat.succ_mul]
  rw [DigitsFrom, DigitsFrom, hdrop, List.forall_mem_cons, List.forall_mem_cons]
  tauto

theorem reads_inString_iff (bytes : Vector UInt8 n) {i : ℕ} (k : ℕ) (hi : i * 2 ≤ hex.length) :
    InString hex (hexToBytesReads hex bytes i k).2 ↔ ¬ (hex.length < (i + k) * 2 ∧ DigitsFrom hex i) := by
  induction k generalizing bytes i with
  | zero =>
    refine iff_of_true (fun r hr => by cases hr) fun h => ?_
    exact absurd h.1 (by omega)
  | succ k ih =>
    rcases reads_pair hex bytes i k with ⟨bytes', hhigh, hlow, hreads⟩ | ⟨hstop, hreads⟩
    · have hlt := lt_length_of_isHexDigit hlow
      have hrest := @ih bytes' (i + 1) (by omega)
      have hpairs : (i + (k + 1)) * 2 = (i + 1 + k) * 2 := by omega
      rw [digitsFrom_succ_iff hlt, and_iff_right (And.intro hhigh hlow), hreads, hpairs, ← hrest]
      simp only [InString, List.forall_mem_cons]
      exact ⟨fun h => h.2.2, fun h => ⟨by omega, by omega, h⟩⟩
    · rw [hreads]
      simp only [InString, List.forall_mem_cons]
      rcases Nat.eq_or_lt_of_le hi with heq | hlt
      · -- the string ended with a whole pair
        have hdigits : DigitsFrom hex i := ⟨by omega, by simp [heq]⟩
        refine iff_of_false (fun h => ?_) fun h => h ⟨by omega, hdigits⟩
        have hsecond := h.2.1
        omega
      · refine iff_of_true ⟨by omega, by omega, by simp⟩ fun h => hstop ?_
        have heven := h.2.1
        exact ((digitsFrom_succ_iff (by omega)).mp h.2).1

/-- One byte at most is read behind the terminator. -/
theorem reads_le (bytes : Vector UInt8 n) {i : ℕ} (k : ℕ) (hi : i * 2 ≤ hex.length) :
    ∀ r ∈ (hexToBytesReads hex bytes i k).2, r ≤ hex.length + 1 := by
  induction k generalizing bytes i with
  | zero => exact fun r hr => by cases hr
  | succ k ih =>
    rcases reads_pair hex bytes i k with ⟨bytes', -, hlow, hreads⟩ | ⟨-, hreads⟩
    · have hlt := lt_length_of_isHexDigit hlow
      rw [hreads, List.forall_mem_cons, List.forall_mem_cons]
      exact ⟨by omega, by omega, @ih bytes' (i + 1) (by omega)⟩
    · rw [hreads]
      simp only [List.forall_mem_cons]
      exact ⟨by omega, by omega, by simp⟩

theorem hexReads_inBounds_iff (hex : List UInt8) (bytes : Vector UInt8 n) :
    InString hex (hexToBytesReads hex bytes 0 n).2 ↔
      ¬ (hex.length < n * 2 ∧ hex.length % 2 = 0 ∧ ∀ c ∈ hex, IsHexDigit c) := by
  have hiff := @reads_inString_iff n hex bytes 0 n (Nat.zero_le _)
  rwa [DigitsFrom, Nat.zero_add, Nat.zero_mul, List.drop_zero] at hiff

end Reads

/-! ## Callers -/

def hexToAddressReads (hex : List UInt8) (address : Vector UInt8 20) : List ℕ :=
  if hex.length ≠ 40 then [] else (hexToBytesReads hex address 0 20).2

def transactionDeserializeReads (uninitialised : Vector UInt8 112) (hexData : List UInt8) : List ℕ :=
  if hexData.length ≠ 224 then [] else (hexToBytesReads hexData uninitialised 0 112).2

theorem hexReads_callers (hex : List UInt8) (address : Vector UInt8 20) (uninitialised : Vector UInt8 112) :
    InString hex (hexToAddressReads hex address) ∧ InString hex (transactionDeserializeReads uninitialised hex) := by
  unfold hexToAddressReads transactionDeserializeReads
  constructor
  · split_ifs with hlen
    · exact fun r hr => by cases hr
    · exact (hexReads_inBounds_iff hex address).mpr fun h => by omega
  · split_ifs with hlen
    · exact fun r hr => by cases hr
    · exact (hexReads_inBounds_iff hex uninitialised).mpr fun h => by omega

/-- **What `hex_to_bytes_buf` reads.** It leaves the string exactly for digits in whole pairs of which there are too
few, by one byte; its callers check the length before. -/
theorem hexToBytesBuf_reads {n : ℕ} (hex : List UInt8) (bytes : Vector UInt8 n) (address : Vector UInt8 20)
    (uninitialised : Vector UInt8 112) :
    (hexToBytesReads hex bytes 0 n).1 = hexToBytesBuf hex bytes ∧
      (InString hex (hexToBytesReads hex bytes 0 n).2 ↔
        ¬ (hex.length < n * 2 ∧ hex.length % 2 = 0 ∧ ∀ c ∈ hex, IsHexDigit c)) ∧
      (∀ r ∈ (hexToBytesReads hex bytes 0 n).2, r ≤ hex.length + 1) ∧
      InString hex (hexToAddressReads hex address) ∧ InString hex (transactionDeserializeReads uninitialised hex) :=
  ⟨hexToBytesReads_fst bytes 0 n, hexReads_inBounds_iff hex bytes, reads_le bytes n (Nat.zero_le _),
    hexReads_callers hex address uninitialised⟩

end ShardingSim
