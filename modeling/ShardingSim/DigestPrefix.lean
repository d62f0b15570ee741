import ShardingSim.Blake3.Conformance
import ShardingSim.Library.AccessLog
import ShardingSim.Transaction

/-! The output of `blake3_hasher_finalize` in the memory of its caller, with every byte that its two loops load and
store. Byte `i` does not depend on the length, so that a shorter digest is the beginning of a longer one
(`digest_prefix`). -/
namespace ShardingSim
open Blake3 AccessLog
set_option autoImplicit false

/-! ## The output loops -/

def copyByte (outputCv : Vector UInt32 16) (out : Memory UInt8) (i : ℕ) : Memory UInt8 :=
  store out i (wordsByte outputCv i)

def extendByte (out : Memory UInt8) (i : ℕ) : Memory UInt8 :=
  let first := load 0 out (i % 32)
  store first.2 i (first.1 ^^^ UInt8.ofNat (i / 2 ^ 8) ^^^ UInt8.ofNat i)

/-- `blake3_hasher_finalize` into the memory from `out` on. -/
def finalizeInto (self : Blake3Hasher) (out : List UInt8) (outLen : ℕ) : Memory UInt8 :=
  let outputCv := compress (rootInput self.flags (finalCv self))
  let copyLen := if outLen < 32 then outLen else 32
  let copied := (List.range' 0 copyLen).foldl (copyByte outputCv) { cells := out, log := [] }
  if outLen > 32 then (List.range' 32 (outLen - 32)).foldl extendByte copied else copied

/-- After the first `k` bytes, which have been stored in order. -/
structure OutputInv (first : ℕ → UInt8) (out : List UInt8) (k : ℕ) (mem : Memory UInt8) : Prop where
  cells : mem.cells = (List.range k).map (extendedByte first) ++ out.drop k
  stores : stores mem.log = (List.range k).map fun i => (i, extendedByte first i)
  loads : LoadsStored 32 mem.log

section Loops
variable {first : ℕ → UInt8} {out : List UInt8} {k : ℕ} {mem : Memory UInt8}

theorem outputInv_store (h : OutputInv first out k mem) (hk : k < out.length) :
    OutputInv first out (k + 1) (store mem k (extendedByte first k)) where
  cells := by
    have hlen : ((List.range k).map (extendedByte first)).length = k := by
      rw [List.length_map, List.length_range]
    rw [store, h.cells, List.set_append_right _ _ hlen.le, hlen, Nat.sub_self, List.drop_eq_getElem_cons hk,
      List.set_cons_zero, List.range_succ, List.map_append, List.append_assoc]
    rfl
  stores := by
    rw [store, stores_concat_store, h.stores, List.range_succ, List.map_append]
    rfl
  loads := loadsStored_concat h.loads fun i a hload => nomatch hload

theorem outputInv_load (h : OutputInv first out k mem) {i : ℕ} (hi : i < 32) (hik : i < k) :
    (load 0 mem i).1 = first i ∧ OutputInv first out k (load 0 mem i).2 := by
  have hread : mem.cells.getD i 0 = first i := by
    rw [h.cells, List.getD_eq_getElem?_getD, List.getElem?_append_left (by simpa using hik), List.getElem?_map,
      List.getElem?_range hik, Option.map_some, Option.getD_some, extendedByte, if_pos hi]
  refine ⟨hread, h.cells, ?_, ?_⟩
  · rw [load, stores_concat_load, h.stores]
  · refine loadsStored_concat h.loads fun j a hload => ?_
    obtain ⟨rfl, rfl⟩ := Access.load.inj hload
    refine ⟨hi, mem_stores_iff.mp ?_⟩
    rw [h.stores, hread]
    exact List.mem_map.mpr ⟨i, List.mem_range.mpr hik, by rw [extendedByte, if_pos hi]⟩

theorem outputInv_copyByte {outputCv : Vector UInt32 16} (h : OutputInv (wordsByte outputCv) out k mem)
    (hk : k < out.length) (h32 : k < 32) :
    OutputInv (wordsByte outputCv) out (k + 1) (copyByte outputCv mem k) := by
  have hbyte : wordsByte outputCv k = extendedByte (wordsByte outputCv) k := by
    rw [extendedByte, if_pos h32]
  rw [copyByte, hbyte]
  exact outputInv_store h hk

theorem outputInv_extendByte (h : OutputInv first out k mem) (hk : k < out.length) (h32 : 32 ≤ k) :
    OutputInv first out (k + 1) (extendByte mem k) := by
  have hmod : k % 32 < 32 := Nat.mod_lt k (by decide)
  obtain ⟨hread, hload⟩ := outputInv_load h hmod (by omega)
  have hbyte : first (k % 32) ^^^ UInt8.ofNat (k / 2 ^ 8) ^^^ UInt8.ofNat k = extendedByte first k := by
    rw [extendedByte, if_neg (by omega)]
  rw [extendByte, hread, hbyte]
  exact outputInv_store hload hk

end Loops

theorem finalizeInto_inv (self : Blake3Hasher) {out : List UInt8} {outLen : ℕ} (h : outLen ≤ out.length) :
    OutputInv (wordsByte (compress (rootInput self.flags (finalCv self)))) out outLen
      (finalizeInto self out outLen) := by
  unfold finalizeInto
  generalize compress (rootInput self.flags (finalCv self)) = outputCv
  have hstart : OutputInv (wordsByte outputCv) out 0 { cells := out, log := [] } :=
    ⟨rfl, rfl, loadsStored_nil 32⟩
  have hcopy : ∀ copyLen, copyLen ≤ 32 → copyLen ≤ outLen → OutputInv (wordsByte outputCv) out copyLen
      ((List.range' 0 copyLen).foldl (copyByte outputCv) { cells := out, log := [] }) := by
    intro copyLen h32 hle
    have hloop := foldl_range'_inv (n := copyLen) (copyByte outputCv)
      (fun k mem _ hlt hinv => outputInv_copyByte hinv (by omega) (by omega)) hstart
    rwa [Nat.zero_add] at hloop
  dsimp only
  split
  · rename_i hlong
    have hloop := foldl_range'_inv (n := outLen - 32) extendByte
      (fun k mem hge hlt hinv => outputInv_extendByte hinv (by omega) hge) (hcopy 32 le_rfl hlong.le)
    have hsum : 32 + (outLen - 32) = outLen := by omega
    rw [hsum] at hloop
    rwa [if_neg (by omega)]
  · rename_i hshort
    have hlen : (if outLen < 32 then outLen else 32) = outLen := by
      split <;> omega
    rw [hlen]
    exact hcopy outLen (by omega) le_rfl

/-! ## Digests -/

/-- The digest stands at the beginning of the memory and the rest is left alone; its bytes are stored once each, in
order, and a byte is loaded only among the first 32 and after it was stored. -/
structure WritesDigest (self : Blake3Hasher) (out : List UInt8) (outLen : ℕ) (mem : Memory UInt8) : Prop where
  cells : mem.cells = blake3HasherFinalize self outLen ++ out.drop outLen
  indices : (stores mem.log).map Prod.fst = List.range outLen
  bytes : (stores mem.log).map Prod.snd = blake3HasherFinalize self outLen
  loads : ∀ pre i b post, mem.log = pre ++ .load i b :: post → i < 32 ∧ .store i b ∈ pre

theorem blake3HasherFinalize_eq (self : Blake3Hasher) (outLen : ℕ) : blake3HasherFinalize self outLen =
    (List.range outLen).map (extendedByte (wordsByte (compress (rootInput self.flags (finalCv self))))) := by
  rw [blake3HasherFinalize, writeOutput_eq]

theorem finalizeInto_writesDigest (self : Blake3Hasher) {out : List UInt8} {outLen : ℕ}
    (h : outLen ≤ out.length) : WritesDigest self out outLen (finalizeInto self out outLen) := by
  have hinv := finalizeInto_inv self h
  constructor
  · rw [hinv.cells, blake3HasherFinalize_eq]
  · rw [hinv.stores, List.map_map]
    exact List.map_id _
  · rw [hinv.stores, List.map_map, blake3HasherFinalize_eq]
    rfl
  · exact hinv.loads

theorem take_blake3HasherFinalize (self : Blake3Hasher) {n m : ℕ} (h : n ≤ m) :
    (blake3HasherFinalize self m).take n = blake3HasherFinalize self n := by
  rw [blake3HasherFinalize_eq, blake3HasherFinalize_eq, ← List.map_take, List.take_range, min_eq_left h]

theorem take_blake3 (input : List UInt8) {n : ℕ} (h : n ≤ 32) :
    (blake3 input).take n = blake3Truncated input n := take_blake3HasherFinalize _ h

/-- **Digests of all lengths.** A shorter one is the beginning of a longer one, each is written byte by byte and
nothing else is, and the transaction id is the beginning of the digest. -/
theorem digest_prefix :
    (∀ (self : Blake3Hasher) (n m : ℕ), n ≤ m →
        (blake3HasherFinalize self m).take n = blake3HasherFinalize self n) ∧
      (∀ (self : Blake3Hasher) (out : List UInt8) (outLen : ℕ), outLen ≤ out.length →
        (blake3HasherFinalize self outLen).length = outLen ∧
          WritesDigest self out outLen (finalizeInto self out outLen)) ∧
      ∀ tx, transactionComputeHash tx = (blake3 (hashedBytes tx)).take 28 := by
  refine ⟨fun self n m => take_blake3HasherFinalize self, fun self out outLen h => ⟨?_, ?_⟩, fun tx => ?_⟩
  · rw [blake3HasherFinalize, writeOutput_length]
  · exact finalizeInto_writesDigest self h
  · rw [take_blake3 _ (by decide), transactionComputeHash]

theorem digest_prefix_bytes : (blake3HasherFinalize uninitialised 40).take 33 =
    blake3HasherFinalize uninitialised 33 := digest_prefix.1 uninitialised 33 40 (by decide)

end ShardingSim
