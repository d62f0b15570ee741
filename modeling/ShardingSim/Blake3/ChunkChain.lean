import ShardingSim.Blake3.ChunkState

/-! The chaining value of a chunk as the BLAKE3 specification states it, a left fold of the compression
function over the blocks, and `chunk_state_output`, which returns it however the chunk is fed
(`chunkState_output`). -/
namespace ShardingSim.Blake3
set_option autoImplicit false

/-! ## The fold -/

namespace Spec

/-- The blocks of a chunk; the empty chunk has one. -/
def blockCount (bytes : List UInt8) : ℕ := (bytes.length - 1) / 64 + 1

def blockAt (bytes : List UInt8) (i : ℕ) : List UInt8 := (bytes.drop (64 * i)).take 64

/-- `CHUNK_START` on the first of `n` blocks, `CHUNK_END` on the last. -/
def blockFlags (flags n i : ℕ) : ℕ := flags ||| (if i = 0 then 1 else 0) ||| (if i + 1 = n then 2 else 0)

def chunkCv (key : Cv) (counter flags : ℕ) (bytes : List UInt8) : Cv :=
  (List.range (blockCount bytes)).foldl (fun cv i =>
    firstWords (compression cv (padBlock (blockAt bytes i)) (blockAt bytes i).length counter
      (blockFlags flags (blockCount bytes) i))) key

end Spec

theorem blockCount_of_le {bytes : List UInt8} (h : bytes.length ≤ 64) : Spec.blockCount bytes = 1 := by
  unfold Spec.blockCount
  omega

theorem blockCount_of_gt {bytes : List UInt8} (h : 64 < bytes.length) :
    Spec.blockCount bytes = Spec.blockCount (bytes.drop 64) + 1 := by
  unfold Spec.blockCount
  rw [List.length_drop]
  omega

theorem blockAt_succ (bytes : List UInt8) (i : ℕ) :
    Spec.blockAt bytes (i + 1) = Spec.blockAt (bytes.drop 64) i := by
  simp only [Spec.blockAt, List.drop_drop, Nat.mul_succ, Nat.add_comm]

/-- The chain of the mode, which takes block after block off the chunk, is a fold over the block numbers. -/
theorem chunkNode_eq_foldl (F : CompressInput → Vector UInt32 16) (counter : UInt64) (flags : UInt8)
    (first : Bool) (cv : Cv) (bytes : List UInt8) :
    firstWords (F (Spec.chunkNode F counter flags first cv bytes)) =
      (List.range (Spec.blockCount bytes)).foldl (fun cv i =>
        firstWords (F (Spec.blockInput counter flags cv (Spec.blockAt bytes i) (first && decide (i = 0))
          (decide (i + 1 = Spec.blockCount bytes))))) cv := by
  induction first, cv, bytes using Spec.chunkNode.induct F counter flags with
  | case1 first cv bytes h =>
    have hblock : Spec.blockAt bytes 0 = bytes := by simp [Spec.blockAt, h]
    rw [Spec.chunkNode_of_le F h, blockCount_of_le h]
    simp [hblock]
  | case2 first cv bytes h ih =>
    have hgt : 64 < bytes.length := by omega
    have hblock : Spec.blockAt bytes 0 = bytes.take 64 := by simp [Spec.blockAt]
    have hmore : Spec.blockCount (bytes.drop 64) ≠ 0 := Nat.succ_ne_zero _
    rw [Spec.chunkNode_of_gt F hgt, ih, blockCount_of_gt hgt, List.range_succ_eq_map, List.foldl_cons,
      List.foldl_map]
    simp [hblock, hmore, blockAt_succ]

/-! ## The chunk state -/

theorem compress_blockInput (counter : UInt64) (flags : UInt8) (cv : Cv) (bytes : List UInt8) (n i : ℕ) :
    compress (Spec.blockInput counter flags cv (Spec.blockAt bytes i) (decide (i = 0)) (decide (i + 1 = n))) =
      Spec.compression cv (padBlock (Spec.blockAt bytes i)) (Spec.blockAt bytes i).length counter.toNat
        (Spec.blockFlags flags.toNat n i) := by
  have hle : (Spec.blockAt bytes i).length ≤ 64 := List.length_take_le _ _
  have hlen : (UInt8.ofNat (Spec.blockAt bytes i).length).toNat = (Spec.blockAt bytes i).length :=
    UInt8.toNat_ofNat_of_lt' (hle.trans_lt (by decide))
  have hflags : (flags ||| (if decide (i = 0) = true then Flag.chunkStart else 0) |||
      (if decide (i + 1 = n) = true then Flag.chunkEnd else 0)).toNat = Spec.blockFlags flags.toNat n i := by
    simp only [UInt8.toNat_or, decide_eq_true_eq, Spec.blockFlags, apply_ite UInt8.toNat]
    rfl
  rw [Spec.blockInput, compress_eq_compression, hlen, hflags]

theorem chunkNode_eq_chunkCv (key : Cv) (counter : UInt64) (flags : UInt8) (bytes : List UInt8) :
    firstWords (compress (Spec.chunkNode compress counter flags true key bytes)) =
      Spec.chunkCv key counter.toNat flags.toNat bytes := by
  rw [chunkNode_eq_foldl, Spec.chunkCv]
  simp only [Bool.true_and, compress_blockInput]

/-- **The chaining value of a chunk.** However its bytes are cut into updates, a fresh chunk state returns the
fold over its blocks. -/
theorem chunkState_output (key : Cv) (chunkCounter : UInt64) (flags : UInt8) (fragments : List (List UInt8))
    (h : fragments.flatten.length ≤ 1024) :
    chunkStateOutput (fragments.foldl chunkStateUpdate (chunkStateInit key chunkCounter flags)) =
      Spec.chunkCv key chunkCounter.toNat flags.toNat fragments.flatten := by
  have hfeed : fragments.foldl chunkStateUpdate (chunkStateInit key chunkCounter flags) =
      chunkStateUpdate (chunkStateInit key chunkCounter flags) fragments.flatten :=
    chunkBuffer.foldl_feed _ fragments
  have hlast := (chunkState_chunk key flags ⟨chunkCounter, fragments.flatten, h⟩).1
  rw [hfeed, chunkStateOutput, hlast]
  exact chunkNode_eq_chunkCv key chunkCounter flags fragments.flatten

theorem chunkState_output_fragments :
    chunkStateOutput ([[1, 2, 3], [], List.replicate 61 4, [5]].foldl chunkStateUpdate
        (chunkStateInit iv 7 Flag.keyedHash)) =
      Spec.chunkCv iv (7 : UInt64).toNat Flag.keyedHash.toNat [[1, 2, 3], [], List.replicate 61 4, [5]].flatten :=
  chunkState_output iv 7 Flag.keyedHash [[1, 2, 3], [], List.replicate 61 4, [5]] (by decide)

end ShardingSim.Blake3
