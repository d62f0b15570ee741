import ShardingSim.Blake3.ChunkChain
import ShardingSim.Blake3.Collisions
import ShardingSim.Blake3.PerfectStack

/-! The digests beside BLAKE3's. The tree of the code is the specified one up to six chunks
(`messageCodeTree_eq`); its root is closed without the flag `ROOT`, and its chaining value is compressed
once more as a 32-byte block with that flag. Output bytes from the 33rd on are not read off a compression
(`blake3Truncated_eq`). So from 32 bytes on a digest is BLAKE3's only by a collision
(`blake3Truncated_iff`). -/
namespace ShardingSim.Blake3
open ByteBuffer HashTree
set_option autoImplicit false

/-! ## Streaming -/

/-- **Streaming is one-shot hashing.** Two updates are one from every hasher, and the digest of the
fragments of a message, from a hasher initialised in any memory, is the digest of the message. -/
theorem streaming_oneShot :
    (∀ (self : Blake3Hasher) (a b : List UInt8),
      blake3HasherUpdate (blake3HasherUpdate self a) b = blake3HasherUpdate self (a ++ b)) ∧
    (∀ (memory : Blake3Hasher) (fragments : List (List UInt8)) (n : ℕ),
      blake3HasherFinalize (fragments.foldl blake3HasherUpdate (blake3HasherInit memory)) n =
        blake3Truncated fragments.flatten n) ∧
    (∀ (memory memory' : Blake3Hasher) (key : Vector UInt8 32) (fragments : List (List UInt8)) (n : ℕ),
      blake3HasherFinalize (fragments.foldl blake3HasherUpdate (blake3HasherInitKeyed memory key)) n =
        blake3HasherFinalize (blake3HasherUpdate (blake3HasherInitKeyed memory' key) fragments.flatten) n) := by
  refine ⟨update_update, fun memory fragments n => ?_, fun memory memory' key fragments n => ?_⟩
  · rw [foldl_update, blake3Truncated, finalize_message 0 _ _ _ (absorbed_init _ memory) rfl,
      finalize_message 0 _ _ _ (absorbed_init _ uninitialised) rfl]
  · rw [foldl_update, finalize_message _ _ _ _ (absorbed_initKeyed _ memory key) rfl,
      finalize_message _ _ _ _ (absorbed_initKeyed _ memory' key) rfl]

/-! ## Output -/

/-- The output byte `i` that `finalize` makes of the first 32: beyond them each is an earlier byte
mixed with its own position. -/
def extendedByte (first : ℕ → UInt8) (i : ℕ) : UInt8 :=
  if i < 32 then first i else first (i % 32) ^^^ UInt8.ofNat (i / 2 ^ 8) ^^^ UInt8.ofNat i

theorem extendOutput_eq (first : ℕ → UInt8) (i n : ℕ) (hi : 32 ≤ i) :
    extendOutput ((List.range i).map (extendedByte first)) i n =
      (List.range (i + n)).map (extendedByte first) := by
  induction n generalizing i with
  | zero => rfl
  | succ n ih =>
    have hmod : i % 32 < 32 := Nat.mod_lt i (by decide)
    have hread : ((List.range i).map (extendedByte first)).getD (i % 32) 0 = first (i % 32) := by
      rw [List.getD_eq_getElem?_getD, List.getElem?_map, List.getElem?_range (by omega), Option.map_some,
        Option.getD_some, extendedByte, if_pos hmod]
    have hbyte : first (i % 32) ^^^ UInt8.ofNat (i / 2 ^ 8) ^^^ UInt8.ofNat i = extendedByte first i := by
      rw [extendedByte, if_neg (by omega)]
    have hgrow : (List.range i).map (extendedByte first) ++ [extendedByte first i] =
        (List.range (i + 1)).map (extendedByte first) := by
      rw [List.range_succ, List.map_append, List.map_singleton]
    have hnext : i + 1 + n = i + (n + 1) := by omega
    rw [extendOutput, hread, hbyte, hgrow, ih (i + 1) (by omega), hnext]

theorem writeOutput_eq (words : Vector UInt32 16) (n : ℕ) :
    writeOutput words n = (List.range n).map (extendedByte (wordsByte words)) := by
  have hfirst : ∀ k ≤ 32, (List.range k).map (wordsByte words) =
      (List.range k).map (extendedByte (wordsByte words)) := by
    intro k hk
    refine List.map_congr_left fun i hi => ?_
    have hlt := List.mem_range.mp hi
    rw [extendedByte, if_pos (by omega)]
  by_cases h : 32 < n
  · have hcopy : ¬ n < 32 := by omega
    have hn : 32 + (n - 32) = n := by omega
    simp only [writeOutput, if_pos h, if_neg hcopy]
    rw [hfirst 32 (le_refl 32), extendOutput_eq _ _ _ (le_refl 32), hn]
  · have hcopy : (if n < 32 then n else 32) = n := by
      split <;> omega
    simp only [writeOutput, if_neg h, hcopy]
    exact hfirst n (by omega)

theorem wordsByte_of_firstWords {w w' : Vector UInt32 16} (h : firstWords w = firstWords w') {j : ℕ}
    (hj : j < 32) : wordsByte w j = wordsByte w' j := by
  have hlt : j / 4 < 8 := by omega
  have hword : ∀ u : Vector UInt32 16, u[j / 4]? = some (firstWords u)[j / 4] := by
    intro u
    rw [Vector.getElem?_eq_getElem (by omega)]
    simp [firstWords]
  rw [wordsByte, wordsByte, hword, hword, h]

theorem writeOutput_congr {w w' : Vector UInt32 16} (h : firstWords w = firstWords w') (n : ℕ) :
    writeOutput w n = writeOutput w' n := by
  rw [writeOutput_eq, writeOutput_eq]
  refine List.map_congr_left fun i _ => ?_
  rw [extendedByte, extendedByte]
  split
  · rename_i hi
    exact wordsByte_of_firstWords h hi
  · rw [wordsByte_of_firstWords h (Nat.mod_lt i (by decide))]

theorem firstWords_of_writeOutput {w w' : Vector UInt32 16} {n : ℕ} (hn : 32 ≤ n)
    (h : writeOutput w n = writeOutput w' n) : firstWords w = firstWords w' := by
  rw [writeOutput_eq, writeOutput_eq, List.map_inj_left] at h
  refine firstWords_of_bytes (List.map_inj_left.mpr fun i hi => ?_)
  have hlt := List.mem_range.mp hi
  have hbyte := h i (List.mem_range.mpr (by omega))
  rwa [extendedByte, extendedByte, if_pos hlt, if_pos hlt] at hbyte

/-! ## The digest -/

/-- The block of the last compression: the chaining value of the root, with `ROOT`. -/
def rootBlock (cv : Cv) : CompressInput where
  cv := iv
  block := padBlock (storeCv cv)
  blockLen := 32
  counter := 0
  flags := Flag.root

theorem rootInput_zero (cv : Cv) : rootInput 0 cv = rootBlock cv := by
  rw [rootInput, write_replicate]
  rfl

theorem compress_eq_spec : compress = Spec.compress := funext compress_eq

theorem blake3Truncated_root (m : List UInt8) (n : ℕ) : blake3Truncated m n =
    writeOutput (Spec.compress (rootBlock ((codeMode 0).hash (messageCodeTree m)))) n := by
  rw [blake3Truncated, finalize_message 0 m _ n (absorbed_init _ uninitialised) rfl, rootInput_zero,
    compress_eq_spec]

/-- **What the digest of a message is.** The root of a tree of specified chunks and parents over the
chunks of the message in order, up to 6144 bytes the tree of BLAKE3, has its chaining value compressed
once more, and the output is extended from the first 32 bytes. -/
theorem blake3Truncated_eq (m : List UInt8) :
    ∃ t : LeafTree Chunk, t.leaves = (List.range (chunkCount m)).map (chunkAt m) ∧
      (m.length ≤ 6144 → t = Spec.messageTree m) ∧
      (∀ n, blake3Truncated m n = (List.range n).map (extendedByte (wordsByte
        (Spec.compress (rootBlock ((Spec.mode Spec.compress iv 0).hash t)))))) ∧
      blake3 m = (List.range 32).map (wordsByte
        (Spec.compress (rootBlock ((Spec.mode Spec.compress iv 0).hash t)))) := by
  have hmode : codeMode 0 = Spec.mode Spec.compress iv 0 := by rw [codeMode, compress_eq_spec]
  refine ⟨messageCodeTree m, leaves_messageCodeTree m, messageCodeTree_eq, fun n => ?_, ?_⟩
  · rw [blake3Truncated_root, hmode, writeOutput_eq]
  · rw [blake3, blake3Truncated_root, hmode]
    rfl

/-- The digest of one chunk, from its chaining value and that of the call that closes it. -/
theorem blake3Truncated_chunk {m : List UInt8} (h : m.length ≤ 1024) (n : ℕ) : blake3Truncated m n =
    writeOutput (Spec.compression iv (padBlock (storeCv (Spec.chunkCv iv 0 0 m))) 32 0 Flag.root.toNat) n := by
  have hbytes : (chunkAt m 0).bytes = m := by simp [chunkAt, h]
  have htree : messageCodeTree m = .leaf (chunkAt m 0) := by
    have hcount : chunkCount m = 1 := by
      unfold chunkCount
      omega
    rw [messageCodeTree_eq (by omega), Spec.messageTree, hcount, tree_one]
  have hcv : (codeMode 0).hash (messageCodeTree m) = Spec.chunkCv iv 0 0 m := by
    rw [htree]
    show firstWords (compress (Spec.chunkNode compress 0 0 true iv (chunkAt m 0).bytes)) = _
    rw [hbytes, chunkNode_eq_chunkCv]
    rfl
  rw [blake3Truncated_root, hcv, specCompress_eq]
  rfl

/-! ## BLAKE3 -/

/-- The root node of BLAKE3's tree. -/
def Spec.rootNode (m : List UInt8) : CompressInput :=
  (Spec.mode Spec.compress iv 0).rootInput (Spec.messageTree m)

/-- The call that BLAKE3 reads the first 64 bytes of its output off. -/
def Spec.rootCall (m : List UInt8) : CompressInput :=
  { Spec.rootNode m with counter := 0, flags := (Spec.rootNode m).flags ||| Flag.root }

/-- The call that the code reads its output off. -/
def lastCall (m : List UInt8) : CompressInput := rootBlock ((codeMode 0).hash (messageCodeTree m))

theorem hash_eq (m : List UInt8) (n : ℕ) :
    Spec.hash Spec.compress m n = (List.range n).map (Spec.outputByte Spec.compress (Spec.rootNode m)) := rfl

theorem outputByte_of_lt (m : List UInt8) {i : ℕ} (hi : i < 32) :
    Spec.outputByte Spec.compress (Spec.rootNode m) i = wordsByte (Spec.compress (Spec.rootCall m)) i := by
  have hblock : i / 64 = 0 := by omega
  have hbyte : i % 64 = i := by omega
  rw [Spec.outputByte, hblock, hbyte]
  rfl

/-- The root node says whether it is a chunk or a parent, the last call of the code does not. -/
theorem rootNode_flags (m : List UInt8) : Flag.root ≠ (Spec.rootNode m).flags ||| Flag.root := by
  rw [Spec.rootNode, ← compress_eq_spec]
  cases Spec.messageTree m with
  | leaf c =>
    obtain ⟨f, hf⟩ := chunkNode_flags c.counter true iv c.bytes
    have hflags : ((Spec.mode compress iv 0).rootInput (.leaf c)).flags =
        0 ||| (if f then Flag.chunkStart else 0) ||| Flag.chunkEnd := hf
    rw [hflags]
    cases f <;> decide
  | node l r =>
    show Flag.root ≠ 0 ||| Flag.parent ||| Flag.root
    decide

theorem lastCall_ne_rootCall (m : List UInt8) : lastCall m ≠ Spec.rootCall m := fun h =>
  rootNode_flags m (congrArg CompressInput.flags h)

theorem collision_iff (m : List UInt8) : Collision compressCv [lastCall m] [Spec.rootCall m] ↔
    ∀ i < 32, wordsByte (Spec.compress (lastCall m)) i = wordsByte (Spec.compress (Spec.rootCall m)) i := by
  rw [← compress_eq_spec]
  constructor
  · rintro ⟨x, hx, y, hy, -, hwords⟩ i hi
    rw [List.mem_singleton.mp hx, List.mem_singleton.mp hy] at hwords
    exact wordsByte_of_firstWords hwords hi
  · intro h
    exact ⟨_, List.mem_singleton_self _, _, List.mem_singleton_self _, lastCall_ne_rootCall m,
      firstWords_of_bytes (List.map_congr_left fun i hi => h i (List.mem_range.mp hi))⟩

/-- The bytes from the 33rd on agree, as many as there are among `n`. -/
def LaterBytesAgree (m : List UInt8) (n : ℕ) : Prop := ∀ i, 32 ≤ i → i < n →
  extendedByte (wordsByte (Spec.compress (lastCall m))) i = Spec.outputByte Spec.compress (Spec.rootNode m) i

theorem truncated_iff (m : List UInt8) (n : ℕ) : blake3Truncated m n = Spec.hash Spec.compress m n ↔
    (∀ i < 32, i < n →
        wordsByte (Spec.compress (lastCall m)) i = wordsByte (Spec.compress (Spec.rootCall m)) i) ∧
      LaterBytesAgree m n := by
  rw [blake3Truncated_root, writeOutput_eq, hash_eq, List.map_inj_left]
  constructor
  · intro h
    refine ⟨fun i hi hn => ?_, fun i _ hn => h i (List.mem_range.mpr hn)⟩
    have hbyte := h i (List.mem_range.mpr hn)
    rwa [extendedByte, if_pos hi, outputByte_of_lt m hi] at hbyte
  · rintro ⟨hfirst, hlater⟩ i hi
    have hn := List.mem_range.mp hi
    by_cases hlt : i < 32
    · rw [extendedByte, if_pos hlt, outputByte_of_lt m hlt]
      exact hfirst i hlt hn
    · exact hlater i (by omega) hn

/-- **When the digest is BLAKE3's.** An empty output is. One of 32 bytes or more is only if the last call of the
code and the root call of BLAKE3, which are never the same, collide; that of `blake3` is exactly then. -/
theorem blake3Truncated_iff (m : List UInt8) (n : ℕ) :
    (n = 0 → blake3Truncated m n = Spec.hash Spec.compress m n) ∧
      (32 ≤ n → (blake3Truncated m n = Spec.hash Spec.compress m n ↔
        Collision compressCv [lastCall m] [Spec.rootCall m] ∧ LaterBytesAgree m n)) ∧
      (blake3Truncated m n = Spec.hash Spec.compress m n ∧ blake3 m = Spec.hash Spec.compress m 32 ↔
        Collision compressCv [lastCall m] [Spec.rootCall m] ∧ LaterBytesAgree m n) := by
  have hblake : blake3 m = Spec.hash Spec.compress m 32 ↔
      Collision compressCv [lastCall m] [Spec.rootCall m] := by
    rw [blake3, truncated_iff, collision_iff]
    exact ⟨fun h i hi => h.1 i hi hi, fun h => ⟨fun i hi _ => h i hi, fun i hge hlt => by omega⟩⟩
  refine ⟨?_, fun hn => ?_, ?_⟩
  · rintro rfl
    rw [truncated_iff]
    exact ⟨fun i _ h => by omega, fun i _ h => by omega⟩
  · rw [truncated_iff, collision_iff]
    exact and_congr_left' ⟨fun h i hi => h i hi (by omega), fun h i hi _ => h i hi⟩
  · rw [hblake, truncated_iff, collision_iff]
    exact ⟨fun h => ⟨h.2, h.1.2⟩, fun h => ⟨⟨fun i hi _ => h.1 i hi, h.2⟩, h.1⟩⟩

/-- The empty message already: BLAKE3 sets `ROOT` in the call of its only chunk. -/
theorem blake3Truncated_ne_hash :
    ¬ ∀ (m : List UInt8) (n : ℕ), blake3Truncated m n = Spec.hash Spec.compress m n ∧
      blake3 m = Spec.hash Spec.compress m 32 := by
  intro h
  have hempty := (h [] 1).1
  have hcode : blake3Truncated [] 1 = writeOutput (compress (rootInput 0 (firstWords (compress
      (Spec.blockInput 0 0 iv [] true true))))) 1 := by
    have hchunk : Spec.chunkNode compress 0 0 true iv [] = Spec.blockInput 0 0 iv [] true true :=
      Spec.chunkNode_of_le _ (Nat.zero_le _)
    rw [← hchunk]
    exact finalize_message 0 [] _ 1 (absorbed_init _ uninitialised) rfl
  have hspec : Spec.hash Spec.compress [] 1 =
      [Spec.outputByte compress (Spec.blockInput 0 0 iv [] true true) 0] := by
    have hchunk : Spec.chunkNode compress 0 0 true iv [] = Spec.blockInput 0 0 iv [] true true :=
      Spec.chunkNode_of_le _ (Nat.zero_le _)
    have htree : Spec.messageTree [] = .leaf (chunkAt [] 0) := tree_one _ 0
    rw [← compress_eq_spec, Spec.hash, htree, ← hchunk]
    rfl
  rw [hcode, hspec] at hempty
  revert hempty
  decide +kernel

end ShardingSim.Blake3
