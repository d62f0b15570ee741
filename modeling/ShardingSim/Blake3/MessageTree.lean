import ShardingSim.Blake3.MergeTree

/-! What `blake3_hasher_update` and `finalize` compute for a whole message: the chunk buffer holds its
last chunk, the stack its other chunks merged as `codeStack` says (`absorb_message`), and the value that
`finalize` compresses last is the hash of `codeTree` over all chunks (`finalCv_message`), whatever the
hasher's bytes were before it was initialised. -/
namespace ShardingSim.Blake3
open ByteBuffer HashTree
set_option autoImplicit false

/-! ## Between chunks -/

/-- The hasher has absorbed the chunks before number `k`. -/
structure Absorbed (flags : UInt8) (leaf : ℕ → Chunk) (k : ℕ) (hasher : Blake3Hasher) : Prop where
  counter_eq : hasher.chunkCounter = UInt64.ofNat k
  represents : Represents flags hasher (codeStack leaf k)

/-- The buffer holds the given chunk. -/
def Buffered (hasher : Blake3Hasher) (c : Chunk) : Prop :=
  hasher.chunkBuf.toList.take hasher.bufLen = c.bytes

/-- How a hasher is started. -/
inductive Start where
  | plain
  | keyed (key : Vector UInt8 32)

def Start.flags : Start → UInt8
  | .plain => 0
  | .keyed _ => Flag.keyedHash

/-- The hasher after its initialisation, in memory with any bytes. -/
def Start.init (memory : Blake3Hasher) : Start → Blake3Hasher
  | .plain => blake3HasherInit memory
  | .keyed key => blake3HasherInitKeyed memory key

section Flush
variable {flags : UInt8} {leaf : ℕ → Chunk} {k : ℕ} {self : Blake3Hasher}

theorem absorbed_init (leaf : ℕ → Chunk) (self : Blake3Hasher) :
    Absorbed 0 leaf 0 (blake3HasherInit self) := ⟨rfl, rfl, rfl, (by decide : 0 < 54), trivial⟩

theorem absorbed_initKeyed (leaf : ℕ → Chunk) (self : Blake3Hasher) (key : Vector UInt8 32) :
    Absorbed Flag.keyedHash leaf 0 (blake3HasherInitKeyed self key) :=
  ⟨rfl, rfl, rfl, (by decide : 0 < 54), trivial⟩

theorem Start.absorbed (start : Start) (leaf : ℕ → Chunk) (memory : Blake3Hasher) :
    Absorbed start.flags leaf 0 (start.init memory) := by
  cases start with
  | plain => exact absorbed_init leaf memory
  | keyed key => exact absorbed_initKeyed leaf memory key

theorem Start.bufLen (start : Start) (memory : Blake3Hasher) : (start.init memory).bufLen = 0 := by
  cases start with
  | plain => rfl
  | keyed key => rfl

theorem Represents.copy {stack : List (LeafTree Chunk)} (h : Represents flags self stack) (input : List UInt8) :
    Represents flags (hasherCopy self input) stack where
  flags_eq := by rw [hasherCopy_flags, h.flags_eq]
  length_eq := by rw [hasherCopy_cvStackLen, h.length_eq]
  room := h.room
  stored := by
    rw [hasherCopy_cvStack]
    exact h.stored

theorem Absorbed.copy (h : Absorbed flags leaf k self) (input : List UInt8) :
    Absorbed flags leaf k (hasherCopy self input) where
  counter_eq := by rw [hasherCopy_chunkCounter, h.counter_eq]
  represents := h.represents.copy input

theorem buffered_copy {c : Chunk} (hempty : self.bufLen = 0) :
    Buffered (hasherCopy self c.bytes) c := by
  have hle := c.length_le
  have hlen : (hasherCopy self c.bytes).bufLen = 0 + c.bytes.length := by
    rw [hasherCopy_bufLen, hempty]
    omega
  have htake : c.bytes.take (1024 - 0) = c.bytes := List.take_of_length_le hle
  rw [Buffered, hlen, hasherCopy_chunkBuf, hempty, htake, take_write _ _ _ (by omega), List.take_zero,
    List.nil_append]

theorem bufferedChunk_leaf (h : Absorbed flags leaf k self) (hbuf : Buffered self (leaf k))
    (hcounter : (leaf k).counter = UInt64.ofNat k) :
    chunkStateOutput (bufferedChunk self self.bufLen) = (codeMode flags).hash (.leaf (leaf k)) ∧
      bufferedChunkCalls self self.bufLen = (codeMode flags).calls (.leaf (leaf k)) := by
  have hstate : chunkStateInit iv self.chunkCounter self.flags =
      chunkStateInit iv (leaf k).counter flags := by
    rw [h.counter_eq, hcounter, h.represents.flags_eq]
  have hchunk := chunkState_chunk iv flags (leaf k)
  constructor
  · rw [chunkStateOutput, bufferedChunk, hbuf, hstate, hchunk.1]
    rfl
  · rw [bufferedChunkCalls, bufferedChunk, hbuf, hstate, hchunk.2]
    rfl

/-- **One flush** absorbs the buffered chunk, and the calls of the new stack are those of the old one
and those the flush makes. -/
theorem Absorbed.flush (h : Absorbed flags leaf k self) (hfull : self.bufLen = 1024)
    (hbuf : Buffered self (leaf k)) (hcounter : (leaf k).counter = UInt64.ofNat k) :
    Absorbed flags leaf (k + 1) (flushChunk self) ∧
      stackCalls flags (codeStack leaf (k + 1)) ⊆
        stackCalls flags (codeStack leaf k) ++ flushChunkCalls self := by
  have hleaf := bufferedChunk_leaf h hbuf hcounter
  rw [hfull] at hleaf
  have hdepth := codeStack_length_le leaf k
  have hadd := addChunkCv_represents h.represents (by omega) (.leaf (leaf k)) k
  rw [← hleaf.1, ← hleaf.2, ← h.counter_eq] at hadd
  have hnext : (flushChunk self).chunkCounter = UInt64.ofNat (k + 1) := by
    rw [flushChunk_chunkCounter, h.counter_eq, UInt64.ofNat_add]
    rfl
  refine ⟨⟨hnext, hadd.1.flags_eq, hadd.1.length_eq, hadd.1.room, hadd.1.stored⟩, ?_⟩
  exact hadd.2

end Flush

/-! ## A whole message -/

def lastChunk (m : List UInt8) : ℕ := (m.length - 1) / 1024

/-! The two equations by which a message is read from a hasher with an empty chunk buffer. -/

theorem blake3HasherUpdate_of_le {self : Blake3Hasher} (hempty : self.bufLen = 0) {input : List UInt8}
    (h : input.length ≤ 1024) : blake3HasherUpdate self input = hasherCopy self (input.take 1024) := by
  rw [List.take_of_length_le h]
  exact hasherBuffer.feed_of_le hempty h

theorem blake3HasherUpdate_of_gt {self : Blake3Hasher} (hempty : self.bufLen = 0) {input : List UInt8}
    (h : 1024 < input.length) :
    blake3HasherUpdate self input =
        blake3HasherUpdate (flushChunk (hasherCopy self (input.take 1024))) (input.drop 1024) ∧
      blake3HasherUpdateCalls self input = flushChunkCalls (hasherCopy self (input.take 1024)) ++
        blake3HasherUpdateCalls (flushChunk (hasherCopy self (input.take 1024))) (input.drop 1024) := by
  refine ⟨hasherBuffer.feed_of_gt hempty h, ?_⟩
  rw [blake3HasherUpdateCalls, hasherBuffer.flushes_of_gt hempty h, List.flatMap_cons]
  rfl

/-- **The run of `blake3_hasher_update`** from the start of chunk `k` to the end of the message. -/
theorem absorb_from (flags : UInt8) (m : List UInt8) (k : ℕ) (self : Blake3Hasher)
    (h : Absorbed flags (chunkAt m) k self) (hempty : self.bufLen = 0) (hk : k ≤ lastChunk m) :
    Absorbed flags (chunkAt m) (lastChunk m) (blake3HasherUpdate self (m.drop (1024 * k))) ∧
      Buffered (blake3HasherUpdate self (m.drop (1024 * k))) (chunkAt m (lastChunk m)) ∧
      stackCalls flags (codeStack (chunkAt m) (lastChunk m)) ⊆
        stackCalls flags (codeStack (chunkAt m) k) ++ blake3HasherUpdateCalls self (m.drop (1024 * k)) := by
  have hbytes : (chunkAt m k).bytes = (m.drop (1024 * k)).take 1024 := rfl
  have hlen : (m.drop (1024 * k)).length = m.length - 1024 * k := List.length_drop
  unfold lastChunk at hk
  induction hd : lastChunk m - k generalizing k self with
  | zero =>
    have hlast : lastChunk m = k := by
      unfold lastChunk at hd ⊢
      omega
    have hle : (m.drop (1024 * k)).length ≤ 1024 := by
      unfold lastChunk at hd
      omega
    rw [hlast, blake3HasherUpdate_of_le hempty hle, ← hbytes]
    exact ⟨h.copy _, buffered_copy hempty, List.subset_append_left _ _⟩
  | succ d ih =>
    have hgt : 1024 < (m.drop (1024 * k)).length := by
      unfold lastChunk at hd
      omega
    have hnot : k + 1 ≤ (m.length - 1) / 1024 := by omega
    have hrest : (m.drop (1024 * k)).drop 1024 = m.drop (1024 * (k + 1)) := by
      rw [List.drop_drop, Nat.mul_succ]
    obtain ⟨hfeed, hcalls⟩ := blake3HasherUpdate_of_gt hempty hgt
    rw [hrest, ← hbytes] at hfeed hcalls
    have hfull : (hasherCopy self (chunkAt m k).bytes).bufLen = 1024 := by
      rw [hasherCopy_bufLen, hempty, hbytes, List.length_take]
      omega
    have hflush := (h.copy (chunkAt m k).bytes).flush hfull (buffered_copy hempty) rfl
    have hnext := ih (k + 1) (flushChunk (hasherCopy self (chunkAt m k).bytes)) hflush.1 rfl hnot rfl
      List.length_drop (by omega)
    rw [hfeed, hcalls, ← List.append_assoc]
    exact ⟨hnext.1, hnext.2.1, fun x hx => List.append_subset.mpr
      ⟨fun y hy => List.mem_append_left _ (hflush.2 hy), List.subset_append_right _ _⟩ (hnext.2.2 hx)⟩

theorem absorb_message (flags : UInt8) (m : List UInt8) (self : Blake3Hasher)
    (h : Absorbed flags (chunkAt m) 0 self) (hempty : self.bufLen = 0) :
    Absorbed flags (chunkAt m) (lastChunk m) (blake3HasherUpdate self m) ∧
      Buffered (blake3HasherUpdate self m) (chunkAt m (lastChunk m)) ∧
      stackCalls flags (codeStack (chunkAt m) (lastChunk m)) ⊆ blake3HasherUpdateCalls self m :=
  absorb_from flags m 0 self h hempty (Nat.zero_le _)

def messageCodeTree (m : List UInt8) : LeafTree Chunk := codeTree (chunkAt m) (lastChunk m)

/-- **`finalize` merges the message's tree**, and the calls of that tree were made. -/
theorem finalCv_message (flags : UInt8) (m : List UInt8) (self : Blake3Hasher)
    (h : Absorbed flags (chunkAt m) 0 self) (hempty : self.bufLen = 0) :
    finalCv (blake3HasherUpdate self m) = (codeMode flags).hash (messageCodeTree m) ∧
      (codeMode flags).calls (messageCodeTree m) ⊆
        blake3HasherUpdateCalls self m ++ blake3HasherFinalizeCalls (blake3HasherUpdate self m) := by
  obtain ⟨habs, hbuf, hcalls⟩ := absorb_message flags m self h hempty
  have hleaf := bufferedChunk_leaf habs hbuf rfl
  have hmerge := mergeStack_represents habs.represents (.leaf (chunkAt m (lastChunk m)))
  rw [← hleaf.1, ← hleaf.2] at hmerge
  refine ⟨hmerge.1, fun x hx => ?_⟩
  have hin := hmerge.2 hx
  rw [blake3HasherFinalizeCalls]
  simp only [List.mem_append] at hin ⊢
  rcases hin with hin | hin
  · exact Or.inl (hcalls hin)
  · exact Or.inr (Or.inl hin)

/-- **The digest of a message**, from any memory a hasher was initialised in. -/
theorem finalize_message (flags : UInt8) (m : List UInt8) (self : Blake3Hasher) (n : ℕ)
    (h : Absorbed flags (chunkAt m) 0 self) (hempty : self.bufLen = 0) :
    blake3HasherFinalize (blake3HasherUpdate self m) n =
      writeOutput (compress (rootInput flags ((codeMode flags).hash (messageCodeTree m)))) n := by
  have habs := (absorb_message flags m self h hempty).1
  rw [blake3HasherFinalize, (finalCv_message flags m self h hempty).1, habs.represents.flags_eq]

theorem leaves_messageCodeTree (m : List UInt8) :
    (messageCodeTree m).leaves = (List.range (chunkCount m)).map (chunkAt m) :=
  leaves_codeTree (chunkAt m) (lastChunk m)

end ShardingSim.Blake3
