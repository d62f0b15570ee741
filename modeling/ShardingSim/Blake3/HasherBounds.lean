import ShardingSim.Blake3.MessageTree

/-! Bounds of the hasher. The stack has one entry after an even number of chunks and two after an odd number
at most, which keeps every push, pop and shift in range (`addChunkCv_depth`); the counters of the two
buffers say how much was absorbed. Both are invariants of the copying loops. -/
namespace ShardingSim.Blake3
open LazyBuffer
set_option autoImplicit false

/-! ## Operations on the stack -/

/-- A shift of the merge test with its count, a pop and a push with the number of entries before them. -/
inductive StackOp where
  | shift (count : ℕ)
  | pop (len : ℕ)
  | push (len : ℕ)

/-- Within the 64 bits of the mask and the 54 slots of `cv_stack`. -/
def StackOp.Safe : StackOp → Prop
  | .shift count => count < 64
  | .pop len => 0 < len ∧ len ≤ 54
  | .push len => len < 54

/-- The test of the merge loop shifts only if the stack is not empty. -/
def mustMergeOps (self : Blake3Hasher) : List StackOp :=
  if 0 < self.cvStackLen then [.shift self.cvStackLen.toNat] else []

def addChunkCvOps (self : Blake3Hasher) (newCv : Cv) (chunkCounter : UInt64) : List StackOp :=
  if _h : mustMerge self chunkCounter then
    mustMergeOps self ++ .pop self.cvStackLen.toNat ::
      addChunkCvOps (popCv self).1 (parentCv (popCv self).2 newCv iv self.flags) chunkCounter
  else mustMergeOps self ++ [.push self.cvStackLen.toNat]
termination_by self.cvStackLen.toNat
decreasing_by exact popCv_lt _h.1

def mergeStackOps (selfCopy : Blake3Hasher) (finalCv : Cv) : List StackOp :=
  if _h : 0 < selfCopy.cvStackLen then
    .pop selfCopy.cvStackLen.toNat ::
      mergeStackOps (popCv selfCopy).1 (parentCv (popCv selfCopy).2 finalCv iv selfCopy.flags)
  else []
termination_by selfCopy.cvStackLen.toNat
decreasing_by exact popCv_lt _h

def updateOps (self : Blake3Hasher) (input : List UInt8) : List StackOp :=
  (hasherBuffer.flushes self input).flatMap fun s =>
    addChunkCvOps s (chunkStateOutput (bufferedChunk s 1024)) s.chunkCounter

def finalizeOps (self : Blake3Hasher) : List StackOp :=
  mergeStackOps self (chunkStateOutput (bufferedChunk self self.bufLen))

theorem mustMergeOps_safe {self : Blake3Hasher} (h : self.cvStackLen.toNat < 54) :
    ∀ op ∈ mustMergeOps self, op.Safe := by
  intro op hop
  unfold mustMergeOps at hop
  split at hop
  · rw [List.mem_singleton.mp hop]
    exact Nat.lt_trans h (by decide)
  · exact absurd hop List.not_mem_nil

theorem addChunkCvOps_safe {self : Blake3Hasher} {newCv : Cv} {chunkCounter : UInt64}
    (h : self.cvStackLen.toNat < 54) : ∀ op ∈ addChunkCvOps self newCv chunkCounter, op.Safe := by
  induction self, newCv using addChunkCv.induct chunkCounter with
  | case1 self newCv hm ih =>
    have hpos := UInt8.lt_iff_toNat_lt.mp hm.1
    have hpop := popCv_len hm.1
    rw [addChunkCvOps, dif_pos hm]
    intro op hop
    rcases List.mem_append.mp hop with hop | hop
    · exact mustMergeOps_safe h op hop
    · rcases List.mem_cons.mp hop with rfl | hop
      · exact ⟨hpos, h.le⟩
      · exact ih (by omega) op hop
  | case2 self newCv hm =>
    rw [addChunkCvOps, dif_neg hm]
    intro op hop
    rcases List.mem_append.mp hop with hop | hop
    · exact mustMergeOps_safe h op hop
    · rw [List.mem_singleton.mp hop]
      exact h

theorem mergeStackOps_safe {self : Blake3Hasher} {finalCv : Cv} (h : self.cvStackLen.toNat ≤ 54) :
    ∀ op ∈ mergeStackOps self finalCv, op.Safe := by
  induction self, finalCv using mergeStack.induct with
  | case1 self finalCv hpos ih =>
    have hnat := UInt8.lt_iff_toNat_lt.mp hpos
    have hpop := popCv_len hpos
    rw [mergeStackOps, dif_pos hpos]
    intro op hop
    rcases List.mem_cons.mp hop with rfl | hop
    · exact ⟨hnat, h⟩
    · exact ih (by omega) op hop
  | case2 self finalCv hzero =>
    rw [mergeStackOps, dif_neg hzero]
    exact fun op hop => absurd hop List.not_mem_nil

/-- **The depth of the stack.** An even chunk number is pushed on one entry at most; an odd one has its
lowest bit below every depth, so that it is merged with all there is. -/
theorem addChunkCv_depth {self : Blake3Hasher} (newCv : Cv) {k : ℕ} (h : self.cvStackLen.toNat ≤ 1 + k % 2) :
    (addChunkCv self newCv (UInt64.ofNat k)).cvStackLen.toNat ≤ 1 + (k + 1) % 2 := by
  induction self, newCv using addChunkCv.induct (UInt64.ofNat k) with
  | case1 self newCv hm ih =>
    have hpop := popCv_len hm.1
    rw [addChunkCv_of_merge hm]
    exact ih (by omega)
  | case2 self newCv hm =>
    rw [addChunkCv_of_not_merge hm, pushCv_len (by omega)]
    rw [mustMerge_iff (by omega) k] at hm
    -- an odd number is left with an empty stack, its remainders being odd
    have hodd : k % 2 = 1 → self.cvStackLen.toNat = 0 := by
      intro hk
      by_contra hne
      refine hm ⟨by omega, fun hmod => ?_⟩
      have hdvd : 2 ∣ 2 ^ self.cvStackLen.toNat := dvd_pow_self 2 hne
      have := Nat.mod_mod_of_dvd k hdvd
      rw [hmod] at this
      omega
    omega

/-! ## Chunk states -/

/-- The chunk states that compress the buffered chunks of an update, and that of `finalize`. -/
def updateChunkStates (self : Blake3Hasher) (input : List UInt8) : List ChunkState :=
  (hasherBuffer.flushes self input).flatMap fun s =>
    chunkBuffer.states (chunkStateInit iv s.chunkCounter s.flags) (s.chunkBuf.toList.take 1024)

def finalizeChunkStates (self : Blake3Hasher) : List ChunkState :=
  chunkBuffer.states (chunkStateInit iv self.chunkCounter self.flags) (self.chunkBuf.toList.take self.bufLen)

/-- With `n` bytes of the chunk to come. -/
def ChunkInv (n : ℕ) (cs : ChunkState) : Prop :=
  cs.blocksCompressed.toNat ≤ 15 ∧ 64 * cs.blocksCompressed.toNat + cs.bufLen + n ≤ 1024

theorem chunkInv_flush {n : ℕ} {cs : ChunkState} (hn : 0 < n) (hfull : cs.bufLen = 64) (h : ChunkInv n cs) :
    ChunkInv n (chunkStateFlush cs) := by
  obtain ⟨hle, hsum⟩ := h
  have hblocks : (chunkStateFlush cs).blocksCompressed.toNat = cs.blocksCompressed.toNat + 1 :=
    toNat_add_one (by omega)
  have hempty : (chunkStateFlush cs).bufLen = 0 := rfl
  rw [ChunkInv, hblocks, hempty]
  omega

theorem chunkInv_copy {cs : ChunkState} {input : List UInt8} (h : ChunkInv input.length cs) :
    ChunkInv (input.length - min input.length (64 - cs.bufLen)) (chunkStateCopy cs input) := by
  obtain ⟨hle, hsum⟩ := h
  have hblocks : (chunkStateCopy cs input).blocksCompressed = cs.blocksCompressed := rfl
  rw [ChunkInv, hblocks, chunkStateCopy_bufLen]
  omega

theorem chunkStates_bounds (chunkCounter : UInt64) (flags : UInt8) {bytes : List UInt8}
    (h : bytes.length ≤ 1024) : ∀ cs ∈ chunkBuffer.states (chunkStateInit iv chunkCounter flags) bytes,
      cs.bufLen ≤ 64 ∧ cs.blocksCompressed.toNat ≤ 15 := by
  have hinit : ChunkInv bytes.length (chunkStateInit iv chunkCounter flags) := by
    have hblocks : (chunkStateInit iv chunkCounter flags).blocksCompressed.toNat = 0 := rfl
    have hempty : (chunkStateInit iv chunkCounter flags).bufLen = 0 := rfl
    rw [ChunkInv, hblocks, hempty]
    omega
  have hrun := feed_invariant (B := chunkBuffer) (fun n cs hn hfull hI => chunkInv_flush hn hfull hI)
    (fun cs input _ _ hI => chunkInv_copy hI) hinit
  intro cs hcs
  obtain ⟨n, hI⟩ := hrun.2.1 cs hcs
  exact ⟨cs.bufLen_le, hI.1⟩

/-! ## Hashers -/

/-- With `n` bytes to come of `total`: the counter and the buffer say how many were absorbed, and the buffer
is empty only at the start or with more to come. -/
def HasherInv (total n : ℕ) (self : Blake3Hasher) : Prop :=
  1024 * self.chunkCounter.toNat + self.bufLen + n = total ∧
    (self.bufLen = 0 → self.chunkCounter.toNat = 0 ∨ 0 < n) ∧
    self.cvStackLen.toNat ≤ 1 + self.chunkCounter.toNat % 2

theorem hasherInv_flush {total n : ℕ} (htotal : total < 2 ^ 64) {self : Blake3Hasher} (hn : 0 < n)
    (hfull : self.bufLen = 1024) (h : HasherInv total n self) : HasherInv total n (flushChunk self) := by
  obtain ⟨hsum, -, hdepth⟩ := h
  have hcounter : (flushChunk self).chunkCounter.toNat = self.chunkCounter.toNat + 1 := by
    have hone : (1 : UInt64).toNat = 1 := rfl
    rw [flushChunk_chunkCounter, UInt64.toNat_add, hone, Nat.mod_eq_of_lt (by omega)]
  have hempty : (flushChunk self).bufLen = 0 := rfl
  have hstack := addChunkCv_depth (chunkStateOutput (bufferedChunk self 1024)) hdepth
  rw [UInt64.ofNat_toNat] at hstack
  refine ⟨by omega, fun _ => Or.inr hn, ?_⟩
  rw [hcounter]
  exact hstack

theorem hasherInv_copy {total : ℕ} {self : Blake3Hasher} {input : List UInt8} (hpos : 0 < input.length)
    (hroom : self.bufLen < 1024) (h : HasherInv total input.length self) :
    HasherInv total (input.length - min input.length (1024 - self.bufLen)) (hasherCopy self input) := by
  obtain ⟨hsum, -, hdepth⟩ := h
  refine ⟨?_, fun hempty => ?_, hdepth⟩
  · rw [hasherCopy_chunkCounter, hasherCopy_bufLen]
    omega
  · rw [hasherCopy_bufLen] at hempty
    omega

theorem hasherInv_feed {total : ℕ} (htotal : total < 2 ^ 64) {self : Blake3Hasher} {input : List UInt8}
    (h : HasherInv total input.length self) : HasherInv total 0 (blake3HasherUpdate self input) ∧
      ∀ s ∈ hasherBuffer.flushes self input, s.cvStackLen.toNat ≤ 2 := by
  have hrun := feed_invariant (B := hasherBuffer)
    (fun n s hn hfull hI => hasherInv_flush htotal hn hfull hI)
    (fun s input hpos hroom hI => hasherInv_copy hpos hroom hI) h
  refine ⟨hrun.1, fun s hs => ?_⟩
  obtain ⟨-, n, -, -, -, hdepth⟩ := hrun.2.2 s hs
  omega

theorem Start.hasherInv (start : Start) (memory : Blake3Hasher) (n : ℕ) :
    HasherInv n n (start.init memory) := by
  cases start with
  | plain => exact ⟨Nat.zero_add n, fun _ => Or.inl rfl, Nat.zero_le _⟩
  | keyed key => exact ⟨Nat.zero_add n, fun _ => Or.inl rfl, Nat.zero_le _⟩

/-! ## Ends of the merge loops -/

def mergePass (p : Blake3Hasher × Cv) : Blake3Hasher × Cv :=
  ((popCv p.1).1, parentCv (popCv p.1).2 p.2 iv p.1.flags)

theorem addChunkCv_ends (self : Blake3Hasher) (newCv : Cv) (chunkCounter : UInt64) :
    ∃ k ≤ self.cvStackLen.toNat, ¬ mustMerge (mergePass^[k] (self, newCv)).1 chunkCounter ∧
      addChunkCv self newCv chunkCounter =
        pushCv (mergePass^[k] (self, newCv)).1 (mergePass^[k] (self, newCv)).2 := by
  induction self, newCv using addChunkCv.induct chunkCounter with
  | case1 self newCv hm ih =>
    obtain ⟨k, hk, hend, heq⟩ := ih
    have hpop := popCv_lt hm.1
    exact ⟨k + 1, by omega, hend, (addChunkCv_of_merge hm newCv).trans heq⟩
  | case2 self newCv hm => exact ⟨0, Nat.zero_le _, hm, addChunkCv_of_not_merge hm newCv⟩

theorem mergeStack_ends (self : Blake3Hasher) (finalCv : Cv) :
    ∃ k ≤ self.cvStackLen.toNat, ¬ 0 < (mergePass^[k] (self, finalCv)).1.cvStackLen ∧
      mergeStack self finalCv = (mergePass^[k] (self, finalCv)).2 := by
  induction self, finalCv using mergeStack.induct with
  | case1 self finalCv hpos ih =>
    obtain ⟨k, hk, hend, heq⟩ := ih
    have hpop := popCv_lt hpos
    refine ⟨k + 1, by omega, hend, ?_⟩
    rw [mergeStack, dif_pos hpos]
    exact heq
  | case2 self finalCv hzero =>
    refine ⟨0, Nat.zero_le _, hzero, ?_⟩
    rw [mergeStack, dif_neg hzero]
    rfl

/-! ## The bounds -/

/-- What holds of a hasher after `n` bytes, of the next update and of `finalize`. -/
structure HasherBounds (n : ℕ) (self : Blake3Hasher) (input : List UInt8) : Prop where
  absorbed : 1024 * self.chunkCounter.toNat + self.bufLen = n
  bufLen_le : self.bufLen ≤ 1024
  bufLen_pos : 0 < n → 1 ≤ self.bufLen
  cvStackLen_le : self.cvStackLen.toNat ≤ 54
  stackOps : ∀ op ∈ updateOps self input ++ finalizeOps self, op.Safe
  chunkStates : ∀ cs ∈ updateChunkStates self input ++ finalizeChunkStates self,
    cs.bufLen ≤ 64 ∧ cs.blocksCompressed.toNat ≤ 15
  updateEnds : ∃ k ≤ input.length,
    hasherBuffer.pass^[k] (self, input) = (blake3HasherUpdate self input, [])
  chunkUpdateEnds : ∀ cs bytes, ∃ k ≤ bytes.length,
    chunkBuffer.pass^[k] (cs, bytes) = (chunkStateUpdate cs bytes, [])
  addChunkCvEnds : ∀ s newCv chunkCounter, ∃ k ≤ s.cvStackLen.toNat,
    ¬ mustMerge (mergePass^[k] (s, newCv)).1 chunkCounter ∧
      addChunkCv s newCv chunkCounter = pushCv (mergePass^[k] (s, newCv)).1 (mergePass^[k] (s, newCv)).2
  mergeStackEnds : ∀ s cv, ∃ k ≤ s.cvStackLen.toNat, ¬ 0 < (mergePass^[k] (s, cv)).1.cvStackLen ∧
    mergeStack s cv = (mergePass^[k] (s, cv)).2

/-- **The hasher stays in its bounds**, from any start and after any updates, for fewer than 2^64 bytes. -/
theorem hasher_bounds (start : Start) (memory : Blake3Hasher) (fragments : List (List UInt8))
    (input : List UInt8) (h : fragments.flatten.length + input.length < 2 ^ 64) :
    HasherBounds fragments.flatten.length (fragments.foldl blake3HasherUpdate (start.init memory)) input := by
  rw [foldl_update]
  obtain ⟨habsorbed, hempty, hdepth⟩ := (hasherInv_feed (by omega) (start.hasherInv memory fragments.flatten.length)).1
  generalize hself : blake3HasherUpdate (start.init memory) fragments.flatten = self at *
  have hnext : HasherInv (fragments.flatten.length + input.length) input.length self :=
    ⟨by omega, fun h0 => Or.inl ((hempty h0).resolve_right (Nat.lt_irrefl 0)), hdepth⟩
  have hflushes := (hasherInv_feed h hnext).2
  refine
    { absorbed := habsorbed
      bufLen_le := self.bufLen_le
      bufLen_pos := fun hn => ?_
      cvStackLen_le := by omega
      stackOps := fun op hop => ?_
      chunkStates := fun cs hcs => ?_
      updateEnds := hasherBuffer.exists_iterate_pass self input
      chunkUpdateEnds := chunkBuffer.exists_iterate_pass
      addChunkCvEnds := addChunkCv_ends
      mergeStackEnds := mergeStack_ends }
  · by_contra hzero
    have h0 : self.bufLen = 0 := by omega
    have := (hempty h0).resolve_right (Nat.lt_irrefl 0)
    omega
  · rcases List.mem_append.mp hop with hop | hop
    · obtain ⟨s, hs, hop⟩ := List.mem_flatMap.mp hop
      have := hflushes s hs
      exact addChunkCvOps_safe (by omega) op hop
    · exact mergeStackOps_safe (by omega) op hop
  · rcases List.mem_append.mp hcs with hcs | hcs
    · obtain ⟨s, hs, hcs⟩ := List.mem_flatMap.mp hcs
      exact chunkStates_bounds _ _ (List.length_take_le _ _) cs hcs
    · refine chunkStates_bounds _ _ ?_ cs hcs
      have := self.bufLen_le
      rw [List.length_take]
      omega

/-- Two chunks were flushed, and the update of 100 bytes flushes the third. -/
theorem hasher_bounds_keyed :
    let self := blake3HasherUpdate (blake3HasherUpdate (blake3HasherInitKeyed uninitialised (Vector.replicate 32 7))
      (List.replicate 1500 1)) (List.replicate 1500 2)
    HasherBounds 3000 self (List.replicate 100 3) ∧ self.chunkCounter.toNat = 2 ∧ self.bufLen = 952 := by
  intro self
  have hlength : ([List.replicate 1500 1, List.replicate 1500 2] : List (List UInt8)).flatten.length = 3000 := by
    rw [List.length_flatten, List.map_cons, List.map_singleton, List.length_replicate, List.length_replicate]
    rfl
  have h := hasher_bounds (.keyed (Vector.replicate 32 7)) uninitialised
    [List.replicate 1500 1, List.replicate 1500 2] (List.replicate 100 3)
    (by rw [hlength, List.length_replicate]; decide)
  rw [hlength] at h
  have hself : HasherBounds 3000 self (List.replicate 100 3) := h
  have habsorbed := @HasherBounds.absorbed _ _ _ hself
  have hbuf := @HasherBounds.bufLen_le _ _ _ hself
  exact ⟨hself, by omega, by omega⟩

end ShardingSim.Blake3
