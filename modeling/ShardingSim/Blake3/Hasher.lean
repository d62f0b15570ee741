import ShardingSim.Blake3.ChunkState

/-! `blake3_hasher` of `src/blake3.c`: the 1024-byte chunk buffer, the stack of chaining values kept as
bytes, `add_chunk_cv` with its merge loop, `update`, `finalize` and the one-shot functions. Beside each
function that compresses stands the list of its calls to `compress`. `update_update` and `foldl_update`:
how the input is cut into updates does not matter. -/
namespace ShardingSim.Blake3
open ByteBuffer
set_option autoImplicit false

@[ext] structure Blake3Hasher where
  cv : Cv
  chunkBuf : Vector UInt8 1024
  cvStack : Vector UInt8 (54 * 32)
  cvStackLen : UInt8
  chunkCounter : UInt64
  bufLen : ℕ
  flags : UInt8
  bufLen_le : bufLen ≤ 1024

/-- A local `blake3_hasher` before its initialisation: its bytes are indeterminate in the source, and
`blake3HasherInit` leaves those of the stack so. No digest depends on them. -/
def uninitialised : Blake3Hasher where
  cv := Vector.replicate 8 0
  chunkBuf := Vector.replicate 1024 0
  cvStack := Vector.replicate (54 * 32) 0
  cvStackLen := 0
  chunkCounter := 0
  bufLen := 0
  flags := 0
  bufLen_le := Nat.zero_le _

def blake3HasherInit (self : Blake3Hasher) : Blake3Hasher :=
  { self with
    cv := iv
    chunkBuf := Vector.replicate 1024 0
    cvStackLen := 0
    chunkCounter := 0
    bufLen := 0
    flags := 0
    bufLen_le := Nat.zero_le _ }

def blake3HasherInitKeyed (self : Blake3Hasher) (key : Vector UInt8 32) : Blake3Hasher :=
  { self with
    cv := Vector.ofFn fun i => load32Le key (i.val * 4)
    chunkBuf := Vector.replicate 1024 0
    cvStackLen := 0
    chunkCounter := 0
    bufLen := 0
    flags := Flag.keyedHash
    bufLen_le := Nat.zero_le _ }

/-! ## The stack of chaining values -/

def setStack (self : Blake3Hasher) (cvStack : Vector UInt8 (54 * 32)) (cvStackLen : UInt8) :
    Blake3Hasher :=
  { self with
    cvStack := cvStack
    cvStackLen := cvStackLen }

section SetStack
variable (self : Blake3Hasher) (stack : Vector UInt8 (54 * 32)) (n : UInt8)

@[simp] theorem setStack_cvStack : (setStack self stack n).cvStack = stack := rfl
@[simp] theorem setStack_cvStackLen : (setStack self stack n).cvStackLen = n := rfl
@[simp] theorem setStack_chunkCounter : (setStack self stack n).chunkCounter = self.chunkCounter := rfl
@[simp] theorem setStack_flags : (setStack self stack n).flags = self.flags := rfl

end SetStack

def pushCv (self : Blake3Hasher) (cv : Cv) : Blake3Hasher :=
  setStack self (write self.cvStack (self.cvStackLen.toNat * 32) (storeCv cv)) (self.cvStackLen + 1)

def popCv (self : Blake3Hasher) : Blake3Hasher × Cv :=
  (setStack self self.cvStack (self.cvStackLen - 1),
    Vector.ofFn fun i => load32Le self.cvStack ((self.cvStackLen - 1).toNat * 32 + i.val * 4))

def parentInput (left right key : Cv) (flags : UInt8) : CompressInput where
  cv := key
  block := write (write (Vector.replicate 64 0) 0 (storeCv left)) 32 (storeCv right)
  blockLen := 64
  counter := 0
  flags := flags ||| Flag.parent

def parentCv (left right key : Cv) (flags : UInt8) : Cv := compressCv (parentInput left right key flags)

def mustMerge (self : Blake3Hasher) (chunkCounter : UInt64) : Prop :=
  0 < self.cvStackLen ∧ chunkCounter &&& (((1 : UInt64) <<< self.cvStackLen.toUInt64) - 1) ≠ 0

instance (self : Blake3Hasher) (chunkCounter : UInt64) : Decidable (mustMerge self chunkCounter) :=
  inferInstanceAs (Decidable (_ ∧ _))

theorem toNat_sub_one {x : UInt8} (h : 0 < x) : (x - 1).toNat = x.toNat - 1 := by
  have hpos : 0 < x.toNat := UInt8.lt_iff_toNat_lt.mp h
  exact UInt8.toNat_sub_of_le _ _ (UInt8.le_iff_toNat_le.mpr hpos)

theorem pushCv_len {self : Blake3Hasher} (h : self.cvStackLen.toNat < 255) (cv : Cv) :
    (pushCv self cv).cvStackLen.toNat = self.cvStackLen.toNat + 1 := toNat_add_one h

theorem popCv_len {self : Blake3Hasher} (h : 0 < self.cvStackLen) :
    (popCv self).1.cvStackLen.toNat = self.cvStackLen.toNat - 1 := toNat_sub_one h

theorem popCv_lt {self : Blake3Hasher} (h : 0 < self.cvStackLen) :
    (popCv self).1.cvStackLen.toNat < self.cvStackLen.toNat := by
  have hpos : 0 < self.cvStackLen.toNat := UInt8.lt_iff_toNat_lt.mp h
  rw [popCv_len h]
  omega

def addChunkCv (self : Blake3Hasher) (newCv : Cv) (chunkCounter : UInt64) : Blake3Hasher :=
  if _h : mustMerge self chunkCounter then
    addChunkCv (popCv self).1 (parentCv (popCv self).2 newCv iv self.flags) chunkCounter
  else pushCv self newCv
termination_by self.cvStackLen.toNat
decreasing_by exact popCv_lt _h.1

def addChunkCvCalls (self : Blake3Hasher) (newCv : Cv) (chunkCounter : UInt64) : List CompressInput :=
  if _h : mustMerge self chunkCounter then
    parentInput (popCv self).2 newCv iv self.flags ::
      addChunkCvCalls (popCv self).1 (parentCv (popCv self).2 newCv iv self.flags) chunkCounter
  else []
termination_by self.cvStackLen.toNat
decreasing_by exact popCv_lt _h.1

theorem addChunkCv_of_merge {self : Blake3Hasher} {chunkCounter : UInt64}
    (h : mustMerge self chunkCounter) (newCv : Cv) :
    addChunkCv self newCv chunkCounter =
      addChunkCv (popCv self).1 (parentCv (popCv self).2 newCv iv self.flags) chunkCounter := by
  rw [addChunkCv, dif_pos h]

theorem addChunkCv_of_not_merge {self : Blake3Hasher} {chunkCounter : UInt64}
    (h : ¬ mustMerge self chunkCounter) (newCv : Cv) :
    addChunkCv self newCv chunkCounter = pushCv self newCv := by
  rw [addChunkCv, dif_neg h]

theorem addChunkCv_eq_setStack (self : Blake3Hasher) (newCv : Cv) (chunkCounter : UInt64) :
    addChunkCv self newCv chunkCounter =
      setStack self (addChunkCv self newCv chunkCounter).cvStack
        (addChunkCv self newCv chunkCounter).cvStackLen := by
  induction self, newCv using addChunkCv.induct chunkCounter with
  | case1 self newCv h ih =>
    rw [addChunkCv_of_merge h]
    exact ih
  | case2 self newCv h =>
    rw [addChunkCv_of_not_merge h]
    rfl

theorem addChunkCv_chunkCounter (self : Blake3Hasher) (newCv : Cv) (chunkCounter : UInt64) :
    (addChunkCv self newCv chunkCounter).chunkCounter = self.chunkCounter := by
  rw [addChunkCv_eq_setStack, setStack_chunkCounter]

/-! ## Update -/

/-- The chunk state that compresses the first `len` bytes of the chunk buffer. -/
def bufferedChunk (self : Blake3Hasher) (len : ℕ) : ChunkState :=
  chunkStateUpdate (chunkStateInit iv self.chunkCounter self.flags) (self.chunkBuf.toList.take len)

def bufferedChunkCalls (self : Blake3Hasher) (len : ℕ) : List CompressInput :=
  chunkStateUpdateCalls (chunkStateInit iv self.chunkCounter self.flags)
    (self.chunkBuf.toList.take len) ++ [chunkStateOutputInput (bufferedChunk self len)]

def flushChunk (self : Blake3Hasher) : Blake3Hasher :=
  let self' := addChunkCv self (chunkStateOutput (bufferedChunk self 1024)) self.chunkCounter
  { self' with
    chunkCounter := self'.chunkCounter + 1
    bufLen := 0
    bufLen_le := Nat.zero_le _ }

theorem flushChunk_chunkCounter (self : Blake3Hasher) :
    (flushChunk self).chunkCounter = self.chunkCounter + 1 :=
  congrArg (· + 1) (addChunkCv_chunkCounter self (chunkStateOutput (bufferedChunk self 1024)) self.chunkCounter)

def flushChunkCalls (self : Blake3Hasher) : List CompressInput :=
  bufferedChunkCalls self 1024 ++
    addChunkCvCalls self (chunkStateOutput (bufferedChunk self 1024)) self.chunkCounter

/-- `memcpy(self->chunk_buf + self->buf_len, input_bytes, take)` with `take` the smaller of the input's
length and the room left. -/
def hasherCopy (self : Blake3Hasher) (input : List UInt8) : Blake3Hasher :=
  let take := min input.length (1024 - self.bufLen)
  { self with
    chunkBuf := write self.chunkBuf self.bufLen (input.take take)
    bufLen := self.bufLen + take
    bufLen_le := by
      have := self.bufLen_le
      omega }

section HasherCopy
variable (self : Blake3Hasher) (input : List UInt8)

theorem hasherCopy_chunkBuf : (hasherCopy self input).chunkBuf =
    write self.chunkBuf self.bufLen (input.take (1024 - self.bufLen)) := by
  rw [List.take_eq_take_min, min_comm]
  rfl

theorem hasherCopy_bufLen :
    (hasherCopy self input).bufLen = self.bufLen + min input.length (1024 - self.bufLen) := rfl

-- The proofs stand in parentheses so that `simp` rewrites with these: unfolding two copies to compare them
-- runs through both buffers.
@[simp] theorem hasherCopy_cv : (hasherCopy self input).cv = self.cv := (rfl)
@[simp] theorem hasherCopy_cvStack : (hasherCopy self input).cvStack = self.cvStack := (rfl)
@[simp] theorem hasherCopy_cvStackLen : (hasherCopy self input).cvStackLen = self.cvStackLen := (rfl)
@[simp] theorem hasherCopy_chunkCounter : (hasherCopy self input).chunkCounter = self.chunkCounter := (rfl)
@[simp] theorem hasherCopy_flags : (hasherCopy self input).flags = self.flags := (rfl)

end HasherCopy

theorem hasherCopy_ext {s : Blake3Hasher} {xs ys : List UInt8}
    (hbuf : (hasherCopy s xs).chunkBuf = (hasherCopy s ys).chunkBuf)
    (hlen : (hasherCopy s xs).bufLen = (hasherCopy s ys).bufLen) : hasherCopy s xs = hasherCopy s ys :=
  Blake3Hasher.ext (by simp) hbuf (by simp) (by simp) (by simp) hlen (by simp)

theorem hasherCopy_copy (s : Blake3Hasher) (xs ys : List UInt8) (h : xs.length ≤ 1024 - s.bufLen) :
    hasherCopy (hasherCopy s xs) ys = hasherCopy s (xs ++ ys) := by
  have hroom : 1024 - (s.bufLen + xs.length) = 1024 - s.bufLen - xs.length := by omega
  have hbuf : (hasherCopy (hasherCopy s xs) ys).chunkBuf = (hasherCopy s (xs ++ ys)).chunkBuf := by
    rw [hasherCopy_chunkBuf, hasherCopy_chunkBuf, hasherCopy_chunkBuf, hasherCopy_bufLen,
      min_eq_left h, List.take_of_length_le h, write_write, List.take_append,
      List.take_of_length_le h, hroom]
  have hlen : (hasherCopy (hasherCopy s xs) ys).bufLen = (hasherCopy s (xs ++ ys)).bufLen := by
    rw [hasherCopy_bufLen, hasherCopy_bufLen, hasherCopy_bufLen, List.length_append]
    omega
  exact Blake3Hasher.ext (by simp) hbuf (by simp) (by simp) (by simp) hlen (by simp)

/-- The loop of `blake3_hasher_update` as a lazily flushed buffer. -/
def hasherBuffer : LazyBuffer Blake3Hasher UInt8 where
  cap := 1024
  cap_pos := by decide
  len := Blake3Hasher.bufLen
  len_le := Blake3Hasher.bufLen_le
  flush := flushChunk
  len_flush := fun _ => rfl
  put := hasherCopy
  len_put := hasherCopy_bufLen
  put_nil := by
    intro s
    have hbuf : (hasherCopy s []).chunkBuf = s.chunkBuf := by
      rw [hasherCopy_chunkBuf, List.take_nil, write_nil]
    exact Blake3Hasher.ext (by simp) hbuf (by simp) (by simp) (by simp) (by simp [hasherCopy_bufLen]) (by simp)
  put_take := by
    intro s xs
    have hbuf : (hasherCopy s (xs.take (1024 - s.bufLen))).chunkBuf = (hasherCopy s xs).chunkBuf := by
      rw [hasherCopy_chunkBuf, hasherCopy_chunkBuf, List.take_take, min_self]
    have hlen : (hasherCopy s (xs.take (1024 - s.bufLen))).bufLen = (hasherCopy s xs).bufLen := by
      rw [hasherCopy_bufLen, hasherCopy_bufLen, List.length_take]
      omega
    exact hasherCopy_ext hbuf hlen
  put_put := hasherCopy_copy

def blake3HasherUpdate (self : Blake3Hasher) (input : List UInt8) : Blake3Hasher :=
  hasherBuffer.feed self input

def blake3HasherUpdateCalls (self : Blake3Hasher) (input : List UInt8) : List CompressInput :=
  (hasherBuffer.flushes self input).flatMap flushChunkCalls

theorem update_update (self : Blake3Hasher) (a b : List UInt8) :
    blake3HasherUpdate (blake3HasherUpdate self a) b = blake3HasherUpdate self (a ++ b) :=
  hasherBuffer.feed_append self a b

theorem foldl_update (self : Blake3Hasher) (fragments : List (List UInt8)) :
    fragments.foldl blake3HasherUpdate self = blake3HasherUpdate self fragments.flatten :=
  hasherBuffer.foldl_feed self fragments

/-! ## Finalize -/

/-- The merge loop of `blake3_hasher_finalize`, on its copy of the hasher. -/
def mergeStack (selfCopy : Blake3Hasher) (finalCv : Cv) : Cv :=
  if _h : 0 < selfCopy.cvStackLen then
    mergeStack (popCv selfCopy).1 (parentCv (popCv selfCopy).2 finalCv iv selfCopy.flags)
  else finalCv
termination_by selfCopy.cvStackLen.toNat
decreasing_by exact popCv_lt _h

def mergeStackCalls (selfCopy : Blake3Hasher) (finalCv : Cv) : List CompressInput :=
  if _h : 0 < selfCopy.cvStackLen then
    parentInput (popCv selfCopy).2 finalCv iv selfCopy.flags ::
      mergeStackCalls (popCv selfCopy).1 (parentCv (popCv selfCopy).2 finalCv iv selfCopy.flags)
  else []
termination_by selfCopy.cvStackLen.toNat
decreasing_by exact popCv_lt _h

def rootInput (flags : UInt8) (finalCv : Cv) : CompressInput where
  cv := iv
  block := write (Vector.replicate 64 0) 0 (storeCv finalCv)
  blockLen := 32
  counter := 0
  flags := flags ||| Flag.root

/-- The second output loop, which reads `out` back: `i` runs up to `out_len`. -/
def extendOutput (out : List UInt8) (i : ℕ) : ℕ → List UInt8
  | 0 => out
  | n + 1 =>
    extendOutput (out ++ [out.getD (i % 32) 0 ^^^ UInt8.ofNat (i / 2 ^ 8) ^^^ UInt8.ofNat i]) (i + 1) n

def writeOutput (outputCv : Vector UInt32 16) (outLen : ℕ) : List UInt8 :=
  let copyLen := if outLen < 32 then outLen else 32
  let out := (List.range copyLen).map (wordsByte outputCv)
  if outLen > 32 then extendOutput out 32 (outLen - 32) else out

theorem extendOutput_length (out : List UInt8) (i n : ℕ) : (extendOutput out i n).length = out.length + n := by
  induction n generalizing out i with
  | zero => rfl
  | succ n ih =>
    rw [extendOutput, ih, List.length_append, List.length_singleton, Nat.add_right_comm, Nat.add_assoc]

theorem writeOutput_length (outputCv : Vector UInt32 16) (outLen : ℕ) :
    (writeOutput outputCv outLen).length = outLen := by
  unfold writeOutput
  dsimp only
  split
  · rw [extendOutput_length, List.length_map, List.length_range, if_neg (by omega)]
    omega
  · rw [List.length_map, List.length_range]
    split <;> omega

def finalCv (self : Blake3Hasher) : Cv :=
  mergeStack self (chunkStateOutput (bufferedChunk self self.bufLen))

def blake3HasherFinalize (self : Blake3Hasher) (outLen : ℕ) : List UInt8 :=
  writeOutput (compress (rootInput self.flags (finalCv self))) outLen

def blake3HasherFinalizeCalls (self : Blake3Hasher) : List CompressInput :=
  bufferedChunkCalls self self.bufLen ++
    mergeStackCalls self (chunkStateOutput (bufferedChunk self self.bufLen)) ++
    [rootInput self.flags (finalCv self)]

/-! ## One-shot functions -/

def blake3Truncated (input : List UInt8) (outLen : ℕ) : List UInt8 :=
  blake3HasherFinalize (blake3HasherUpdate (blake3HasherInit uninitialised) input) outLen

def blake3 (input : List UInt8) : List UInt8 := blake3Truncated input 32

theorem blake3_length (input : List UInt8) : (blake3 input).length = 32 := by
  rw [blake3, blake3Truncated, blake3HasherFinalize, writeOutput_length]

/-- The calls to `compress` made by `blake3_truncated`, and so by `blake3`. -/
def blake3Calls (input : List UInt8) : List CompressInput :=
  blake3HasherUpdateCalls (blake3HasherInit uninitialised) input ++
    blake3HasherFinalizeCalls (blake3HasherUpdate (blake3HasherInit uninitialised) input)

end ShardingSim.Blake3
