import ShardingSim.Blake3.SpecMode
import ShardingSim.Library.LazyBuffer

/-! `chunk_state` of `src/blake3.c`: a 64-byte buffer that is compressed only when more input arrives.
Fed with the bytes of a chunk it ends in the last call of the specified chain, having made the calls
of the chain before it (`chunkState_chunk`). -/
namespace ShardingSim.Blake3
open ByteBuffer HashTree
set_option autoImplicit false

@[ext] structure ChunkState where
  cv : Cv
  chunkCounter : UInt64
  buf : Vector UInt8 64
  bufLen : ℕ
  blocksCompressed : UInt8
  flags : UInt8
  bufLen_le : bufLen ≤ 64

def chunkStateInit (key : Cv) (chunkCounter : UInt64) (flags : UInt8) : ChunkState where
  cv := key
  chunkCounter := chunkCounter
  buf := Vector.replicate 64 0
  bufLen := 0
  blocksCompressed := 0
  flags := flags
  bufLen_le := Nat.zero_le _

def chunkStateStartFlag (self : ChunkState) : UInt8 :=
  if self.blocksCompressed = 0 then Flag.chunkStart else 0

def chunkStateBlock (self : ChunkState) : CompressInput where
  cv := self.cv
  block := self.buf
  blockLen := 64
  counter := self.chunkCounter
  flags := self.flags ||| chunkStateStartFlag self

def chunkStateFlush (self : ChunkState) : ChunkState :=
  { self with
    cv := compressCv (chunkStateBlock self)
    blocksCompressed := self.blocksCompressed + 1
    bufLen := 0
    buf := Vector.replicate 64 0
    bufLen_le := Nat.zero_le _ }

/-- `memcpy(self->buf + self->buf_len, input, take)` with `take` the smaller of the input's length and
the room left. -/
def chunkStateCopy (self : ChunkState) (input : List UInt8) : ChunkState :=
  let take := min input.length (64 - self.bufLen)
  { self with
    buf := write self.buf self.bufLen (input.take take)
    bufLen := self.bufLen + take
    bufLen_le := by
      have := self.bufLen_le
      omega }

theorem chunkStateCopy_buf (self : ChunkState) (input : List UInt8) :
    (chunkStateCopy self input).buf = write self.buf self.bufLen (input.take (64 - self.bufLen)) := by
  rw [List.take_eq_take_min, min_comm]
  rfl

theorem chunkStateCopy_bufLen (self : ChunkState) (input : List UInt8) :
    (chunkStateCopy self input).bufLen = self.bufLen + min input.length (64 - self.bufLen) := rfl

theorem chunkStateCopy_copy (s : ChunkState) (xs ys : List UInt8) (h : xs.length ≤ 64 - s.bufLen) :
    chunkStateCopy (chunkStateCopy s xs) ys = chunkStateCopy s (xs ++ ys) := by
  have hroom : 64 - (s.bufLen + xs.length) = 64 - s.bufLen - xs.length := by omega
  have hbuf : (chunkStateCopy (chunkStateCopy s xs) ys).buf = (chunkStateCopy s (xs ++ ys)).buf := by
    rw [chunkStateCopy_buf, chunkStateCopy_buf, chunkStateCopy_buf, chunkStateCopy_bufLen,
      min_eq_left h, List.take_of_length_le h, write_write, List.take_append,
      List.take_of_length_le h, hroom]
  have hlen : (chunkStateCopy (chunkStateCopy s xs) ys).bufLen = (chunkStateCopy s (xs ++ ys)).bufLen := by
    rw [chunkStateCopy_bufLen, chunkStateCopy_bufLen, chunkStateCopy_bufLen, List.length_append]
    omega
  exact ChunkState.ext rfl rfl hbuf hlen rfl rfl

/-- The loop of `chunk_state_update` as a lazily flushed buffer. -/
def chunkBuffer : LazyBuffer ChunkState UInt8 where
  cap := 64
  cap_pos := by decide
  len := ChunkState.bufLen
  len_le := ChunkState.bufLen_le
  flush := chunkStateFlush
  len_flush := fun _ => rfl
  put := chunkStateCopy
  len_put := chunkStateCopy_bufLen
  put_nil := by
    intro s
    have hbuf : (chunkStateCopy s []).buf = s.buf := by
      rw [chunkStateCopy_buf, List.take_nil, write_nil]
    exact ChunkState.ext rfl rfl hbuf (by simp [chunkStateCopy_bufLen]) rfl rfl
  put_take := by
    intro s xs
    have hbuf : (chunkStateCopy s (xs.take (64 - s.bufLen))).buf = (chunkStateCopy s xs).buf := by
      rw [chunkStateCopy_buf, chunkStateCopy_buf, List.take_take, min_self]
    have hlen : (chunkStateCopy s (xs.take (64 - s.bufLen))).bufLen = (chunkStateCopy s xs).bufLen := by
      rw [chunkStateCopy_bufLen, chunkStateCopy_bufLen, List.length_take]
      omega
    exact ChunkState.ext rfl rfl hbuf hlen rfl rfl
  put_put := chunkStateCopy_copy

def chunkStateUpdate (self : ChunkState) (input : List UInt8) : ChunkState :=
  chunkBuffer.feed self input

def chunkStateUpdateCalls (self : ChunkState) (input : List UInt8) : List CompressInput :=
  (chunkBuffer.flushes self input).map chunkStateBlock

def chunkStateOutputInput (self : ChunkState) : CompressInput where
  cv := self.cv
  block := self.buf
  blockLen := UInt8.ofNat self.bufLen
  counter := self.chunkCounter
  flags := self.flags ||| chunkStateStartFlag self ||| Flag.chunkEnd

def chunkStateOutput (self : ChunkState) : Cv := compressCv (chunkStateOutputInput self)

/-! ## The chain of a chunk -/

theorem write_replicate (b : List UInt8) : write (Vector.replicate 64 0) 0 b = padBlock b := by
  ext i hi
  simp [write, padBlock, List.getD_eq_getElem?_getD]

/-- Between blocks the buffer is empty and zeroed. -/
structure AtBlock (s : ChunkState) : Prop where
  bufLen : s.bufLen = 0
  buf : s.buf = Vector.replicate 64 0

theorem atBlock_init (key : Cv) (chunkCounter : UInt64) (flags : UInt8) :
    AtBlock (chunkStateInit key chunkCounter flags) := ⟨rfl, rfl⟩

theorem atBlock_flush (s : ChunkState) : AtBlock (chunkStateFlush s) := ⟨rfl, rfl⟩

def isFirst (s : ChunkState) : Bool := s.blocksCompressed = 0

theorem chunkStateStartFlag_eq (s : ChunkState) :
    chunkStateStartFlag s = if isFirst s then Flag.chunkStart else 0 := by
  simp [chunkStateStartFlag, isFirst]

theorem chunkStateCopy_padBlock {s : ChunkState} (hs : AtBlock s) {b : List UInt8} (h : b.length ≤ 64) :
    (chunkStateCopy s b).buf = padBlock b := by
  rw [chunkStateCopy_buf, hs.buf, hs.bufLen, List.take_of_length_le (by omega), write_replicate]

theorem chunkStateOutputInput_copy {s : ChunkState} (hs : AtBlock s) {b : List UInt8}
    (h : b.length ≤ 64) :
    chunkStateOutputInput (chunkStateCopy s b) =
      Spec.blockInput s.chunkCounter s.flags s.cv b (isFirst s) true := by
  have hstart : chunkStateStartFlag (chunkStateCopy s b) = chunkStateStartFlag s := rfl
  have hlen : (chunkStateCopy s b).bufLen = b.length := by
    rw [chunkStateCopy_bufLen, hs.bufLen]
    omega
  rw [chunkStateOutputInput, chunkStateCopy_padBlock hs h, hlen, hstart, chunkStateStartFlag_eq]
  rfl

theorem chunkStateBlock_copy {s : ChunkState} (hs : AtBlock s) {b : List UInt8} (h : b.length = 64) :
    chunkStateBlock (chunkStateCopy s b) =
      Spec.blockInput s.chunkCounter s.flags s.cv b (isFirst s) false := by
  have hstart : chunkStateStartFlag (chunkStateCopy s b) = chunkStateStartFlag s := rfl
  rw [chunkStateBlock, chunkStateCopy_padBlock hs h.le, hstart, chunkStateStartFlag_eq, Spec.blockInput, h,
    if_neg Bool.false_ne_true, UInt8.or_zero]
  rfl

theorem toNat_add_one {x : UInt8} (h : x.toNat < 255) : (x + 1).toNat = x.toNat + 1 := by
  have hone : (1 : UInt8).toNat = 1 := rfl
  rw [UInt8.toNat_add, hone, Nat.mod_eq_of_lt (by omega)]

theorem isFirst_flush (s : ChunkState) (h : s.blocksCompressed.toNat < 255) :
    isFirst (chunkStateFlush s) = false := by
  have hne : s.blocksCompressed + 1 ≠ 0 := by
    intro h0
    have hzero := congrArg UInt8.toNat h0
    rw [toNat_add_one h] at hzero
    exact Nat.succ_ne_zero _ hzero
  exact decide_eq_false hne

/-! The two equations by which a chunk is read, with the calls they make. -/

theorem chunkStateUpdate_of_le {s : ChunkState} (hs : AtBlock s) {bytes : List UInt8} (h : bytes.length ≤ 64) :
    chunkStateUpdate s bytes = chunkStateCopy s bytes ∧ chunkStateUpdateCalls s bytes = [] := by
  refine ⟨chunkBuffer.feed_of_le hs.bufLen h, ?_⟩
  rw [chunkStateUpdateCalls, chunkBuffer.flushes_of_le hs.bufLen h, List.map_nil]

theorem chunkStateUpdate_of_gt {s : ChunkState} (hs : AtBlock s) {bytes : List UInt8} (h : 64 < bytes.length) :
    chunkStateUpdate s bytes =
        chunkStateUpdate (chunkStateFlush (chunkStateCopy s (bytes.take 64))) (bytes.drop 64) ∧
      chunkStateUpdateCalls s bytes =
        chunkStateBlock (chunkStateCopy s (bytes.take 64)) ::
          chunkStateUpdateCalls (chunkStateFlush (chunkStateCopy s (bytes.take 64))) (bytes.drop 64) := by
  refine ⟨chunkBuffer.feed_of_gt hs.bufLen h, ?_⟩
  rw [chunkStateUpdateCalls, chunkBuffer.flushes_of_gt hs.bufLen h]
  rfl

/-- **The calls of a chunk.** Fed with at most the 255 blocks its 8-bit counter can count, a chunk
state makes the calls of the specified chain. -/
theorem chunkState_chain (s : ChunkState) (hs : AtBlock s) (bytes : List UInt8)
    (h : 64 * s.blocksCompressed.toNat + bytes.length ≤ 64 * 256) :
    chunkStateOutputInput (chunkStateUpdate s bytes) =
        Spec.chunkNode compress s.chunkCounter s.flags (isFirst s) s.cv bytes ∧
      chunkStateUpdateCalls s bytes ++ [chunkStateOutputInput (chunkStateUpdate s bytes)] =
        Spec.chunkCalls compress s.chunkCounter s.flags (isFirst s) s.cv bytes := by
  induction hn : bytes.length using Nat.strong_induction_on generalizing s bytes with
  | _ n ih =>
    subst hn
    by_cases hle : bytes.length ≤ 64
    · obtain ⟨hfeed, hcalls⟩ := chunkStateUpdate_of_le hs hle
      rw [hcalls, hfeed, chunkStateOutputInput_copy hs hle, Spec.chunkNode_of_le _ hle,
        Spec.chunkCalls_of_le _ hle]
      exact ⟨rfl, rfl⟩
    · have hgt : 64 < bytes.length := by omega
      have htake : (bytes.take 64).length = 64 := by
        rw [List.length_take]
        omega
      obtain ⟨hfeed, hcalls⟩ := chunkStateUpdate_of_gt hs hgt
      -- the flushed state goes on behind the first block
      have hcount : (s.blocksCompressed + 1).toNat = s.blocksCompressed.toNat + 1 := toNat_add_one (by omega)
      have hfirst : isFirst (chunkStateFlush (chunkStateCopy s (bytes.take 64))) = false :=
        isFirst_flush _ (by
          have : (chunkStateCopy s (bytes.take 64)).blocksCompressed = s.blocksCompressed := rfl
          rw [this]
          omega)
      have hcv : (chunkStateFlush (chunkStateCopy s (bytes.take 64))).cv =
          firstWords (compress (Spec.blockInput s.chunkCounter s.flags s.cv (bytes.take 64) (isFirst s) false)) := by
        rw [← chunkStateBlock_copy hs htake]
        rfl
      have hrest := ih (bytes.drop 64).length (by rw [List.length_drop]; omega)
        (chunkStateFlush (chunkStateCopy s (bytes.take 64))) (atBlock_flush _) (bytes.drop 64) (by
          have : (chunkStateFlush (chunkStateCopy s (bytes.take 64))).blocksCompressed =
            s.blocksCompressed + 1 := rfl
          rw [this, hcount, List.length_drop]
          omega) rfl
      rw [hfirst, hcv] at hrest
      rw [hfeed, hcalls, chunkStateBlock_copy hs htake, Spec.chunkNode_of_gt _ hgt,
        Spec.chunkCalls_of_gt _ hgt]
      exact ⟨hrest.1, congrArg _ hrest.2⟩

theorem chunkState_chunk (key : Cv) (flags : UInt8) (c : Chunk) :
    chunkStateOutputInput (chunkStateUpdate (chunkStateInit key c.counter flags) c.bytes) =
        (Spec.mode compress key flags).leafInput c ∧
      chunkStateUpdateCalls (chunkStateInit key c.counter flags) c.bytes ++
          [chunkStateOutputInput (chunkStateUpdate (chunkStateInit key c.counter flags) c.bytes)] =
        (Spec.mode compress key flags).leafCalls c := by
  have hle := c.length_le
  refine chunkState_chain _ (atBlock_init key c.counter flags) c.bytes ?_
  have : (chunkStateInit key c.counter flags).blocksCompressed.toNat = 0 := rfl
  omega

end ShardingSim.Blake3
