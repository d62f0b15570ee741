import ShardingSim.Library.Decimal
import ShardingSim.Proto
import ShardingSim.Transaction

/-! `src/receiver.c`: the conversion of messages to transactions, the receive buffer with what `zmq_recv`
stores and reports, and the loop. One event of the loop is a failed `zmq_recv` or an incoming message;
`Served` records what the loop did with a message. -/
namespace ShardingSim
open ByteBuffer Decimal
set_option autoImplicit false

def submitBatchPbPrefix : List UInt8 := ascii "SUBMIT_BATCH_PB:"

theorem submitBatchPbPrefix_length : submitBatchPbPrefix.length = 16 := by decide

def recvBufSize : ℕ := 2 * 1024 * 1024

/-! ## Messages to transactions -/

/-- `memcpy(tx->source_address, pt->source_address.data, 20)`, if there are 20 bytes, over zeros. -/
def copyAddress (d : BinaryData) : Vector UInt8 20 :=
  if d.isSome ∧ 20 ≤ d.bytes.length then write (Vector.replicate 20 0) 0 (d.bytes.take 20)
  else Vector.replicate 20 0

def copySignature (d : BinaryData) : Vector UInt8 48 :=
  if d.isSome ∧ 0 < d.bytes.length then
    write (Vector.replicate 48 0) 0 (d.bytes.take (if d.bytes.length < 48 then d.bytes.length else 48))
  else Vector.replicate 48 0

def pbToTx (pt : PbTransaction) : Transaction where
  nonce := pt.nonce
  expiryBlock := pt.expiryBlock
  sourceAddress := copyAddress pt.sourceAddress
  destAddress := copyAddress pt.destAddress
  value := pt.value
  fee := pt.fee
  signature := copySignature pt.signature

/-! An address of fewer than 20 bytes is read as zeros, of more than 20 cut; a signature is cut or padded with
zeros. -/

theorem copyAddress_eq (d : BinaryData) : (copyAddress d).toList =
    if 20 ≤ d.bytes.length then d.bytes.take 20 else List.replicate 20 0 := by
  rw [copyAddress]
  by_cases hlen : 20 ≤ d.bytes.length
  · have hsome : d.isSome := d.isSome_of_bytes (by omega)
    have htake : (d.bytes.take 20).length = 20 := List.length_take_of_le hlen
    rw [if_pos ⟨hsome, hlen⟩, if_pos hlen, toList_write_zero _ htake.le, htake, Vector.toList_replicate]
    exact List.append_nil _
  · rw [if_neg fun h => hlen h.2, if_neg hlen, Vector.toList_replicate]

theorem copySignature_eq (d : BinaryData) : (copySignature d).toList =
    d.bytes.take 48 ++ List.replicate (48 - d.bytes.length) 0 := by
  rw [copySignature]
  by_cases hlen : 0 < d.bytes.length
  · have hcopied : d.bytes.take (if d.bytes.length < 48 then d.bytes.length else 48) = d.bytes.take 48 := by
      split
      · rw [List.take_of_length_le (le_refl _), List.take_of_length_le (by omega)]
      · rfl
    have htake : (d.bytes.take 48).length ≤ 48 := List.length_take_le _ _
    rw [if_pos ⟨d.isSome_of_bytes hlen, hlen⟩, hcopied, toList_write_zero _ htake, Vector.toList_replicate,
      List.drop_replicate, List.length_take]
    congr 2
    omega
  · have hnil : d.bytes = [] := List.length_eq_zero_iff.mp (by omega)
    rw [if_neg fun h => hlen h.2, hnil, Vector.toList_replicate]
    rfl

theorem copyAddress_exact (d : BinaryData) : (copyAddress d).toList = d.bytes ↔ d.bytes.length = 20 := by
  constructor
  · intro h
    rw [← h]
    exact Vector.length_toList
  · intro h
    rw [copyAddress_eq, if_pos h.ge, List.take_of_length_le h.le]

theorem copySignature_exact (d : BinaryData) : (copySignature d).toList = d.bytes ↔ d.bytes.length = 48 := by
  constructor
  · intro h
    rw [← h]
    exact Vector.length_toList
  · intro h
    rw [copySignature_eq, List.take_of_length_le h.le, h]
    exact List.append_nil _

theorem copySignature_zero {d : BinaryData} (h : d.bytes = []) : copySignature d = Vector.replicate 48 0 := by
  rw [copySignature, h, if_neg fun hlen => Nat.lt_irrefl 0 hlen.2]

/-! ## Receiving -/

/-- `zmq_recv` of a message into a buffer for `len` bytes: what does not fit is dropped, but the size
returned is that of the whole message, up to `INT_MAX`. -/
def zmqRecv (buf : List UInt8) (len : ℕ) (msg : List UInt8) : List UInt8 × ℕ :=
  (msg.take len ++ buf.drop (min len msg.length), min msg.length (2 ^ 31 - 1))

def isBatch (buf : List UInt8) (size : ℕ) : Bool := 16 < size && buf.take 16 = submitBatchPbPrefix

/-- The bytes at `buf + 16` that the loop hands to `unpack`; a size beyond the buffer makes `unpack`
read past its end, which is left out here and recorded in `Served`. -/
def payload (buf : List UInt8) (size : ℕ) : List UInt8 := (buf.drop 16).take (size - 16)

def countVerdicts (verify : Bool) (transactions : List PbTransaction) : ℕ × ℕ :=
  transactions.foldl (fun c pt =>
    if verify && !transactionVerify (pbToTx pt) then (c.1, c.2 + 1) else (c.1 + 1, c.2)) (0, 0)

/-- `snprintf(resp, sizeof(resp), "OK:%d|%d", accepted, rejected)`. -/
def okReply (accepted rejected : ℕ) : List UInt8 :=
  ascii "OK:" ++ (decimal accepted ++ (ascii "|" ++ decimal rejected))

def unknownReply : List UInt8 := ascii "UNKNOWN"

def verdicts (P : ProtobufC PbTransactionBatch) (verify : Bool) (bytes : List UInt8) : ℕ × ℕ :=
  match P.unpack bytes with
  | some batch => countVerdicts verify batch.transactions
  | none => (0, 0)

/-- What the loop did with one message: the bytes `zmq_recv` stored, the range of the buffer handed to
`unpack`, if any, as offset and length, the counters and the reply. -/
structure Served where
  stored : ℕ
  unpacked : Option (ℕ × ℕ)
  accepted : ℕ
  rejected : ℕ
  reply : List UInt8
deriving DecidableEq

/-- The pass of the loop for a message, into a buffer with its old bytes. -/
def serve (P : ProtobufC PbTransactionBatch) (verify : Bool) (buf msg : List UInt8) : Served :=
  let size := (zmqRecv buf (recvBufSize - 1) msg).2
  let buf := (zmqRecv buf (recvBufSize - 1) msg).1
  let stored := min (recvBufSize - 1) msg.length
  if isBatch buf size then
    let counters := verdicts P verify (payload buf size)
    { stored := stored
      unpacked := some (16, size - 16)
      accepted := counters.1
      rejected := counters.2
      reply := okReply counters.1 counters.2 }
  else { stored := stored, unpacked := none, accepted := 0, rejected := 0, reply := unknownReply }

structure ReceiverState where
  buf : List UInt8
  totalReceived : UInt64

inductive RecvEvent where
  | failed
  | message (msg : List UInt8)

def receiverStep (P : ProtobufC PbTransactionBatch) (verify : Bool) (s : ReceiverState) :
    RecvEvent → ReceiverState × Option Served
  | .failed => (s, none)
  | .message msg =>
    let served := serve P verify s.buf msg
    ({ buf := (zmqRecv s.buf (recvBufSize - 1) msg).1
       totalReceived := s.totalReceived + UInt64.ofNat (served.accepted + served.rejected) },
      some served)

/-- The loop over a sequence of events, with what it did for each message. -/
def receiverRun (P : ProtobufC PbTransactionBatch) (verify : Bool) (s : ReceiverState) :
    List RecvEvent → ReceiverState × List Served
  | [] => (s, [])
  | e :: es =>
    let (s', served) := receiverStep P verify s e
    let (s'', rest) := receiverRun P verify s' es
    (s'', served.toList ++ rest)

/-! ## One message -/

section Message
variable (buf msg : List UInt8)

theorem zmqRecv_take (len : ℕ) {k : ℕ} (hk : k ≤ len) (hmsg : k ≤ msg.length) :
    (zmqRecv buf len msg).1.take k = msg.take k := by
  have hlen : k ≤ (msg.take len).length := by
    rw [List.length_take]
    omega
  rw [zmqRecv, List.take_append_of_le_length hlen, List.take_take, min_eq_left hk]

theorem isBatch_zmqRecv (len : ℕ) (hlen : 16 ≤ len) :
    isBatch (zmqRecv buf len msg).1 (zmqRecv buf len msg).2 = true ↔
      16 < msg.length ∧ submitBatchPbPrefix <+: msg := by
  have hsize : (zmqRecv buf len msg).2 = min msg.length (2 ^ 31 - 1) := rfl
  rw [isBatch, hsize, Bool.and_eq_true, decide_eq_true_eq, decide_eq_true_eq]
  constructor
  · rintro ⟨hgt, htake⟩
    rw [zmqRecv_take buf msg len hlen (by omega)] at htake
    exact ⟨by omega, htake ▸ List.take_prefix _ _⟩
  · rintro ⟨hgt, hpre⟩
    refine ⟨by omega, ?_⟩
    rw [zmqRecv_take buf msg len hlen (by omega), ← submitBatchPbPrefix_length]
    exact (List.prefix_iff_eq_take.mp hpre).symm

theorem payload_zmqRecv {len : ℕ} (hlen : msg.length ≤ len) (hint : len < 2 ^ 31) :
    payload (zmqRecv buf len msg).1 (zmqRecv buf len msg).2 = msg.drop 16 := by
  have hsize : (zmqRecv buf len msg).2 = msg.length := min_eq_left (by omega)
  have hstored : (zmqRecv buf len msg).1 = msg ++ buf.drop (min len msg.length) := by
    rw [zmqRecv, List.take_of_length_le hlen]
  rw [payload, hsize, hstored, ← List.drop_take, List.take_left]

end Message

/-! ## Bounds of the buffer -/

/-- The range handed to `unpack` lies in the bytes that were stored, and these in the buffer. -/
def Served.InBounds (r : Served) : Prop :=
  ∀ off len, r.unpacked = some (off, len) → off + len ≤ r.stored ∧ r.stored ≤ recvBufSize - 1

theorem serve_inBounds_iff (P : ProtobufC PbTransactionBatch) (verify : Bool) (buf msg : List UInt8) :
    (serve P verify buf msg).InBounds ↔ (submitBatchPbPrefix <+: msg → msg.length ≤ recvBufSize - 1) := by
  have hbuf : recvBufSize - 1 = 2097151 := by decide
  have htest := isBatch_zmqRecv buf msg (recvBufSize - 1) (by decide)
  have hsize : (zmqRecv buf (recvBufSize - 1) msg).2 = min msg.length (2 ^ 31 - 1) := rfl
  unfold serve
  dsimp only
  split
  · rename_i hbatch
    obtain ⟨hgt, hpre⟩ := htest.mp hbatch
    simp only [Served.InBounds, Option.some.injEq, Prod.mk.injEq]
    rw [hsize, hbuf]
    constructor
    · intro h _
      have := h 16 _ ⟨rfl, rfl⟩
      omega
    · rintro h off len ⟨rfl, rfl⟩
      have := h hpre
      omega
  · rename_i hbatch
    simp only [Served.InBounds, reduceCtorEq, false_imp_iff, implies_true, true_iff]
    intro hpre
    by_contra hgt
    exact hbatch (htest.mpr ⟨by omega, hpre⟩)

theorem receiverRun_cons (P : ProtobufC PbTransactionBatch) (verify : Bool) (s : ReceiverState)
    (e : RecvEvent) (es : List RecvEvent) :
    (receiverRun P verify s (e :: es)).2 = (receiverStep P verify s e).2.toList ++
      (receiverRun P verify (receiverStep P verify s e).1 es).2 := rfl

/-- **The receiver stays in its buffer exactly as long as every batch message fits it.** -/
theorem receiverRun_inBounds_iff (P : ProtobufC PbTransactionBatch) (verify : Bool) (s : ReceiverState)
    (es : List RecvEvent) :
    (∀ r ∈ (receiverRun P verify s es).2, r.InBounds) ↔
      ∀ msg, .message msg ∈ es → submitBatchPbPrefix <+: msg → msg.length ≤ recvBufSize - 1 := by
  induction es generalizing s with
  | nil => simp [receiverRun]
  | cons e es ih =>
    rw [receiverRun_cons, List.forall_mem_append, ih]
    cases e with
    | failed => simp [receiverStep]
    | message msg =>
      have hserved : (receiverStep P verify s (.message msg)).2.toList = [serve P verify s.buf msg] := rfl
      rw [hserved, List.forall_mem_singleton, serve_inBounds_iff]
      simp only [List.mem_cons, RecvEvent.message.injEq]
      constructor
      · rintro ⟨hhead, htail⟩ m (rfl | hm)
        · exact hhead
        · exact htail m hm
      · exact fun h => ⟨h msg (Or.inl rfl), fun m hm => h m (Or.inr hm)⟩

/-- A batch message that fills the buffer and is one byte longer. -/
def oversizedMessage : List UInt8 := submitBatchPbPrefix ++ List.replicate (recvBufSize - 16) 0

/-- Its end is read past the bytes that were stored. -/
theorem receiver_outOfBounds : ¬ ∀ (P : ProtobufC PbTransactionBatch) (verify : Bool) (s : ReceiverState)
    (es : List RecvEvent), ∀ r ∈ (receiverRun P verify s es).2, r.InBounds := by
  intro h
  have hrun := h batchCodec false ⟨[], 0⟩ [.message oversizedMessage]
  rw [receiverRun_cons, List.forall_mem_append] at hrun
  have hserved := hrun.1 (serve batchCodec false [] oversizedMessage) (List.mem_singleton_self _)
  have hfits := (serve_inBounds_iff batchCodec false [] oversizedMessage).mp hserved
    (List.prefix_append _ _)
  have hlen : oversizedMessage.length = recvBufSize := by
    rw [oversizedMessage, List.length_append, List.length_replicate, submitBatchPbPrefix_length]
    decide
  rw [hlen] at hfits
  exact absurd hfits (by decide)

end ShardingSim
