import ShardingSim.Library.RequestReply
import ShardingSim.Submission

/-! The receive loop as a server on its REP socket. `answer` is what the loop is for, a reply to a message;
the loop of `receiverRun`, with its buffer that is used again and again and its receives that fail, answers
every message it receives by this reply (`socketCalls_eq`). -/
namespace ShardingSim
open Decimal Run RequestReply
set_option autoImplicit false

/-! ## Calls on the socket -/

/-- The calls of one pass: `zmq_recv`, then `zmq_send` where the pass came to a reply. -/
def passCalls (e : RecvEvent) (served : Option Served) : List (Call (List UInt8) (List UInt8)) :=
  match e with
  | .failed => .recvFailed :: served.toList.map fun r => .send r.reply
  | .message msg => .recv msg :: served.toList.map fun r => .send r.reply

def socketCalls (P : ProtobufC PbTransactionBatch) (verify : Bool) (s : ReceiverState) :
    List RecvEvent → List (Call (List UInt8) (List UInt8))
  | [] => []
  | e :: es =>
    let (s', served) := receiverStep P verify s e
    passCalls e served ++ socketCalls P verify s' es

def RecvEvent.received : RecvEvent → Option (List UInt8)
  | .failed => none
  | .message msg => some msg

/-- The reply to a message, whatever came before it. -/
def answer (P : ProtobufC PbTransactionBatch) (verify : Bool) (msg : List UInt8) : List UInt8 :=
  if 16 < msg.length ∧ submitBatchPbPrefix <+: msg then
    okReply (verdicts P verify (msg.drop 16)).1 (verdicts P verify (msg.drop 16)).2
  else unknownReply

section Loop
variable (P : ProtobufC PbTransactionBatch) (verify : Bool)

theorem serve_reply (buf msg : List UInt8) (hfits : msg.length ≤ recvBufSize - 1) :
    (serve P verify buf msg).reply = answer P verify msg := by
  have htest := isBatch_zmqRecv buf msg (recvBufSize - 1) (by decide)
  unfold serve answer
  dsimp only
  by_cases hbatch : 16 < msg.length ∧ submitBatchPbPrefix <+: msg
  · rw [if_pos (htest.mpr hbatch), if_pos hbatch, payload_zmqRecv buf msg hfits (by decide)]
  · rw [if_neg (fun h => hbatch (htest.mp h)), if_neg hbatch]

theorem passCalls_eq (s : ReceiverState) (e : RecvEvent)
    (hfits : ∀ msg, e = .message msg → msg.length ≤ recvBufSize - 1) :
    passCalls e (receiverStep P verify s e).2 = exchange (answer P verify) e.received := by
  cases e with
  | failed => rfl
  | message msg =>
    show [Call.recv msg, .send (serve P verify s.buf msg).reply] = [.recv msg, .send (answer P verify msg)]
    rw [serve_reply P verify s.buf msg (hfits msg rfl)]

theorem socketCalls_eq (s : ReceiverState) (es : List RecvEvent)
    (hfits : ∀ msg, .message msg ∈ es → msg.length ≤ recvBufSize - 1) :
    socketCalls P verify s es = (es.map RecvEvent.received).flatMap (exchange (answer P verify)) := by
  induction es generalizing s with
  | nil => rfl
  | cons e es ih =>
    have hpass := passCalls_eq P verify s e fun msg he => hfits msg (he ▸ List.mem_cons_self)
    have hrest := ih (receiverStep P verify s e).1 fun msg hmsg => hfits msg (List.mem_cons_of_mem _ hmsg)
    rw [List.map_cons, List.flatMap_cons, ← hpass, ← hrest]
    rfl

/-! ## Replies -/

theorem okReply_ne_unknownReply (a r : ℕ) : okReply a r ≠ unknownReply := by
  intro h
  have hhead : (okReply a r).take 1 = unknownReply.take 1 := by rw [h]
  have hok : (okReply a r).take 1 = ascii "O" := rfl
  rw [hok] at hhead
  exact absurd hhead (by decide)

theorem okReply_length {a r : ℕ} (ha : a < 2 ^ 31) (hr : r < 2 ^ 31) : (okReply a r).length < 64 := by
  have hone := decimal_length_le (k := 10) (by decide) (Nat.lt_trans ha (by decide))
  have htwo := decimal_length_le (k := 10) (by decide) (Nat.lt_trans hr (by decide))
  have hok : (ascii "OK:").length = 3 := by decide
  have hbar : (ascii "|").length = 1 := by decide
  rw [okReply, List.length_append, List.length_append, List.length_append, hok, hbar]
  omega

theorem answer_eq_unknownReply (msg : List UInt8) :
    answer P verify msg = unknownReply ↔ msg.length ≤ 16 ∨ ¬ submitBatchPbPrefix <+: msg := by
  rw [answer]
  split
  · rename_i hbatch
    refine iff_of_false (okReply_ne_unknownReply _ _) ?_
    rintro (hshort | hpre)
    · exact absurd hbatch.1 (Nat.not_lt_of_le hshort)
    · exact hpre hbatch.2
  · rename_i hbatch
    refine iff_of_true rfl ?_
    rwa [Classical.not_and_iff_not_or_not, Nat.not_lt] at hbatch

/-! ## Counters -/

/-- What `--verify` lets pass. -/
def Passes (tx : Transaction) : Prop :=
  tx.sourceAddress = coinbaseAddress ∨ tx.signature ≠ Vector.replicate 48 0

instance (tx : Transaction) : Decidable (Passes tx) := inferInstanceAs (Decidable (_ ∨ _))

theorem accepts_eq (tx : Transaction) : accepts verify tx = (!verify || decide (Passes tx)) := by
  have hverify : transactionVerify tx = decide (Passes tx) := by
    rw [Bool.eq_iff_iff, transactionVerify_iff, decide_eq_true_eq, Passes]
  rw [accepts, hverify, Bool.not_and, Bool.not_not]

theorem countVerdicts_add (pts : List PbTransaction) :
    (countVerdicts verify pts).1 + (countVerdicts verify pts).2 = pts.length := by
  rw [countVerdicts_eq]
  exact (countP_accepts_add verify _).trans (List.length_map pbToTx)

theorem countVerdicts_fst (pts : List PbTransaction) : (countVerdicts verify pts).1 =
    if verify then (pts.map pbToTx).countP (fun tx => decide (Passes tx)) else pts.length := by
  rw [countVerdicts_eq]
  have haccepts : accepts verify = fun tx => !verify || decide (Passes tx) := funext (accepts_eq verify)
  dsimp only
  rw [haccepts]
  cases verify with
  | false =>
    rw [if_neg Bool.false_ne_true]
    exact (List.countP_eq_length.mpr fun _ _ => rfl).trans (List.length_map pbToTx)
  | true => rfl

end Loop

/-! ## The loop -/

/-- A repeated message field takes two bytes for each element at least, its tag and its length. -/
def ProtobufC.TwoBytesEach (P : ProtobufC PbTransactionBatch) : Prop :=
  ∀ bytes batch, P.unpack bytes = some batch → 2 * batch.transactions.length ≤ bytes.length

theorem batchCodec_twoBytesEach : batchCodec.TwoBytesEach := fun _ _ h => decodeBatch_length h

/-- **The receiver's contract.** Over any sequence of messages that fit the buffer and of failed receives,
the calls are those of a server that answers each message by `answer`, in turn at every moment; the
counters of a batch stay within `int` after each of its transactions, and the reply within `resp`. -/
theorem receiverLoop_contract {P : ProtobufC PbTransactionBatch} (hP : P.TwoBytesEach) (verify : Bool)
    (s : ReceiverState) (es : List RecvEvent)
    (hfits : ∀ msg, .message msg ∈ es → msg.length ≤ recvBufSize - 1) :
    socketCalls P verify s es = (es.map RecvEvent.received).flatMap (exchange (answer P verify)) ∧
      (∀ calls, calls <+: socketCalls P verify s es → (run step .receiving calls).isSome) ∧
      ∀ msg, .message msg ∈ es →
        (answer P verify msg = unknownReply ↔ msg.length ≤ 16 ∨ ¬ submitBatchPbPrefix <+: msg) ∧
        ∀ batch, 16 < msg.length → submitBatchPbPrefix <+: msg → P.unpack (msg.drop 16) = some batch →
          ∃ a r, answer P verify msg = okReply a r ∧ a + r = batch.transactions.length ∧
            (a = if verify then (batch.transactions.map pbToTx).countP (fun tx => decide (Passes tx))
              else batch.transactions.length) ∧
            (∀ k, (countVerdicts verify (batch.transactions.take k)).1 +
              (countVerdicts verify (batch.transactions.take k)).2 < 2 ^ 31) ∧
            (okReply a r).length < 64 := by
  have hcalls := socketCalls_eq P verify s es hfits
  refine ⟨hcalls, fun calls hcut => ?_, fun msg hmsg =>
    ⟨answer_eq_unknownReply P verify msg, fun batch hlong hpre hunpack => ?_⟩⟩
  · refine run_isSome_of_prefix hcut ?_
    rw [hcalls, run_exchanges]
    rfl
  · have hmany := hP _ _ hunpack
    have hsize := hfits msg hmsg
    have hbuf : recvBufSize - 1 = 2097151 := by decide
    rw [List.length_drop] at hmany
    have hadd := countVerdicts_add verify batch.transactions
    refine ⟨_, _, ?_, hadd, countVerdicts_fst verify _, fun k => ?_, okReply_length (by omega) (by omega)⟩
    · rw [answer, if_pos ⟨hlong, hpre⟩, verdicts, hunpack]
    · have hfew : (batch.transactions.take k).length ≤ batch.transactions.length := List.length_take_le' _ _
      rw [countVerdicts_add]
      omega

/-- A failed receive, a message that is none of the generator's and a batch of one unsigned transaction. -/
theorem receiverLoop_contract_unsigned :
    socketCalls batchCodec true ⟨[], 0⟩ [.failed, .message (ascii "HELLO"),
        .message (submitBatchPbPrefix ++ unsignedPayload)] =
      [.recvFailed, .recv (ascii "HELLO"), .send (ascii "UNKNOWN"),
        .recv (submitBatchPbPrefix ++ unsignedPayload), .send (ascii "OK:0|1")] := by
  have hbatch : (submitBatchPbPrefix ++ unsignedPayload).length = 16 + unsignedPayload.length := by
    rw [List.length_append, submitBatchPbPrefix_length]
  have hpos := List.length_pos_iff.mpr unsignedPayload_ne_nil
  have hfits : ∀ msg, RecvEvent.message msg ∈ [.failed, .message (ascii "HELLO"),
      .message (submitBatchPbPrefix ++ unsignedPayload)] → msg.length ≤ recvBufSize - 1 := by
    intro msg hmsg
    simp only [List.mem_cons, reduceCtorEq, RecvEvent.message.injEq, List.not_mem_nil, or_false,
      false_or] at hmsg
    rcases hmsg with rfl | rfl
    · decide
    · rw [hbatch]
      exact unsignedPayload_fits
  have hcontract := receiverLoop_contract batchCodec_twoBytesEach true ⟨[], 0⟩ _ hfits
  have hhello := ((hcontract.2.2 (ascii "HELLO") (by simp)).1).mpr (Or.inl (by decide))
  have hunpack : batchCodec.unpack ((submitBatchPbPrefix ++ unsignedPayload).drop 16) =
      some (fillBatch [zeroTransaction]) := by
    rw [← submitBatchPbPrefix_length, List.drop_left]
    exact decodeBatch_fillBatch [zeroTransaction]
  obtain ⟨a, r, hreply, hadd, ha, -, -⟩ :=
    (hcontract.2.2 (submitBatchPbPrefix ++ unsignedPayload) (by simp)).2 _ (by omega)
      (List.prefix_append _ _) hunpack
  have hzero : a = 0 := by
    rw [ha, if_pos rfl, map_pbToTx_fillBatch]
    decide +kernel
  have hone : r = 1 := by
    have hlen : (fillBatch [zeroTransaction]).transactions.length = 1 := rfl
    omega
  have hok : okReply 0 1 = ascii "OK:0|1" := by decide +kernel
  rw [hzero, hone, hok] at hreply
  rw [hcontract.1]
  show [Call.recvFailed, .recv (ascii "HELLO"), .send (answer batchCodec true (ascii "HELLO")),
    .recv (submitBatchPbPrefix ++ unsignedPayload),
    .send (answer batchCodec true (submitBatchPbPrefix ++ unsignedPayload))] = _
  rw [hhello, hreply]
  rfl

end ShardingSim
