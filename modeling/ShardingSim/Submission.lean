import ShardingSim.Generator

/-! One batch from the generator to the receiver and back: what the receiver accepts and rejects, what it
replies, and what the generator then counts. A reply acknowledges the batch, so that the whole batch is
counted whatever the verdicts on its transactions are (`acknowledged_batch`). -/
namespace ShardingSim
open ProtoWire
set_option autoImplicit false

/-! ## Verdicts and replies -/

def accepts (verify : Bool) (tx : Transaction) : Bool := !(verify && !transactionVerify tx)

theorem countVerdicts_eq (verify : Bool) (pts : List PbTransaction) :
    countVerdicts verify pts = ((pts.map pbToTx).countP (accepts verify),
      (pts.map pbToTx).countP fun tx => !accepts verify tx) := by
  have hfold : ∀ a r : ℕ, pts.foldl (fun c pt =>
      if verify && !transactionVerify (pbToTx pt) then (c.1, c.2 + 1) else (c.1 + 1, c.2)) (a, r) =
      (a + (pts.map pbToTx).countP (accepts verify),
        r + (pts.map pbToTx).countP fun tx => !accepts verify tx) := by
    induction pts with
    | nil => exact fun _ _ => rfl
    | cons pt pts ih =>
      intro a r
      rw [List.foldl_cons, List.map_cons, List.countP_cons, List.countP_cons]
      by_cases h : (verify && !transactionVerify (pbToTx pt)) = true
      · have hno : accepts verify (pbToTx pt) = false := by rw [accepts, h, Bool.not_true]
        rw [if_pos h, ih, hno]
        simp only [Bool.false_eq_true, if_false, Bool.not_false, if_true, Prod.mk.injEq]
        omega
      · have hyes : accepts verify (pbToTx pt) = true := by
          rw [Bool.not_eq_true] at h
          rw [accepts, h, Bool.not_false]
        rw [if_neg h, ih, hyes]
        simp only [Bool.not_true, Bool.false_eq_true, if_false, if_true, Prod.mk.injEq]
        omega
  have h := hfold 0 0
  rw [Nat.zero_add, Nat.zero_add] at h
  exact h

theorem countP_accepts_add (verify : Bool) (txs : List Transaction) :
    txs.countP (accepts verify) + txs.countP (fun tx => !accepts verify tx) = txs.length := by
  rw [List.length_eq_countP_add_countP (accepts verify)]
  simp only [Bool.not_eq_true, Bool.decide_eq_false]

theorem replyCounts_okReply (a r : ℕ) : replyCounts (some (okReply a r)) = true :=
  replyCounts_of_prefix ⟨_, rfl⟩

theorem serve_batch (P : ProtobufC PbTransactionBatch) (verify : Bool) (buf : List UInt8)
    {bytes : List UInt8} (hne : bytes ≠ []) (hfits : 16 + bytes.length ≤ recvBufSize - 1) :
    serve P verify buf (submitBatchPbPrefix ++ bytes) =
      { stored := 16 + bytes.length
        unpacked := some (16, bytes.length)
        accepted := (verdicts P verify bytes).1
        rejected := (verdicts P verify bytes).2
        reply := okReply (verdicts P verify bytes).1 (verdicts P verify bytes).2 } := by
  have hbuf : recvBufSize - 1 = 2097151 := by decide
  have hpos := List.length_pos_iff.mpr hne
  have hlen : (submitBatchPbPrefix ++ bytes).length = 16 + bytes.length := by
    rw [List.length_append, submitBatchPbPrefix_length]
  have htest : isBatch (zmqRecv buf (recvBufSize - 1) (submitBatchPbPrefix ++ bytes)).1
      (zmqRecv buf (recvBufSize - 1) (submitBatchPbPrefix ++ bytes)).2 = true :=
    (isBatch_zmqRecv buf _ _ (by decide)).mpr ⟨by omega, List.prefix_append _ _⟩
  have hpayload : payload (zmqRecv buf (recvBufSize - 1) (submitBatchPbPrefix ++ bytes)).1
      (zmqRecv buf (recvBufSize - 1) (submitBatchPbPrefix ++ bytes)).2 = bytes :=
    payload_zmqRecv buf _ (by omega) (by decide)
  have hsize : (zmqRecv buf (recvBufSize - 1) (submitBatchPbPrefix ++ bytes)).2 = 16 + bytes.length := by
    show min (submitBatchPbPrefix ++ bytes).length (2 ^ 31 - 1) = _
    omega
  have hstored : min (recvBufSize - 1) (submitBatchPbPrefix ++ bytes).length = 16 + bytes.length := by omega
  unfold serve
  dsimp only
  rw [if_pos htest, hpayload, hsize, hstored, Nat.add_sub_cancel_left]

/-! ## What is counted -/

/-- **An acknowledged batch is counted whole.** The receiver accepts some transactions of a batch that
unpacks and rejects the others, and its reply says how many; the generator adds the number it sent. For a
batch that arrives as it was sent this is the number of the accepted ones exactly if none is rejected. -/
theorem acknowledged_batch (P : ProtobufC PbTransactionBatch) (verify : Bool) (buf : List UInt8)
    (submitted : ℤ) (txs : List Transaction) (bytes : List UInt8) (batch : PbTransactionBatch)
    (hne : bytes ≠ []) (hfits : 16 + bytes.length ≤ recvBufSize - 1)
    (hunpack : P.unpack bytes = some batch) :
    let served := serve P verify buf (submitBatchPbPrefix ++ bytes)
    let received := batch.transactions.map pbToTx
    served.reply = okReply served.accepted served.rejected ∧
      served.accepted = received.countP (accepts verify) ∧
      served.accepted + served.rejected = received.length ∧
      countReply submitted (some served.reply) txs.length = submitted + txs.length ∧
      (received = txs → (countReply submitted (some served.reply) txs.length = submitted + served.accepted ↔
        ∀ tx ∈ txs, verify = true → transactionVerify tx = true)) := by
  intro served received
  have hverdicts : verdicts P verify bytes =
      (received.countP (accepts verify), received.countP fun tx => !accepts verify tx) := by
    rw [verdicts, hunpack]
    exact countVerdicts_eq verify batch.transactions
  have hserved : served = _ := serve_batch P verify buf hne hfits
  rw [hverdicts] at hserved
  have hcount : countReply submitted (some served.reply) txs.length = submitted + txs.length := by
    rw [hserved, countReply, if_pos (replyCounts_okReply _ _)]
  refine ⟨by rw [hserved], by rw [hserved], ?_, hcount, fun hsent => ?_⟩
  · rw [hserved]
    exact countP_accepts_add verify received
  · have hall : txs.countP (accepts verify) = txs.length ↔
        ∀ tx ∈ txs, verify = true → transactionVerify tx = true := by
      rw [List.countP_eq_length]
      refine forall₂_congr fun tx _ => ?_
      cases verify <;> simp [accepts]
    rw [hcount, hserved, ← hall, hsent]
    dsimp only
    omega

def unsignedPayload : List UInt8 := encodeBatch (fillBatch [zeroTransaction])

theorem unsignedPayload_ne_nil : unsignedPayload ≠ [] :=
  List.length_pos_iff.mp (encodeBatch_ne_nil (le_refl 1))

theorem unsignedPayload_fits : 16 + unsignedPayload.length ≤ recvBufSize - 1 := by
  have hbuf : recvBufSize - 1 = 2097151 := by decide
  have hlen := encodeBatch_fillBatch [zeroTransaction]
  rw [List.length_singleton] at hlen
  rw [hbuf]
  unfold unsignedPayload
  omega

theorem acknowledged_batch_unsigned :
    let served := serve batchCodec true [] (submitBatchPbPrefix ++ unsignedPayload)
    served.accepted + served.rejected = 1 ∧ countReply 0 (some served.reply) 1 = 0 + 1 := by
  have h := acknowledged_batch batchCodec true [] 0 [zeroTransaction] unsignedPayload
    (fillBatch [zeroTransaction]) unsignedPayload_ne_nil unsignedPayload_fits
    (decodeBatch_fillBatch [zeroTransaction])
  exact ⟨h.2.2.1, h.2.2.2.1⟩

/-- What is counted is not always what was accepted. -/
theorem counted_ne_accepted : ¬ ∀ (P : ProtobufC PbTransactionBatch) (verify : Bool) (buf : List UInt8)
    (submitted : ℤ) (txs : List Transaction) (bytes : List UInt8),
    countReply submitted (some (serve P verify buf (submitBatchPbPrefix ++ bytes)).reply) txs.length =
      submitted + (serve P verify buf (submitBatchPbPrefix ++ bytes)).accepted := by
  intro h
  have hserve := serve_batch batchCodec true [] unsignedPayload_ne_nil unsignedPayload_fits
  have hunpack : batchCodec.unpack unsignedPayload = some (fillBatch [zeroTransaction]) :=
    decodeBatch_fillBatch [zeroTransaction]
  have hverdicts : verdicts batchCodec true unsignedPayload = (0, 1) := by
    rw [verdicts, hunpack]
    simp only [countVerdicts_eq, map_pbToTx_fillBatch]
    decide +kernel
  have hbad := h batchCodec true [] 0 [zeroTransaction] unsignedPayload
  rw [hserve, hverdicts] at hbad
  revert hbad
  decide

end ShardingSim
