import ShardingSim.Receiver

/-! The batch message of `main.c` and its way through the receiver: `batch_roundTrip` says that what the
generator packs is what the receiver decodes. -/
namespace ShardingSim
open ByteBuffer ProtoWire
set_option autoImplicit false

/-! ## Packing -/

def fillPb (tx : Transaction) : PbTransaction :=
  { pbTransactionInit with
    nonce := tx.nonce
    expiryBlock := tx.expiryBlock
    sourceAddress := some tx.sourceAddress.toList
    destAddress := some tx.destAddress.toList
    value := tx.value
    fee := tx.fee
    signature := if !isZero tx.signature.toList then some tx.signature.toList else none }

/-- The batch of `txs_in_batch` transactions. -/
def fillBatch (rawTxs : List Transaction) : PbTransactionBatch :=
  { pbTransactionBatchInit with
    transactions := rawTxs.map fillPb
    count := UInt32.ofNat rawTxs.length }

/-- The `msg_size` bytes that are sent: the prefix, and behind it what was packed. -/
def batchMessage (P : ProtobufC PbTransactionBatch) (rawTxs : List Transaction) : List UInt8 :=
  let batch := fillBatch rawTxs
  (submitBatchPbPrefix ++ P.pack batch).take (16 + P.getPackedSize batch)

/-! ## One transaction -/

theorem fillPb_normal (tx : Transaction) : (fillPb tx).Normal := by
  have hvector : ∀ {n : ℕ} (v : Vector UInt8 n), 0 < n → n < 2 ^ 31 → BinaryData.Normal (some v.toList) := by
    intro n v hpos hlt
    have hlen : v.toList.length = n := Vector.length_toList
    exact BinaryData.normal_some (by omega) (by omega)
  refine ⟨hvector _ (by decide) (by decide), hvector _ (by decide) (by decide), ?_⟩
  show BinaryData.Normal (if !isZero tx.signature.toList then some tx.signature.toList else none)
  split
  · exact hvector _ (by decide) (by decide)
  · exact ⟨by simp, by decide⟩

theorem encodeTransaction_fillPb (tx : Transaction) : (encodeTransaction (fillPb tx)).length ≤ 128 := by
  have haddress : ∀ v : Vector UInt8 20, (BinaryData.bytes (some v.toList)).length ≤ 20 := fun v =>
    (Vector.length_toList : v.toList.length = 20).le
  refine encodeTransaction_length_le (haddress _) (haddress _) ?_
  show (BinaryData.bytes (if !isZero tx.signature.toList then some tx.signature.toList else none)).length ≤ 48
  split
  · exact le_of_eq Vector.length_toList
  · decide

theorem encodeTransaction_fillPb_lt (tx : Transaction) : (encodeTransaction (fillPb tx)).length < 2 ^ 26 :=
  Nat.lt_of_le_of_lt (encodeTransaction_fillPb tx) (by decide)

theorem copyAddress_toList (v : Vector UInt8 20) : copyAddress (some v.toList) = v := by
  have hlen : (BinaryData.bytes (some v.toList)).length = 20 := Vector.length_toList
  exact Vector.toList_inj.mp ((copyAddress_exact _).mpr hlen)

/-- A signature that is not sent is one of zeros. -/
theorem copySignature_fillPb (tx : Transaction) : copySignature (fillPb tx).signature = tx.signature := by
  have hlen : (BinaryData.bytes (some tx.signature.toList)).length = 48 := Vector.length_toList
  have hfield : (fillPb tx).signature =
      if !isZero tx.signature.toList then some tx.signature.toList else none := rfl
  rw [hfield]
  cases hz : isZero tx.signature.toList with
  | true =>
    rw [Bool.not_true, if_neg Bool.false_ne_true, (isZero_toList _).mp hz]
    exact copySignature_zero rfl
  | false =>
    rw [Bool.not_false, if_pos rfl]
    exact Vector.toList_inj.mp ((copySignature_exact _).mpr hlen)

/-- **The receiver's conversion undoes the generator's.** -/
theorem pbToTx_fillPb (tx : Transaction) : pbToTx (fillPb tx) = tx :=
  Transaction.ext rfl rfl (copyAddress_toList _) (copyAddress_toList _) rfl rfl (copySignature_fillPb tx)

/-! ## The message -/

theorem encodeBatch_fillBatch (txs : List Transaction) :
    (encodeBatch (fillBatch txs)).length ≤ 131 * txs.length + 6 := by
  have hlen : (fillBatch txs).transactions.length = txs.length := List.length_map fillPb
  rw [← hlen]
  refine encodeBatch_length_le fun t ht => ?_
  obtain ⟨tx, -, rfl⟩ := List.mem_map.mp ht
  exact encodeTransaction_fillPb tx

theorem batchMessage_eq {P : ProtobufC PbTransactionBatch} (hP : P.Conforms encodeBatch decodeBatch)
    {txs : List Transaction} (hle : txs.length ≤ 256) :
    batchMessage P txs = submitBatchPbPrefix ++ encodeBatch (fillBatch txs) := by
  have hsize := encodeBatch_fillBatch txs
  have hlimit : (encodeBatch (fillBatch txs)).length < 2 ^ 26 := by omega
  have htotal : (submitBatchPbPrefix ++ encodeBatch (fillBatch txs)).length ≤
      16 + (encodeBatch (fillBatch txs)).length := by
    rw [List.length_append, submitBatchPbPrefix_length]
  rw [batchMessage, hP.pack_eq _ hlimit, hP.getPackedSize_eq _ hlimit, List.take_of_length_le htotal]

theorem encodeBatch_ne_nil {txs : List Transaction} (hne : 1 ≤ txs.length) :
    0 < (encodeBatch (fillBatch txs)).length := by
  cases txs with
  | nil => cases hne
  | cons tx txs =>
    have hentry := List.length_pos_iff.mpr
      (encodeEntry_ne_nil ⟨1, .bytes (encodeTransaction (fillPb tx))⟩)
    show 0 < (encode (⟨1, .bytes (encodeTransaction (fillPb tx))⟩ ::
      ((txs.map fillPb).map (fun t => (⟨1, .bytes (encodeTransaction t)⟩ : Entry)) ++
        scalarField 2 (UInt32.ofNat (tx :: txs).length).toNat))).length
    rw [encode, List.flatMap_cons, List.length_append]
    omega

theorem decodeBatch_fillBatch (txs : List Transaction) :
    decodeBatch (encodeBatch (fillBatch txs)) = some (fillBatch txs) := by
  have hfill : ∀ t ∈ (fillBatch txs).transactions, ∃ tx, fillPb tx = t := by
    intro t ht
    obtain ⟨tx, -, htx⟩ := List.mem_map.mp ht
    exact ⟨tx, htx⟩
  refine decodeBatch_encode (fun t ht => ?_) fun t ht => ?_
  · obtain ⟨tx, rfl⟩ := hfill t ht
    exact fillPb_normal tx
  · obtain ⟨tx, rfl⟩ := hfill t ht
    exact Nat.lt_of_le_of_lt (encodeTransaction_fillPb tx) (by decide)

theorem map_pbToTx_fillBatch (txs : List Transaction) : (fillBatch txs).transactions.map pbToTx = txs := by
  show (txs.map fillPb).map pbToTx = txs
  rw [List.map_map]
  exact List.map_id'' pbToTx_fillPb txs

/-- **End-to-end round trip.** The message of 1 to 256 transactions fits the receive buffer, passes the
receiver's test, and is decoded to the same transactions. -/
theorem batch_roundTrip {P : ProtobufC PbTransactionBatch} (hP : P.Conforms encodeBatch decodeBatch)
    (txs : List Transaction) (hne : 1 ≤ txs.length) (hle : txs.length ≤ 256) (buf : List UInt8) :
    (batchMessage P txs).length ≤ recvBufSize - 1 ∧
      isBatch (zmqRecv buf (recvBufSize - 1) (batchMessage P txs)).1
        (zmqRecv buf (recvBufSize - 1) (batchMessage P txs)).2 = true ∧
      ∃ batch, P.unpack (payload (zmqRecv buf (recvBufSize - 1) (batchMessage P txs)).1
          (zmqRecv buf (recvBufSize - 1) (batchMessage P txs)).2) = some batch ∧
        batch.transactions.length = txs.length ∧ batch.count.toNat = txs.length ∧
        batch.transactions.map pbToTx = txs := by
  have hsize := encodeBatch_fillBatch txs
  have hpos := encodeBatch_ne_nil hne
  have hbuf : recvBufSize - 1 = 2097151 := by decide
  have hlen : (batchMessage P txs).length ≤ recvBufSize - 1 := by
    rw [batchMessage_eq hP hle, List.length_append, submitBatchPbPrefix_length, hbuf]
    omega
  have htest : isBatch (zmqRecv buf (recvBufSize - 1) (batchMessage P txs)).1
      (zmqRecv buf (recvBufSize - 1) (batchMessage P txs)).2 = true := by
    refine (isBatch_zmqRecv buf _ _ (by decide)).mpr ⟨?_, ?_⟩
    · rw [batchMessage_eq hP hle, List.length_append, submitBatchPbPrefix_length]
      omega
    · rw [batchMessage_eq hP hle]
      exact List.prefix_append _ _
  refine ⟨hlen, htest, fillBatch txs, ?_, List.length_map fillPb, ?_, map_pbToTx_fillBatch txs⟩
  · rw [payload_zmqRecv buf _ hlen (by decide), batchMessage_eq hP hle,
      ← submitBatchPbPrefix_length, List.drop_left]
    exact hP.unpack_eq _ _ (by omega) (decodeBatch_fillBatch txs)
  · show (UInt32.ofNat txs.length).toNat = txs.length
    rw [UInt32.toNat_ofNat', Nat.mod_eq_of_lt (by omega)]

def sampleTransaction : Transaction where
  nonce := 7
  expiryBlock := 1000
  sourceAddress := Vector.ofFn fun i => UInt8.ofNat (i + 1)
  destAddress := Vector.ofFn fun i => UInt8.ofNat (i + 101)
  value := 250
  fee := 1
  signature := Vector.ofFn fun i => UInt8.ofNat (i + 151)

/-- The next transaction, not signed. -/
def sampleBatch : List Transaction :=
  [sampleTransaction, { sampleTransaction with nonce := 8, value := 4294967296, signature := Vector.replicate 48 0 }]

theorem batch_roundTrip_sample :
    (batchMessage batchCodec sampleBatch).length ≤ recvBufSize - 1 ∧
      ∃ batch, batchCodec.unpack (payload
          (zmqRecv [] (recvBufSize - 1) (batchMessage batchCodec sampleBatch)).1
          (zmqRecv [] (recvBufSize - 1) (batchMessage batchCodec sampleBatch)).2) = some batch ∧
        batch.count.toNat = 2 ∧ batch.transactions.map pbToTx = sampleBatch := by
  obtain ⟨hlen, -, batch, hunpack, -, hcount, hmap⟩ :=
    batch_roundTrip batchCodec_conforms sampleBatch (by decide) (by decide) []
  exact ⟨hlen, batch, hunpack, hcount, hmap⟩

end ShardingSim
