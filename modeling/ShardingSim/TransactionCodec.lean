import ShardingSim.BatchMessage

/-! `transaction_serialize_pb` and `transaction_deserialize_pb`, beside the encoder of `main.c` and the
decoder of the receiver (`transactionCodecs_agree`), and what the two decoders make of a message whose byte
fields have other lengths than those of a transaction (`decode_message`). -/
namespace ShardingSim
open ByteBuffer ProtoWire
set_option autoImplicit false

/-! ## Codecs -/

/-- The message that `transaction_serialize_pb` fills. -/
def serializedMessage (tx : Transaction) : PbTransaction :=
  let pbTx := { pbTransactionInit with nonce := tx.nonce, expiryBlock := tx.expiryBlock }
  let pbTx := { pbTx with
    sourceAddress := some tx.sourceAddress.toList
    destAddress := some tx.destAddress.toList
    value := tx.value
    fee := tx.fee }
  if !isZero tx.signature.toList then { pbTx with signature := some tx.signature.toList }
  else { pbTx with signature := none }

/-- `transaction_serialize_pb` of a non-null transaction: the `size` bytes of its buffer. -/
def transactionSerializePb (P : ProtobufC PbTransaction) (tx : Transaction) : List UInt8 :=
  let pbTx := serializedMessage tx
  let size := P.getPackedSize pbTx
  (P.pack pbTx).take size

def transactionDeserializePb (P : ProtobufC PbTransaction) (data : BinaryData) : Option Transaction :=
  if data.isNone ∨ data.bytes.length = 0 then none
  else
    match P.unpack data.bytes with
    | none => none
    | some pbTx =>
      some
        { nonce := pbTx.nonce
          expiryBlock := pbTx.expiryBlock
          sourceAddress := copyAddress pbTx.sourceAddress
          destAddress := copyAddress pbTx.destAddress
          value := pbTx.value
          fee := pbTx.fee
          signature := copySignature pbTx.signature }

def transactionCodec : ProtobufC PbTransaction where
  getPackedSize := fun t => (encodeTransaction t).length
  pack := encodeTransaction
  unpack := decodeTransaction

theorem transactionCodec_conforms : transactionCodec.Conforms encodeTransaction decodeTransaction :=
  ⟨fun _ _ => rfl, fun _ _ => rfl, fun _ _ _ h => h⟩

/-! ## Agreement -/

theorem serializedMessage_eq (tx : Transaction) : serializedMessage tx = fillPb tx := by
  unfold serializedMessage fillPb
  dsimp only
  cases isZero tx.signature.toList <;> rfl

theorem transactionDeserializePb_eq {P : ProtobufC PbTransaction} {bytes : List UInt8} {m : PbTransaction}
    (hne : bytes ≠ []) (hunpack : P.unpack bytes = some m) :
    transactionDeserializePb P (some bytes) = some (pbToTx m) := by
  have hlen := List.length_pos_iff.mpr hne
  have hdata : ¬ ((some bytes : BinaryData).isNone ∨ (BinaryData.bytes (some bytes)).length = 0) := by
    rintro (hnone | hzero)
    · exact Bool.false_ne_true hnone
    · exact hlen.ne' hzero
  have hread : P.unpack (BinaryData.bytes (some bytes)) = some m := hunpack
  rw [transactionDeserializePb, if_neg hdata, hread]
  rfl

theorem encode_bytesField_ne_nil {number : ℕ} {b : List UInt8} (hb : b ≠ []) :
    encode (bytesField number b) ≠ [] := by
  rw [bytesField, if_neg hb, encode, List.flatMap_singleton]
  exact encodeEntry_ne_nil _

theorem encodeTransaction_fillPb_ne_nil (tx : Transaction) : encodeTransaction (fillPb tx) ≠ [] := by
  have hlen : tx.sourceAddress.toList.length = 20 := Vector.length_toList
  have hne : tx.sourceAddress.toList ≠ [] := by
    intro h0
    rw [h0] at hlen
    cases hlen
  have hfield : encode (bytesField 3 (fillPb tx).sourceAddress.bytes) ≠ [] := encode_bytesField_ne_nil hne
  rw [encodeTransaction, transactionEntries]
  simp only [encode_append, ne_eq, List.append_eq_nil_iff, hfield, and_false, false_and, not_false_eq_true]

theorem transactionSerializePb_eq {P : ProtobufC PbTransaction}
    (hP : P.Conforms encodeTransaction decodeTransaction) (tx : Transaction) :
    transactionSerializePb P tx = encodeTransaction (fillPb tx) := by
  have hlimit := encodeTransaction_fillPb_lt tx
  rw [transactionSerializePb, serializedMessage_eq, hP.pack_eq _ hlimit, hP.getPackedSize_eq _ hlimit,
    List.take_length]

theorem transactionDeserializePb_serialize {P : ProtobufC PbTransaction}
    (hP : P.Conforms encodeTransaction decodeTransaction) (tx : Transaction) :
    transactionDeserializePb P (some (transactionSerializePb P tx)) = some tx := by
  have hunpack := hP.unpack_eq _ _ (encodeTransaction_fillPb_lt tx) (decodeTransaction_encode (fillPb_normal tx))
  rw [transactionSerializePb_eq hP, transactionDeserializePb_eq (encodeTransaction_fillPb_ne_nil tx) hunpack,
    pbToTx_fillPb]

/-- **The codecs agree and undo each other.** Of the bytes that unpack, only the empty ones, the default
message, are read by the receiver and refused by `transaction_deserialize_pb`. -/
theorem transactionCodecs_agree {P : ProtobufC PbTransaction}
    (hP : P.Conforms encodeTransaction decodeTransaction) :
    (∀ tx, serializedMessage tx = fillPb tx) ∧
      (∀ m bytes, bytes ≠ [] → P.unpack bytes = some m →
        transactionDeserializePb P (some bytes) = some (pbToTx m)) ∧
      transactionDeserializePb P (some []) = none ∧
      ∀ tx, transactionSerializePb P tx ≠ [] ∧
        transactionDeserializePb P (some (transactionSerializePb P tx)) = some tx := by
  refine ⟨serializedMessage_eq, fun m bytes hne hunpack => transactionDeserializePb_eq hne hunpack, rfl,
    fun tx => ⟨?_, transactionDeserializePb_serialize hP tx⟩⟩
  rw [transactionSerializePb_eq hP]
  exact encodeTransaction_fillPb_ne_nil tx

theorem transactionCodecs_agree_sample :
    transactionSerializePb transactionCodec sampleTransaction ≠ [] ∧
      transactionDeserializePb transactionCodec
        (some (transactionSerializePb transactionCodec sampleTransaction)) = some sampleTransaction :=
  (transactionCodecs_agree transactionCodec_conforms).2.2.2 sampleTransaction

/-- The empty message unpacks, to zeros in the receiver, and is refused by the other decoder. -/
theorem transactionCodecs_differ : ¬ ∀ (P : ProtobufC PbTransaction),
    P.Conforms encodeTransaction decodeTransaction → ∀ m bytes, P.unpack bytes = some m →
      transactionDeserializePb P (some bytes) = some (pbToTx m) := by
  intro h
  have hread : transactionCodec.unpack [] = some pbTransactionInit := by
    show decodeTransaction [] = some pbTransactionInit
    rw [decodeTransaction, decode, if_pos rfl]
    rfl
  have hbad := h transactionCodec transactionCodec_conforms _ _ hread
  cases hbad

/-! ## Fields of other lengths -/

/-- The values of the seven fields are the same, a bytes field that is absent being empty. -/
def SameFields (m m' : PbTransaction) : Prop :=
  m.nonce = m'.nonce ∧ m.expiryBlock = m'.expiryBlock ∧ m.sourceAddress.bytes = m'.sourceAddress.bytes ∧
    m.destAddress.bytes = m'.destAddress.bytes ∧ m.value = m'.value ∧ m.fee = m'.fee ∧
    m.signature.bytes = m'.signature.bytes

/-- The transaction says what the message says, zeros standing for an absent signature. -/
def Exact (m : PbTransaction) (tx : Transaction) : Prop :=
  tx.nonce = m.nonce ∧ tx.expiryBlock = m.expiryBlock ∧ tx.sourceAddress.toList = m.sourceAddress.bytes ∧
    tx.destAddress.toList = m.destAddress.bytes ∧ tx.value = m.value ∧ tx.fee = m.fee ∧
    (tx.signature.toList = m.signature.bytes ∨
      m.signature.bytes = [] ∧ tx.signature = Vector.replicate 48 0)

/-- The fields have the lengths of those of a transaction. -/
def FieldLengths (m : PbTransaction) : Prop :=
  m.sourceAddress.bytes.length = 20 ∧ m.destAddress.bytes.length = 20 ∧
    (m.signature.bytes = [] ∨ m.signature.bytes.length = 48)

theorem exact_pbToTx_iff (m : PbTransaction) : Exact m (pbToTx m) ↔ FieldLengths m := by
  have hsignature : ((copySignature m.signature).toList = m.signature.bytes ∨
      m.signature.bytes = [] ∧ copySignature m.signature = Vector.replicate 48 0) ↔
      m.signature.bytes = [] ∨ m.signature.bytes.length = 48 := by
    rw [copySignature_exact, or_comm]
    exact or_congr_left ⟨fun h => h.1, fun h => ⟨h, copySignature_zero h⟩⟩
  unfold Exact FieldLengths pbToTx
  simp only [copyAddress_exact, hsignature, true_and]

/-- Sent again, a decoded message is the same if its fields have the right lengths and a signature that is
there is not zero. -/
theorem sameFields_fillPb_iff (m : PbTransaction) : SameFields (fillPb (pbToTx m)) m ↔
    FieldLengths m ∧ (m.signature.bytes = [] ∨ isZero m.signature.bytes = false) := by
  have haddress : ∀ d : BinaryData, (BinaryData.bytes (some (copyAddress d).toList)) = d.bytes ↔
      d.bytes.length = 20 := copyAddress_exact
  have hsignature : BinaryData.bytes (if !isZero (copySignature m.signature).toList then
        some (copySignature m.signature).toList else none) = m.signature.bytes ↔
      (m.signature.bytes = [] ∨ m.signature.bytes.length = 48) ∧
        (m.signature.bytes = [] ∨ isZero m.signature.bytes = false) := by
    by_cases hnil : m.signature.bytes = []
    · have hzero : isZero (copySignature m.signature).toList = true :=
        (isZero_toList _).mpr (copySignature_zero hnil)
      rw [hzero, Bool.not_true, if_neg Bool.false_ne_true, hnil]
      exact iff_of_true rfl ⟨Or.inl rfl, Or.inl rfl⟩
    · rw [or_iff_right hnil, or_iff_right hnil, ← copySignature_exact]
      cases hz : isZero (copySignature m.signature).toList with
      | true =>
        rw [Bool.not_true, if_neg Bool.false_ne_true]
        refine iff_of_false (fun h => hnil h.symm) ?_
        rintro ⟨heq, hne⟩
        rw [heq, hne] at hz
        exact Bool.false_ne_true hz
      | false =>
        rw [Bool.not_false, if_pos rfl]
        constructor
        · intro h
          have heq : (copySignature m.signature).toList = m.signature.bytes := h
          exact ⟨heq, heq ▸ hz⟩
        · exact fun h => h.1
  unfold SameFields FieldLengths fillPb pbToTx
  simp only [haddress, hsignature, true_and]
  tauto

/-- **What decoding makes of a message.** Neither decoder refuses a message that unpacks from any bytes at
all: an address is the first 20 bytes of its field, or zeros if there are fewer, a signature the first 48
with zeros for those that are missing. The transaction is the one sent exactly if the fields have its
lengths. -/
theorem decode_message (m : PbTransaction) :
    (∀ (P : ProtobufC PbTransaction) bytes, bytes ≠ [] → P.unpack bytes = some m →
        transactionDeserializePb P (some bytes) = some (pbToTx m)) ∧
      ((pbToTx m).nonce = m.nonce ∧ (pbToTx m).expiryBlock = m.expiryBlock ∧ (pbToTx m).value = m.value ∧
        (pbToTx m).fee = m.fee) ∧
      (pbToTx m).sourceAddress.toList = (if 20 ≤ m.sourceAddress.bytes.length then
        m.sourceAddress.bytes.take 20 else List.replicate 20 0) ∧
      (pbToTx m).destAddress.toList = (if 20 ≤ m.destAddress.bytes.length then
        m.destAddress.bytes.take 20 else List.replicate 20 0) ∧
      (pbToTx m).signature.toList =
        m.signature.bytes.take 48 ++ List.replicate (48 - m.signature.bytes.length) 0 ∧
      (Exact m (pbToTx m) ↔ FieldLengths m) ∧
      (SameFields (serializedMessage (pbToTx m)) m ↔
        FieldLengths m ∧ (m.signature.bytes = [] ∨ isZero m.signature.bytes = false)) := by
  refine ⟨fun P bytes hne hunpack => transactionDeserializePb_eq hne hunpack, ⟨rfl, rfl, rfl, rfl⟩,
    copyAddress_eq _, copyAddress_eq _, copySignature_eq _, exact_pbToTx_iff m, ?_⟩
  rw [serializedMessage_eq]
  exact sameFields_fillPb_iff m

/-- A message whose only field is a source address of one byte. -/
def shortAddressMessage : PbTransaction := { pbTransactionInit with sourceAddress := some [1] }

theorem decode_shortAddress :
    decodeTransaction (encodeTransaction shortAddressMessage) = some shortAddressMessage :=
  decodeTransaction_encode ⟨⟨by decide, by decide⟩, ⟨by decide, by decide⟩, ⟨by decide, by decide⟩⟩

theorem encode_shortAddress_ne_nil : encodeTransaction shortAddressMessage ≠ [] := by
  intro h0
  have hread := decode_shortAddress
  rw [h0, decodeTransaction, decode, if_pos rfl] at hread
  revert hread
  decide

theorem decode_message_shortAddress :
    transactionDeserializePb transactionCodec (some (encodeTransaction shortAddressMessage)) =
        some (pbToTx shortAddressMessage) ∧
      (pbToTx shortAddressMessage).sourceAddress.toList = List.replicate 20 0 := by
  obtain ⟨hdecode, -, hsource, -⟩ := decode_message shortAddressMessage
  exact ⟨hdecode transactionCodec _ encode_shortAddress_ne_nil decode_shortAddress, hsource⟩

/-- It is decoded, and to another source address. -/
theorem decode_alters : ¬ ∀ (P : ProtobufC PbTransaction), P.Conforms encodeTransaction decodeTransaction →
    ∀ bytes m tx, P.unpack bytes = some m → transactionDeserializePb P (some bytes) = some tx →
      Exact m tx ∧ FieldLengths m := by
  intro h
  have hdecode := transactionDeserializePb_eq (P := transactionCodec) encode_shortAddress_ne_nil decode_shortAddress
  have hexact := h transactionCodec transactionCodec_conforms _ _ _ decode_shortAddress hdecode
  exact absurd hexact.2.1 (by decide)

end ShardingSim
