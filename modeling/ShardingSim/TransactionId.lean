import ShardingSim.HexCodec
import ShardingSim.TransactionCodec

/-! What a transaction id commits to: the bytes that are hashed are the packed struct up to the signature, so
that they determine all fields before it, and neither codec changes them. -/
namespace ShardingSim
open Blake3
set_option autoImplicit false

theorem memory_eq (tx : Transaction) : memory tx = hashedBytes tx ++ tx.signature.toList := by
  simp only [memory, hashedBytes, List.append_assoc]

theorem memory_injective : Function.Injective memory := by
  intro tx tx' h
  have hread : transactionOfMemory ⟨(memory tx).toArray, memory_length tx⟩ = tx := by
    apply transactionOfMemory_memory
    rfl
  rw [← hread]
  apply transactionOfMemory_memory
  exact h

theorem hashedBytes_length (tx : Transaction) : (hashedBytes tx).length = 64 := by
  simp only [hashedBytes, List.length_append, leBytes_length, Vector.length_toList]

theorem hashedBytes_eq_iff (tx tx' : Transaction) : hashedBytes tx = hashedBytes tx' ↔
    tx.nonce = tx'.nonce ∧ tx.expiryBlock = tx'.expiryBlock ∧ tx.sourceAddress = tx'.sourceAddress ∧
      tx.destAddress = tx'.destAddress ∧ tx.value = tx'.value ∧ tx.fee = tx'.fee := by
  constructor
  · intro h
    -- with one signature behind them the two have the same memory
    have hmemory : memory tx = memory { tx' with signature := tx.signature } := by
      rw [memory_eq, memory_eq, h]
      rfl
    have htx := memory_injective hmemory
    rw [htx]
    exact ⟨rfl, rfl, rfl, rfl, rfl, rfl⟩
  · rintro ⟨hnonce, hexpiry, hsource, hdest, hvalue, hfee⟩
    simp only [hashedBytes, hnonce, hexpiry, hsource, hdest, hvalue, hfee]

theorem transactionComputeHash_eq_iff (tx tx' : Transaction) : transactionComputeHash tx = transactionComputeHash tx' ↔
    hashedBytes tx = hashedBytes tx' ∨ hashedBytes tx ≠ hashedBytes tx' ∧
      blake3Truncated (hashedBytes tx) 28 = blake3Truncated (hashedBytes tx') 28 := by
  rw [transactionComputeHash, transactionComputeHash]
  by_cases hsame : hashedBytes tx = hashedBytes tx'
  · exact iff_of_true (by rw [hsame]) (Or.inl hsame)
  · exact ⟨fun h => Or.inr ⟨hsame, h⟩, fun h => (h.resolve_left hsame).2⟩

/-- **The transaction id commits to every field but the signature.** It is a digest of these bytes alone. -/
theorem transactionId_commits {P : ProtobufC PbTransaction} (hP : P.Conforms encodeTransaction decodeTransaction)
    (uninitialised : Vector UInt8 112) (tx tx' : Transaction) :
    (hashedBytes tx = hashedBytes tx' ↔
        tx.nonce = tx'.nonce ∧ tx.expiryBlock = tx'.expiryBlock ∧ tx.sourceAddress = tx'.sourceAddress ∧
          tx.destAddress = tx'.destAddress ∧ tx.value = tx'.value ∧ tx.fee = tx'.fee) ∧
      (hashedBytes tx = (memory tx).take 64 ∧ (hashedBytes tx).length = 64 ∧
        transactionSerialize tx = bytesToHexBuf (memory tx)) ∧
      transactionComputeHash tx = blake3Truncated (hashedBytes tx) 28 ∧
      (transactionDeserialize uninitialised (transactionSerialize tx)).map transactionComputeHash =
        some (transactionComputeHash tx) ∧
      (transactionDeserializePb P (some (transactionSerializePb P tx))).map transactionComputeHash =
        some (transactionComputeHash tx) := by
  have hlen := hashedBytes_length tx
  refine ⟨hashedBytes_eq_iff tx tx', ⟨?_, hlen, rfl⟩, rfl, ?_, ?_⟩
  · rw [memory_eq, ← hlen, List.take_left]
  · rw [transactionDeserialize_serialize, Option.map_some]
  · rw [transactionDeserializePb_serialize hP, Option.map_some]

/-- A fee of two makes another id, no signature the same one. -/
theorem transactionId_commits_sample :
    hashedBytes sampleTransaction ≠ hashedBytes { sampleTransaction with fee := 2 } ∧
      transactionComputeHash sampleTransaction =
        transactionComputeHash { sampleTransaction with signature := Vector.replicate 48 0 } ∧
      (transactionDeserializePb transactionCodec (some (transactionSerializePb transactionCodec
        sampleTransaction))).map transactionComputeHash = some (transactionComputeHash sampleTransaction) := by
  have hid := transactionId_commits transactionCodec_conforms (Vector.replicate 112 0)
  have hfee := (hid sampleTransaction { sampleTransaction with fee := 2 }).1
  have hunsigned := hid sampleTransaction { sampleTransaction with signature := Vector.replicate 48 0 }
  have hunsigned' := hid { sampleTransaction with signature := Vector.replicate 48 0 } sampleTransaction
  refine ⟨fun h => ?_, ?_, hunsigned.2.2.2.2⟩
  · exact absurd (hfee.mp h).2.2.2.2.2 (by decide)
  · rw [hunsigned.2.2.1, hunsigned'.2.2.1, hunsigned.1.mpr ⟨rfl, rfl, rfl, rfl, rfl, rfl⟩]

end ShardingSim
