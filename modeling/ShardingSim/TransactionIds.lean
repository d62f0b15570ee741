import ShardingSim.Delivery
import ShardingSim.Expiry
import ShardingSim.HexStrings
import ShardingSim.TransactionId

/-! The ids that a receiver gets in a session, and those of coinbase transactions. What is hashed to an id is never the
same twice, nor that of a coinbase transaction, so that equal ids are a collision of the 28 bytes of BLAKE3
(`session_ids`). -/
namespace ShardingSim
open Blake3 Run
set_option autoImplicit false

variable {Key : Type}

/-! ## Coinbase transactions -/

/-- `transaction_create_coinbase`, which does not sign. -/
def transactionCreateCoinbase (farmerAddress : Vector UInt8 20) (baseReward totalFees : UInt64)
    (blockHeight : UInt32) : Transaction where
  nonce := blockHeight.toUInt64
  expiryBlock := 0
  sourceAddress := coinbaseAddress
  destAddress := farmerAddress
  value := baseReward + totalFees
  fee := 0
  signature := Vector.replicate 48 0

section Coinbase
variable (farmerAddress : Vector UInt8 20) (baseReward totalFees : UInt64) (blockHeight : UInt32)

theorem coinbase_value_iff : (transactionCreateCoinbase farmerAddress baseReward totalFees blockHeight).value.toNat =
    baseReward.toNat + totalFees.toNat ↔ baseReward.toNat + totalFees.toNat < 2 ^ 64 := by
  show (baseReward + totalFees).toNat = _ ↔ _
  have hbase := baseReward.toNat_lt
  have hfees := totalFees.toNat_lt
  rw [UInt64.toNat_add]
  omega

theorem coinbase_hashedBytes_iff (farmerAddress' : Vector UInt8 20) (baseReward' totalFees' : UInt64)
    (blockHeight' : UInt32) :
    hashedBytes (transactionCreateCoinbase farmerAddress baseReward totalFees blockHeight) =
        hashedBytes (transactionCreateCoinbase farmerAddress' baseReward' totalFees' blockHeight') ↔
      blockHeight = blockHeight' ∧ farmerAddress = farmerAddress' ∧
        baseReward + totalFees = baseReward' + totalFees' := by
  rw [hashedBytes_eq_iff]
  constructor
  · rintro ⟨hnonce, -, -, hdest, hvalue, -⟩
    refine ⟨?_, hdest, hvalue⟩
    have hheight := congrArg UInt64.toNat hnonce
    exact UInt32.toNat_inj.mp (by simpa [transactionCreateCoinbase] using hheight)
  · rintro ⟨rfl, rfl, hvalue⟩
    exact ⟨rfl, rfl, rfl, rfl, hvalue, rfl⟩

end Coinbase

/-- **Coinbase transactions** are accepted without a signature, never expire, pay the sum unless it wraps, and come
back so from either codec; two of them have one id only for one height, farmer and sum, or by a collision. -/
theorem coinbase_contract {P : ProtobufC PbTransaction} (hP : P.Conforms encodeTransaction decodeTransaction)
    (uninitialised : Vector UInt8 112) (farmerAddress : Vector UInt8 20) (baseReward totalFees : UInt64)
    (blockHeight : UInt32) :
    let tx := transactionCreateCoinbase farmerAddress baseReward totalFees blockHeight
    (transactionVerify tx = true ∧ ∀ height, transactionIsExpired tx height = false) ∧
      (tx.value.toNat = baseReward.toNat + totalFees.toNat ↔ baseReward.toNat + totalFees.toNat < 2 ^ 64) ∧
      (transactionDeserialize uninitialised (transactionSerialize tx) = some tx ∧
        transactionDeserializePb P (some (transactionSerializePb P tx)) = some tx) ∧
      ∀ farmerAddress' baseReward' totalFees' blockHeight',
        let tx' := transactionCreateCoinbase farmerAddress' baseReward' totalFees' blockHeight'
        let same := blockHeight = blockHeight' ∧ farmerAddress = farmerAddress' ∧
          baseReward + totalFees = baseReward' + totalFees'
        (hashedBytes tx = hashedBytes tx' ↔ same) ∧
          (transactionComputeHash tx = transactionComputeHash tx' ↔ same ∨ hashedBytes tx ≠ hashedBytes tx' ∧
            blake3Truncated (hashedBytes tx) 28 = blake3Truncated (hashedBytes tx') 28) := by
  refine ⟨⟨if_pos rfl, fun _ => if_pos rfl⟩, coinbase_value_iff _ _ _ _,
    ⟨transactionDeserialize_serialize _ _, transactionDeserializePb_serialize hP _⟩, fun _ _ _ _ => ?_⟩
  have hhashed := coinbase_hashedBytes_iff farmerAddress baseReward totalFees blockHeight
  exact ⟨hhashed _ _ _ _, (transactionComputeHash_eq_iff _ _).trans (or_congr_left (hhashed _ _ _ _))⟩

theorem coinbase_contract_wraps :
    (transactionCreateCoinbase (Vector.replicate 20 7) 18446744073709551615 1 5).value.toNat ≠
      (18446744073709551615 : UInt64).toNat + (1 : UInt64).toNat := by
  have h := coinbase_contract transactionCodec_conforms (Vector.replicate 112 0) (Vector.replicate 20 7)
    18446744073709551615 1 5
  exact fun heq => absurd (h.2.1.mp heq) (by decide)

/-! ## Ids in a session -/

def transactionGetHashHex (tx : Transaction) : List UInt8 := bytesToHex (transactionComputeHash tx)

theorem bytesToHex_injective : Function.Injective bytesToHex := by
  intro bytes bytes' h
  have hread := hexToBytes_bytesToHex (fun n => Vector.replicate n 0) bytes
  rw [h, hexToBytes_bytesToHex] at hread
  exact (Prod.mk.inj (Option.some.inj hread)).1.symm

theorem nodup_hashHex_iff (txs : List Transaction) :
    (txs.map transactionGetHashHex).Nodup ↔ (txs.map transactionComputeHash).Nodup := by
  rw [← @List.nodup_map_iff _ _ _ (txs.map transactionComputeHash) bytesToHex_injective, List.map_map]
  rfl

/-- What one function tells apart and another does not. -/
theorem nodup_map_or_collision {α β γ : Type*} {f : α → β} {g : α → γ} {l : List α} (hf : (l.map f).Nodup) :
    (l.map g).Nodup ∨ ∃ a ∈ l, ∃ b ∈ l, f a ≠ f b ∧ g a = g b := by
  by_cases hinj : ∀ a ∈ l, ∀ b ∈ l, g a = g b → f a = f b
  · refine Or.inl (List.Nodup.map_on (fun a ha b hb hg => ?_) hf.of_map)
    exact List.inj_on_of_nodup_map hf ha hb (hinj a ha b hb hg)
  · push Not at hinj
    obtain ⟨a, ha, b, hb, hg, hne⟩ := hinj
    exact Or.inr ⟨a, ha, b, hb, hne, hg⟩

/-- What is hashed differs, also from what is hashed of any coinbase transaction, and equal ids are a collision. -/
structure DistinctIds (txs : List Transaction) : Prop where
  hashed : (txs.map hashedBytes).Nodup
  coinbase : ∀ tx ∈ txs, ∀ farmerAddress baseReward totalFees blockHeight,
    hashedBytes tx ≠ hashedBytes (transactionCreateCoinbase farmerAddress baseReward totalFees blockHeight)
  ids : (txs.map transactionComputeHash).Nodup ∨ ∃ tx ∈ txs, ∃ tx' ∈ txs,
    hashedBytes tx ≠ hashedBytes tx' ∧ blake3Truncated (hashedBytes tx) 28 = blake3Truncated (hashedBytes tx') 28
  hex : (txs.map transactionGetHashHex).Nodup ↔ (txs.map transactionComputeHash).Nodup

/-- Transactions of the loop with nonces of their own. -/
theorem distinctIds_of_created {o : Options} {w : World Key} {txs : List Transaction}
    (hnonces : (txs.map Transaction.nonce).Nodup) (hcreated : ∀ tx ∈ txs, ∃ t b, tx ∈ createBatch o w t b) :
    DistinctIds txs := by
  have hhashed : (txs.map hashedBytes).Nodup := by
    refine List.Nodup.map_on (fun tx htx tx' htx' h => ?_) hnonces.of_map
    exact List.inj_on_of_nodup_map hnonces htx htx' ((hashedBytes_eq_iff tx tx').mp h).1
  refine ⟨hhashed, fun tx htx farmerAddress baseReward totalFees blockHeight h => ?_, nodup_map_or_collision hhashed,
    nodup_hashHex_iff txs⟩
  obtain ⟨t, b, hmem⟩ := hcreated tx htx
  obtain ⟨nonce, signature, rfl⟩ := exists_of_mem_createBatch hmem
  -- the loop pays a fee of one, a coinbase transaction pays none
  have hfee := ((hashedBytes_eq_iff _ _).mp h).2.2.2.2.2
  exact absurd hfee (by decide : (1 : UInt32) ≠ 0)

/-- **Ids in a session**, in every run that C defines, which needs `NoOverflow`. -/
theorem session_ids {P : ProtobufC PbTransactionBatch} (hP : P.Conforms encodeBatch decodeBatch) (verify : Bool)
    (argv : List (List UInt8)) (w : World Key) (owner : ℕ → ℕ) (es : List SessionEvent) (s : SessionState)
    (hes : ∀ e ∈ es, InLoop (options argv) owner e)
    (h : run (step (generatorSetup P verify (options argv) w owner)) .initial es = some s) :
    DistinctIds (receivedTxs (generatorSetup P verify (options argv) w owner) s) := by
  have hs := (deliveryInv_run hP (clampBatchSize_bounds _) hes h).receivedOnce hP (clampBatchSize_bounds _)
    (fitsTypes_options argv)
  have hcreated : ∀ tx ∈ receivedTxs (generatorSetup P verify (options argv) w owner) s,
      ∃ t b, tx ∈ createBatch (options argv) w t b := by
    intro tx htx
    rw [hs.received] at htx
    obtain ⟨b, -, htx⟩ := List.mem_flatMap.mp htx
    exact ⟨owner b, b, htx⟩
  exact distinctIds_of_created hs.nonces_nodup hcreated

theorem session_ids_late : ∃ s,
    run (step (generatorSetup batchCodec true (options sampleArgs) sampleWorld id)) .initial lateDelivery = some s ∧
      DistinctIds (receivedTxs (generatorSetup batchCodec true (options sampleArgs) sampleWorld id) s) :=
  ⟨_, rfl, session_ids batchCodec_conforms true sampleArgs sampleWorld id lateDelivery _ lateDelivery_inLoop rfl⟩

end ShardingSim
