import ShardingSim.Library.LittleEndian
import ShardingSim.Transaction

/-! `transaction_serialize` and `transaction_deserialize`: the 112 bytes of the packed struct `Transaction`
as hex. Memory and transactions correspond one to one (`transactionOfMemory_memory`,
`memory_transactionOfMemory`), so that the codec is the one of hex strings, with its freedom of case. -/
namespace ShardingSim
open ByteBuffer
set_option autoImplicit false

/-! ## Packed layout -/

theorem leBytes_eq (n x : ℕ) : leBytes n x = LittleEndian.bytes n x := by
  induction n generalizing x with
  | zero => rfl
  | succ n ih =>
    rw [LittleEndian.bytes, ← ih, leBytes, leBytes, List.range_succ_eq_map, List.map_cons, List.map_map,
      Nat.pow_zero, Nat.div_one]
    refine congrArg _ (List.map_congr_left fun i _ => ?_)
    rw [Function.comp_apply, Nat.pow_succ, Nat.mul_comm, Nat.div_div_eq_div_mul]

theorem leBytes_length (n x : ℕ) : (leBytes n x).length = n := by
  rw [leBytes_eq, LittleEndian.bytes_length]

/-- The bytes of `*tx` in memory. -/
def memory (tx : Transaction) : List UInt8 :=
  leBytes 8 tx.nonce.toNat ++ (leBytes 4 tx.expiryBlock.toNat ++ (tx.sourceAddress.toList ++
    (tx.destAddress.toList ++ (leBytes 8 tx.value.toNat ++ (leBytes 4 tx.fee.toNat ++
      tx.signature.toList)))))

theorem memory_length (tx : Transaction) : (memory tx).length = 112 := by
  simp only [memory, List.length_append, leBytes_length, Vector.length_toList]

/-- The transaction that 112 bytes are read as. -/
def transactionOfMemory (bytes : Vector UInt8 112) : Transaction where
  nonce := UInt64.ofNat (LittleEndian.value (read bytes 0 8))
  expiryBlock := UInt32.ofNat (LittleEndian.value (read bytes 8 4))
  sourceAddress := slice bytes 12 20 (by decide)
  destAddress := slice bytes 32 20 (by decide)
  value := UInt64.ofNat (LittleEndian.value (read bytes 52 8))
  fee := UInt32.ofNat (LittleEndian.value (read bytes 60 4))
  signature := slice bytes 64 48 (by decide)

theorem leBytes_value {n : ℕ} (bytes : Vector UInt8 n) {off len : ℕ} (h : off + len ≤ n) :
    leBytes len (LittleEndian.value (read bytes off len)) = read bytes off len := by
  have hvalue := LittleEndian.bytes_value (read bytes off len)
  rwa [length_read bytes h, ← leBytes_eq] at hvalue

theorem value_leBytes {n x : ℕ} (h : x < 256 ^ n) : LittleEndian.value (leBytes n x) = x := by
  rw [leBytes_eq, LittleEndian.value_bytes h]

theorem transactionOfMemory_memory {tx : Transaction} {bytes : Vector UInt8 112}
    (h : bytes.toList = memory tx) : transactionOfMemory bytes = tx := by
  obtain ⟨hnonce, h8⟩ := read_of_drop (leBytes_length 8 _) (show bytes.toList.drop 0 = _ from h)
  obtain ⟨hexpiry, h12⟩ := read_of_drop (leBytes_length 4 _) h8
  obtain ⟨hsource, h32⟩ := read_of_drop (Vector.length_toList : tx.sourceAddress.toList.length = 20) h12
  obtain ⟨hdest, h52⟩ := read_of_drop (Vector.length_toList : tx.destAddress.toList.length = 20) h32
  obtain ⟨hvalue, h60⟩ := read_of_drop (leBytes_length 8 _) h52
  obtain ⟨hfee, h64⟩ := read_of_drop (leBytes_length 4 _) h60
  obtain ⟨hsignature, -⟩ := read_of_drop (Vector.length_toList : tx.signature.toList.length = 48)
    (h64.trans (List.append_nil _).symm)
  refine Transaction.ext ?_ ?_ (Vector.toList_inj.mp hsource) (Vector.toList_inj.mp hdest) ?_ ?_
    (Vector.toList_inj.mp hsignature)
  · show UInt64.ofNat (LittleEndian.value (read bytes 0 8)) = tx.nonce
    rw [hnonce, value_leBytes tx.nonce.toNat_lt, UInt64.ofNat_toNat]
  · show UInt32.ofNat (LittleEndian.value (read bytes 8 4)) = tx.expiryBlock
    rw [hexpiry, value_leBytes tx.expiryBlock.toNat_lt, UInt32.ofNat_toNat]
  · show UInt64.ofNat (LittleEndian.value (read bytes 52 8)) = tx.value
    rw [hvalue, value_leBytes tx.value.toNat_lt, UInt64.ofNat_toNat]
  · show UInt32.ofNat (LittleEndian.value (read bytes 60 4)) = tx.fee
    rw [hfee, value_leBytes tx.fee.toNat_lt, UInt32.ofNat_toNat]

theorem memory_transactionOfMemory (bytes : Vector UInt8 112) :
    memory (transactionOfMemory bytes) = bytes.toList := by
  have hlt : ∀ {off len : ℕ}, off + len ≤ 112 → LittleEndian.value (read bytes off len) < 256 ^ len := by
    intro off len hbound
    have := LittleEndian.value_lt (read bytes off len)
    rwa [length_read bytes hbound] at this
  have h64 : ∀ {off : ℕ}, off + 8 ≤ 112 →
      leBytes 8 (UInt64.ofNat (LittleEndian.value (read bytes off 8))).toNat = read bytes off 8 := by
    intro off hbound
    rw [UInt64.toNat_ofNat_of_lt' (hlt hbound), leBytes_value bytes hbound]
  have h32 : ∀ {off : ℕ}, off + 4 ≤ 112 →
      leBytes 4 (UInt32.ofNat (LittleEndian.value (read bytes off 4))).toNat = read bytes off 4 := by
    intro off hbound
    rw [UInt32.toNat_ofNat_of_lt' (hlt hbound), leBytes_value bytes hbound]
  have hfields : memory (transactionOfMemory bytes) = read bytes 0 8 ++ (read bytes 8 4 ++ (read bytes 12 20 ++
      (read bytes 32 20 ++ (read bytes 52 8 ++ (read bytes 60 4 ++ read bytes 64 48))))) := by
    simp only [memory, transactionOfMemory, toList_slice]
    rw [h64 (by decide), h32 (by decide), h64 (by decide), h32 (by decide)]
  rw [hfields, read_append_read, read_append_read, read_append_read, read_append_read, read_append_read,
    read_append_read, read_all]

/-! ## Hex codec -/

def bytesToHex (bytes : List UInt8) : List UInt8 := bytesToHexBuf bytes

def transactionSerialize (tx : Transaction) : List UInt8 := bytesToHex (memory tx)

/-- `transaction_deserialize`, which decodes into memory that is not initialised. -/
def transactionDeserialize (uninitialised : Vector UInt8 112) (hexData : List UInt8) : Option Transaction :=
  if hexData.length ≠ 224 then none
  else
    let decoded := hexToBytesBuf hexData uninitialised
    if !decoded.1 then none else some (transactionOfMemory decoded.2)

theorem transactionDeserialize_eq_some {uninitialised : Vector UInt8 112} {s : List UInt8} {tx : Transaction}
    (h : transactionDeserialize uninitialised s = some tx) :
    s.length = 112 * 2 ∧ (hexToBytesBuf s uninitialised).1 = true ∧
      transactionOfMemory (hexToBytesBuf s uninitialised).2 = tx := by
  unfold transactionDeserialize at h
  dsimp only at h
  split at h
  · cases h
  · rename_i hlen
    split at h
    · cases h
    · rename_i hok
      rw [Bool.not_eq_true', Bool.not_eq_false] at hok
      exact ⟨not_not.mp hlen, hok, Option.some.inj h⟩

theorem transactionDeserialize_serialize (uninitialised : Vector UInt8 112) (tx : Transaction) :
    transactionDeserialize uninitialised (transactionSerialize tx) = some tx := by
  have hlen : (transactionSerialize tx).length = 224 := by
    rw [transactionSerialize, bytesToHex, bytesToHexBuf_length, memory_length]
  have hvector : (Vector.mk (memory tx).toArray (memory_length tx)).toList = memory tx := rfl
  have hread := hexToBytesBuf_bytesToHexBuf uninitialised (Vector.mk (memory tx).toArray (memory_length tx))
  rw [hvector] at hread
  rw [transactionDeserialize, if_neg (not_not.mpr hlen), transactionSerialize, bytesToHex, hread]
  exact congrArg some (transactionOfMemory_memory hvector)

/-- **The hex codec of transactions.** What was written is read back; what is read is 224 hex digits, and is
in lower case what is written for it. -/
theorem transactionHex_codec (uninitialised : Vector UInt8 112) :
    (∀ tx, (memory tx).length = 112 ∧ transactionSerialize tx = bytesToHexBuf (memory tx) ∧
        transactionDeserialize uninitialised (transactionSerialize tx) = some tx) ∧
      ∀ s, ((transactionDeserialize uninitialised s).isSome = true ↔
          s.length = 224 ∧ ∀ c ∈ s, IsHexDigit c) ∧
        ∀ tx, transactionDeserialize uninitialised s = some tx → transactionSerialize tx = s.map lowerCase := by
  refine ⟨fun tx => ⟨memory_length tx, rfl, transactionDeserialize_serialize uninitialised tx⟩,
    fun s => ⟨⟨fun h => ?_, ?_⟩, fun tx h => ?_⟩⟩
  · obtain ⟨tx, htx⟩ := Option.isSome_iff_exists.mp h
    obtain ⟨hlen, hok, -⟩ := transactionDeserialize_eq_some htx
    exact ⟨hlen, (hexToBytesBuf_iff hlen uninitialised).mp hok⟩
  · rintro ⟨hlen, hdigits⟩
    have hok := (hexToBytesBuf_iff (n := 112) hlen uninitialised).mpr hdigits
    rw [transactionDeserialize, if_neg (not_not.mpr hlen)]
    dsimp only
    rw [hok]
    rfl
  · obtain ⟨hlen, hok, rfl⟩ := transactionDeserialize_eq_some h
    obtain ⟨v, hhex, hread⟩ := hexToBytesBuf_of_digits hlen ((hexToBytesBuf_iff hlen uninitialised).mp hok)
    rw [transactionSerialize, bytesToHex, memory_transactionOfMemory, hread]
    exact hhex

end ShardingSim
