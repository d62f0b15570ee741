import ShardingSim.Library.ProtoWire

/-! The messages `Transaction` and `TransactionBatch` of `proto/blockchain.proto` as the C structs of
`proto/blockchain.pb-c.h`, and their wire form by the descriptors of `proto/blockchain.pb-c.c`. The library
that packs and unpacks them is a parameter (`ProtobufC`); what it is documented to do is
`ProtobufC.Conforms`. -/
namespace ShardingSim
open ProtoWire
set_option autoImplicit false

/-- `ProtobufCBinaryData`: `none` is a null pointer with length zero. -/
abbrev BinaryData := Option (List UInt8)

def BinaryData.bytes (d : BinaryData) : List UInt8 := d.getD []

@[simp] theorem BinaryData.bytes_some (b : List UInt8) : BinaryData.bytes (some b) = b := rfl

theorem BinaryData.isSome_of_bytes {d : BinaryData} (h : 0 < d.bytes.length) : d.isSome := by
  cases d with
  | none => exact absurd h (Nat.lt_irrefl 0)
  | some b => rfl

structure PbTransaction where
  nonce : UInt64
  expiryBlock : UInt32
  sourceAddress : BinaryData
  destAddress : BinaryData
  value : UInt64
  fee : UInt32
  signature : BinaryData
deriving DecidableEq

def pbTransactionInit : PbTransaction where
  nonce := 0
  expiryBlock := 0
  sourceAddress := none
  destAddress := none
  value := 0
  fee := 0
  signature := none

/-- `transactions` is the array of length `n_transactions`. -/
structure PbTransactionBatch where
  transactions : List PbTransaction
  count : UInt32
deriving DecidableEq

def pbTransactionBatchInit : PbTransactionBatch where
  transactions := []
  count := 0

/-! ## Wire form -/

def transactionEntries (t : PbTransaction) : List Entry :=
  scalarField 1 t.nonce.toNat ++ scalarField 2 t.expiryBlock.toNat ++
    bytesField 3 t.sourceAddress.bytes ++ bytesField 4 t.destAddress.bytes ++
    scalarField 5 t.value.toNat ++ scalarField 6 t.fee.toNat ++ bytesField 7 t.signature.bytes

def encodeTransaction (t : PbTransaction) : List UInt8 := encode (transactionEntries t)

/-- A nested message is sent even if it is empty. -/
def batchEntries (b : PbTransactionBatch) : List Entry :=
  b.transactions.map (fun t => ⟨1, .bytes (encodeTransaction t)⟩) ++ scalarField 2 b.count.toNat

def encodeBatch (b : PbTransactionBatch) : List UInt8 := encode (batchEntries b)

def readBytes (b : List UInt8) : BinaryData := if b = [] then none else some b

/-- One entry stored into a transaction: a field that comes twice is overwritten, one that is not known
is skipped, one of the wrong wire type is an error. -/
def setTransactionField (t : PbTransaction) (e : Entry) : Option PbTransaction :=
  match e.number, e.payload with
  | 1, .varint n => some { t with nonce := UInt64.ofNat n }
  | 2, .varint n => some { t with expiryBlock := UInt32.ofNat n }
  | 3, .bytes b => some { t with sourceAddress := readBytes b }
  | 4, .bytes b => some { t with destAddress := readBytes b }
  | 5, .varint n => some { t with value := UInt64.ofNat n }
  | 6, .varint n => some { t with fee := UInt32.ofNat n }
  | 7, .bytes b => some { t with signature := readBytes b }
  | number, _ => if 1 ≤ number ∧ number ≤ 7 then none else some t

def decodeTransaction (bytes : List UInt8) : Option PbTransaction :=
  (decode bytes).bind fun es => es.foldlM setTransactionField pbTransactionInit

def setBatchField (b : PbTransactionBatch) (e : Entry) : Option PbTransactionBatch :=
  match e.number, e.payload with
  | 1, .bytes bytes =>
    (decodeTransaction bytes).map fun t => { b with transactions := b.transactions ++ [t] }
  | 2, .varint n => some { b with count := UInt32.ofNat n }
  | number, _ => if 1 ≤ number ∧ number ≤ 2 then none else some b

def decodeBatch (bytes : List UInt8) : Option PbTransactionBatch :=
  (decode bytes).bind fun es => es.foldlM setBatchField pbTransactionBatchInit

/-! ## Round trip -/

/-- The form in which a bytes field is read: a null pointer or at least one byte. -/
def BinaryData.Normal (d : BinaryData) : Prop := d ≠ some [] ∧ d.bytes.length < 2 ^ 31

theorem BinaryData.normal_some {b : List UInt8} (hpos : 0 < b.length) (hlt : b.length < 2 ^ 31) :
    BinaryData.Normal (some b) := by
  refine ⟨fun h => ?_, hlt⟩
  rw [Option.some.inj h] at hpos
  exact Nat.lt_irrefl 0 hpos

structure PbTransaction.Normal (t : PbTransaction) : Prop where
  sourceAddress : t.sourceAddress.Normal
  destAddress : t.destAddress.Normal
  signature : t.signature.Normal

theorem BinaryData.Normal.readBytes {d : BinaryData} (h : d.Normal) : readBytes d.bytes = d := by
  obtain ⟨hne, -⟩ := h
  cases d with
  | none => rfl
  | some b =>
    have hb : b ≠ [] := fun h0 => hne (congrArg some h0)
    exact if_neg hb

theorem foldlM_scalarField {σ : Type} {set : σ → Entry → Option σ} {number n : ℕ} {s s' : σ}
    (hset : set s ⟨number, .varint n⟩ = some s') (hzero : n = 0 → s = s') :
    (scalarField number n).foldlM set s = some s' := by
  unfold scalarField
  split
  · rename_i h0
    rw [hzero h0]
    rfl
  · rw [List.foldlM_cons, hset]
    rfl

theorem foldlM_bytesField {σ : Type} {set : σ → Entry → Option σ} {number : ℕ} {b : List UInt8} {s s' : σ}
    (hset : set s ⟨number, .bytes b⟩ = some s') (hempty : b = [] → s = s') :
    (bytesField number b).foldlM set s = some s' := by
  unfold bytesField
  split
  · rename_i h0
    rw [hempty h0]
    rfl
  · rw [List.foldlM_cons, hset]
    rfl

theorem transactionEntries_valid {t : PbTransaction} (h : t.Normal) : ∀ e ∈ transactionEntries t, e.Valid := by
  have hnonce := t.nonce.toNat_lt
  have hexpiry := t.expiryBlock.toNat_lt
  have hvalue := t.value.toNat_lt
  have hfee := t.fee.toNat_lt
  intro e he
  simp only [transactionEntries, List.mem_append] at he
  rcases he with (((((he | he) | he) | he) | he) | he) | he
  · exact scalarField_valid (by decide) (by decide) (by omega) e he
  · exact scalarField_valid (by decide) (by decide) (by omega) e he
  · exact bytesField_valid (by decide) (by decide) h.sourceAddress.2 e he
  · exact bytesField_valid (by decide) (by decide) h.destAddress.2 e he
  · exact scalarField_valid (by decide) (by decide) (by omega) e he
  · exact scalarField_valid (by decide) (by decide) (by omega) e he
  · exact bytesField_valid (by decide) (by decide) h.signature.2 e he

theorem foldlM_append_some {σ : Type} {set : σ → Entry → Option σ} {es fs : List Entry} {s s' s'' : σ}
    (hes : es.foldlM set s = some s') (hfs : fs.foldlM set s' = some s'') :
    (es ++ fs).foldlM set s = some s'' := by
  rw [List.foldlM_append, hes]
  exact hfs

/-- **A transaction message is read back.** -/
theorem decodeTransaction_encode {t : PbTransaction} (h : t.Normal) :
    decodeTransaction (encodeTransaction t) = some t := by
  obtain ⟨nonce, expiryBlock, sourceAddress, destAddress, value, fee, signature⟩ := t
  have hread := decode_encode _ (transactionEntries_valid h)
  have hbytes : ∀ {d : BinaryData}, d.Normal → d.bytes = [] → none = d := by
    intro d hd h0
    rw [← hd.readBytes, h0]
    rfl
  have h64 : ∀ x : UInt64, x.toNat = 0 → 0 = x := fun x h0 => UInt64.toNat_inj.mp h0.symm
  have h32 : ∀ x : UInt32, x.toNat = 0 → 0 = x := fun x h0 => UInt32.toNat_inj.mp h0.symm
  -- the fields are stored one after the other into the initial message
  have h1 : (scalarField 1 nonce.toNat).foldlM setTransactionField ⟨0, 0, none, none, 0, 0, none⟩ =
      some ⟨nonce, 0, none, none, 0, 0, none⟩ :=
    foldlM_scalarField (by simp [setTransactionField]) fun h0 => by rw [h64 _ h0]
  have h2 : (scalarField 2 expiryBlock.toNat).foldlM setTransactionField
      ⟨nonce, 0, none, none, 0, 0, none⟩ = some ⟨nonce, expiryBlock, none, none, 0, 0, none⟩ :=
    foldlM_scalarField (by simp [setTransactionField]) fun h0 => by rw [h32 _ h0]
  have h3 : (bytesField 3 sourceAddress.bytes).foldlM setTransactionField
      ⟨nonce, expiryBlock, none, none, 0, 0, none⟩ =
      some ⟨nonce, expiryBlock, sourceAddress, none, 0, 0, none⟩ :=
    foldlM_bytesField (by simp [setTransactionField, h.sourceAddress.readBytes])
      fun h0 => by rw [hbytes h.sourceAddress h0]
  have h4 : (bytesField 4 destAddress.bytes).foldlM setTransactionField
      ⟨nonce, expiryBlock, sourceAddress, none, 0, 0, none⟩ =
      some ⟨nonce, expiryBlock, sourceAddress, destAddress, 0, 0, none⟩ :=
    foldlM_bytesField (by simp [setTransactionField, h.destAddress.readBytes])
      fun h0 => by rw [hbytes h.destAddress h0]
  have h5 : (scalarField 5 value.toNat).foldlM setTransactionField
      ⟨nonce, expiryBlock, sourceAddress, destAddress, 0, 0, none⟩ =
      some ⟨nonce, expiryBlock, sourceAddress, destAddress, value, 0, none⟩ :=
    foldlM_scalarField (by simp [setTransactionField]) fun h0 => by rw [h64 _ h0]
  have h6 : (scalarField 6 fee.toNat).foldlM setTransactionField
      ⟨nonce, expiryBlock, sourceAddress, destAddress, value, 0, none⟩ =
      some ⟨nonce, expiryBlock, sourceAddress, destAddress, value, fee, none⟩ :=
    foldlM_scalarField (by simp [setTransactionField]) fun h0 => by rw [h32 _ h0]
  have h7 : (bytesField 7 signature.bytes).foldlM setTransactionField
      ⟨nonce, expiryBlock, sourceAddress, destAddress, value, fee, none⟩ =
      some ⟨nonce, expiryBlock, sourceAddress, destAddress, value, fee, signature⟩ :=
    foldlM_bytesField (by simp [setTransactionField, h.signature.readBytes])
      fun h0 => by rw [hbytes h.signature h0]
  have hfold := foldlM_append_some (foldlM_append_some (foldlM_append_some (foldlM_append_some
    (foldlM_append_some (foldlM_append_some h1 h2) h3) h4) h5) h6) h7
  rw [decodeTransaction, encodeTransaction, hread]
  exact hfold

theorem foldlM_transactions (ts : List PbTransaction) (b : PbTransactionBatch) (h : ∀ t ∈ ts, t.Normal) :
    (ts.map fun t => (⟨1, .bytes (encodeTransaction t)⟩ : Entry)).foldlM setBatchField b =
      some { b with transactions := b.transactions ++ ts } := by
  induction ts generalizing b with
  | nil => rw [List.append_nil]; rfl
  | cons t ts ih =>
    have hset : setBatchField b ⟨1, .bytes (encodeTransaction t)⟩ =
        some { b with transactions := b.transactions ++ [t] } := by
      simp only [setBatchField]
      rw [decodeTransaction_encode (h t List.mem_cons_self), Option.map_some]
    have hrest := ih { b with transactions := b.transactions ++ [t] }
      fun x hx => h x (List.mem_cons_of_mem _ hx)
    rw [List.append_assoc, List.singleton_append] at hrest
    rw [List.map_cons, List.foldlM_cons, hset]
    exact hrest

/-- **A batch message is read back.** -/
theorem decodeBatch_encode {b : PbTransactionBatch} (h : ∀ t ∈ b.transactions, t.Normal)
    (hlen : ∀ t ∈ b.transactions, (encodeTransaction t).length < 2 ^ 31) :
    decodeBatch (encodeBatch b) = some b := by
  have hvalid : ∀ e ∈ batchEntries b, e.Valid := by
    intro e he
    rcases List.mem_append.mp he with he | he
    · obtain ⟨t, ht, rfl⟩ := List.mem_map.mp he
      exact ⟨Nat.one_pos, (by decide : 1 < 2 ^ 29), hlen t ht⟩
    · have hcount := b.count.toNat_lt
      exact scalarField_valid (by decide) (by decide) (by omega) e he
  have htransactions := foldlM_transactions b.transactions pbTransactionBatchInit h
  have hcount : (scalarField 2 b.count.toNat).foldlM setBatchField ⟨b.transactions, 0⟩ = some b :=
    foldlM_scalarField (by simp [setBatchField]) fun h0 =>
      congrArg (PbTransactionBatch.mk b.transactions) (UInt32.toNat_inj.mp h0.symm)
  rw [decodeBatch, encodeBatch, decode_encode _ hvalid]
  exact foldlM_append_some htransactions hcount

/-! ## Sizes -/

theorem encodeTransaction_length_le {t : PbTransaction} (hsource : t.sourceAddress.bytes.length ≤ 20)
    (hdest : t.destAddress.bytes.length ≤ 20) (hsignature : t.signature.bytes.length ≤ 48) :
    (encodeTransaction t).length ≤ 128 := by
  have hnonce := t.nonce.toNat_lt
  have hexpiry := t.expiryBlock.toNat_lt
  have hvalue := t.value.toNat_lt
  have hfee := t.fee.toNat_lt
  have h1 := scalarField_length_le 1 t.nonce.toNat 10 (by decide) (by decide)
    (by omega)
  have h2 := scalarField_length_le 2 t.expiryBlock.toNat 5 (by decide)
    (by decide) (by omega)
  have h3 := bytesField_length_le 3 1 t.sourceAddress.bytes (by decide)
    (by decide) (by omega)
  have h4 := bytesField_length_le 4 1 t.destAddress.bytes (by decide)
    (by decide) (by omega)
  have h5 := scalarField_length_le 5 t.value.toNat 10 (by decide) (by decide)
    (by omega)
  have h6 := scalarField_length_le 6 t.fee.toNat 5 (by decide) (by decide)
    (by omega)
  have h7 := bytesField_length_le 7 1 t.signature.bytes (by decide)
    (by decide) (by omega)
  rw [encodeTransaction, transactionEntries]
  simp only [encode_append, List.length_append]
  omega

theorem encodeBatch_length_le {b : PbTransactionBatch}
    (h : ∀ t ∈ b.transactions, (encodeTransaction t).length ≤ 128) :
    (encodeBatch b).length ≤ 131 * b.transactions.length + 6 := by
  have hlist : ∀ ts : List PbTransaction, (∀ t ∈ ts, (encodeTransaction t).length ≤ 128) →
      (encode (ts.map fun t => ⟨1, .bytes (encodeTransaction t)⟩)).length ≤ 131 * ts.length := by
    intro ts
    induction ts with
    | nil => exact fun _ => le_refl 0
    | cons t ts ih =>
      intro hts
      have hrest := ih fun x hx => hts x (List.mem_cons_of_mem _ hx)
      have hhead := hts t List.mem_cons_self
      have htag : (varint (1 * 8 + 2)).length = 1 := tag_length 1 2 (by decide)
      have hlen := varint_length_le 2 (encodeTransaction t).length (by decide) (by omega)
      rw [encode] at hrest ⊢
      rw [List.map_cons, List.flatMap_cons, encodeEntry, List.length_append, List.length_append,
        List.length_append, htag, List.length_cons]
      omega
  have hcount := b.count.toNat_lt
  have hscalar := scalarField_length_le 2 b.count.toNat 5 (by decide)
    (by decide) (by omega)
  have htransactions := hlist b.transactions h
  rw [encodeBatch, batchEntries, encode_append, List.length_append]
  omega

theorem setBatchField_length {b b' : PbTransactionBatch} {e : Entry} (h : setBatchField b e = some b') :
    b'.transactions.length ≤ b.transactions.length + 1 := by
  unfold setBatchField at h
  split at h
  · obtain ⟨t, -, rfl⟩ := Option.map_eq_some_iff.mp h
    rw [List.length_append, List.length_singleton]
  · cases h
    exact Nat.le_succ _
  · split at h
    · cases h
    · cases h
      exact Nat.le_succ _

theorem decodeBatch_length {bytes : List UInt8} {b : PbTransactionBatch} (h : decodeBatch bytes = some b) :
    2 * b.transactions.length ≤ bytes.length := by
  have hfold : ∀ (es : List Entry) (b b' : PbTransactionBatch), es.foldlM setBatchField b = some b' →
      b'.transactions.length ≤ b.transactions.length + es.length := by
    intro es
    induction es with
    | nil =>
      intro b b' h
      cases h
      exact le_refl _
    | cons e es ih =>
      intro b b' h
      rw [List.foldlM_cons] at h
      obtain ⟨b₁, hset, hrest⟩ := Option.bind_eq_some_iff.mp h
      have hhead := setBatchField_length hset
      have htail := ih b₁ b' hrest
      rw [List.length_cons]
      omega
  obtain ⟨es, hes, hb⟩ := Option.bind_eq_some_iff.mp h
  have hcount := hfold es _ _ hb
  have hbytes := decode_length hes
  rw [pbTransactionBatchInit, List.length_nil] at hcount
  omega

/-! ## The library -/

structure ProtobufC (M : Type) where
  getPackedSize : M → ℕ
  pack : M → List UInt8
  unpack : List UInt8 → Option M

/-- What protobuf-c is documented to do with messages of less than 64 MiB: it packs the wire form, and
unpacks whatever is one. Other input may unpack to anything or not at all. -/
structure ProtobufC.Conforms {M : Type} (P : ProtobufC M) (encode : M → List UInt8)
    (decode : List UInt8 → Option M) : Prop where
  getPackedSize_eq : ∀ m, (encode m).length < 2 ^ 26 → P.getPackedSize m = (encode m).length
  pack_eq : ∀ m, (encode m).length < 2 ^ 26 → P.pack m = encode m
  unpack_eq : ∀ bytes m, bytes.length < 2 ^ 26 → decode bytes = some m → P.unpack bytes = some m

def batchCodec : ProtobufC PbTransactionBatch where
  getPackedSize := fun b => (encodeBatch b).length
  pack := encodeBatch
  unpack := decodeBatch

theorem batchCodec_conforms : batchCodec.Conforms encodeBatch decodeBatch :=
  ⟨fun _ _ => rfl, fun _ _ => rfl, fun _ _ _ h => h⟩

end ShardingSim
