import ShardingSim.Transaction

/-! What `transaction_create` returns, over all outcomes of the calls that `transaction_sign` makes. Of its
exits only the one for a failed `EVP_MD_CTX_new` leaves the signature zero; there the transaction is returned
all the same, the result of `transaction_sign` being dropped. -/
namespace ShardingSim
open ByteBuffer Blake3
set_option autoImplicit false

variable {Key : Type}

/-! ## The bytes of a signature -/

/-- The digest of the bytes, and half of the digest of that. -/
def twoDigests (combined : List UInt8) : List UInt8 := blake3 combined ++ (blake3 (blake3 combined)).take 16

def cutOrPad (sigBuf : List UInt8) : List UInt8 := sigBuf.take 48 ++ List.replicate (48 - sigBuf.length) 0

/-- What is stored in the 48 bytes, and where. -/
def twoRoundsPieces (combined : List UInt8) : List (ℕ × List UInt8) :=
  [(0, blake3 combined), (32, (blake3 (blake3 combined)).take 16)]

def paddedPieces (sigBuf : List UInt8) : List (ℕ × List UInt8) :=
  if sigBuf.length ≥ 48 then [(0, sigBuf.take 48)]
  else [(0, sigBuf), (sigBuf.length, List.replicate (48 - sigBuf.length) 0)]

theorem twoRoundsPieces_tile (combined : List UInt8) : Tiles 0 (twoRoundsPieces combined) 48 := by
  refine ⟨rfl, ?_, ?_⟩
  · rw [blake3_length]
  · rw [blake3_length, List.length_take, blake3_length]
    rfl

theorem paddedPieces_tile (sigBuf : List UInt8) : Tiles 0 (paddedPieces sigBuf) 48 := by
  unfold paddedPieces
  split
  · rename_i hlong
    refine ⟨rfl, ?_⟩
    rw [List.length_take_of_le hlong]
    rfl
  · rename_i hshort
    refine ⟨rfl, (Nat.zero_add _).symm, ?_⟩
    rw [List.length_replicate]
    show 0 + sigBuf.length + (48 - sigBuf.length) = 48
    omega

theorem twoRounds_eq_writes (signature : Vector UInt8 48) (combined : List UInt8) :
    twoRounds signature combined = writes signature (twoRoundsPieces combined) := rfl

theorem paddedSignature_eq_writes (signature : Vector UInt8 48) (sigBuf : List UInt8) :
    paddedSignature signature sigBuf = writes signature (paddedPieces sigBuf) := by
  unfold paddedSignature paddedPieces
  split <;> rfl

theorem toList_twoRounds (signature : Vector UInt8 48) (combined : List UInt8) :
    (twoRounds signature combined).toList = twoDigests combined := by
  rw [twoRounds_eq_writes, toList_writes _ (twoRoundsPieces_tile combined), twoRoundsPieces]
  simp [twoDigests]

theorem toList_paddedSignature (signature : Vector UInt8 48) (sigBuf : List UInt8) :
    (paddedSignature signature sigBuf).toList = cutOrPad sigBuf := by
  rw [paddedSignature_eq_writes, toList_writes _ (paddedPieces_tile sigBuf), paddedPieces, cutOrPad]
  split
  · rename_i hlong
    simp [hlong]
  · rename_i hshort
    rw [List.take_of_length_le (by omega)]
    simp

/-! ## Signatures that are not zero -/

theorem isZero_append (a b : List UInt8) : isZero (a ++ b) = (isZero a && isZero b) := List.all_append

theorem twoRounds_ne_zero (signature : Vector UInt8 48) {combined : List UInt8}
    (h : isZero (blake3 combined) = false) : twoRounds signature combined ≠ Vector.replicate 48 0 := by
  rw [ne_eq, ← isZero_toList, toList_twoRounds, twoDigests, isZero_append, h, Bool.false_and]
  exact Bool.false_ne_true

theorem paddedSignature_ne_zero (signature : Vector UInt8 48) {sigBuf : List UInt8}
    (h : isZero (sigBuf.take 48) = false) : paddedSignature signature sigBuf ≠ Vector.replicate 48 0 := by
  rw [ne_eq, ← isZero_toList, toList_paddedSignature, cutOrPad, isZero_append, h, Bool.false_and]
  exact Bool.false_ne_true

/-! ## Creation -/

/-- The transaction that `transaction_create` hands to `transaction_sign`. -/
def unsignedTransaction (wallet : Wallet Key) (destAddress : Vector UInt8 20) (value : UInt64)
    (fee : UInt32) (nonce : UInt64) (expiryBlock : UInt32) : Transaction where
  nonce := nonce
  expiryBlock := expiryBlock
  sourceAddress := wallet.address
  destAddress := destAddress
  value := value
  fee := fee
  signature := Vector.replicate 48 0

def SignCalls.succeed (calls : SignCalls) : Bool :=
  calls.ctxNew && calls.init && calls.update && calls.finalLen && calls.malloc && calls.final

/-- The bytes of a wallet without key text that are hashed to a signature, and those hashed when a call
fails. -/
def demoBytes (tx : Transaction) (wallet : Wallet Key) : List UInt8 :=
  wallet.address.toList ++ transactionComputeHash tx ++
    (wallet.address.toList.take 12 ++ List.replicate 20 0)

def fallbackBytes (tx : Transaction) (wallet : Wallet Key) : List UInt8 :=
  wallet.address.toList ++ transactionComputeHash tx

/-! The four ways through `transaction_sign`. -/

theorem transactionSign_demo (tx : Transaction) {wallet : Wallet Key} (calls : SignCalls)
    (hpem : wallet.privateKeyPem.chars.length = 0) : transactionSign tx wallet calls =
      (true, { tx with signature := twoRounds tx.signature (demoBytes tx wallet) }) := by
  unfold transactionSign
  dsimp only
  rw [if_pos hpem]
  rfl

theorem transactionSign_noContext (tx : Transaction) {wallet : Wallet Key} {calls : SignCalls}
    (hpem : wallet.privateKeyPem.chars.length ≠ 0) (hctx : calls.ctxNew = false) :
    transactionSign tx wallet calls = (false, tx) := by
  unfold transactionSign
  dsimp only
  rw [if_neg hpem, hctx, Bool.not_false, if_pos rfl]

theorem transactionSign_openssl (tx : Transaction) {wallet : Wallet Key} {calls : SignCalls}
    (hpem : wallet.privateKeyPem.chars.length ≠ 0) (hsucceed : calls.succeed = true) :
    transactionSign tx wallet calls =
      (true, { tx with signature := paddedSignature tx.signature calls.sigBuf }) := by
  simp only [SignCalls.succeed, Bool.and_eq_true] at hsucceed
  simp [transactionSign, hpem, hsucceed]

theorem transactionSign_fallback (tx : Transaction) {wallet : Wallet Key} {calls : SignCalls}
    (hpem : wallet.privateKeyPem.chars.length ≠ 0) (hctx : calls.ctxNew = true) (hfails : calls.succeed = false) :
    transactionSign tx wallet calls =
      (true, { tx with signature := twoRounds tx.signature (fallbackBytes tx wallet) }) := by
  rw [SignCalls.succeed, hctx, Bool.true_and] at hfails
  unfold transactionSign
  dsimp only
  rw [if_neg hpem, hctx, hfails]
  rfl

/-- No signature that is made is zero: neither the digest nor what OpenSSL returns, cut to 48 bytes. -/
structure SignatureBytes (tx : Transaction) (wallet : Wallet Key) (calls : SignCalls) : Prop where
  demo : wallet.privateKeyPem.chars.length = 0 → isZero (blake3 (demoBytes tx wallet)) = false
  fallback : wallet.privateKeyPem.chars.length ≠ 0 → calls.ctxNew = true → calls.succeed = false →
    isZero (blake3 (fallbackBytes tx wallet)) = false
  openssl : calls.succeed = true → isZero (calls.sigBuf.take 48) = false

/-- `transaction_sign` succeeds exactly if the signature it leaves is not zero. -/
theorem transactionSign_spec {tx : Transaction} {wallet : Wallet Key} {calls : SignCalls}
    (h : SignatureBytes tx wallet calls) :
    (wallet.privateKeyPem.chars.length = 0 ∨ calls.ctxNew = true →
      (transactionSign tx wallet calls).1 = true ∧
        (transactionSign tx wallet calls).2.signature ≠ Vector.replicate 48 0) ∧
    (wallet.privateKeyPem.chars.length ≠ 0 → calls.ctxNew = false →
      transactionSign tx wallet calls = (false, tx)) := by
  refine ⟨fun hcond => ?_, transactionSign_noContext tx⟩
  by_cases hpem : wallet.privateKeyPem.chars.length = 0
  · rw [transactionSign_demo tx calls hpem]
    exact ⟨rfl, twoRounds_ne_zero _ (h.demo hpem)⟩
  · have hctx : calls.ctxNew = true := hcond.resolve_left hpem
    cases hsucceed : calls.succeed with
    | true =>
      rw [transactionSign_openssl tx hpem hsucceed]
      exact ⟨rfl, paddedSignature_ne_zero _ (h.openssl hsucceed)⟩
    | false =>
      rw [transactionSign_fallback tx hpem hctx hsucceed]
      exact ⟨rfl, twoRounds_ne_zero _ (h.fallback hpem hctx hsucceed)⟩

section Create
variable (wallet : Wallet Key) (destAddress : Vector UInt8 20) (value : UInt64) (fee : UInt32) (nonce : UInt64)
  (expiryBlock : UInt32) (calls : SignCalls)

theorem transactionCreate_eq_sign : transactionCreate wallet destAddress value fee nonce expiryBlock calls =
    (transactionSign (unsignedTransaction wallet destAddress value fee nonce expiryBlock) wallet calls).2 := rfl

/-- The transaction returned is accepted; it is returned whatever `transaction_sign` says, so that none is
returned for a failure only if there is no failure. -/
def ReturnsSigned : Prop :=
  transactionVerify (transactionCreate wallet destAddress value fee nonce expiryBlock calls) = true ∧
    (transactionSign (unsignedTransaction wallet destAddress value fee nonce expiryBlock) wallet calls).1 = true

/-- **No unsigned transaction is returned, unless `EVP_MD_CTX_new` fails.** A wallet without key text does
not get that far. -/
theorem transactionCreate_signed_iff
    (h : SignatureBytes (unsignedTransaction wallet destAddress value fee nonce expiryBlock) wallet calls) :
    ReturnsSigned wallet destAddress value fee nonce expiryBlock calls ↔
      wallet.privateKeyPem.chars.length = 0 ∨ calls.ctxNew = true := by
  obtain ⟨hsigned, hfails⟩ := transactionSign_spec h
  rw [ReturnsSigned, transactionCreate_eq_sign]
  constructor
  · rintro ⟨-, hok⟩
    by_contra hcond
    rw [not_or, Bool.not_eq_true] at hcond
    rw [hfails hcond.1 hcond.2] at hok
    exact Bool.false_ne_true hok
  · intro hcond
    obtain ⟨hok, hne⟩ := hsigned hcond
    exact ⟨(transactionVerify_iff _).mpr (Or.inr hne), hok⟩

end Create

/-! ## A wallet with a key -/

def keyWallet : Wallet Unit := { zeroWallet with privateKeyPem := safeStrcpy 2047 (ascii "KEY") }

def derSignature : List UInt8 := [0x30, 0x06, 0x02, 0x01, 0x2a, 0x02, 0x01, 0x2b]

theorem transactionCreate_signed_key : ReturnsSigned keyWallet (Vector.replicate 20 7) 10 1 0 1000
    ⟨true, true, true, true, true, true, derSignature⟩ := by
  refine (transactionCreate_signed_iff keyWallet _ _ _ _ _ _ ⟨fun hpem => ?_, fun _ _ hfail => ?_, ?_⟩).mpr
    (Or.inr rfl)
  · exact absurd hpem (by decide)
  · exact absurd hfail (by decide)
  · exact fun _ => by decide

/-- Without memory for the context the transaction comes back unsigned. -/
theorem transactionCreate_unsigned : ¬ ∀ (wallet : Wallet Unit) (destAddress : Vector UInt8 20)
    (value : UInt64) (fee : UInt32) (nonce : UInt64) (expiryBlock : UInt32) (calls : SignCalls),
    SignatureBytes (unsignedTransaction wallet destAddress value fee nonce expiryBlock) wallet calls →
      ReturnsSigned wallet destAddress value fee nonce expiryBlock calls := by
  intro h
  have hpem : keyWallet.privateKeyPem.chars.length ≠ 0 := by decide
  have hbytes : SignatureBytes (unsignedTransaction keyWallet (Vector.replicate 20 7) 10 1 0 1000) keyWallet
      ⟨false, true, true, true, true, true, derSignature⟩ :=
    ⟨fun hzero => absurd hzero hpem, fun _ hctx => absurd hctx Bool.false_ne_true,
      fun hsucceed => absurd hsucceed Bool.false_ne_true⟩
  have hok := (h keyWallet (Vector.replicate 20 7) 10 1 0 1000 _ hbytes).2
  rw [(transactionSign_spec hbytes).2 hpem rfl] at hok
  exact Bool.false_ne_true hok

end ShardingSim
