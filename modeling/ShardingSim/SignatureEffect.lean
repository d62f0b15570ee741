import ShardingSim.Blake3.Conformance
import ShardingSim.Signing

/-! What `transaction_sign` changes (`transactionSign_effect`). Of a transaction it reads all fields but the
signature, and writes the signature only, all of it or none. -/
namespace ShardingSim
open ByteBuffer Blake3
set_option autoImplicit false

variable {Key : Type}

/-! ## What is written -/

/-- The signature is made without OpenSSL: the wallet has no key text, or a call after `EVP_MD_CTX_new`
fails. -/
def DeterministicPath (wallet : Wallet Key) (calls : SignCalls) : Prop :=
  wallet.privateKeyPem.chars.length = 0 ∨ calls.ctxNew = true ∧ calls.succeed = false

/-- What is stored in the signature, and where; nothing if there is no context. -/
def signaturePieces (tx : Transaction) (wallet : Wallet Key) (calls : SignCalls) : List (ℕ × List UInt8) :=
  if wallet.privateKeyPem.chars.length = 0 then twoRoundsPieces (demoBytes tx wallet)
  else if !calls.ctxNew then []
  else if calls.succeed then paddedPieces calls.sigBuf
  else twoRoundsPieces (fallbackBytes tx wallet)

/-- `transaction_sign` fails only for want of a context. -/
def signs (wallet : Wallet Key) (calls : SignCalls) : Bool :=
  decide (wallet.privateKeyPem.chars.length = 0) || calls.ctxNew

theorem transactionSign_eq_writes (tx : Transaction) (wallet : Wallet Key) (calls : SignCalls) :
    transactionSign tx wallet calls =
      (signs wallet calls, { tx with signature := writes tx.signature (signaturePieces tx wallet calls) }) := by
  by_cases hpem : wallet.privateKeyPem.chars.length = 0
  · rw [transactionSign_demo tx calls hpem, twoRounds_eq_writes]
    simp [signs, signaturePieces, hpem]
  · cases hctx : calls.ctxNew with
    | false =>
      rw [transactionSign_noContext tx hpem hctx]
      simp [signs, signaturePieces, hpem, hctx, writes]
    | true =>
      cases hsucceed : calls.succeed with
      | true =>
        rw [transactionSign_openssl tx hpem hsucceed, paddedSignature_eq_writes]
        simp [signs, signaturePieces, hpem, hctx, hsucceed]
      | false =>
        rw [transactionSign_fallback tx hpem hctx hsucceed, twoRounds_eq_writes]
        simp [signs, signaturePieces, hpem, hctx, hsucceed]

theorem transactionSign_ok (tx : Transaction) (wallet : Wallet Key) (calls : SignCalls) :
    (transactionSign tx wallet calls).1 = signs wallet calls := by
  rw [transactionSign_eq_writes]

theorem signaturePieces_tile (tx : Transaction) {wallet : Wallet Key} {calls : SignCalls}
    (h : signs wallet calls = true) : Tiles 0 (signaturePieces tx wallet calls) 48 := by
  unfold signaturePieces
  split
  · exact twoRoundsPieces_tile _
  · rename_i hpem
    rw [signs, decide_eq_false hpem, Bool.false_or] at h
    rw [h, Bool.not_true, if_neg Bool.false_ne_true]
    split
    · exact paddedPieces_tile _
    · exact twoRoundsPieces_tile _

theorem signaturePieces_fails {tx : Transaction} {wallet : Wallet Key} {calls : SignCalls}
    (h : signs wallet calls = false) : signaturePieces tx wallet calls = [] := by
  rw [signs, Bool.or_eq_false_iff, decide_eq_false_iff_not] at h
  rw [signaturePieces, if_neg h.1, h.2]
  rfl

/-! ## What is read -/

theorem transactionComputeHash_signature (tx : Transaction) (signature : Vector UInt8 48) :
    transactionComputeHash { tx with signature := signature } = transactionComputeHash tx := rfl

theorem signaturePieces_signature (tx : Transaction) (signature : Vector UInt8 48) (wallet : Wallet Key)
    (calls : SignCalls) :
    signaturePieces { tx with signature := signature } wallet calls = signaturePieces tx wallet calls := rfl

/-- Where it succeeds, `transaction_sign` does not depend on the signature it overwrites. -/
theorem transactionSign_signature (tx : Transaction) (signature : Vector UInt8 48) {wallet : Wallet Key}
    {calls : SignCalls} (h : signs wallet calls = true) :
    transactionSign { tx with signature := signature } wallet calls = transactionSign tx wallet calls := by
  have htile := signaturePieces_tile tx h
  have hwrites : writes signature (signaturePieces tx wallet calls) =
      writes tx.signature (signaturePieces tx wallet calls) := by
    apply Vector.toList_inj.mp
    rw [toList_writes _ htile, toList_writes _ htile]
  rw [transactionSign_eq_writes, transactionSign_eq_writes, signaturePieces_signature, hwrites]

theorem DeterministicPath.signs {wallet : Wallet Key} {calls : SignCalls} (h : DeterministicPath wallet calls) :
    signs wallet calls = true := by
  rw [ShardingSim.signs, Bool.or_eq_true, decide_eq_true_iff]
  exact h.imp_right And.left

theorem signaturePieces_deterministic (tx : Transaction) {wallet : Wallet Key} {calls calls' : SignCalls}
    (h : DeterministicPath wallet calls) (h' : DeterministicPath wallet calls') :
    signaturePieces tx wallet calls' = signaturePieces tx wallet calls := by
  unfold signaturePieces
  by_cases hpem : wallet.privateKeyPem.chars.length = 0
  · rw [if_pos hpem, if_pos hpem]
  · obtain ⟨hctx, hfails⟩ := h.resolve_left hpem
    obtain ⟨hctx', hfails'⟩ := h'.resolve_left hpem
    simp only [hctx, hfails, hctx', hfails', Bool.not_true, Bool.false_eq_true, if_false]

/-- **Signing touches only the signature.** It fills all 48 bytes or fails and changes nothing, and neither
the hash that is signed nor a signature that is made depends on the signature before. -/
theorem transactionSign_effect (tx : Transaction) (wallet : Wallet Key) (calls : SignCalls) :
    (transactionSign tx wallet calls).2 =
        { tx with signature := writes tx.signature (signaturePieces tx wallet calls) } ∧
      ((transactionSign tx wallet calls).1 = false → (transactionSign tx wallet calls).2 = tx) ∧
      ((transactionSign tx wallet calls).1 = true → Tiles 0 (signaturePieces tx wallet calls) 48 ∧
        ∀ old, transactionSign { tx with signature := old } wallet calls = transactionSign tx wallet calls) ∧
      transactionComputeHash (transactionSign tx wallet calls).2 = transactionComputeHash tx ∧
      (DeterministicPath wallet calls → ∀ calls', DeterministicPath wallet calls' →
        transactionSign (transactionSign tx wallet calls).2 wallet calls' = transactionSign tx wallet calls) ∧
      ∀ (openssl : List UInt8 → SignCalls) (old : Vector UInt8 48),
        let signed := transactionSign tx wallet (openssl (transactionComputeHash tx))
        let signed' := transactionSign { tx with signature := old } wallet
          (openssl (transactionComputeHash { tx with signature := old }))
        signed'.1 = signed.1 ∧ (signed.1 = true → signed' = signed) := by
  have hresult := transactionSign_eq_writes tx wallet calls
  refine ⟨by rw [hresult], fun hfails => ?_, fun hsigns => ?_, by rw [hresult]; rfl, fun hpath calls' hpath' => ?_,
    fun openssl old => ?_⟩
  · rw [transactionSign_ok] at hfails
    rw [hresult, signaturePieces_fails hfails]
    rfl
  · rw [transactionSign_ok] at hsigns
    exact ⟨signaturePieces_tile tx hsigns, fun old => transactionSign_signature tx old hsigns⟩
  · have hagain : transactionSign tx wallet calls' = transactionSign tx wallet calls := by
      rw [hresult, transactionSign_eq_writes, signaturePieces_deterministic tx hpath hpath', hpath.signs,
        hpath'.signs]
    rw [hresult, transactionSign_signature tx _ hpath'.signs, hagain, hresult]
  · refine ⟨?_, fun hsigns => ?_⟩
    · simp only [transactionSign_ok, transactionComputeHash_signature]
    · exact transactionSign_signature tx old ((transactionSign_ok tx wallet _).symm.trans hsigns)

/-! ## Signatures without a key -/

/-- The transaction that `transaction_create_from_address` makes of the fields of another. -/
def createdLike (tx : Transaction) : Transaction :=
  transactionCreateFromAddress tx.sourceAddress tx.destAddress tx.value tx.fee tx.nonce tx.expiryBlock

theorem createdLike_eq (tx : Transaction) : createdLike tx = { tx with
    signature := twoRounds (Vector.replicate 48 0) (tx.sourceAddress.toList ++ transactionComputeHash tx) } := rfl

theorem twoRounds_inj {signature signature' : Vector UInt8 48} {combined combined' : List UInt8} :
    twoRounds signature combined = twoRounds signature' combined' ↔ blake3 combined = blake3 combined' := by
  rw [← Vector.toList_inj, toList_twoRounds, toList_twoRounds, twoDigests, twoDigests]
  constructor
  · intro h
    exact (List.append_inj h (by rw [blake3_length, blake3_length])).1
  · intro h
    rw [h]

/-- **Signatures without a key.** `transaction_create_from_address` and the fallback make the same one, of
address and hash. That of a wallet without key text is made of the same bytes with 32 bytes of padding behind
them, and is the same exactly if the digests of the two are. -/
theorem deterministicSignature (tx : Transaction) (wallet : Wallet Key) (calls : SignCalls)
    (haddress : wallet.address = tx.sourceAddress) :
    (createdLike tx).signature.toList = twoDigests (fallbackBytes tx wallet) ∧
      (wallet.privateKeyPem.chars.length ≠ 0 → calls.ctxNew = true → calls.succeed = false →
        transactionSign tx wallet calls = (true, createdLike tx)) ∧
      (wallet.privateKeyPem.chars.length = 0 →
        (transactionSign tx wallet calls).2.signature.toList = twoDigests (demoBytes tx wallet) ∧
        demoBytes tx wallet = fallbackBytes tx wallet ++ (wallet.address.toList.take 12 ++ List.replicate 20 0) ∧
        (transactionSign tx wallet calls = (true, createdLike tx) ↔
          blake3 (demoBytes tx wallet) = blake3 (fallbackBytes tx wallet))) := by
  have hbytes : tx.sourceAddress.toList ++ transactionComputeHash tx = fallbackBytes tx wallet := by
    rw [fallbackBytes, haddress]
  rw [createdLike_eq, hbytes]
  refine ⟨toList_twoRounds _ _, fun hpem hctx hfails => ?_, fun hpem => ⟨?_, rfl, ?_⟩⟩
  · rw [transactionSign_fallback tx hpem hctx hfails, twoRounds_inj.mpr rfl]
  · rw [transactionSign_demo tx calls hpem, toList_twoRounds]
  · rw [transactionSign_demo tx calls hpem, Prod.mk.injEq, Transaction.mk.injEq, twoRounds_inj]
    simp

def failedInit : SignCalls := ⟨true, false, true, true, true, true, []⟩

theorem deterministicSignature_zero :
    (createdLike zeroTransaction).signature.toList = twoDigests (fallbackBytes zeroTransaction keyWallet) ∧
      transactionSign zeroTransaction keyWallet failedInit = (true, createdLike zeroTransaction) := by
  obtain ⟨hcreated, hfallback, -⟩ := deterministicSignature zeroTransaction keyWallet failedInit rfl
  exact ⟨hcreated, hfallback (by decide) rfl rfl⟩

theorem transactionComputeHash_zero : transactionComputeHash zeroTransaction =
    [228, 42, 36, 163, 35, 71, 227, 71, 75, 157, 107, 94, 43, 76, 163, 114, 19, 113, 97, 171, 241, 24, 218, 231,
      189, 57, 42, 228] := by
  have hbytes : hashedBytes zeroTransaction = List.replicate 64 0 := by decide
  rw [transactionComputeHash, hbytes, blake3Truncated_chunk (by decide)]
  decide +kernel

/-- The two digests of the zero transaction differ in their first byte. -/
theorem deterministicSignatures_differ : ¬ ∀ (tx : Transaction) (wallet keyed : Wallet Unit)
    (calls calls' : SignCalls), wallet.address = tx.sourceAddress → keyed.address = tx.sourceAddress →
      wallet.privateKeyPem.chars.length = 0 → keyed.privateKeyPem.chars.length ≠ 0 → calls'.ctxNew = true →
      calls'.succeed = false →
        (transactionSign tx wallet calls).2.signature = (createdLike tx).signature ∧
          (transactionSign tx keyed calls').2.signature = (createdLike tx).signature := by
  intro h
  have hsame := (h zeroTransaction zeroWallet keyWallet failedInit failedInit rfl rfl rfl (by decide) rfl rfl).1
  rw [transactionSign_demo _ _ rfl, createdLike_eq, twoRounds_inj] at hsame
  have hdemo : (blake3 (demoBytes zeroTransaction (zeroWallet : Wallet Unit))).head? = some 149 := by
    rw [demoBytes, transactionComputeHash_zero, blake3, blake3Truncated_chunk (by decide)]
    decide +kernel
  have hcreated : (blake3 (zeroTransaction.sourceAddress.toList ++
      transactionComputeHash zeroTransaction)).head? = some 128 := by
    rw [transactionComputeHash_zero, blake3, blake3Truncated_chunk (by decide)]
    decide +kernel
  rw [hsame, hcreated] at hdemo
  exact absurd hdemo (by decide)

end ShardingSim
