import ShardingSim.Wallet
import ShardingSim.Blake3.Hasher

/-! `Transaction` of `include/transaction.h`: creation, hash, signature and the checks on it. What the
OpenSSL calls of one signature return is a parameter (`SignCalls`). -/
namespace ShardingSim
open ByteBuffer Blake3
set_option autoImplicit false

variable {Key : Type}

@[ext] structure Transaction where
  nonce : UInt64
  expiryBlock : UInt32
  sourceAddress : Vector UInt8 20
  destAddress : Vector UInt8 20
  value : UInt64
  fee : UInt32
  signature : Vector UInt8 48
deriving DecidableEq

def zeroTransaction : Transaction where
  nonce := 0
  expiryBlock := 0
  sourceAddress := Vector.replicate 20 0
  destAddress := Vector.replicate 20 0
  value := 0
  fee := 0
  signature := Vector.replicate 48 0

def coinbaseAddress : Vector UInt8 20 := write (Vector.replicate 20 0) 0 (ascii "COINBASE")

/-! ## Hash -/

/-- The bytes of an unsigned integer of `n` bytes in memory, lowest first. -/
def leBytes (n x : ℕ) : List UInt8 := (List.range n).map fun i => UInt8.ofNat (x / 256 ^ i)

/-- The 64 bytes that are hashed: all fields but the signature. -/
def hashedBytes (tx : Transaction) : List UInt8 :=
  leBytes 8 tx.nonce.toNat ++ leBytes 4 tx.expiryBlock.toNat ++ tx.sourceAddress.toList ++
    tx.destAddress.toList ++ leBytes 8 tx.value.toNat ++ leBytes 4 tx.fee.toNat

def transactionComputeHash (tx : Transaction) : List UInt8 := blake3Truncated (hashedBytes tx) 28

/-! ## Signature -/

/-- The signature made of two rounds of BLAKE3, written over the old one. -/
def twoRounds (signature : Vector UInt8 48) (combined : List UInt8) : Vector UInt8 48 :=
  let hash1 := blake3 combined
  let hash2 := blake3 hash1
  write (write signature 0 hash1) 32 (hash2.take 16)

def paddedSignature (signature : Vector UInt8 48) (sigBuf : List UInt8) : Vector UInt8 48 :=
  if sigBuf.length ≥ 48 then write signature 0 (sigBuf.take 48)
  else write (write signature 0 sigBuf) sigBuf.length (List.replicate (48 - sigBuf.length) 0)

/-- What the calls of one signature return; `sigBuf` are the bytes of the final signature. -/
structure SignCalls where
  ctxNew : Bool
  init : Bool
  update : Bool
  finalLen : Bool
  malloc : Bool
  final : Bool
  sigBuf : List UInt8

/-- `transaction_sign` of a non-null transaction and wallet. -/
def transactionSign (tx : Transaction) (wallet : Wallet Key) (calls : SignCalls) : Bool × Transaction :=
  let txHash := transactionComputeHash tx
  let address := wallet.address.toList
  if wallet.privateKeyPem.chars.length = 0 then
    (true, { tx with
      signature := twoRounds tx.signature
        (address ++ txHash ++ (address.take 12 ++ List.replicate 20 0)) })
  else if !calls.ctxNew then (false, tx)
  else if calls.init && calls.update && calls.finalLen && calls.malloc && calls.final then
    (true, { tx with signature := paddedSignature tx.signature calls.sigBuf })
  else (true, { tx with signature := twoRounds tx.signature (address ++ txHash) })

/-- `transaction_verify`: anything but zeros is a signature. -/
def transactionVerify (tx : Transaction) : Bool :=
  if tx.sourceAddress = coinbaseAddress then true else !isZero tx.signature.toList

theorem transactionVerify_iff (tx : Transaction) : transactionVerify tx = true ↔
    tx.sourceAddress = coinbaseAddress ∨ tx.signature ≠ Vector.replicate 48 0 := by
  rw [transactionVerify]
  split
  · rename_i hcoinbase
    exact iff_of_true rfl (Or.inl hcoinbase)
  · rename_i hcoinbase
    rw [Bool.not_eq_true', Bool.eq_false_iff, ne_eq, isZero_toList, or_iff_right hcoinbase]

/-! ## Creation -/

/-- `transaction_create`, which drops the result of the signature. -/
def transactionCreate (wallet : Wallet Key) (destAddress : Vector UInt8 20) (value : UInt64) (fee : UInt32)
    (nonce : UInt64) (expiryBlock : UInt32) (calls : SignCalls) : Transaction :=
  let tx : Transaction :=
    { nonce := nonce
      expiryBlock := expiryBlock
      sourceAddress := wallet.address
      destAddress := destAddress
      value := value
      fee := fee
      signature := Vector.replicate 48 0 }
  (transactionSign tx wallet calls).2

/-- `transaction_create_from_address`, with a signature that needs no wallet. -/
def transactionCreateFromAddress (sourceAddress destAddress : Vector UInt8 20) (value : UInt64) (fee : UInt32)
    (nonce : UInt64) (expiryBlock : UInt32) : Transaction :=
  let tx : Transaction :=
    { nonce := nonce
      expiryBlock := expiryBlock
      sourceAddress := sourceAddress
      destAddress := destAddress
      value := value
      fee := fee
      signature := Vector.replicate 48 0 }
  { tx with signature := twoRounds tx.signature (sourceAddress.toList ++ transactionComputeHash tx) }

theorem transactionSign_eq (tx : Transaction) (wallet : Wallet Key) (calls : SignCalls) :
    ∃ signature, (transactionSign tx wallet calls).2 = { tx with signature := signature } := by
  unfold transactionSign
  dsimp only
  split
  · exact ⟨_, rfl⟩
  · split
    · exact ⟨tx.signature, rfl⟩
    · split <;> exact ⟨_, rfl⟩

theorem transactionCreate_eq (wallet : Wallet Key) (destAddress : Vector UInt8 20) (value : UInt64)
    (fee : UInt32) (nonce : UInt64) (expiryBlock : UInt32) (calls : SignCalls) :
    ∃ signature, transactionCreate wallet destAddress value fee nonce expiryBlock calls =
      { nonce := nonce
        expiryBlock := expiryBlock
        sourceAddress := wallet.address
        destAddress := destAddress
        value := value
        fee := fee
        signature := signature } := by
  obtain ⟨signature, h⟩ := transactionSign_eq
    { nonce := nonce
      expiryBlock := expiryBlock
      sourceAddress := wallet.address
      destAddress := destAddress
      value := value
      fee := fee
      signature := Vector.replicate 48 0 } wallet calls
  exact ⟨signature, h⟩

end ShardingSim
