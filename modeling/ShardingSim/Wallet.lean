import ShardingSim.Common

/-! `Wallet` of `include/wallet.h` with its creation and its address utilities. What OpenSSL computes is a
parameter: the two hash functions (`Digests`), and what the calls of one key generation return
(`KeyCalls`, `PublicKeyCall`). -/
namespace ShardingSim
set_option autoImplicit false

variable {Key : Type}

/-- `Key` stands for the keys behind `EVP_PKEY*`; `none` is the null pointer. -/
structure Wallet (Key : Type) where
  name : CharArray 64
  address : Vector UInt8 20
  addressHex : CharArray 41
  publicKey : Vector UInt8 65
  publicKeyLen : ℕ
  evpKey : Option Key
  privateKeyPem : CharArray 2048
  nonce : UInt64

theorem nameSize_pos : 0 < 64 := by decide

theorem addressHexSize_pos : 0 < 41 := by decide

theorem pemSize_pos : 0 < 2048 := by decide

def zeroWallet : Wallet Key where
  name := CharArray.empty 64 nameSize_pos
  address := Vector.replicate 20 0
  addressHex := CharArray.empty 41 addressHexSize_pos
  publicKey := Vector.replicate 65 0
  publicKeyLen := 0
  evpKey := none
  privateKeyPem := CharArray.empty 2048 pemSize_pos
  nonce := 0

structure Digests where
  sha256 : List UInt8 → Vector UInt8 32
  ripemd160 : List UInt8 → Vector UInt8 20

def hash160 (D : Digests) (data : List UInt8) : Vector UInt8 20 := D.ripemd160 (D.sha256 data).toList

/-! ## Addresses -/

theorem notMem_bytesToHexBuf {c : UInt8} (hc : hexCharValue c = none) (bytes : List UInt8) :
    c ∉ bytesToHexBuf bytes := by
  have hdigit : ∀ d : UInt8, hexChar d ≠ c := by
    intro d h
    have hvalue := hexCharValue_hexChar d
    rw [h, hc] at hvalue
    exact absurd hvalue.symm (Option.some_ne_none _)
  intro h
  obtain ⟨b, -, hb⟩ := List.mem_flatMap.mp h
  cases hb with
  | head => exact hdigit _ rfl
  | tail _ hb => exact hdigit _ (List.mem_singleton.mp hb).symm

def addressToHex (address : Vector UInt8 20) : CharArray 41 where
  chars := bytesToHexBuf address.toList
  length_lt := by
    rw [bytesToHexBuf_length, Vector.length_toList]
    decide
  noZero := notMem_bytesToHexBuf (by decide) _

def hexToAddress (hex : List UInt8) (address : Vector UInt8 20) : Bool × Vector UInt8 20 :=
  if hex.length ≠ 40 then (false, address) else hexToBytesBuf hex address

theorem addressToHex_length (address : Vector UInt8 20) : (addressToHex address).chars.length = 40 := by
  rw [addressToHex, bytesToHexBuf_length, Vector.length_toList]

theorem hexToAddress_addressToHex (address dst : Vector UInt8 20) :
    hexToAddress (addressToHex address).chars dst = (true, address) := by
  rw [hexToAddress, if_neg (not_not.mpr (addressToHex_length address))]
  exact hexToBytesBuf_bytesToHexBuf dst address

def walletDeriveAddress (D : Digests) (pubkey : Vector UInt8 65) (len : ℕ) : Vector UInt8 20 :=
  hash160 D (pubkey.toList.take len)

def walletNameToAddress (D : Digests) (name : List UInt8) : Vector UInt8 20 := hash160 D name

def walletIsHexAddress (str : List UInt8) : Bool :=
  if str.length ≠ 40 then false else
    str.all fun c => (ch '0' ≤ c && c ≤ ch '9') || (ch 'a' ≤ c && c ≤ ch 'f') || (ch 'A' ≤ c && c ≤ ch 'F')

/-- `wallet_parse_address` of a non-null string. -/
def walletParseAddress (D : Digests) (str : List UInt8) (address : Vector UInt8 20) :
    Bool × Vector UInt8 20 :=
  if walletIsHexAddress str then hexToAddress str address else (true, walletNameToAddress D str)

/-! ## Creation -/

/-- What the calls of one key generation return: the context, the two set-up calls, the key, and the
text read back from the memory BIO, if there is one. -/
structure KeyCalls (Key : Type) where
  ctxNew : Bool
  keygenInit : Bool
  setCurve : Bool
  keygen : Option Key
  bioRead : Option (List UInt8)

def KeyCalls.key (calls : KeyCalls Key) : Option Key :=
  if calls.ctxNew && calls.keygenInit && calls.setCurve then calls.keygen else none

/-- What `EVP_PKEY_get_octet_string_param` returns, and the buffer and length it leaves. -/
structure PublicKeyCall where
  ok : Bool
  publicKey : Vector UInt8 65
  pkLen : ℕ
  pkLen_le : pkLen ≤ 65

def walletCreate (D : Digests) (calls : KeyCalls Key) (pub : PublicKeyCall) : Option (Wallet Key) :=
  match calls.key with
  | none => none
  | some key =>
    let pkLen := if pub.ok then pub.pkLen else 65
    let publicKeyLen := if pkLen > 0 then pkLen else 65
    let address := walletDeriveAddress D pub.publicKey publicKeyLen
    some { (zeroWallet : Wallet Key) with
      evpKey := some key
      publicKey := pub.publicKey
      publicKeyLen := publicKeyLen
      address := address
      addressHex := addressToHex address
      nonce := 0
      privateKeyPem := safeStrcpy 2047 (calls.bioRead.getD []) }

def walletCreateNamed (D : Digests) (calls : KeyCalls Key) (name : List UInt8) : Option (Wallet Key) :=
  match calls.key with
  | none => none
  | some key =>
    let address := walletNameToAddress D name
    some { (zeroWallet : Wallet Key) with
      name := safeStrcpy 63 name
      evpKey := some key
      address := address
      addressHex := addressToHex address
      publicKeyLen := 65
      nonce := 0
      privateKeyPem := safeStrcpy 2047 (calls.bioRead.getD []) }

/-- The name enters the address and nothing else but the name itself; the key text is OpenSSL's. -/
theorem walletCreateNamed_eq {D : Digests} {calls : KeyCalls Key} {name : List UInt8} {wallet : Wallet Key}
    (h : walletCreateNamed D calls name = some wallet) :
    wallet.name = safeStrcpy 63 name ∧ wallet.address = hash160 D name ∧
      wallet.addressHex = addressToHex wallet.address ∧
      wallet.privateKeyPem = safeStrcpy 2047 (calls.bioRead.getD []) := by
  unfold walletCreateNamed at h
  split at h
  · cases h
  · obtain rfl := Option.some.inj h
    exact ⟨rfl, rfl, rfl, rfl⟩

def walletSetNonce (wallet : Wallet Key) (nonce : UInt64) : Wallet Key := { wallet with nonce := nonce }

/-- The nonce returned, and the wallet with the next one. -/
def walletGetNextNonce (wallet : Wallet Key) : UInt64 × Wallet Key :=
  (wallet.nonce, { wallet with nonce := wallet.nonce + 1 })

end ShardingSim
