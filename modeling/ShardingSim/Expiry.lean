import ShardingSim.Generator

/-! Expiry of transactions. `TX_EXPIRY_FROM_NOW` is a sum in 32 bits and its value 0 stands for no expiry, so that a
lifetime is kept exactly if it does not run past that sum (`expiry_law`). What the generator creates lives up to
height 1000 (`createBatch_expired_iff`). -/
namespace ShardingSim
set_option autoImplicit false

variable {Key : Type}

/-! ## Heights -/

def txNoExpiry : UInt32 := 0

/-- `TX_EXPIRY_FROM_NOW` of two `uint32_t`. -/
def txExpiryFromNow (currentBlock blocks : UInt32) : UInt32 := currentBlock + blocks

def transactionIsExpired (tx : Transaction) (currentBlockHeight : UInt32) : Bool :=
  if tx.expiryBlock = 0 then false else currentBlockHeight > tx.expiryBlock

/-- The expiry that `main` computes. -/
def mainExpiry (currentHeight expiryBlocks : UInt32) : UInt32 :=
  if expiryBlocks > 0 then currentHeight + expiryBlocks else 0

theorem transactionIsExpired_iff (tx : Transaction) (height : UInt32) :
    transactionIsExpired tx height = true ↔
      tx.expiryBlock ≠ txNoExpiry ∧ tx.expiryBlock.toNat < height.toNat := by
  rw [transactionIsExpired]
  split
  · rename_i hzero
    exact iff_of_false Bool.false_ne_true fun h => h.1 hzero
  · rename_i hpos
    rw [decide_eq_true_iff, gt_iff_lt, UInt32.lt_iff_toNat_lt]
    exact (and_iff_right hpos).symm

theorem transactionIsExpired_mono {tx : Transaction} {height height' : UInt32} (hle : height ≤ height')
    (h : transactionIsExpired tx height = true) : transactionIsExpired tx height' = true := by
  rw [transactionIsExpired_iff] at h ⊢
  exact ⟨h.1, lt_of_lt_of_le h.2 (UInt32.le_iff_toNat_le.mp hle)⟩

theorem toNat_txExpiryFromNow (currentBlock blocks : UInt32) :
    (txExpiryFromNow currentBlock blocks).toNat = (currentBlock.toNat + blocks.toNat) % 2 ^ 32 :=
  UInt32.toNat_add currentBlock blocks

theorem txExpiryFromNow_eq_iff (currentBlock blocks : UInt32) : txExpiryFromNow currentBlock blocks = txNoExpiry ↔
    (currentBlock.toNat + blocks.toNat) % 2 ^ 32 = 0 := by
  rw [← UInt32.toNat_inj, toNat_txExpiryFromNow]
  rfl

theorem mainExpiry_eq {currentHeight expiryBlocks : UInt32} (h : 0 < expiryBlocks) :
    mainExpiry currentHeight expiryBlocks = txExpiryFromNow currentHeight expiryBlocks := if_pos h

/-! ## Lifetimes -/

/-- A transaction created at `currentBlock` for `blocks` blocks is alive up to their sum and expired above. -/
structure LifetimeKept (currentBlock blocks : UInt32) : Prop where
  alive : ∀ tx : Transaction, tx.expiryBlock = txExpiryFromNow currentBlock blocks → ∀ height : UInt32,
    height.toNat ≤ currentBlock.toNat + blocks.toNat → transactionIsExpired tx height = false
  expired : ∀ tx : Transaction, tx.expiryBlock = txExpiryFromNow currentBlock blocks → ∀ height : UInt32,
    currentBlock.toNat + blocks.toNat < height.toNat → transactionIsExpired tx height = true

section Lifetime
variable {currentBlock blocks : UInt32}

/-- Without a carry the sum is the last height at which the transaction is alive. -/
theorem lifetimeKept_of_lt (hpos : 0 < blocks) (hlt : currentBlock.toNat + blocks.toNat < 2 ^ 32) :
    LifetimeKept currentBlock blocks := by
  have hblocks : 0 < blocks.toNat := UInt32.lt_iff_toNat_lt.mp hpos
  have hsum := toNat_txExpiryFromNow currentBlock blocks
  rw [Nat.mod_eq_of_lt hlt] at hsum
  constructor
  · intro tx htx height hle
    rw [← Bool.not_eq_true, transactionIsExpired_iff, htx, hsum]
    exact fun h => absurd h.2 (by omega)
  · intro tx htx height hgt
    rw [transactionIsExpired_iff, htx, ne_eq, txExpiryFromNow_eq_iff, hsum, Nat.mod_eq_of_lt hlt]
    exact ⟨by omega, hgt⟩

/-- A sum of 2^32 is no expiry, and no height is above it. -/
theorem lifetimeKept_of_eq (heq : currentBlock.toNat + blocks.toNat = 2 ^ 32) :
    LifetimeKept currentBlock blocks := by
  have hzero : txExpiryFromNow currentBlock blocks = txNoExpiry :=
    (txExpiryFromNow_eq_iff currentBlock blocks).mpr (by rw [heq, Nat.mod_self])
  constructor
  · intro tx htx height hle
    rw [← Bool.not_eq_true, transactionIsExpired_iff, htx]
    exact fun h => h.1 hzero
  · intro tx htx height hgt
    have hheight := height.toNat_lt
    omega

/-- Past 2^32 the sum is small, and the transaction expired at the last height. -/
theorem not_lifetimeKept_of_gt (hgt : 2 ^ 32 < currentBlock.toNat + blocks.toNat) :
    ¬ LifetimeKept currentBlock blocks := by
  intro hkept
  have hcurrent := currentBlock.toNat_lt
  have hblocks := blocks.toNat_lt
  have hsum := toNat_txExpiryFromNow currentBlock blocks
  have hlast : (UInt32.ofNat (2 ^ 32 - 1)).toNat = 2 ^ 32 - 1 := UInt32.toNat_ofNat_of_lt' (by decide)
  have halive := hkept.alive { zeroTransaction with expiryBlock := txExpiryFromNow currentBlock blocks } rfl
    (UInt32.ofNat (2 ^ 32 - 1)) (by omega)
  rw [← Bool.not_eq_true, transactionIsExpired_iff, ne_eq, txExpiryFromNow_eq_iff, hsum] at halive
  exact halive ⟨by omega, by omega⟩

end Lifetime

/-- **Expiry.** The lifetime is kept exactly if the sum does not exceed 2^32; expired transactions stay
expired. -/
theorem expiry_law {currentBlock blocks : UInt32} (hpos : 0 < blocks) :
    (LifetimeKept currentBlock blocks ↔ currentBlock.toNat + blocks.toNat ≤ 2 ^ 32) ∧
      ∀ (tx : Transaction) (height height' : UInt32), height ≤ height' →
        transactionIsExpired tx height = true → transactionIsExpired tx height' = true := by
  refine ⟨⟨fun hkept => ?_, fun hle => ?_⟩, fun tx height height' => transactionIsExpired_mono⟩
  · by_contra hgt
    exact not_lifetimeKept_of_gt (not_le.mp hgt) hkept
  · rcases Nat.lt_or_eq_of_le hle with hlt | heq
    · exact lifetimeKept_of_lt hpos hlt
    · exact lifetimeKept_of_eq heq

theorem expiry_law_thousand : LifetimeKept 0 1000 := (expiry_law (by decide)).1.mpr (by decide)

/-- Two blocks from the last height on wrap around to height 1. -/
theorem lifetime_wraps : ¬ ∀ currentBlock blocks : UInt32, 0 < blocks → LifetimeKept currentBlock blocks := by
  intro h
  have hkept := h (UInt32.ofNat (2 ^ 32 - 1)) 2 (by decide)
  have halive := hkept.alive { zeroTransaction with expiryBlock := 1 } (by decide) 2 (by decide)
  exact absurd halive (by decide)

/-! ## The generator -/

theorem expiryBlock_of_mem_createBatch {o : Options} {w : World Key} {tid b : ℕ} {tx : Transaction}
    (htx : tx ∈ createBatch o w tid b) : tx.expiryBlock = mainExpiry 0 1000 := by
  obtain ⟨nonce, signature, rfl⟩ := exists_of_mem_createBatch htx
  rw [mainExpiry_eq (by decide)]
  rfl

theorem createBatch_expired_iff {o : Options} {w : World Key} {tid b : ℕ} {tx : Transaction}
    (htx : tx ∈ createBatch o w tid b) (height : UInt32) :
    transactionIsExpired tx height = true ↔ 1000 < height.toNat := by
  have hexpiry := expiryBlock_of_mem_createBatch htx
  rw [mainExpiry_eq (by decide)] at hexpiry
  have hkept : LifetimeKept 0 1000 := lifetimeKept_of_lt (by decide) (by decide)
  have hsum : (0 : UInt32).toNat + (1000 : UInt32).toNat = 1000 := rfl
  constructor
  · intro h
    by_contra hle
    have halive := hkept.alive tx hexpiry height (by omega)
    rw [h] at halive
    cases halive
  · exact fun h => hkept.expired tx hexpiry height (by omega)

end ShardingSim
