import ShardingSim.BatchMessage
import ShardingSim.Library.Blocks

/-! The generator of `main.c`: the argument vector with its conversions and clamps, the bounds of the
batches, what one batch creates and counts, and a run of the parallel loop, which is any order of the batch
numbers with a thread for each. Signed C integers are integers, divided by `Int.tdiv`. -/
namespace ShardingSim
open Decimal Blocks
set_option autoImplicit false

variable {Key : Type}

/-! ## Arguments -/

structure Options where
  fromName : List UInt8
  toName : List UInt8
  amount : UInt64
  totalCount : ℤ
  numThreads : ℤ
  batchSize : ℤ
  baseNonce : ℤ
  connectAddr : List UInt8
  useZmq : Bool
  sleepMs : UInt32

/-- The values before the option loop: `argv[1]` to `argv[4]` and the defaults. -/
def initialOptions (argv : List (List UInt8)) : Options where
  fromName := argv.getD 1 []
  toName := argv.getD 2 []
  amount := strtoull (argv.getD 3 [])
  totalCount := atoi (argv.getD 4 [])
  numThreads := 48
  batchSize := 64
  baseNonce := 0
  connectAddr := ascii "tcp://localhost:5557"
  useZmq := true
  sleepMs := 0

/-- The option loop over the arguments from the fifth on. An option that takes a value is skipped where it
is the last argument. -/
def parseOptions (o : Options) : List (List UInt8) → Options
  | [] => o
  | [arg] => if arg = ascii "--in-process" then { o with useZmq := false } else o
  | arg :: value :: rest =>
    if arg = ascii "--connect" then parseOptions { o with connectAddr := value } rest
    else if arg = ascii "--in-process" then parseOptions { o with useZmq := false } (value :: rest)
    else if arg = ascii "--threads" then parseOptions { o with numThreads := atoi value } rest
    else if arg = ascii "--batch" then parseOptions { o with batchSize := atoi value } rest
    else if arg = ascii "--sleep-ms" then parseOptions { o with sleepMs := UInt32.ofInt (atoi value) } rest
    else if arg = ascii "--base-nonce" then parseOptions { o with baseNonce := atoll value } rest
    else parseOptions o (value :: rest)

def clampBatchSize (batchSize : ℤ) : ℤ :=
  let batchSize := if batchSize > 256 then 256 else batchSize
  if batchSize < 1 then 1 else batchSize

def clampThreads (numThreads : ℤ) : ℤ :=
  let numThreads := if numThreads < 1 then 1 else numThreads
  if numThreads > 64 then 64 else numThreads

def options (argv : List (List UInt8)) : Options :=
  let o := parseOptions (initialOptions argv) (argv.drop 5)
  { o with
    batchSize := clampBatchSize o.batchSize
    numThreads := clampThreads o.numThreads }

theorem clampBatchSize_bounds (n : ℤ) : 1 ≤ clampBatchSize n ∧ clampBatchSize n ≤ 256 := by
  unfold clampBatchSize
  dsimp only
  split <;> split <;> omega

theorem clampThreads_bounds (n : ℤ) : 1 ≤ clampThreads n ∧ clampThreads n ≤ 64 := by
  unfold clampThreads
  dsimp only
  split <;> split <;> omega

/-! ## Batches -/

/-- The number of batches where the sum is an `int`; C leaves it undefined otherwise. -/
def numBatches (o : Options) : ℤ := (o.totalCount + o.batchSize - 1).tdiv o.batchSize

def txStart (o : Options) (b : ℕ) : ℤ := b * o.batchSize

def txEnd (o : Options) (b : ℕ) : ℤ :=
  if txStart o b + o.batchSize > o.totalCount then o.totalCount else txStart o b + o.batchSize

/-- What stays outside the arguments: the thread's wallets, the parsed destination, what OpenSSL returns
for each transaction and `zmq_recv` for each batch. -/
structure World (Key : Type) where
  wallet : ℕ → Wallet Key
  toAddr : Vector UInt8 20
  signCalls : ℤ → SignCalls
  reply : ℕ → Option (List UInt8)

def createBatch (o : Options) (w : World Key) (tid b : ℕ) : List Transaction :=
  (List.range (txEnd o b - txStart o b).toNat).map fun (j : ℕ) =>
    transactionCreate (w.wallet tid) w.toAddr o.amount 1
      (UInt64.ofInt (o.baseNonce + (txStart o b + j))) 1000 (w.signCalls (txStart o b + j))

theorem exists_of_mem_createBatch {o : Options} {w : World Key} {tid b : ℕ} {tx : Transaction}
    (h : tx ∈ createBatch o w tid b) : ∃ (nonce : UInt64) (signature : Vector UInt8 48), tx =
      { nonce := nonce
        expiryBlock := 1000
        sourceAddress := (w.wallet tid).address
        destAddress := w.toAddr
        value := o.amount
        fee := 1
        signature := signature } := by
  obtain ⟨j, -, rfl⟩ := List.mem_map.mp h
  exact ⟨_, transactionCreate_eq _ _ _ _ _ _ _⟩

/-- `sz > 0` and `strncmp(resp, "OK", 2) == 0`. -/
def replyCounts (reply : Option (List UInt8)) : Bool :=
  match reply with
  | some resp => 0 < resp.length && resp.take 2 = ascii "OK"
  | none => false

theorem replyCounts_of_prefix {r : List UInt8} (h : ascii "OK" <+: r) : replyCounts (some r) = true := by
  have htake : r.take 2 = ascii "OK" := (List.prefix_iff_eq_take.mp h).symm
  have hlen := h.length_le
  have htwo : (ascii "OK").length = 2 := by decide
  rw [replyCounts, htake]
  simp only [decide_true, Bool.and_true, decide_eq_true_eq]
  omega

/-- `thread_submitted[tid]` after the reply to a batch of `txsInBatch` transactions was read. -/
def countReply (submitted : ℤ) (reply : Option (List UInt8)) (txsInBatch : ℕ) : ℤ :=
  if replyCounts reply then submitted + txsInBatch else submitted

structure LoopState where
  threadSubmitted : ℕ → ℤ
  created : List Transaction

/-- The body of the loop for batch `b` on thread `tid`. -/
def runBatch (o : Options) (w : World Key) (s : LoopState) (tid b : ℕ) : LoopState :=
  let rawTxs := createBatch o w tid b
  let submitted := s.threadSubmitted tid
  { threadSubmitted := Function.update s.threadSubmitted tid
      (if 0 < rawTxs.length then
        if o.useZmq then countReply submitted (w.reply b) rawTxs.length else submitted + rawTxs.length
      else submitted)
    created := s.created ++ rawTxs }

def runLoop (o : Options) (w : World Key) (schedule : List (ℕ × ℕ)) : LoopState :=
  schedule.foldl (fun s p => runBatch o w s p.1 p.2) { threadSubmitted := fun _ => 0, created := [] }

def totalSubmitted (o : Options) (s : LoopState) : ℤ :=
  ((List.range o.numThreads.toNat).map s.threadSubmitted).sum

/-- A schedule runs every batch once, on some thread. -/
structure IsSchedule (o : Options) (schedule : List (ℕ × ℕ)) : Prop where
  batches : (schedule.map Prod.snd).Perm (List.range (numBatches o).toNat)
  threads : ∀ p ∈ schedule, p.1 < o.numThreads.toNat

/-! ## Bounds of the batches -/

section Bounds
variable {o : Options} (hbatch : 1 ≤ o.batchSize)
include hbatch

/-- Truncation towards zero makes no batch of a count that is not positive. -/
theorem numBatches_toNat : (numBatches o).toNat = blockCount o.totalCount.toNat o.batchSize.toNat := by
  obtain ⟨B, hB⟩ := Int.eq_ofNat_of_zero_le (show 0 ≤ o.batchSize by omega)
  have hpos : 0 < B := by omega
  rw [numBatches, blockCount, hB, Int.toNat_natCast]
  by_cases hcount : 0 < o.totalCount
  · obtain ⟨T, hT⟩ := Int.eq_ofNat_of_zero_le hcount.le
    have hsum : (T : ℤ) + B - 1 = ((T + B - 1 : ℕ) : ℤ) := by omega
    rw [hT, hsum, Int.natCast_tdiv_eq_ediv, ← Int.natCast_ediv, Int.toNat_natCast, Int.toNat_natCast]
  · have hzero : (o.totalCount.toNat + B - 1) / B = 0 := Nat.div_eq_of_lt (by omega)
    rw [hzero, Int.toNat_eq_zero]
    by_cases hneg : 0 ≤ o.totalCount + B - 1
    · rw [Int.tdiv_eq_ediv_of_nonneg hneg, Int.ediv_eq_zero_of_lt hneg (by omega)]
    · have hopp := Int.neg_tdiv (a := -(o.totalCount + B - 1)) (b := B)
      rw [neg_neg] at hopp
      rw [hopp]
      have hquot : 0 ≤ (-(o.totalCount + B - 1)).tdiv B := Int.tdiv_nonneg (by omega) (by omega)
      omega

theorem txEnd_sub_txStart (b : ℕ) :
    (txEnd o b - txStart o b).toNat = blockLength o.totalCount.toNat o.batchSize.toNat b := by
  obtain ⟨B, hB⟩ := Int.eq_ofNat_of_zero_le (show 0 ≤ o.batchSize by omega)
  have hmul : (b : ℤ) * B = ((b * B : ℕ) : ℤ) := (Nat.cast_mul b B).symm
  rw [txEnd, txStart, blockLength, hB, hmul, Int.toNat_natCast]
  split <;> omega

theorem mem_batch_iff {b : ℕ} (hb : b < (numBatches o).toNat) (i : ℤ) :
    (txStart o b ≤ i ∧ i < txEnd o b) ↔
      0 ≤ i ∧ i < o.totalCount ∧ i.toNat / o.batchSize.toNat = b := by
  obtain ⟨B, hB⟩ := Int.eq_ofNat_of_zero_le (show 0 ≤ o.batchSize by omega)
  have hpos : 0 < o.batchSize.toNat := by omega
  have hmul : (b : ℤ) * B = ((b * B : ℕ) : ℤ) := (Nat.cast_mul b B).symm
  have hstart : txStart o b = ((b * o.batchSize.toNat : ℕ) : ℤ) := by
    rw [txStart, hB, Int.toNat_natCast, hmul]
  have hlength := txEnd_sub_txStart hbatch b
  have hmem := mem_block_iff o.totalCount.toNat hpos b i.toNat
  have hlt := (lt_blockCount_iff hpos b).mp (numBatches_toNat hbatch ▸ hb)
  have hlen := blockLength_pos hpos hlt
  constructor
  · rintro ⟨hge, hlt⟩
    obtain ⟨htotal, hquot⟩ := hmem.mp (by omega)
    omega
  · rintro ⟨hge, htotal, hquot⟩
    have := hmem.mpr ⟨by omega, hquot⟩
    omega

end Bounds

end ShardingSim
