import ShardingSim.Generator

/-! Every transaction is submitted exactly once, whatever the schedule: the batches cut the indices, the
nonces created in a run are those of the indices, and the counters of the threads sum up to the count
(`schedule_exactlyOnce`), as long as the arithmetic of the loop stays in the ranges of its types
(`noOverflow_options_iff`). -/
namespace ShardingSim
open Decimal Blocks
set_option autoImplicit false

variable {Key : Type}

/-! ## Ranges of the C types -/

def IsInt (z : ℤ) : Prop := -2 ^ 31 ≤ z ∧ z ≤ 2 ^ 31 - 1

def IsInt64 (z : ℤ) : Prop := -2 ^ 63 ≤ z ∧ z ≤ 2 ^ 63 - 1

instance (z : ℤ) : Decidable (IsInt64 z) := inferInstanceAs (Decidable (_ ∧ _))

theorem isInt_atoi (text : List UInt8) : IsInt (atoi text) := by
  have hlow := Int.le_bmod (x := strtol text) (m := 2 ^ 32) (by decide)
  have hhigh := Int.bmod_lt (x := strtol text) (m := 2 ^ 32) (by decide)
  unfold IsInt atoi
  omega

theorem isInt64_atoll (text : List UInt8) : IsInt64 (atoll text) := by
  unfold IsInt64 atoll strtol
  omega

def FitsTypes (o : Options) : Prop := IsInt o.totalCount ∧ IsInt64 o.baseNonce

theorem fitsTypes_parseOptions (o : Options) (args : List (List UInt8)) (h : FitsTypes o) :
    FitsTypes (parseOptions o args) := by
  fun_induction parseOptions o args with
  | case1 o => exact h
  | case2 o => exact h
  | case3 o arg harg => exact h
  | case4 o value rest ih => exact ih h
  | case5 o value rest h1 ih => exact ih h
  | case6 o value rest h1 h2 ih => exact ih h
  | case7 o value rest h1 h2 h3 ih => exact ih h
  | case8 o value rest h1 h2 h3 h4 ih => exact ih h
  | case9 o value rest h1 h2 h3 h4 h5 ih => exact ih ⟨h.1, isInt64_atoll value⟩
  | case10 o arg value rest h1 h2 h3 h4 h5 h6 ih => exact ih h

theorem fitsTypes_options (argv : List (List UInt8)) : FitsTypes (options argv) := by
  have hinit : FitsTypes (initialOptions argv) := ⟨isInt_atoi _, (by decide : IsInt64 0)⟩
  exact fitsTypes_parseOptions _ _ hinit

/-! ## A run of the loop -/

section Run
variable {o : Options} (w : World Key)

theorem runBatch_created (s : LoopState) (tid b : ℕ) :
    (runBatch o w s tid b).created = s.created ++ createBatch o w tid b := rfl

def counted (o : Options) (w : World Key) (b : ℕ) : ℤ :=
  if o.useZmq = false ∨ replyCounts (w.reply b) = true then (txEnd o b - txStart o b).toNat else 0

theorem threadSubmitted_runBatch (s : LoopState) (tid b : ℕ) : (runBatch o w s tid b).threadSubmitted =
    Function.update s.threadSubmitted tid (s.threadSubmitted tid + counted o w b) := by
  have hlength : (createBatch o w tid b).length = (txEnd o b - txStart o b).toNat := by
    rw [createBatch, List.length_map, List.length_range]
  unfold runBatch counted countReply
  dsimp only
  rw [hlength]
  congr 1
  by_cases hpos : 0 < (txEnd o b - txStart o b).toNat
  · cases o.useZmq <;> cases replyCounts (w.reply b) <;> simp [hpos]
  · have hzero : (txEnd o b - txStart o b).toNat = 0 := by omega
    simp [hzero]

theorem totalSubmitted_runBatch (s : LoopState) {tid : ℕ} (b : ℕ) (htid : tid < o.numThreads.toNat) :
    totalSubmitted o (runBatch o w s tid b) = totalSubmitted o s + counted o w b := by
  rw [totalSubmitted, threadSubmitted_runBatch]
  exact sum_update s.threadSubmitted htid _

theorem foldl_runBatch (s : LoopState) (schedule : List (ℕ × ℕ))
    (h : ∀ p ∈ schedule, p.1 < o.numThreads.toNat) :
    (schedule.foldl (fun s p => runBatch o w s p.1 p.2) s).created =
        s.created ++ schedule.flatMap (fun p => createBatch o w p.1 p.2) ∧
      totalSubmitted o (schedule.foldl (fun s p => runBatch o w s p.1 p.2) s) =
        totalSubmitted o s + ((schedule.map Prod.snd).map (counted o w)).sum := by
  induction schedule generalizing s with
  | nil => simp
  | cons p schedule ih =>
    have hrest := ih (runBatch o w s p.1 p.2) fun q hq => h q (List.mem_cons_of_mem _ hq)
    rw [List.foldl_cons]
    refine ⟨?_, ?_⟩
    · rw [hrest.1, runBatch_created, List.flatMap_cons, List.append_assoc]
    · rw [hrest.2, totalSubmitted_runBatch w s p.2 (h p List.mem_cons_self), List.map_cons, List.map_cons,
        List.sum_cons, add_assoc]

theorem totalSubmitted_init : totalSubmitted o { threadSubmitted := fun _ => 0, created := [] } = 0 := by
  simp [totalSubmitted]

def nonceOf (o : Options) (i : ℕ) : UInt64 := UInt64.ofInt (o.baseNonce + i)

theorem map_nonce_createBatch (hbatch : 1 ≤ o.batchSize) (tid b : ℕ) :
    (createBatch o w tid b).map Transaction.nonce =
      (List.range (blockLength o.totalCount.toNat o.batchSize.toNat b)).map
        fun j => nonceOf o (b * o.batchSize.toNat + j) := by
  have hstart : txStart o b = ((b * o.batchSize.toNat : ℕ) : ℤ) := by
    rw [txStart, Nat.cast_mul, Int.toNat_of_nonneg (by omega)]
  rw [createBatch, List.map_map, txEnd_sub_txStart hbatch]
  refine List.map_congr_left fun j _ => ?_
  obtain ⟨signature, hcreate⟩ := transactionCreate_eq (w.wallet tid) w.toAddr o.amount 1
    (UInt64.ofInt (o.baseNonce + (txStart o b + j))) 1000 (w.signCalls (txStart o b + j))
  rw [Function.comp_apply, hcreate, nonceOf, hstart, Nat.cast_add]

theorem nonceOf_injective {i j : ℕ} (hi : i < 2 ^ 31) (hj : j < 2 ^ 31) (h : nonceOf o i = nonceOf o j) :
    i = j := by
  have hnat := congrArg UInt64.toNat h
  simp only [nonceOf, UInt64.ofInt, UInt64.toNat_ofNat'] at hnat
  omega

end Run

/-! ## Bounds -/

/-- The signed computations of the loop stay in the ranges of their types. -/
structure NoOverflow (o : Options) : Prop where
  sum : IsInt (o.totalCount + o.batchSize) ∧ IsInt (o.totalCount + o.batchSize - 1)
  start : ∀ b < (numBatches o).toNat, IsInt (txStart o b)
  stop : ∀ b < (numBatches o).toNat, IsInt (txStart o b + o.batchSize)
  length : ∀ b < (numBatches o).toNat, IsInt (txEnd o b - txStart o b)
  nonce : ∀ b < (numBatches o).toNat, ∀ i, txStart o b ≤ i → i < txEnd o b → IsInt64 (o.baseNonce + i)

/-- What a run of the loop over a schedule does. -/
structure ExactlyOnce (o : Options) (w : World Key) (schedule : List (ℕ × ℕ)) : Prop where
  noOverflow : NoOverflow o
  batchSize_bounds : 1 ≤ o.batchSize ∧ o.batchSize ≤ 256
  numThreads_bounds : 1 ≤ o.numThreads ∧ o.numThreads ≤ 64
  nonempty : ∀ b < (numBatches o).toNat, txStart o b < txEnd o b
  length_le : ∀ b < (numBatches o).toNat, txEnd o b - txStart o b ≤ o.batchSize
  disjoint : ∀ b < (numBatches o).toNat, ∀ c < (numBatches o).toNat, ∀ i,
    txStart o b ≤ i ∧ i < txEnd o b → txStart o c ≤ i ∧ i < txEnd o c → b = c
  cover : ∀ i, (∃ b < (numBatches o).toNat, txStart o b ≤ i ∧ i < txEnd o b) ↔
    0 ≤ i ∧ i < max o.totalCount 0
  nonces : ((runLoop o w schedule).created.map Transaction.nonce).Perm
    ((List.range (max o.totalCount 0).toNat).map fun (i : ℕ) => UInt64.ofInt (o.baseNonce + i))
  nonces_nodup : ((runLoop o w schedule).created.map Transaction.nonce).Nodup
  submitted : (o.useZmq = false ∨ ∀ b < (numBatches o).toNat, ∃ r, w.reply b = some r ∧ ascii "OK" <+: r) →
    totalSubmitted o (runLoop o w schedule) = max o.totalCount 0

theorem batch_bounds {o : Options} (hbatch : 1 ≤ o.batchSize) {b : ℕ} (hb : b < (numBatches o).toNat) :
    0 ≤ txStart o b ∧ txStart o b < txEnd o b ∧ txEnd o b ≤ o.totalCount ∧
      txEnd o b ≤ txStart o b + o.batchSize := by
  have hpos : 0 < o.batchSize.toNat := by omega
  rw [numBatches_toNat hbatch] at hb
  have hlt := (lt_blockCount_iff hpos b).mp hb
  have hstart : txStart o b = ((b * o.batchSize.toNat : ℕ) : ℤ) := by
    rw [txStart, Nat.cast_mul, Int.toNat_of_nonneg (by omega)]
  unfold txEnd
  split <;> omega

theorem mem_some_batch_iff {o : Options} (hbatch : 1 ≤ o.batchSize) (i : ℤ) :
    (∃ b < (numBatches o).toNat, txStart o b ≤ i ∧ i < txEnd o b) ↔ 0 ≤ i ∧ i < max o.totalCount 0 := by
  have hpos : 0 < o.batchSize.toNat := by omega
  constructor
  · rintro ⟨b, hb, hi⟩
    rw [mem_batch_iff hbatch hb] at hi
    omega
  · rintro ⟨hge, hlt⟩
    have hquot : i.toNat / o.batchSize.toNat < (numBatches o).toNat := by
      rw [numBatches_toNat hbatch, lt_blockCount_iff hpos]
      have := Nat.div_mul_le_self i.toNat o.batchSize.toNat
      omega
    exact ⟨_, hquot, (mem_batch_iff hbatch hquot i).mpr ⟨hge, by omega, rfl⟩⟩

/-- Within the types the first sum of the loop and its last nonce are all that can overflow. -/
theorem noOverflow_iff {o : Options} (hfits : FitsTypes o) (hbatch : 1 ≤ o.batchSize ∧ o.batchSize ≤ 256) :
    NoOverflow o ↔ o.totalCount + o.batchSize ≤ 2 ^ 31 - 1 ∧
      (0 < o.totalCount → o.baseNonce + (o.totalCount - 1) ≤ 2 ^ 63 - 1) := by
  obtain ⟨⟨hlow, -⟩, hbase, -⟩ := hfits
  constructor
  · intro h
    refine ⟨h.sum.1.2, fun hpos => ?_⟩
    obtain ⟨b, hb, hlast⟩ := (mem_some_batch_iff hbatch.1 (o.totalCount - 1)).mpr (by omega)
    exact (h.nonce b hb _ hlast.1 hlast.2).2
  · rintro ⟨hcount, hnonce⟩
    have hbounds := fun {b : ℕ} (hb : b < (numBatches o).toNat) => batch_bounds hbatch.1 hb
    refine ⟨⟨⟨by omega, by omega⟩, by omega, by omega⟩, fun b hb => ?_, fun b hb => ?_, fun b hb => ?_,
      fun b hb i hge hlt => ?_⟩
    all_goals
      have := hbounds hb
      constructor <;> omega

/-- **The arithmetic of the loop stays in range** exactly if the count leaves room for one batch below
`INT_MAX` and the last nonce is an `int64_t`. -/
theorem noOverflow_options_iff (argv : List (List UInt8)) : NoOverflow (options argv) ↔
    (options argv).totalCount + (options argv).batchSize ≤ 2 ^ 31 - 1 ∧
      (0 < (options argv).totalCount →
        (options argv).baseNonce + ((options argv).totalCount - 1) ≤ 2 ^ 63 - 1) :=
  noOverflow_iff (fitsTypes_options argv) (clampBatchSize_bounds _)

/-- `INT_MAX` transactions in batches of the default size. -/
def intMaxArgs : List (List UInt8) := [ascii "generator", ascii "alice", ascii "bob", ascii "1", ascii "2147483647"]

theorem overflow_intMax : ¬ ∀ argv, NoOverflow (options argv) := by
  intro h
  have hsum := (h intMaxArgs).sum.1.2
  have hcount : (options intMaxArgs).totalCount = 2147483647 := by decide
  have hbatch : (options intMaxArgs).batchSize = 64 := by decide
  rw [hcount, hbatch] at hsum
  exact absurd hsum (by decide)

/-! ## Exactly once -/

section Schedule
variable {o : Options} (hbatch : 1 ≤ o.batchSize) (w : World Key) {schedule : List (ℕ × ℕ)}
  (hschedule : IsSchedule o schedule)
include hbatch hschedule

theorem batches_perm :
    (schedule.map Prod.snd).Perm (List.range (blockCount o.totalCount.toNat o.batchSize.toNat)) :=
  numBatches_toNat hbatch ▸ hschedule.batches

theorem nonces_runLoop : ((runLoop o w schedule).created.map Transaction.nonce).Perm
    ((List.range o.totalCount.toNat).map (nonceOf o)) := by
  have hpos : 0 < o.batchSize.toNat := by omega
  have hrun := foldl_runBatch w { threadSubmitted := fun _ => 0, created := [] } schedule hschedule.threads
  have hflat : (runLoop o w schedule).created.map Transaction.nonce =
      (schedule.map Prod.snd).flatMap fun b =>
        (List.range (blockLength o.totalCount.toNat o.batchSize.toNat b)).map
          fun j => nonceOf o (b * o.batchSize.toNat + j) := by
    rw [runLoop, hrun.1, List.nil_append, List.map_flatMap, List.flatMap_map]
    exact List.flatMap_congr fun p _ => map_nonce_createBatch w hbatch p.1 p.2
  rw [hflat]
  exact flatMap_blocks_perm (nonceOf o) hpos (batches_perm hbatch hschedule)

theorem totalSubmitted_runLoop
    (hcounts : ∀ b < (numBatches o).toNat, o.useZmq = false ∨ replyCounts (w.reply b) = true) :
    totalSubmitted o (runLoop o w schedule) = o.totalCount.toNat := by
  have hpos : 0 < o.batchSize.toNat := by omega
  have hrun := foldl_runBatch w { threadSubmitted := fun _ => 0, created := [] } schedule hschedule.threads
  have hsum : ((schedule.map Prod.snd).map (counted o w)).sum =
      (((schedule.map Prod.snd).map (blockLength o.totalCount.toNat o.batchSize.toNat)).sum : ℕ) := by
    rw [Nat.cast_list_sum, List.map_map (f := blockLength _ _)]
    refine congrArg List.sum (List.map_congr_left fun b hb => ?_)
    have hlt : b < (numBatches o).toNat := List.mem_range.mp (hschedule.batches.subset hb)
    rw [counted, if_pos (hcounts b hlt), txEnd_sub_txStart hbatch]
    rfl
  rw [runLoop, hrun.2, totalSubmitted_init, hsum, sum_blockLength hpos (batches_perm hbatch hschedule), zero_add]

end Schedule

/-- **Every transaction is created and counted once**, in every schedule of every argument vector whose
numbers stay in range. -/
theorem schedule_exactlyOnce (argv : List (List UInt8)) (w : World Key) (schedule : List (ℕ × ℕ))
    (hcount : (options argv).totalCount + (options argv).batchSize ≤ 2 ^ 31 - 1)
    (hnonce : (options argv).baseNonce + (options argv).totalCount ≤ 2 ^ 63 - 1)
    (hschedule : IsSchedule (options argv) schedule) : ExactlyOnce (options argv) w schedule := by
  have hbatch : 1 ≤ (options argv).batchSize ∧ (options argv).batchSize ≤ 256 := clampBatchSize_bounds _
  have hthreads : 1 ≤ (options argv).numThreads ∧ (options argv).numThreads ≤ 64 := clampThreads_bounds _
  have hfits := fitsTypes_options argv
  generalize options argv = o at *
  have hmax : (max o.totalCount 0).toNat = o.totalCount.toNat := by omega
  have hnonces := nonces_runLoop hbatch.1 w hschedule
  refine ⟨(noOverflow_iff hfits hbatch).mpr ⟨hcount, by omega⟩, hbatch, hthreads, fun b hb => ?_, fun b hb => ?_,
    fun b hb c hc i hib hic => ?_, mem_some_batch_iff hbatch.1, ?_, ?_, fun hreply => ?_⟩
  · exact (batch_bounds hbatch.1 hb).2.1
  · have := (batch_bounds hbatch.1 hb).2.2.2
    omega
  · rw [mem_batch_iff hbatch.1 hb] at hib
    rw [mem_batch_iff hbatch.1 hc] at hic
    exact hib.2.2.symm.trans hic.2.2
  · rw [hmax]
    exact hnonces
  · rw [hnonces.nodup_iff]
    refine List.Nodup.map_on (fun i hi j hj h => ?_) List.nodup_range
    have hi' := List.mem_range.mp hi
    have hj' := List.mem_range.mp hj
    exact nonceOf_injective (by omega) (by omega) h
  · rw [totalSubmitted_runLoop hbatch.1 w hschedule fun b hb => hreply.imp_right fun hok => ?_]
    · omega
    · obtain ⟨r, hr, hpre⟩ := hok b hb
      rw [hr]
      exact replyCounts_of_prefix hpre

/-- Three transactions in batches of two, the second batch first. -/
def sampleArgs : List (List UInt8) :=
  [ascii "generator", ascii "alice", ascii "bob", ascii "10", ascii "3", ascii "--batch", ascii "2"]

def sampleWorld : World Unit where
  wallet := fun _ => zeroWallet
  toAddr := Vector.replicate 20 0
  signCalls := fun _ => ⟨false, false, false, false, false, false, []⟩
  reply := fun _ => some (okReply 2 0)

theorem schedule_exactlyOnce_sample : ExactlyOnce (options sampleArgs) sampleWorld [(1, 1), (0, 0)] :=
  schedule_exactlyOnce sampleArgs sampleWorld [(1, 1), (0, 0)] (by decide) (by decide)
    ⟨by decide, by decide⟩

end ShardingSim
