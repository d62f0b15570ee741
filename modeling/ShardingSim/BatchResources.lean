import ShardingSim.Resources
import ShardingSim.Schedule

/-! The blocks, handles and sockets of the generator's parallel loop. A batch leaves what is held as it was
(`batch_sound`), and so do the threads, in every interleaving (`parallel_sound`). -/
namespace ShardingSim
open Ownership Run
set_option autoImplicit false

variable {Key : Type}

inductive MainBlock where
  | threadWallets
  | threadCtxs
  | threadSocks
  | threadSubmitted
  | wallet (t : ℕ) (block : WalletBlock)
  | zmqCtx (t : ℕ)
  | zmqSock (t : ℕ)
  | rawTxs (b : ℕ)
  | pbArr (b : ℕ)
  | pbPtrs (b : ℕ)
  | msg (b : ℕ)
  | tx (b j : ℕ)
  | signCtx (b j : ℕ)
  | sigBuf (b j : ℕ)
deriving DecidableEq

/-! ## A batch -/

def signBlock (t b j : ℕ) : SignBlock → MainBlock
  | .wallet => .wallet t .wallet
  | .evpKey => .wallet t .evpKey
  | .tx => .tx b j
  | .ctx => .signCtx b j
  | .sigBuf => .sigBuf b j

theorem signBlock_injective (t b j : ℕ) : (signBlock t b j).Injective := by
  intro p q h
  cases p <;> cases q <;> first | rfl | cases h

def createTxOps (o : Options) (w : World Key) (t b j : ℕ) : List (Op MainBlock) :=
  (transactionCreateOps (w.wallet t) (w.signCalls (txStart o b + j))).map (Op.map (signBlock t b j)) ++
    [.use (.rawTxs b)]

/-- The table of messages is filled from the transactions. -/
def fillPbOps (b n : ℕ) : List (Op MainBlock) :=
  (List.range n).flatMap fun j => [.use (.pbArr b), .use (.rawTxs b), .use (.tx b j), .use (.pbPtrs b)]

def packOps (b n : ℕ) : List (Op MainBlock) :=
  .use (.msg b) :: .use (.pbPtrs b) :: .use (.pbArr b) ::
    (List.range n).flatMap fun j => [.use (.tx b j), .use (.msg b)]

/-- The message is sent and freed, and the reply read. -/
def exchangeOps (w : World Key) (t b : ℕ) : List (Op MainBlock) :=
  .use .threadSocks :: .use (.zmqSock t) :: .use (.msg b) :: .release (.msg b) :: .use (.zmqSock t) ::
    ((if replyCounts (w.reply b) then [.use .threadSubmitted] else []) ++ [.release (.pbPtrs b), .release (.pbArr b)])

def sendOps (w : World Key) (t b n : ℕ) : List (Op MainBlock) :=
  .acquire (.pbArr b) :: .acquire (.pbPtrs b) ::
    (fillPbOps b n ++ .acquire (.msg b) :: (packOps b n ++ exchangeOps w t b))

def submitOps (o : Options) (w : World Key) (t b n : ℕ) : List (Op MainBlock) :=
  if 0 < n then if o.useZmq then sendOps w t b n else [.use (.rawTxs b), .use .threadSubmitted] else []

def destroyTxOps (t b j : ℕ) : List (Op MainBlock) :=
  .use (.rawTxs b) :: transactionDestroyOps.map (Op.map (signBlock t b j))

/-- The body of the loop for batch `b` on thread `t`. -/
def batchOps (o : Options) (w : World Key) (t b : ℕ) : List (Op MainBlock) :=
  let n := (txEnd o b - txStart o b).toNat
  .use .threadWallets :: .acquire (.rawTxs b) ::
    ((List.range n).flatMap (createTxOps o w t b) ++ (submitOps o w t b n ++
      ((List.range n).flatMap (destroyTxOps t b) ++ [.release (.rawTxs b)])))

/-- What a thread finds when it takes batch `b`: the tables, its wallet and its socket, and nothing of the batch. -/
structure ReadyFor (o : Options) (w : World Key) (held : MainBlock → Bool) (t b : ℕ) : Prop where
  threadWallets : held .threadWallets = true
  threadSubmitted : held .threadSubmitted = true
  socket : o.useZmq = true → held .threadSocks = true ∧ held (.zmqSock t) = true
  wallet : held (.wallet t .wallet) = true
  evpKey : held (.wallet t .evpKey) = (w.wallet t).evpKey.isSome
  rawTxs : held (.rawTxs b) = false
  pbArr : held (.pbArr b) = false
  pbPtrs : held (.pbPtrs b) = false
  msg : held (.msg b) = false
  tx : ∀ j, held (.tx b j) = false
  signCtx : ∀ j, held (.signCtx b j) = false
  sigBuf : ∀ j, held (.sigBuf b j) = false

/-- With the table of batch `b` and its transactions from `lo` to `hi`. -/
def withBatch (held : MainBlock → Bool) (b lo hi : ℕ) : MainBlock → Bool
  | .rawTxs b' => b' = b ∨ held (.rawTxs b')
  | .tx b' j => (b' = b ∧ lo ≤ j ∧ j < hi) ∨ held (.tx b' j)
  | r => held r

theorem holding_signerBlocks (wallet : Wallet Key) (q : SignBlock) : holding (signerBlocks wallet) q =
    match q with
    | .wallet => true
    | .evpKey => wallet.evpKey.isSome
    | _ => false := by
  unfold signerBlocks
  split_ifs with hkey <;> cases q <;> simp [holding, hkey]

section Batch
variable {o : Options} {w : World Key} {held : MainBlock → Bool} {t b : ℕ} (h : ReadyFor o w held t b)
include h

theorem createTx_sound (j : ℕ) :
    run stepHeld (withBatch held b 0 j) (createTxOps o w t b j) = some (withBatch held b 0 (j + 1)) := by
  refine run_append_of_eq (run_map (signBlock_injective t b j) (transactionCreate_sound _ _) (fun q => ?_)
    (fun q => ?_) fun r hr => ?_) (run_use ?_)
  · rw [holding_signerBlocks]
    cases q <;> simp [signBlock, withBatch, h.wallet, h.evpKey, h.tx, h.signCtx, h.sigBuf]
  · have hcons : holding (.tx :: signerBlocks (w.wallet t)) q =
        (decide (q = .tx) || holding (signerBlocks (w.wallet t)) q) := by simp [holding]
    rw [hcons, holding_signerBlocks]
    cases q <;> simp [signBlock, withBatch, h.wallet, h.evpKey, h.tx, h.signCtx, h.sigBuf]
  · cases r with
    | tx c i =>
      have hne : ¬ (b = c ∧ j = i) := by simpa [signBlock] using hr .tx
      have hsame : (c = b ∧ 0 ≤ i ∧ i < j + 1) ↔ (c = b ∧ 0 ≤ i ∧ i < j) := by omega
      rw [withBatch, withBatch]
      exact decide_eq_decide.mpr (or_congr_left hsame)
    | _ => rfl
  · simp [withBatch]

theorem destroyTx_sound {n j : ℕ} (hj : j < n) :
    run stepHeld (withBatch held b j n) (destroyTxOps t b j) = some (withBatch held b (j + 1) n) := by
  have htx : withBatch held b j n (.tx b j) = true := by simp [withBatch, hj]
  show run stepHeld _ ([.use (.rawTxs b), .use (.tx b j), .release (.tx b j)] : List (Op MainBlock)) = _
  rw [run_use (by simp [withBatch]), run_use htx, run_release htx]
  refine congrArg some (funext fun r => ?_)
  cases r with
  | tx c i =>
    by_cases hci : c = b ∧ i = j
    · obtain ⟨rfl, rfl⟩ := hci
      simp [withBatch, h.tx]
    · have hne : MainBlock.tx c i ≠ .tx b j := fun heq => hci (by simpa using heq)
      have hsame : (c = b ∧ j ≤ i ∧ i < n) ↔ (c = b ∧ j + 1 ≤ i ∧ i < n) := by omega
      rw [Function.update_of_ne hne, withBatch, withBatch]
      exact decide_eq_decide.mpr (or_congr_left hsame)
  | _ => rfl

theorem send_sound (hzmq : o.useZmq = true) (n : ℕ) :
    run stepHeld (withBatch held b 0 n) (sendOps w t b n) = some (withBatch held b 0 n) := by
  obtain ⟨hsocks, hsock⟩ := h.socket hzmq
  rw [sendOps, run_acquire (by simp [withBatch, h.pbArr]), run_acquire (by simp [withBatch, h.pbPtrs])]
  refine run_append_of_eq (run_uses fun op hop => ?_) ?_
  · obtain ⟨j, hj, hop⟩ := List.mem_flatMap.mp hop
    have hlt := List.mem_range.mp hj
    simp only [List.mem_cons, List.not_mem_nil, or_false] at hop
    rcases hop with rfl | rfl | rfl | rfl <;> exact ⟨_, rfl, by simp [withBatch, hlt]⟩
  rw [run_acquire (by simp [withBatch, h.msg])]
  refine run_append_of_eq (run_uses fun op hop => ?_) ?_
  · simp only [packOps, List.mem_cons, List.mem_flatMap, List.mem_range, List.not_mem_nil, or_false] at hop
    rcases hop with rfl | rfl | rfl | ⟨j, hlt, rfl | rfl⟩
    · exact ⟨_, rfl, by simp⟩
    · exact ⟨_, rfl, by simp⟩
    · exact ⟨_, rfl, by simp⟩
    · exact ⟨_, rfl, by simp [withBatch, hlt]⟩
    · exact ⟨_, rfl, by simp⟩
  · rw [exchangeOps, run_use (by simp [withBatch, hsocks]), run_use (by simp [withBatch, hsock]),
      run_use (by simp), run_release (by simp), run_use (by simp [withBatch, hsock])]
    refine run_append_of_eq (run_uses fun op hop => ?_) ?_
    · split at hop
      · rw [List.mem_singleton.mp hop]
        exact ⟨_, rfl, by simp [withBatch, h.threadSubmitted]⟩
      · cases hop
    rw [run_release (by simp), run_release (by simp)]
    refine congrArg some (funext fun r => ?_)
    have hself : ∀ c, c = b ∨ c ≠ b := fun c => eq_or_ne c b
    cases r with
    | pbArr c => rcases hself c with rfl | hc <;> simp [withBatch, *, h.pbArr]
    | pbPtrs c => rcases hself c with rfl | hc <;> simp [withBatch, *, h.pbPtrs]
    | msg c => rcases hself c with rfl | hc <;> simp [withBatch, *, h.msg]
    | _ => simp

theorem submit_sound (n : ℕ) :
    run stepHeld (withBatch held b 0 n) (submitOps o w t b n) = some (withBatch held b 0 n) := by
  unfold submitOps
  split_ifs with hpos hzmq
  · exact send_sound h hzmq n
  · refine run_uses fun op hop => ?_
    simp only [List.mem_cons, List.not_mem_nil, or_false] at hop
    rcases hop with rfl | rfl <;> exact ⟨_, rfl, by simp [withBatch, h.threadSubmitted]⟩
  · rfl

/-- **A batch leaves what is held as it was.** -/
theorem batch_sound : run stepHeld held (batchOps o w t b) = some held := by
  have hstart : Function.update held (.rawTxs b) true = withBatch held b 0 0 := by
    funext r
    cases r with
    | rawTxs c => by_cases hc : c = b <;> simp [withBatch, hc]
    | _ => simp [withBatch]
  rw [batchOps, run_use h.threadWallets, run_acquire h.rawTxs, hstart]
  refine run_append_of_eq (run_flatMap_range fun j _ => createTx_sound h j) ?_
  refine run_append_of_eq (submit_sound h _) ?_
  refine run_append_of_eq (run_flatMap_range (S := fun j => withBatch held b j _) fun j hj => destroyTx_sound h hj) ?_
  rw [run_release (by simp [withBatch])]
  refine congrArg some (funext fun r => ?_)
  cases r with
  | rawTxs c =>
    rcases eq_or_ne c b with rfl | hc
    · simp [h.rawTxs]
    · simp [withBatch, hc]
  | tx c j => simp [withBatch]
  | _ => rfl

end Batch

/-! ## The threads -/

/-- The batch that a block belongs to. -/
def MainBlock.batch : MainBlock → Option ℕ
  | .rawTxs b => some b
  | .pbArr b => some b
  | .pbPtrs b => some b
  | .msg b => some b
  | .tx b _ => some b
  | .signCtx b _ => some b
  | .sigBuf b _ => some b
  | _ => none

/-- An operation for batch `b` is on a block of the batch, or uses what does not belong to a batch. -/
def ForBatch (b : ℕ) (op : Op MainBlock) : Prop :=
  op.target.batch = some b ∨ op.target.batch = none ∧ op = .use op.target

section Threads
variable {o : Options} {w : World Key}

theorem forBatch_createTx (t b j : ℕ) : ∀ op ∈ createTxOps o w t b j, ForBatch b op := by
  intro op hop
  rcases List.mem_append.mp hop with hop | hop
  · obtain ⟨op, hmem, rfl⟩ := List.mem_map.mp hop
    have huse := transactionCreateOps_wallet _ _ op hmem
    cases op with
    | acquire q => cases q <;> first | exact Or.inl rfl | exact absurd (huse (by simp [Op.target])) (by simp)
    | use q => cases q <;> first | exact Or.inl rfl | exact Or.inr ⟨rfl, rfl⟩
    | release q => cases q <;> first | exact Or.inl rfl | exact absurd (huse (by simp [Op.target])) (by simp)
  · rw [List.mem_singleton.mp hop]
    exact Or.inl rfl

theorem forBatch_sendOps (t b n : ℕ) : ∀ op ∈ sendOps w t b n, ForBatch b op := by
  intro op hop
  simp only [sendOps, fillPbOps, packOps, exchangeOps, List.mem_cons, List.mem_append, List.mem_flatMap,
    List.not_mem_nil, or_false] at hop
  rcases hop with rfl | rfl | ⟨j, -, rfl | rfl | rfl | rfl⟩ | rfl | (rfl | rfl | rfl | ⟨j, -, rfl | rfl⟩) |
    rfl | rfl | rfl | rfl | rfl | hop | rfl | rfl
  case inr.inr.inr.inr.inr.inr.inr.inr.inr.inr.inl =>
    split at hop
    · rw [List.mem_singleton.mp hop]
      exact Or.inr ⟨rfl, rfl⟩
    · cases hop
  all_goals simp [ForBatch, Op.target, MainBlock.batch]

theorem forBatch_submitOps (t b n : ℕ) : ∀ op ∈ submitOps o w t b n, ForBatch b op := by
  unfold submitOps
  split_ifs
  · exact forBatch_sendOps t b n
  · simp [ForBatch, Op.target, MainBlock.batch]
  · simp

theorem forBatch_batchOps (t b : ℕ) : ∀ op ∈ batchOps o w t b, ForBatch b op := by
  intro op hop
  simp only [batchOps, List.mem_cons, List.mem_append, List.mem_flatMap, List.not_mem_nil, or_false] at hop
  rcases hop with rfl | rfl | ⟨j, -, hop⟩ | hop | ⟨j, -, hop⟩ | rfl
  · exact Or.inr ⟨rfl, rfl⟩
  · exact Or.inl rfl
  · exact forBatch_createTx t b j op hop
  · exact forBatch_submitOps t b _ op hop
  · have hdestroy : op = .use (.rawTxs b) ∨ op = .use (.tx b j) ∨ op = .release (.tx b j) := by
      simpa [destroyTxOps, transactionDestroyOps, Op.map, signBlock] using hop
    rcases hdestroy with rfl | rfl | rfl <;> exact Or.inl rfl
  · exact Or.inl rfl

/-- What the threads do, in some interleaving: each runs the batches that it takes, one after the other. -/
def IsParallelRun (o : Options) (w : World Key) (schedule : List (ℕ × ℕ)) (ops : List (ℕ × Op MainBlock)) : Prop :=
  ∀ t, threadOps t ops = ((schedule.filter fun p => p.1 = t).map Prod.snd).flatMap (batchOps o w t)

variable {schedule : List (ℕ × ℕ)} {ops : List (ℕ × Op MainBlock)} (hrun : IsParallelRun o w schedule ops)
include hrun

theorem exists_batch_of_mem {p : ℕ × Op MainBlock} (hp : p ∈ ops) :
    ∃ b, (p.1, b) ∈ schedule ∧ p.2 ∈ batchOps o w p.1 b := by
  have hmem : p.2 ∈ threadOps p.1 ops := List.mem_map.mpr ⟨p, List.mem_filter.mpr ⟨hp, by simp⟩, rfl⟩
  rw [hrun p.1] at hmem
  obtain ⟨b, hb, hop⟩ := List.mem_flatMap.mp hmem
  obtain ⟨⟨t, c⟩, hq, rfl⟩ := List.mem_map.mp hb
  obtain ⟨hq, ht⟩ := List.mem_filter.mp hq
  obtain rfl : t = p.1 := by simpa using ht
  exact ⟨c, hq, hop⟩

/-- A batch is run by one thread, and nothing else is acquired or released by the threads. -/
theorem shared_of_schedule (hnodup : (schedule.map Prod.snd).Nodup) : Shared ops := by
  intro r
  cases hr : r.batch with
  | none =>
    refine Or.inr fun p hp htarget => ?_
    obtain ⟨b, -, hop⟩ := exists_batch_of_mem hrun hp
    rcases forBatch_batchOps p.1 b p.2 hop with hbatch | ⟨-, huse⟩
    · rw [htarget, hr] at hbatch
      cases hbatch
    · rw [huse, htarget]
  | some b =>
    have howner : ∀ p ∈ ops, p.2.target = r → (p.1, b) ∈ schedule := by
      intro p hp htarget
      obtain ⟨c, hc, hop⟩ := exists_batch_of_mem hrun hp
      rcases forBatch_batchOps p.1 c p.2 hop with hbatch | ⟨hnone, -⟩
      · rw [htarget, hr] at hbatch
        exact (Option.some.inj hbatch) ▸ hc
      · rw [htarget, hr] at hnone
        cases hnone
    refine Or.inl ?_
    by_cases hex : ∃ t, (t, b) ∈ schedule
    · obtain ⟨t, ht⟩ := hex
      refine ⟨t, fun p hp htarget => ?_⟩
      exact (Prod.mk.inj (List.inj_on_of_nodup_map hnodup (howner p hp htarget) ht rfl)).1
    · exact ⟨0, fun p hp htarget => absurd ⟨p.1, howner p hp htarget⟩ hex⟩

/-- **The threads leave what is held as it was**, however they are interleaved. -/
theorem parallel_sound (hnodup : (schedule.map Prod.snd).Nodup) {held : MainBlock → Bool}
    (hready : ∀ p ∈ schedule, ReadyFor o w held p.1 p.2) : run stepHeld held (ops.map Prod.snd) = some held := by
  refine run_interleaved (shared_of_schedule hrun hnodup) fun t => ?_
  rw [hrun t]
  refine run_flatMap fun b hb => ?_
  obtain ⟨⟨u, c⟩, hq, rfl⟩ := List.mem_map.mp hb
  obtain ⟨hmem, ht⟩ := List.mem_filter.mp hq
  obtain rfl : u = t := by simpa using ht
  exact batch_sound (hready (u, c) hmem)

end Threads

end ShardingSim
