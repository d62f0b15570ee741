import ShardingSim.InFlight
import ShardingSim.ReceiverLoop
import ShardingSim.ReplyBuffer

/-! The session of a generator with the receiver: its threads send the batches of the loop, each by the thread that
takes it. Whatever times out and however late a reply comes, the receiver gets every transaction at most once and
none but those created (`session_delivery`), both buffers hold what is put into them (`session_buffers`), and the
count that is printed exceeds what was received by less than a batch (`session_overcount`). -/
namespace ShardingSim
open Run Blocks
set_option autoImplicit false

variable {Key : Type}

/-! ## One batch -/

section Batch
variable {P : ProtobufC PbTransactionBatch} (hP : P.Conforms encodeBatch decodeBatch) {txs : List Transaction}
  (hne : 1 ≤ txs.length) (hle : txs.length ≤ 256)
include hP hne hle

theorem unpack_batchMessage : P.unpack ((batchMessage P txs).drop 16) = some (fillBatch txs) := by
  have hsize := encodeBatch_fillBatch txs
  rw [batchMessage_eq hP hle, ← submitBatchPbPrefix_length, List.drop_left]
  exact hP.unpack_eq _ _ (by omega) (decodeBatch_fillBatch txs)

theorem serve_batchMessage (verify : Bool) (buf : List UInt8) :
    serve P verify buf (batchMessage P txs) =
      { stored := 16 + (encodeBatch (fillBatch txs)).length
        unpacked := some (16, (encodeBatch (fillBatch txs)).length)
        accepted := txs.countP (accepts verify)
        rejected := txs.countP fun tx => !accepts verify tx
        reply := okReply (txs.countP (accepts verify)) (txs.countP fun tx => !accepts verify tx) } := by
  have hsize := encodeBatch_fillBatch txs
  have hpos := encodeBatch_ne_nil hne
  have hbuf : recvBufSize - 1 = 2097151 := by decide
  have hunpack : P.unpack (encodeBatch (fillBatch txs)) = some (fillBatch txs) :=
    hP.unpack_eq _ _ (by omega) (decodeBatch_fillBatch txs)
  have hverdicts : verdicts P verify (encodeBatch (fillBatch txs)) =
      (txs.countP (accepts verify), txs.countP fun tx => !accepts verify tx) := by
    rw [verdicts, hunpack]
    simp only [countVerdicts_eq, map_pbToTx_fillBatch]
  rw [batchMessage_eq hP hle, serve_batch P verify buf (List.length_pos_iff.mp hpos) (by omega), hverdicts]

end Batch

/-! ## The session of a generator -/

def generatorSetup (P : ProtobufC PbTransactionBatch) (verify : Bool) (o : Options) (w : World Key)
    (owner : ℕ → ℕ) : Setup where
  codec := P
  verify := verify
  message b := batchMessage P (createBatch o w (owner b) b)

/-- The batches taken are those of the loop, each by the thread that owns it. -/
def InLoop (o : Options) (owner : ℕ → ℕ) : SessionEvent → Prop
  | .take t b => t = owner b ∧ owner b < o.numThreads.toNat ∧ b < (numBatches o).toNat
  | _ => True

instance (o : Options) (owner : ℕ → ℕ) : (e : SessionEvent) → Decidable (InLoop o owner e)
  | .take t b => inferInstanceAs (Decidable (t = owner b ∧ owner b < o.numThreads.toNat ∧ b < (numBatches o).toNat))
  | .deliver _ _ => .isTrue trivial
  | .answer _ => .isTrue trivial
  | .timeout _ => .isTrue trivial

/-- The transactions that the receiver decodes from a message. -/
def decodedTxs (P : ProtobufC PbTransactionBatch) (msg : List UInt8) : List Transaction :=
  match P.unpack (msg.drop 16) with
  | some batch => batch.transactions.map pbToTx
  | none => []

/-- What the receiver got, in order. -/
def receivedTxs (c : Setup) (s : SessionState) : List Transaction :=
  s.delivered.reverse.flatMap fun b => decodedTxs c.codec (c.message b)

def batchLength (o : Options) (b : ℕ) : ℕ := (txEnd o b - txStart o b).toNat

/-- The counters of all threads together. -/
def sessionSubmitted (o : Options) (s : SessionState) : ℕ := (s.counted.map fun p => batchLength o p.1).sum

section Session
variable {P : ProtobufC PbTransactionBatch} {verify : Bool} {o : Options} {w : World Key} {owner : ℕ → ℕ}

theorem createBatch_length (o : Options) (w : World Key) (tid b : ℕ) :
    (createBatch o w tid b).length = batchLength o b := by
  rw [createBatch, List.length_map, List.length_range, batchLength]

theorem batchLength_eq (hbatch : 1 ≤ o.batchSize) :
    batchLength o = blockLength o.totalCount.toNat o.batchSize.toNat := funext (txEnd_sub_txStart hbatch)

theorem batchLength_bounds (hbatch : 1 ≤ o.batchSize ∧ o.batchSize ≤ 256) {b : ℕ} (hb : b < (numBatches o).toNat) :
    1 ≤ batchLength o b ∧ batchLength o b ≤ 256 := by
  have hbounds := batch_bounds hbatch.1 hb
  rw [batchLength]
  omega

/-- What a thread has outstanding or in hand is its own. -/
structure OwnBatches (o : Options) (owner : ℕ → ℕ) (t : ℕ) (th : ThreadState) : Prop where
  outstanding : ∀ b, th.outstanding = some b → t = owner b ∧ owner b < o.numThreads.toNat
  handling : ∀ b x, th.handling = some (b, x) → t = owner b ∧ owner b < o.numThreads.toNat

structure LoopInv (o : Options) (owner : ℕ → ℕ) (s : SessionState) : Prop where
  taken : ∀ b ∈ s.taken, b < (numBatches o).toNat
  threads : ∀ t, OwnBatches o owner t (s.threads t)

theorem loopInv_initial : LoopInv o owner .initial where
  taken := by simp [SessionState.initial]
  threads := fun t => ⟨by simp [SessionState.initial], by simp [SessionState.initial]⟩

theorem ownBatches_setThread {s : SessionState} {t : ℕ} {th : ThreadState}
    (hs : ∀ u, OwnBatches o owner u (s.threads u)) (hth : OwnBatches o owner t th) (u : ℕ) :
    OwnBatches o owner u ((setThread s t th).threads u) := by
  rw [setThread_threads]
  split
  · rename_i hut
    rw [hut]
    exact hth
  · exact hs u

theorem loopInv_step {c : Setup} {s s' : SessionState} {e : SessionEvent} (hs : LoopInv o owner s)
    (he : InLoop o owner e) (h : step c s e = some s') : LoopInv o owner s' := by
  cases e with
  | take t b =>
    obtain ⟨hown, hthread, hb⟩ := he
    have htaken : ∀ d ∈ b :: s.taken, d < (numBatches o).toNat := List.forall_mem_cons.mpr ⟨hb, hs.taken⟩
    obtain ⟨-, -, ⟨-, rfl⟩ | ⟨b', hout, rfl⟩⟩ := takeStep_cases h
    · refine ⟨htaken, ownBatches_setThread hs.threads ⟨fun d hd => ?_, fun d x hd => ?_⟩⟩ <;> cases hd <;>
        exact ⟨hown, hthread⟩
    · refine ⟨htaken, ownBatches_setThread hs.threads ⟨fun d hd => ?_, fun d x hd => ?_⟩⟩ <;> cases hd
      · exact (hs.threads t).outstanding _ hout
      · exact ⟨hown, hthread⟩
  | deliver t b =>
    obtain ⟨-, rfl⟩ := deliverStep_cases h
    exact ⟨hs.taken, hs.threads⟩
  | answer t =>
    obtain ⟨b, b', x, text, -, -, -, rfl⟩ := answerStep_cases h
    exact ⟨hs.taken, ownBatches_setThread hs.threads ⟨by simp, by simp⟩⟩
  | timeout t =>
    obtain ⟨-, rfl⟩ := timeoutStep_cases h
    exact ⟨hs.taken, ownBatches_setThread hs.threads ⟨(hs.threads t).outstanding, by simp⟩⟩

end Session

/-! ## The receiver -/

section Receiver
variable {P : ProtobufC PbTransactionBatch} (hP : P.Conforms encodeBatch decodeBatch) {verify : Bool} {o : Options}
  (hbatch : 1 ≤ o.batchSize ∧ o.batchSize ≤ 256) {w : World Key} {owner : ℕ → ℕ}

/-- The reply to batch `b`. -/
def batchReply (verify : Bool) (o : Options) (w : World Key) (owner : ℕ → ℕ) (b : ℕ) : List UInt8 :=
  okReply ((createBatch o w (owner b) b).countP (accepts verify))
    ((createBatch o w (owner b) b).countP fun tx => !accepts verify tx)

/-- The receiver counts what was delivered, and the replies in flight are those to the batches. -/
structure DeliveryInv (verify : Bool) (o : Options) (w : World Key) (owner : ℕ → ℕ) (s : SessionState) : Prop where
  flight : FlightInv s
  loop : LoopInv o owner s
  totalReceived : s.receiver.totalReceived = UInt64.ofNat (s.delivered.map (batchLength o)).sum
  replies : ∀ r ∈ s.replies, r.2.2 = batchReply verify o w owner r.2.1

theorem deliveryInv_initial : DeliveryInv verify o w owner .initial where
  flight := flightInv_initial
  loop := loopInv_initial
  totalReceived := rfl
  replies := by simp [SessionState.initial]

theorem DeliveryInv.request {s : SessionState} {t b : ℕ} (hs : DeliveryInv verify o w owner s)
    (h : (t, b) ∈ s.requests) : b < (numBatches o).toNat := by
  have hout := (hs.flight.inFlight_iff t b).mp (List.mem_append_left _ h)
  exact hs.loop.taken b ((hs.flight.session.threads t).outstanding_taken b hout)

include hP hbatch

theorem serve_message (verify : Bool) (w : World Key) (owner : ℕ → ℕ) {b : ℕ} (hb : b < (numBatches o).toNat)
    (buf : List UInt8) :
    (serve P verify buf (batchMessage P (createBatch o w (owner b) b))).reply = batchReply verify o w owner b ∧
      (serve P verify buf (batchMessage P (createBatch o w (owner b) b))).accepted +
        (serve P verify buf (batchMessage P (createBatch o w (owner b) b))).rejected = batchLength o b := by
  have hlength := createBatch_length o w (owner b) b
  have hbounds := batchLength_bounds hbatch hb
  rw [serve_batchMessage hP (by omega) (by omega)]
  exact ⟨rfl, (countP_accepts_add verify _).trans hlength⟩

theorem deliveryInv_step {s s' : SessionState} {e : SessionEvent} (hs : DeliveryInv verify o w owner s)
    (he : InLoop o owner e) (h : step (generatorSetup P verify o w owner) s e = some s') :
    DeliveryInv verify o w owner s' := by
  have hflight := flightInv_step hs.flight h
  have hloop := loopInv_step hs.loop he h
  cases e with
  | take t b =>
    obtain ⟨-, -, ⟨-, rfl⟩ | ⟨b', -, rfl⟩⟩ := takeStep_cases h
    · exact ⟨hflight, hloop, hs.totalReceived, hs.replies⟩
    · exact ⟨hflight, hloop, hs.totalReceived, hs.replies⟩
  | deliver t b =>
    obtain ⟨hmem, rfl⟩ := deliverStep_cases h
    obtain ⟨hreply, hcount⟩ := serve_message hP hbatch verify w owner (hs.request hmem) s.receiver.buf
    refine ⟨hflight, hloop, ?_, fun r hr => ?_⟩
    · rw [List.map_cons, List.sum_cons, Nat.add_comm, UInt64.ofNat_add, ← hs.totalReceived, ← hcount]
      rfl
    · rcases List.mem_append.mp hr with hr | hr
      · exact hs.replies r hr
      · rw [List.mem_singleton.mp hr]
        exact hreply
  | answer t =>
    obtain ⟨b, b', x, text, -, -, -, rfl⟩ := answerStep_cases h
    exact ⟨hflight, hloop, hs.totalReceived, fun r hr => hs.replies r (List.mem_of_mem_filter hr)⟩
  | timeout t =>
    obtain ⟨-, rfl⟩ := timeoutStep_cases h
    exact ⟨hflight, hloop, hs.totalReceived, hs.replies⟩

theorem deliveryInv_run {es : List SessionEvent} {s : SessionState} (hes : ∀ e ∈ es, InLoop o owner e)
    (h : run (step (generatorSetup P verify o w owner)) .initial es = some s) : DeliveryInv verify o w owner s :=
  run_inv (E := InLoop o owner) (fun _ _ _ hs he hstep => deliveryInv_step hP hbatch hs he hstep)
    deliveryInv_initial hes h

end Receiver

/-! ## What the receiver gets -/

structure ReceivedOnce (P : ProtobufC PbTransactionBatch) (verify : Bool) (o : Options) (w : World Key)
    (owner : ℕ → ℕ) (s : SessionState) : Prop where
  received : receivedTxs (generatorSetup P verify o w owner) s =
    s.delivered.reverse.flatMap fun b => createBatch o w (owner b) b
  taken : ∀ b ∈ s.delivered, b ∈ s.taken ∧ b < (numBatches o).toNat
  nonces : ((receivedTxs (generatorSetup P verify o w owner) s).map Transaction.nonce).Subperm
    ((List.range o.totalCount.toNat).map (nonceOf o))
  nonces_nodup : ((receivedTxs (generatorSetup P verify o w owner) s).map Transaction.nonce).Nodup
  totalReceived : s.receiver.totalReceived.toNat =
    (receivedTxs (generatorSetup P verify o w owner) s).length

section Invariant
variable {P : ProtobufC PbTransactionBatch} (hP : P.Conforms encodeBatch decodeBatch) {verify : Bool} {o : Options}
  (hbatch : 1 ≤ o.batchSize ∧ o.batchSize ≤ 256) (hfits : FitsTypes o) {w : World Key} {owner : ℕ → ℕ}
  {s : SessionState} (hs : DeliveryInv verify o w owner s)
include hs

theorem DeliveryInv.delivered_lt (b : ℕ) (hb : b ∈ s.delivered) : b < (numBatches o).toNat :=
  hs.loop.taken b (hs.flight.delivered_taken b hb)

include hP hbatch

theorem receivedTxs_eq : receivedTxs (generatorSetup P verify o w owner) s =
    s.delivered.reverse.flatMap fun b => createBatch o w (owner b) b := by
  refine List.flatMap_congr fun b hb => ?_
  have hlength := createBatch_length o w (owner b) b
  have hbounds := batchLength_bounds hbatch (hs.delivered_lt b (List.mem_reverse.mp hb))
  show decodedTxs P (batchMessage P (createBatch o w (owner b) b)) = _
  rw [decodedTxs, unpack_batchMessage hP (by omega) (by omega)]
  exact map_pbToTx_fillBatch _

omit hP in
theorem sum_delivered_le : (s.delivered.map (batchLength o)).sum ≤ o.totalCount.toNat := by
  have hpos : 0 < o.batchSize.toNat := by omega
  rw [batchLength_eq hbatch.1]
  exact sum_blockLength_le hpos hs.flight.delivered_nodup fun b hb => numBatches_toNat hbatch.1 ▸ hs.delivered_lt b hb

theorem length_receivedTxs : (receivedTxs (generatorSetup P verify o w owner) s).length =
    (s.delivered.map (batchLength o)).sum := by
  rw [receivedTxs_eq hP hbatch hs, List.length_flatMap, List.map_reverse, List.sum_reverse]
  exact congrArg List.sum (List.map_congr_left fun b _ => createBatch_length o w (owner b) b)

theorem nonces_receivedTxs : ((receivedTxs (generatorSetup P verify o w owner) s).map Transaction.nonce).Subperm
    ((List.range o.totalCount.toNat).map (nonceOf o)) := by
  have hpos : 0 < o.batchSize.toNat := by omega
  rw [receivedTxs_eq hP hbatch hs, List.map_flatMap]
  simp only [map_nonce_createBatch w hbatch.1]
  exact flatMap_blocks_subperm hpos (nonceOf o) (List.nodup_reverse.mpr hs.flight.delivered_nodup) fun b hb =>
    numBatches_toNat hbatch.1 ▸ hs.delivered_lt b (List.mem_reverse.mp hb)

include hfits

theorem totalReceived_toNat : s.receiver.totalReceived.toNat =
    (receivedTxs (generatorSetup P verify o w owner) s).length := by
  have hle := sum_delivered_le hbatch hs
  have hint := hfits.1.2
  rw [length_receivedTxs hP hbatch hs, hs.totalReceived, UInt64.toNat_ofNat_of_lt']
  show _ < 2 ^ 64
  omega

theorem DeliveryInv.receivedOnce : ReceivedOnce P verify o w owner s where
  received := receivedTxs_eq hP hbatch hs
  taken b hb := ⟨hs.flight.delivered_taken b hb, hs.delivered_lt b hb⟩
  nonces := nonces_receivedTxs hP hbatch hs
  nonces_nodup := by
    obtain ⟨l, hperm, hsub⟩ := nonces_receivedTxs hP hbatch hs
    refine hperm.nodup_iff.mp (hsub.nodup ?_)
    refine List.Nodup.map_on (fun i hi j hj h => ?_) List.nodup_range
    have hint := hfits.1.2
    have hi' := List.mem_range.mp hi
    have hj' := List.mem_range.mp hj
    exact nonceOf_injective (by omega) (by omega) h
  totalReceived := totalReceived_toNat hP hbatch hfits hs

end Invariant

/-- **The receiver gets each transaction at most once** and none but those that the batches taken created, and its
counter is their number, whatever times out and however late a message comes. Without `NoOverflow` the loop that
takes the batches is undefined in C. -/
theorem session_delivery {P : ProtobufC PbTransactionBatch} (hP : P.Conforms encodeBatch decodeBatch) (verify : Bool)
    (argv : List (List UInt8)) (w : World Key) (owner : ℕ → ℕ) (es : List SessionEvent) (s : SessionState)
    (hes : ∀ e ∈ es, InLoop (options argv) owner e)
    (h : run (step (generatorSetup P verify (options argv) w owner)) .initial es = some s) :
    ReceivedOnce P verify (options argv) w owner s :=
  (deliveryInv_run hP (clampBatchSize_bounds _) hes h).receivedOnce hP (clampBatchSize_bounds _)
    (fitsTypes_options argv)

/-- A batch is delivered after its thread gave up waiting for the reply. -/
def lateDelivery : List SessionEvent := [.take 0 0, .timeout 0, .deliver 0 0]

theorem lateDelivery_inLoop : ∀ e ∈ lateDelivery, InLoop (options sampleArgs) id e := by decide

theorem session_delivery_late : ∃ s,
    run (step (generatorSetup batchCodec true (options sampleArgs) sampleWorld id)) .initial lateDelivery = some s ∧
      ReceivedOnce batchCodec true (options sampleArgs) sampleWorld id s :=
  ⟨_, rfl, session_delivery batchCodec_conforms true sampleArgs sampleWorld id lateDelivery _
    lateDelivery_inLoop rfl⟩

/-! ## Both buffers -/

/-- There is room for what is in flight: at most one message for each thread, each request fits the receive
buffer, and each reply is an `OK` with the counts of its batch that fits `resp`. -/
structure MessagesFit (P : ProtobufC PbTransactionBatch) (verify : Bool) (o : Options) (w : World Key)
    (owner : ℕ → ℕ) (s : SessionState) : Prop where
  inFlight : s.requests.length + s.replies.length ≤ o.numThreads.toNat ∧ o.numThreads.toNat ≤ 64
  requests : ∀ r ∈ s.requests, ∀ buf,
    (serve P verify buf ((generatorSetup P verify o w owner).message r.2)).InBounds
  replies : ∀ r ∈ s.replies, (∃ a b, a + b = batchLength o r.2.1 ∧ r.2.2 = okReply a b) ∧
    ∀ resp submitted txsInBatch, ReplySafe resp submitted txsInBatch (some r.2.2)

theorem okReply_fits {verify : Bool} {o : Options} {w : World Key} {owner : ℕ → ℕ} {b : ℕ}
    (hlength : batchLength o b ≤ 256) : (batchReply verify o w owner b).length ≤ 127 := by
  have hsum := countP_accepts_add verify (createBatch o w (owner b) b)
  rw [createBatch_length] at hsum
  have hfits := okReply_length (a := (createBatch o w (owner b) b).countP (accepts verify))
    (r := (createBatch o w (owner b) b).countP fun tx => !accepts verify tx) (by omega) (by omega)
  exact (Nat.lt_succ_iff.mp (Nat.lt_of_lt_of_le hfits (by decide)))

/-- **Both ends of a session stay in their buffers**, in every run that C defines, which needs `NoOverflow`. -/
theorem session_buffers {P : ProtobufC PbTransactionBatch} (hP : P.Conforms encodeBatch decodeBatch) (verify : Bool)
    (argv : List (List UInt8)) (w : World Key) (owner : ℕ → ℕ) (es : List SessionEvent) (s : SessionState)
    (hes : ∀ e ∈ es, InLoop (options argv) owner e)
    (h : run (step (generatorSetup P verify (options argv) w owner)) .initial es = some s) :
    MessagesFit P verify (options argv) w owner s := by
  have hbatch : 1 ≤ (options argv).batchSize ∧ (options argv).batchSize ≤ 256 := clampBatchSize_bounds _
  have hthreads : 1 ≤ (options argv).numThreads ∧ (options argv).numThreads ≤ 64 := clampThreads_bounds _
  have hs := deliveryInv_run hP hbatch hes h
  have hbounds := fun {b : ℕ} (hb : b < (numBatches (options argv)).toNat) => batchLength_bounds hbatch hb
  refine ⟨⟨inFlight_length_le hs.flight fun t ht => ?_, by omega⟩, fun r hr buf => ?_, fun r hr => ?_⟩
  · obtain ⟨b, hb⟩ := Option.isSome_iff_exists.mp ht
    obtain ⟨rfl, hlt⟩ := (hs.loop.threads t).outstanding b hb
    exact hlt
  · obtain ⟨hne, hle⟩ := hbounds (hs.request hr)
    have hlength := createBatch_length (options argv) w (owner r.2) r.2
    exact (serve_inBounds_iff P verify buf _).mpr fun _ =>
      (batch_roundTrip hP _ (by omega) (by omega) buf).1
  · have hdelivered := hs.flight.session.replies_delivered r hr
    obtain ⟨-, hle⟩ := hbounds (hs.delivered_lt _ hdelivered)
    rw [hs.replies r hr]
    refine ⟨⟨_, _, ?_, rfl⟩, fun resp submitted txsInBatch => ?_⟩
    · exact (countP_accepts_add verify _).trans (createBatch_length _ w _ _)
    · refine (replySafe_iff resp submitted txsInBatch _).mpr fun msg hmsg => ?_
      rw [← Option.some.inj hmsg]
      exact okReply_fits hle

theorem session_buffers_late : ∃ s,
    run (step (generatorSetup batchCodec true (options sampleArgs) sampleWorld id)) .initial lateDelivery = some s ∧
      MessagesFit batchCodec true (options sampleArgs) sampleWorld id s :=
  ⟨_, rfl, session_buffers batchCodec_conforms true sampleArgs sampleWorld id lateDelivery _
    lateDelivery_inLoop rfl⟩

/-! ## The count that is printed -/

/-- **The generator counts less than a batch too much.** A late reply may count a full batch for the last one, which
is shorter; where all batches have one length nothing is counted that was not received. Without `NoOverflow` the
batches are undefined in C. -/
theorem session_overcount {P : ProtobufC PbTransactionBatch} (hP : P.Conforms encodeBatch decodeBatch) (verify : Bool)
    (argv : List (List UInt8)) (w : World Key) (owner : ℕ → ℕ) (es : List SessionEvent) (s : SessionState)
    (hes : ∀ e ∈ es, InLoop (options argv) owner e)
    (h : run (step (generatorSetup P verify (options argv) w owner)) .initial es = some s) :
    sessionSubmitted (options argv) s ≤ s.receiver.totalReceived.toNat + ((options argv).batchSize.toNat - 1) ∧
      sessionSubmitted (options argv) s ≤ (options argv).totalCount.toNat ∧
      ((options argv).batchSize ∣ (options argv).totalCount →
        sessionSubmitted (options argv) s ≤ s.receiver.totalReceived.toNat) := by
  have hbatch : 1 ≤ (options argv).batchSize ∧ (options argv).batchSize ≤ 256 := clampBatchSize_bounds _
  have hfits := fitsTypes_options argv
  have hs := deliveryInv_run hP hbatch hes h
  have hreceived := totalReceived_toNat hP hbatch hfits hs
  rw [length_receivedTxs hP hbatch hs] at hreceived
  generalize options argv = o at *
  have hpos : 0 < o.batchSize.toNat := by omega
  have hread : ∀ p ∈ s.counted, p.2 < blockCount o.totalCount.toNat o.batchSize.toNat := fun p hp =>
    numBatches_toNat hbatch.1 ▸ hs.delivered_lt p.2 (hs.flight.session.counted_delivered p hp)
  have hdelivered : ((s.counted.map Prod.snd).map (batchLength o)).sum ≤ (s.delivered.map (batchLength o)).sum := by
    refine sum_map_le_of_subset (batchLength o) hs.flight.read_nodup fun b hb => ?_
    obtain ⟨p, hp, rfl⟩ := List.mem_map.mp hb
    exact hs.flight.session.counted_delivered p hp
  rw [hreceived, sessionSubmitted]
  rw [batchLength_eq hbatch.1] at hdelivered ⊢
  refine ⟨?_, ?_, fun hdvd => ?_⟩
  · have hexchange := sum_blockLength_exchange hpos hs.flight.read_nodup hread
    omega
  · have hcounted : ∀ b ∈ s.counted.map Prod.fst, b < blockCount o.totalCount.toNat o.batchSize.toNat := fun b hb =>
      numBatches_toNat hbatch.1 ▸ hs.loop.taken b (hs.flight.counted_taken b hb)
    have hle := sum_blockLength_le hpos hs.flight.counted_nodup hcounted
    rwa [List.map_map] at hle
  · have hdvd' : o.batchSize.toNat ∣ o.totalCount.toNat := by
      rcases Int.le_total o.totalCount 0 with hneg | hnonneg
      · rw [Int.toNat_of_nonpos hneg]
        exact dvd_zero _
      · rw [← Int.natCast_dvd_natCast, Int.toNat_of_nonneg (by omega), Int.toNat_of_nonneg hnonneg]
        exact hdvd
    exact (sum_blockLength_exchange_of_dvd hpos hdvd' hread).trans hdelivered

/-- The reply to the last batch, of one transaction, comes after the first one was taken, of two. -/
def lateReply : List SessionEvent := [.take 0 1, .timeout 0, .take 0 0, .deliver 0 1, .answer 0]

theorem lateReply_inLoop : ∀ e ∈ lateReply, InLoop (options sampleArgs) (fun _ => 0) e := by decide

theorem session_overcount_late : ∃ s, run (step (generatorSetup batchCodec false (options sampleArgs) sampleWorld
      fun _ => 0)) .initial lateReply = some s ∧
    sessionSubmitted (options sampleArgs) s ≤ s.receiver.totalReceived.toNat + 1 := by
  refine ⟨_, rfl, ?_⟩
  have hbatch : (options sampleArgs).batchSize.toNat - 1 = 1 := by decide
  exact hbatch ▸ (session_overcount batchCodec_conforms false sampleArgs sampleWorld (fun _ => 0) lateReply _
    lateReply_inLoop rfl).1

end ShardingSim
