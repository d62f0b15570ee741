import ShardingSim.Delivery

/-! How a session ends. `remaining` bounds the events left, so every run is finite and, as some step is always
enabled before, can be continued to a state in which all batches were taken and no thread waits
(`session_terminates`). If no `zmq_recv` times out, then every transaction was received and counted there
(`session_complete`). -/
namespace ShardingSim
open Run Blocks
set_option autoImplicit false

variable {Key : Type}

/-! ## Events left -/

/-- The threads between their `zmq_send` and the end of their `zmq_recv`. -/
def waiting (n : ℕ) (s : SessionState) : Finset ℕ :=
  (Finset.range n).filter fun t => (s.threads t).handling.isSome

/-- A batch that is not taken yet stands for three events: it is taken, delivered and answered. -/
def remaining (o : Options) (s : SessionState) : ℕ :=
  3 * ((numBatches o).toNat - s.taken.length) + s.requests.length + (waiting o.numThreads.toNat s).card

theorem remaining_initial (o : Options) : remaining o .initial = 3 * (numBatches o).toNat := by
  simp [remaining, waiting, SessionState.initial]

section Waiting
variable {s : SessionState} {n t : ℕ}

theorem waiting_setThread_le (th : ThreadState) : (waiting n (setThread s t th)).card ≤ (waiting n s).card + 1 := by
  refine (Finset.card_le_card fun u hu => ?_).trans (Finset.card_insert_le t (waiting n s))
  obtain ⟨hlt, hsome⟩ := Finset.mem_filter.mp hu
  rw [setThread_threads] at hsome
  rw [Finset.mem_insert, waiting, Finset.mem_filter]
  split at hsome
  · rename_i hut
    exact Or.inl hut
  · exact Or.inr ⟨hlt, hsome⟩

theorem waiting_setThread_lt (outstanding : Option ℕ) (ht : t < n) (hhand : (s.threads t).handling.isSome) :
    (waiting n (setThread s t ⟨outstanding, none⟩)).card < (waiting n s).card := by
  have hmem : t ∈ waiting n s := Finset.mem_filter.mpr ⟨Finset.mem_range.mpr ht, hhand⟩
  refine Finset.card_lt_card (Finset.ssubset_iff_of_subset (fun u hu => ?_) |>.mpr ⟨t, hmem, fun ht' => ?_⟩)
  · obtain ⟨hlt, hsome⟩ := Finset.mem_filter.mp hu
    rw [setThread_threads] at hsome
    split at hsome
    · cases hsome
    · exact Finset.mem_filter.mpr ⟨hlt, hsome⟩
  · have hsome := (Finset.mem_filter.mp ht').2
    rw [setThread_self] at hsome
    cases hsome

end Waiting

section Steps
variable {o : Options} {owner : ℕ → ℕ} {c : Setup} {s s' : SessionState} {e : SessionEvent}

/-- What is invariant in a session of the loop, whatever the messages are. -/
structure SoundInv (o : Options) (owner : ℕ → ℕ) (s : SessionState) : Prop where
  flight : FlightInv s
  loop : LoopInv o owner s

theorem soundInv_initial : SoundInv o owner .initial := ⟨flightInv_initial, loopInv_initial⟩

theorem soundInv_step (hs : SoundInv o owner s) (he : InLoop o owner e) (h : step c s e = some s') :
    SoundInv o owner s' := ⟨flightInv_step hs.flight h, loopInv_step hs.loop he h⟩

theorem taken_length_le (hs : SoundInv o owner s) : s.taken.length ≤ (numBatches o).toNat := by
  have hsub : s.taken ⊆ List.range (numBatches o).toNat := fun b hb => List.mem_range.mpr (hs.loop.taken b hb)
  simpa using (hs.flight.taken_nodup.subperm hsub).length_le

theorem handling_lt (hs : SoundInv o owner s) {t : ℕ} (h : (s.threads t).handling.isSome) :
    t < o.numThreads.toNat := by
  obtain ⟨⟨b, x⟩, hb⟩ := Option.isSome_iff_exists.mp h
  obtain ⟨rfl, hlt⟩ := (hs.loop.threads t).handling b x hb
  exact hlt

/-- **Every event leaves fewer.** -/
theorem remaining_step (hs : SoundInv o owner s) (he : InLoop o owner e) (h : step c s e = some s') :
    remaining o s' < remaining o s := by
  have htaken := taken_length_le (soundInv_step hs he h)
  cases e with
  | take t b =>
    have hwait := fun th => waiting_setThread_le (s := s) (n := o.numThreads.toNat) (t := t) th
    obtain ⟨-, -, ⟨-, rfl⟩ | ⟨b', -, rfl⟩⟩ := takeStep_cases h
    · have hlength : (sentState s t b).requests.length = s.requests.length + 1 := List.length_append
      have hone : (sentState s t b).taken.length = s.taken.length + 1 := rfl
      have := hwait ⟨some b, some (b, true)⟩
      change (waiting _ (sentState s t b)).card ≤ _ at this
      rw [remaining, remaining]
      omega
    · have hlength : (refusedState s t b b').requests.length = s.requests.length := rfl
      have hone : (refusedState s t b b').taken.length = s.taken.length + 1 := rfl
      have := hwait ⟨some b', some (b, false)⟩
      change (waiting _ (refusedState s t b b')).card ≤ _ at this
      rw [remaining, remaining]
      omega
  | deliver t b =>
    obtain ⟨hmem, rfl⟩ := deliverStep_cases h
    have hlength := List.length_erase_of_mem hmem
    have hpos := List.length_pos_of_mem hmem
    show 3 * (_ - s.taken.length) + (s.requests.erase (t, b)).length + (waiting _ s).card < remaining o s
    rw [remaining]
    omega
  | answer t =>
    obtain ⟨b, b', x, text, -, hhand, -, rfl⟩ := answerStep_cases h
    have hsome : (s.threads t).handling.isSome := Option.isSome_of_mem hhand
    exact Nat.add_lt_add_left (waiting_setThread_lt none (handling_lt hs hsome) hsome) _
  | timeout t =>
    obtain ⟨hsome, rfl⟩ := timeoutStep_cases h
    exact Nat.add_lt_add_left (waiting_setThread_lt _ (handling_lt hs hsome) hsome) _

end Steps

/-! ## Progress -/

/-- The loop is done: all batches were taken and no thread waits. -/
def Finished (o : Options) (s : SessionState) : Prop :=
  s.taken.Perm (List.range (numBatches o).toNat) ∧ ∀ t, (s.threads t).handling = none

def NoTimeout (e : SessionEvent) : Prop := ∀ t, e ≠ .timeout t

section Progress
variable {o : Options} {owner : ℕ → ℕ} {c : Setup} {s : SessionState}

theorem deliverStep_isSome {t b : ℕ} (h : (t, b) ∈ s.requests) : (step c s (.deliver t b)).isSome := by
  rw [step, deliverStep, if_pos h]
  rfl

theorem takeStep_isSome {t b : ℕ} (hhand : (s.threads t).handling = none) (hfree : b ∉ s.taken) :
    (step c s (.take t b)).isSome := by
  have hidle : (s.threads t).handling.isNone := Option.isNone_iff_eq_none.mpr hhand
  rw [step, takeStep, if_pos ⟨hidle, hfree⟩]
  cases (s.threads t).outstanding <;> rfl

theorem answerStep_isSome {t b b' : ℕ} {x : Bool} {text : List UInt8} (hhand : (s.threads t).handling = some (b, x))
    (hout : (s.threads t).outstanding = some b') (hreply : (t, b', text) ∈ s.replies) :
    (step c s (.answer t)).isSome := by
  have hfind : (s.replies.find? fun r => r.1 = t ∧ r.2.1 = b').isSome := by
    rw [List.find?_isSome]
    exact ⟨_, hreply, by simp⟩
  rw [step, answerStep, hout, hhand]
  simpa [replyTo] using hfind

variable (hs : SoundInv o owner s)
include hs

/-- The message that a waiting thread waits for is in flight, and can be received by the side it is on its way to. -/
theorem exists_step_of_handling {t b : ℕ} {x : Bool} (hhand : (s.threads t).handling = some (b, x)) :
    ∃ e, (InLoop o owner e ∧ NoTimeout e) ∧ (step c s e).isSome := by
  have hthread := hs.flight.session.threads t
  obtain ⟨b', hout⟩ : ∃ b', (s.threads t).outstanding = some b' := by
    cases x with
    | true => exact ⟨b, hthread.sent b hhand⟩
    | false =>
      obtain ⟨b', hout, -⟩ := hthread.refused b hhand
      exact ⟨b', hout⟩
  rcases List.mem_append.mp ((hs.flight.inFlight_iff t b').mpr hout) with hmem | hmem
  · exact ⟨.deliver t b', ⟨trivial, by simp [NoTimeout]⟩, deliverStep_isSome hmem⟩
  · obtain ⟨⟨u, d, text⟩, hr, heq⟩ := List.mem_map.mp hmem
    obtain ⟨rfl, rfl⟩ := Prod.mk.inj heq
    exact ⟨.answer u, ⟨trivial, by simp [NoTimeout]⟩, answerStep_isSome hhand hout hr⟩

theorem exists_step (howner : ∀ b < (numBatches o).toNat, owner b < o.numThreads.toNat) (h : ¬ Finished o s) :
    ∃ e, (InLoop o owner e ∧ NoTimeout e) ∧ (step c s e).isSome := by
  by_cases hidle : ∀ t, (s.threads t).handling = none
  · -- a batch is left for its thread, which is idle
    have hleft : ∃ b < (numBatches o).toNat, b ∉ s.taken := by
      by_contra hall
      push Not at hall
      have hperm : s.taken.Perm (List.range (numBatches o).toNat) :=
        (List.perm_ext_iff_of_nodup hs.flight.taken_nodup List.nodup_range).mpr fun b =>
          ⟨fun hb => List.mem_range.mpr (hs.loop.taken b hb), fun hb => hall b (List.mem_range.mp hb)⟩
      exact h ⟨hperm, hidle⟩
    obtain ⟨b, hb, hfree⟩ := hleft
    exact ⟨.take (owner b) b, ⟨⟨rfl, howner b hb, hb⟩, by simp [NoTimeout]⟩,
      takeStep_isSome (hidle (owner b)) hfree⟩
  · push Not at hidle
    obtain ⟨t, ht⟩ := hidle
    obtain ⟨⟨b, x⟩, hhand⟩ := Option.ne_none_iff_exists'.mp ht
    exact exists_step_of_handling hs hhand

end Progress

/-- **Every session ends.** A run has at most three events for each batch, and wherever it stands, timeouts
included, it can go on without another one until the loop is done. Without `NoOverflow` a run is undefined in C. -/
theorem session_terminates (c : Setup) (argv : List (List UInt8)) (owner : ℕ → ℕ) (es : List SessionEvent)
    (s : SessionState)
    (howner : ∀ b < (numBatches (options argv)).toNat, owner b < (options argv).numThreads.toNat)
    (hes : ∀ e ∈ es, InLoop (options argv) owner e) (h : run (step c) .initial es = some s) :
    es.length ≤ 3 * (numBatches (options argv)).toNat ∧
      ∃ rest s', (∀ e ∈ rest, InLoop (options argv) owner e ∧ NoTimeout e) ∧
        run (step c) s rest = some s' ∧ Finished (options argv) s' := by
  have hs : SoundInv (options argv) owner s :=
    run_inv (E := InLoop (options argv) owner) (fun _ _ _ hs he hstep => soundInv_step hs he hstep) soundInv_initial
      hes h
  constructor
  · have hlength := run_length_le (E := InLoop (options argv) owner)
      (fun _ _ _ hs he hstep => soundInv_step hs he hstep) (fun _ _ _ hs he hstep => remaining_step hs he hstep)
      soundInv_initial hes h
    rw [remaining_initial] at hlength
    omega
  · refine exists_run_of_progress (fun _ _ _ hs he hstep => soundInv_step hs he.1 hstep)
      (fun _ _ _ hs he hstep => remaining_step hs he.1 hstep) (fun s hs hF => ?_) hs
    obtain ⟨e, he, hsome⟩ := exists_step hs howner hF
    obtain ⟨s', hs'⟩ := Option.isSome_iff_exists.mp hsome
    exact ⟨e, s', he, hs'⟩

theorem sampleArgs_owner : ∀ b < (numBatches (options sampleArgs)).toNat,
    id b < (options sampleArgs).numThreads.toNat := by decide

theorem session_terminates_late : ∃ s, run (step sampleSetup) .initial lateDelivery = some s ∧
    ∃ rest s', run (step sampleSetup) s rest = some s' ∧ Finished (options sampleArgs) s' := by
  refine ⟨_, rfl, ?_⟩
  obtain ⟨-, rest, s', -, hrun, hend⟩ :=
    session_terminates sampleSetup sampleArgs id lateDelivery _ sampleArgs_owner lateDelivery_inLoop rfl
  exact ⟨rest, s', hrun, hend⟩

/-! ## Sessions without timeouts -/

/-- Every batch taken is waited for or was counted. -/
structure CompleteInv (verify : Bool) (o : Options) (w : World Key) (owner : ℕ → ℕ) (s : SessionState) : Prop where
  delivery : DeliveryInv verify o w owner s
  inStep : ∀ t, InStep (s.threads t)
  taken : ∀ b ∈ s.taken, (∃ t, (s.threads t).handling = some (b, true)) ∨ b ∈ s.counted.map Prod.fst

section Complete
variable {P : ProtobufC PbTransactionBatch} (hP : P.Conforms encodeBatch decodeBatch) {verify : Bool} {o : Options}
  (hbatch : 1 ≤ o.batchSize ∧ o.batchSize ≤ 256) {w : World Key} {owner : ℕ → ℕ} {s s' : SessionState}

theorem completeInv_initial : CompleteInv verify o w owner .initial where
  delivery := deliveryInv_initial
  inStep := fun _ => Or.inl rfl
  taken := by simp [SessionState.initial]

/-- Another thread keeps the batch it waits for. -/
theorem handling_of_ne {t u b : ℕ} {th : ThreadState} (hne : (s.threads t).handling ≠ some (b, true))
    (h : (s.threads u).handling = some (b, true)) : ((setThread s t th).threads u).handling = some (b, true) := by
  have hut : u ≠ t := fun hut => hne (hut ▸ h)
  rw [setThread_of_ne hut]
  exact h

include hP hbatch

theorem completeInv_step {e : SessionEvent} (hs : CompleteInv verify o w owner s)
    (he : InLoop o owner e ∧ NoTimeout e) (h : step (generatorSetup P verify o w owner) s e = some s') :
    CompleteInv verify o w owner s' := by
  refine ⟨deliveryInv_step hP hbatch hs.delivery he.1 h, step_inStep _ _ _ _ hs.inStep he.2 h, fun b hb => ?_⟩
  cases e with
  | timeout t => exact absurd rfl (he.2 t)
  | take t d =>
    obtain ⟨hfree, -, ⟨-, rfl⟩ | ⟨b', hout, rfl⟩⟩ := takeStep_cases h
    · rcases List.mem_cons.mp hb with rfl | hb
      · exact Or.inl ⟨t, congrArg ThreadState.handling (setThread_self s t _)⟩
      · refine (hs.taken b hb).imp_left fun ⟨u, hu⟩ => ⟨u, handling_of_ne (fun hbusy => ?_) hu⟩
        rw [hfree] at hbusy
        cases hbusy
    · -- an idle thread has nothing outstanding
      rcases hs.inStep t with hidle | ⟨d, hwait⟩
      · rw [hidle] at hout
        cases hout
      · rw [hwait] at hfree
        cases hfree
  | deliver t d =>
    obtain ⟨-, rfl⟩ := deliverStep_cases h
    exact hs.taken b hb
  | answer t =>
    obtain ⟨d, d', x, text, -, hhand, htext, rfl⟩ := answerStep_cases h
    obtain ⟨r, hfind, rfl⟩ := Option.map_eq_some_iff.mp htext
    have hok : replyCounts (some r.2.2) = true := by
      rw [hs.delivery.replies r (List.mem_of_find?_eq_some hfind)]
      exact replyCounts_okReply _ _
    dsimp only at hb ⊢
    rw [if_pos hok, List.map_append, List.mem_append]
    rcases hs.taken b hb with ⟨u, hu⟩ | hcounted
    · by_cases hd : (s.threads t).handling = some (b, true)
      · obtain ⟨rfl, -⟩ := Prod.mk.inj (Option.some.inj (hhand.symm.trans hd))
        exact Or.inr (Or.inr (List.mem_singleton_self _))
      · exact Or.inl ⟨u, handling_of_ne hd hu⟩
    · exact Or.inr (Or.inl hcounted)

theorem completeInv_run {es : List SessionEvent} (hes : ∀ e ∈ es, InLoop o owner e ∧ NoTimeout e)
    (h : run (step (generatorSetup P verify o w owner)) .initial es = some s) : CompleteInv verify o w owner s :=
  run_inv (E := fun e => InLoop o owner e ∧ NoTimeout e)
    (fun _ _ _ hs he hstep => completeInv_step hP hbatch hs he hstep) completeInv_initial hes h

end Complete

/-- Every transaction of the loop, whose arithmetic stays in range, was received and counted. -/
structure Complete (P : ProtobufC PbTransactionBatch) (verify : Bool) (o : Options) (w : World Key)
    (owner : ℕ → ℕ) (s : SessionState) : Prop where
  noOverflow : NoOverflow o
  received : (receivedTxs (generatorSetup P verify o w owner) s).Perm
    (runLoop o w ((List.range (numBatches o).toNat).map fun b => (owner b, b))).created
  totalReceived : (s.receiver.totalReceived.toNat : ℤ) = max o.totalCount 0
  submitted : (sessionSubmitted o s : ℤ) = max o.totalCount 0

section Complete
variable {P : ProtobufC PbTransactionBatch} (hP : P.Conforms encodeBatch decodeBatch) {verify : Bool} {o : Options}
  (hbatch : 1 ≤ o.batchSize ∧ o.batchSize ≤ 256) (hfits : FitsTypes o) (hrange : NoOverflow o) {w : World Key}
  {owner : ℕ → ℕ} (howner : ∀ b < (numBatches o).toNat, owner b < o.numThreads.toNat) {s : SessionState}
  (hs : CompleteInv verify o w owner s) (hhonest : Honest s) (hend : Finished o s)
include hs hend

theorem counted_perm : (s.counted.map Prod.fst).Perm (List.range (numBatches o).toNat) := by
  have hflight := hs.delivery.flight
  refine (List.perm_ext_iff_of_nodup hflight.counted_nodup List.nodup_range).mpr fun b =>
    ⟨fun hb => hend.1.subset (hflight.counted_taken b hb), fun hb => ?_⟩
  rcases hs.taken b (hend.1.symm.subset hb) with ⟨t, ht⟩ | hcounted
  · rw [hend.2 t] at ht
    cases ht
  · exact hcounted

include hhonest in
theorem delivered_perm : s.delivered.Perm (List.range (numBatches o).toNat) := by
  refine (List.perm_ext_iff_of_nodup hs.delivery.flight.delivered_nodup List.nodup_range).mpr fun b =>
    ⟨fun hb => List.mem_range.mpr (hs.delivery.delivered_lt b hb), fun hb => ?_⟩
  obtain ⟨p, hp, rfl⟩ := List.mem_map.mp ((counted_perm hs hend).symm.subset hb)
  exact (hhonest p hp).1

include hP hbatch hfits hrange howner hhonest

theorem CompleteInv.complete : Complete P verify o w owner s := by
  have hpos : 0 < o.batchSize.toNat := by omega
  have hsum : ∀ {order : List ℕ}, order.Perm (List.range (numBatches o).toNat) →
      (order.map (batchLength o)).sum = o.totalCount.toNat := by
    intro order horder
    rw [batchLength_eq hbatch.1]
    exact sum_blockLength hpos (numBatches_toNat hbatch.1 ▸ horder)
  have hdelivered := delivered_perm hs hhonest hend
  have hmax : max o.totalCount 0 = o.totalCount.toNat := by omega
  refine ⟨hrange, ?_, ?_, ?_⟩
  · have hschedule : ∀ p ∈ (List.range (numBatches o).toNat).map fun b => (owner b, b), p.1 < o.numThreads.toNat := by
      intro p hp
      obtain ⟨b, hb, rfl⟩ := List.mem_map.mp hp
      exact howner b (List.mem_range.mp hb)
    have hcreated := (foldl_runBatch w { threadSubmitted := fun _ => 0, created := [] } _ hschedule).1
    rw [receivedTxs_eq hP hbatch hs.delivery, runLoop, hcreated, List.nil_append, List.flatMap_map]
    exact ((List.reverse_perm _).trans hdelivered).flatMap_right _
  · rw [hmax, totalReceived_toNat hP hbatch hfits hs.delivery, length_receivedTxs hP hbatch hs.delivery]
    exact congrArg Nat.cast (hsum hdelivered)
  · rw [hmax, sessionSubmitted, ← hsum (counted_perm hs hend), List.map_map]
    rfl

end Complete

/-- **Without timeouts nothing is lost.** When the loop is done, for numbers in the range of the types, the receiver has
the transactions of the loop, and both sides count all of them. -/
theorem session_complete {P : ProtobufC PbTransactionBatch} (hP : P.Conforms encodeBatch decodeBatch) (verify : Bool)
    (argv : List (List UInt8)) (w : World Key) (owner : ℕ → ℕ) (es : List SessionEvent) (s : SessionState)
    (hcount : (options argv).totalCount + (options argv).batchSize ≤ 2 ^ 31 - 1)
    (hnonce : (options argv).baseNonce + (options argv).totalCount ≤ 2 ^ 63 - 1)
    (howner : ∀ b < (numBatches (options argv)).toNat, owner b < (options argv).numThreads.toNat)
    (hes : ∀ e ∈ es, InLoop (options argv) owner e ∧ NoTimeout e)
    (h : run (step (generatorSetup P verify (options argv) w owner)) .initial es = some s)
    (hend : Finished (options argv) s) : Complete P verify (options argv) w owner s := by
  have hs := completeInv_run hP (clampBatchSize_bounds _) hes h
  have hhonest := honest_of_no_timeout _ h fun e he => (hes e he).2
  have hrange : NoOverflow (options argv) := (noOverflow_options_iff argv).mpr ⟨hcount, fun _ => by omega⟩
  exact hs.complete hP (clampBatchSize_bounds _) (fitsTypes_options argv) hrange howner hhonest hend

/-- Two transactions, which are one batch. -/
def oneBatchArgs : List (List UInt8) :=
  [ascii "generator", ascii "alice", ascii "bob", ascii "10", ascii "2"]

theorem oneBatchArgs_owner : ∀ b < (numBatches (options oneBatchArgs)).toNat,
    id b < (options oneBatchArgs).numThreads.toNat := by decide

def exchangeEvents : List SessionEvent := [.take 0 0, .deliver 0 0, .answer 0]

theorem exchangeEvents_inLoop : ∀ e ∈ exchangeEvents, InLoop (options oneBatchArgs) id e ∧ NoTimeout e := by
  have hloop : ∀ e ∈ exchangeEvents, InLoop (options oneBatchArgs) id e := by decide
  refine fun e he => ⟨hloop e he, fun t ht => ?_⟩
  rw [ht] at he
  simp [exchangeEvents] at he

theorem session_complete_exchange : ∃ s, run (step (generatorSetup batchCodec true (options oneBatchArgs) sampleWorld
      id)) .initial exchangeEvents = some s ∧
    Complete batchCodec true (options oneBatchArgs) sampleWorld id s := by
  refine ⟨_, rfl, session_complete batchCodec_conforms true oneBatchArgs sampleWorld id exchangeEvents _
    (by decide) (by decide) oneBatchArgs_owner exchangeEvents_inLoop rfl ⟨?_, fun t => ?_⟩⟩
  · show [0].Perm (List.range (numBatches (options oneBatchArgs)).toNat)
    decide
  · by_cases h0 : t = 0 <;> simp [setThread_threads, SessionState.initial, h0]

end ShardingSim
