import ShardingSim.Completion

/-! The session, in which threads overlap and requests and replies are under way, against the loop of
`ShardingSim.Generator`, in which one batch after the other is run on some thread and the reply to it is there at
once. `loop_refinement`: the session does what the loop does on the batches in the order in which they were taken,
if the reply to a batch is what its `zmq_recv` returned. -/
namespace ShardingSim
open Run Blocks
set_option autoImplicit false

variable {Key : Type}

/-! ## Histories of a session -/

def takeOf (_ : SessionState) : SessionEvent → List (ℕ × ℕ)
  | .take t b => [(t, b)]
  | .deliver _ _ => []
  | .answer _ => []
  | .timeout _ => []

/-- The schedule of the loop: thread and batch, in the order in which they were taken. -/
def takes (c : Setup) (es : List SessionEvent) : List (ℕ × ℕ) := history takeOf (step c) .initial es

/-- The batch in hand, and what `zmq_recv` returned. -/
def answerOf (s : SessionState) : SessionEvent → List (ℕ × List UInt8)
  | .answer t =>
    match (s.threads t).outstanding, (s.threads t).handling with
    | some b', some (b, _) => (replyTo s t b').toList.map fun text => (b, text)
    | _, _ => []
  | .take _ _ => []
  | .deliver _ _ => []
  | .timeout _ => []

def reads (c : Setup) (es : List SessionEvent) : List (ℕ × List UInt8) := history answerOf (step c) .initial es

/-- `World.reply` for a session: what was read for a batch, if its `zmq_recv` returned. -/
def replyRead (c : Setup) (es : List SessionEvent) (b : ℕ) : Option (List UInt8) :=
  ((reads c es).find? fun r => r.1 = b).map Prod.snd

/-- `thread_submitted[t]` in a session. -/
def sessionThreadSubmitted (o : Options) (owner : ℕ → ℕ) (s : SessionState) (t : ℕ) : ℕ :=
  (((s.counted.map Prod.fst).filter fun b => owner b = t).map (batchLength o)).sum

/-! ## What was taken -/

section Histories
variable {o : Options} {owner : ℕ → ℕ} {c : Setup} {es : List SessionEvent} {s : SessionState}

structure TakesInv (o : Options) (owner : ℕ → ℕ) (s : SessionState) (schedule : List (ℕ × ℕ)) : Prop where
  taken : s.taken = (schedule.map Prod.snd).reverse
  threads : ∀ p ∈ schedule, p.1 = owner p.2 ∧ p.1 < o.numThreads.toNat

theorem takesInv_step {s' : SessionState} {e : SessionEvent} {schedule : List (ℕ × ℕ)}
    (hs : TakesInv o owner s schedule) (he : InLoop o owner e) (h : step c s e = some s') :
    TakesInv o owner s' (schedule ++ takeOf s e) := by
  cases e with
  | take t b =>
    have hthreads : ∀ p ∈ schedule ++ [(t, b)], p.1 = owner p.2 ∧ p.1 < o.numThreads.toNat := by
      rw [List.forall_mem_append, List.forall_mem_singleton]
      exact ⟨hs.threads, he.1, he.1 ▸ he.2.1⟩
    have htaken : b :: s.taken = ((schedule ++ [(t, b)]).map Prod.snd).reverse := by
      rw [hs.taken, List.map_append, List.reverse_append]
      rfl
    obtain ⟨-, -, ⟨-, rfl⟩ | ⟨b', -, rfl⟩⟩ := takeStep_cases h
    · exact ⟨htaken, hthreads⟩
    · exact ⟨htaken, hthreads⟩
  | deliver t b =>
    obtain ⟨-, rfl⟩ := deliverStep_cases h
    rw [takeOf, List.append_nil]
    exact ⟨hs.taken, hs.threads⟩
  | answer t =>
    obtain ⟨b, b', x, text, -, -, -, rfl⟩ := answerStep_cases h
    rw [takeOf, List.append_nil]
    exact ⟨hs.taken, hs.threads⟩
  | timeout t =>
    obtain ⟨-, rfl⟩ := timeoutStep_cases h
    rw [takeOf, List.append_nil]
    exact ⟨hs.taken, hs.threads⟩

theorem takesInv_run (hes : ∀ e ∈ es, InLoop o owner e) (h : run (step c) .initial es = some s) :
    TakesInv o owner s (takes c es) := by
  have hstart : TakesInv o owner .initial [] := ⟨rfl, by simp⟩
  exact history_inv (E := InLoop o owner) (fun _ _ _ _ hs he hstep => takesInv_step hs he hstep) hstart hes h

/-! ## What was read -/

/-- What was counted are the batches for which an `OK` was read, and for a batch at most one reply is read. -/
structure ReadsInv (o : Options) (owner : ℕ → ℕ) (s : SessionState) (texts : List (ℕ × List UInt8)) : Prop where
  sound : SoundInv o owner s
  counted : s.counted.map Prod.fst = (texts.filter fun r => replyCounts (some r.2)).map Prod.fst
  nodup : (texts.map Prod.fst).Nodup
  taken : ∀ b ∈ texts.map Prod.fst, b ∈ s.taken
  fresh : ∀ t b x, (s.threads t).handling = some (b, x) → b ∉ texts.map Prod.fst

theorem readsInv_step {s' : SessionState} {e : SessionEvent} {texts : List (ℕ × List UInt8)}
    (hs : ReadsInv o owner s texts) (he : InLoop o owner e) (h : step c s e = some s') :
    ReadsInv o owner s' (texts ++ answerOf s e) := by
  have hsound := soundInv_step hs.sound he h
  cases e with
  | take t b =>
    rw [answerOf, List.append_nil]
    have hfresh : b ∉ s.taken → ∀ (outstanding : Option ℕ) (x : Bool) u d y,
        ((setThread s t ⟨outstanding, some (b, x)⟩).threads u).handling = some (d, y) → d ∉ texts.map Prod.fst := by
      intro hb outstanding x u d y hu
      rcases handling_setThread_take hu with rfl | hu
      · exact fun hmem => hb (hs.taken _ hmem)
      · exact hs.fresh u d y hu
    have htaken : ∀ d ∈ texts.map Prod.fst, d ∈ b :: s.taken := fun d hd => List.mem_cons_of_mem _ (hs.taken d hd)
    obtain ⟨-, hb, ⟨-, rfl⟩ | ⟨b', -, rfl⟩⟩ := takeStep_cases h
    · exact ⟨hsound, hs.counted, hs.nodup, htaken, hfresh hb _ _⟩
    · exact ⟨hsound, hs.counted, hs.nodup, htaken, hfresh hb _ _⟩
  | deliver t b =>
    obtain ⟨-, rfl⟩ := deliverStep_cases h
    rw [answerOf, List.append_nil]
    exact ⟨hsound, hs.counted, hs.nodup, hs.taken, hs.fresh⟩
  | timeout t =>
    obtain ⟨-, rfl⟩ := timeoutStep_cases h
    rw [answerOf, List.append_nil]
    exact ⟨hsound, hs.counted, hs.nodup, hs.taken, fun u d y hu => hs.fresh u d y (handling_setThread_idle hu).2⟩
  | answer t =>
    obtain ⟨b, b', x, text, hout, hhand, htext, rfl⟩ := answerStep_cases h
    have hout' : answerOf s (.answer t) = [(b, text)] := by
      rw [answerOf, hout, hhand]
      dsimp only
      rw [htext]
      rfl
    have hb := hs.fresh t b x hhand
    rw [hout']
    refine ⟨hsound, ?_, ?_, ?_, fun u d y hu => ?_⟩
    · dsimp only
      rw [List.filter_append, List.map_append, ← hs.counted]
      by_cases hok : replyCounts (some text) = true
      · simp [hok]
      · simp [hok]
    · rw [List.map_append, List.map_singleton, ← List.concat_eq_append, List.nodup_concat]
      exact ⟨hb, hs.nodup⟩
    · rw [List.map_append, List.map_singleton, List.forall_mem_append, List.forall_mem_singleton]
      exact ⟨hs.taken, hs.sound.flight.handling_taken t b x hhand⟩
    · obtain ⟨hne, hold⟩ := handling_setThread_idle hu
      rw [List.map_append, List.map_singleton, List.mem_append, List.mem_singleton, not_or]
      refine ⟨hs.fresh u d y hold, fun hdb => ?_⟩
      obtain rfl : d = b := hdb
      exact hne (hs.sound.flight.handling_inj u t d y x hold hhand)

theorem readsInv_run (hes : ∀ e ∈ es, InLoop o owner e) (h : run (step c) .initial es = some s) :
    ReadsInv o owner s (reads c es) := by
  have hstart : ReadsInv o owner .initial [] := ⟨soundInv_initial, rfl, List.nodup_nil, by simp, by simp⟩
  exact history_inv (E := InLoop o owner) (fun _ _ _ _ hs he hstep => readsInv_step hs he hstep) hstart hes h

/-- A batch was counted exactly if what was read for it counts. -/
theorem mem_counted_iff (hs : ReadsInv o owner s (reads c es)) (b : ℕ) :
    b ∈ s.counted.map Prod.fst ↔ replyCounts (replyRead c es b) = true := by
  rw [hs.counted, replyRead]
  constructor
  · intro hb
    obtain ⟨r, hr, rfl⟩ := List.mem_map.mp hb
    obtain ⟨hmem, hok⟩ := List.mem_filter.mp hr
    obtain ⟨r', hr'⟩ : ∃ r', (reads c es).find? (fun r' => r'.1 = r.1) = some r' :=
      Option.isSome_iff_exists.mp (List.find?_isSome.mpr ⟨r, hmem, by simp⟩)
    have hfst : r'.1 = r.1 := by simpa using List.find?_some hr'
    have hsame : r' = r := List.inj_on_of_nodup_map hs.nodup (List.mem_of_find?_eq_some hr') hmem hfst
    rw [hr', hsame]
    exact hok
  · intro hok
    cases hfind : (reads c es).find? fun r => r.1 = b with
    | none =>
      rw [hfind] at hok
      cases hok
    | some r =>
      rw [hfind] at hok
      have hfst : r.1 = b := by simpa using List.find?_some hfind
      exact List.mem_map.mpr ⟨r, List.mem_filter.mpr ⟨List.mem_of_find?_eq_some hfind, hok⟩, hfst⟩

end Histories

/-! ## The loop on the batches taken -/

section Loop
variable {o : Options} (w : World Key)

theorem threadSubmitted_foldl (s : LoopState) (schedule : List (ℕ × ℕ)) (t : ℕ) :
    (schedule.foldl (fun s p => runBatch o w s p.1 p.2) s).threadSubmitted t =
      s.threadSubmitted t + ((schedule.filter fun p => p.1 = t).map fun p => counted o w p.2).sum := by
  induction schedule generalizing s with
  | nil => simp
  | cons p schedule ih =>
    rw [List.foldl_cons, ih, threadSubmitted_runBatch]
    by_cases hp : p.1 = t
    · subst hp
      simp [add_assoc]
    · simp [hp, Function.update_of_ne (Ne.symm hp)]

end Loop

/-- The world of the loop, where the reply to a batch is what the session read for it. -/
def sessionWorld (w : World Key) (c : Setup) (es : List SessionEvent) : World Key :=
  { w with reply := replyRead c es }

/-- The state of the session is that of the loop on the batches as they were taken. -/
structure Refines (P : ProtobufC PbTransactionBatch) (verify : Bool) (o : Options) (w : World Key)
    (owner : ℕ → ℕ) (es : List SessionEvent) (s : SessionState) : Prop where
  threads : ∀ t, (runLoop o (sessionWorld w (generatorSetup P verify o w owner) es)
    (takes (generatorSetup P verify o w owner) es)).threadSubmitted t = sessionThreadSubmitted o owner s t
  submitted : totalSubmitted o (runLoop o (sessionWorld w (generatorSetup P verify o w owner) es)
    (takes (generatorSetup P verify o w owner) es)) = sessionSubmitted o s
  received : (receivedTxs (generatorSetup P verify o w owner) s).Subperm
    (runLoop o (sessionWorld w (generatorSetup P verify o w owner) es)
      (takes (generatorSetup P verify o w owner) es)).created
  schedule : Finished o s → IsSchedule o (takes (generatorSetup P verify o w owner) es)

section Refinement
variable {o : Options} {owner : ℕ → ℕ} {c : Setup} {es : List SessionEvent} {s : SessionState}
  (htakes : TakesInv o owner s (takes c es)) (hreads : ReadsInv o owner s (reads c es))
include htakes

theorem takes_isSchedule (hend : Finished o s) : IsSchedule o (takes c es) where
  batches := by
    have hperm := hend.1
    rw [htakes.taken] at hperm
    exact (List.reverse_perm _).symm.trans hperm
  threads p hp := (htakes.threads p hp).2

theorem taken_by (t : ℕ) : ((takes c es).filter fun p => p.1 = t).map Prod.snd =
    ((takes c es).map Prod.snd).filter fun b => owner b = t := by
  rw [List.filter_map]
  refine congrArg (List.map Prod.snd) (List.filter_congr fun p hp => ?_)
  rw [(htakes.threads p hp).1]
  rfl

theorem created_eq (w : World Key) : (runLoop o (sessionWorld w c es) (takes c es)).created =
    s.taken.reverse.flatMap fun b => createBatch o w (owner b) b := by
  have hthreads : ∀ p ∈ takes c es, p.1 < o.numThreads.toNat := fun p hp => (htakes.threads p hp).2
  have hrun := (foldl_runBatch (sessionWorld w c es) { threadSubmitted := fun _ => 0, created := [] } _ hthreads).1
  rw [runLoop, hrun, List.nil_append, htakes.taken, List.reverse_reverse, List.flatMap_map]
  refine List.flatMap_congr fun p hp => ?_
  rw [(htakes.threads p hp).1]
  rfl

include hreads

/-- What was counted are the batches taken whose reply counts in the loop. -/
theorem counted_perm_takes : (s.counted.map Prod.fst).Perm
    (((takes c es).map Prod.snd).filter fun b => replyCounts (replyRead c es b)) := by
  have hflight := hreads.sound.flight
  have htaken : ((takes c es).map Prod.snd).Nodup := by
    rw [← List.nodup_reverse, ← htakes.taken]
    exact hflight.taken_nodup
  refine (List.perm_ext_iff_of_nodup hflight.counted_nodup (htaken.filter _)).mpr fun b => ?_
  rw [List.mem_filter, mem_counted_iff hreads]
  refine ⟨fun hok => ⟨?_, hok⟩, And.right⟩
  rw [← List.mem_reverse, ← htakes.taken]
  exact hflight.counted_taken b ((mem_counted_iff hreads b).mpr hok)

omit htakes hreads in
theorem counted_sessionWorld (hzmq : o.useZmq = true) (w : World Key) (b : ℕ) : counted o (sessionWorld w c es) b =
    ((if replyCounts (replyRead c es b) then batchLength o b else 0 : ℕ) : ℤ) := by
  have hreply : (sessionWorld w c es).reply b = replyRead c es b := rfl
  rw [counted, hzmq, hreply, batchLength]
  by_cases hok : replyCounts (replyRead c es b) = true
  · simp [hok]
  · simp [hok]

omit htakes hreads in
theorem sum_counted (c : Setup) (es : List SessionEvent) (hzmq : o.useZmq = true) (w : World Key) (order : List ℕ) :
    (order.map (counted o (sessionWorld w c es))).sum =
      (((order.filter fun b => replyCounts (replyRead c es b)).map (batchLength o)).sum : ℕ) := by
  induction order with
  | nil => rfl
  | cons b order ih =>
    rw [List.map_cons, List.sum_cons, ih, counted_sessionWorld hzmq]
    by_cases hok : replyCounts (replyRead c es b) = true
    · simp [hok]
    · simp [hok]

theorem threadSubmitted_eq (hzmq : o.useZmq = true) (w : World Key) (t : ℕ) :
    (runLoop o (sessionWorld w c es) (takes c es)).threadSubmitted t = sessionThreadSubmitted o owner s t := by
  have hperm := (counted_perm_takes htakes hreads).filter fun b => owner b = t
  rw [List.filter_comm] at hperm
  have hsum := sum_counted c es hzmq w (((takes c es).filter fun p => p.1 = t).map Prod.snd)
  rw [List.map_map, taken_by htakes t] at hsum
  rw [runLoop, threadSubmitted_foldl, zero_add, sessionThreadSubmitted, (hperm.map _).sum_eq]
  exact hsum

theorem totalSubmitted_eq (hzmq : o.useZmq = true) (w : World Key) :
    totalSubmitted o (runLoop o (sessionWorld w c es) (takes c es)) = sessionSubmitted o s := by
  have hthreads : ∀ p ∈ takes c es, p.1 < o.numThreads.toNat := fun p hp => (htakes.threads p hp).2
  have hrun := (foldl_runBatch (sessionWorld w c es) { threadSubmitted := fun _ => 0, created := [] } _ hthreads).2
  have hperm := (counted_perm_takes htakes hreads).map (batchLength o)
  rw [runLoop, hrun, totalSubmitted_init, zero_add, sum_counted c es hzmq, ← hperm.sum_eq, List.map_map]
  rfl

end Refinement

/-- **The loop is what the session does.** Without `NoOverflow` both are undefined in C. -/
theorem loop_refinement {P : ProtobufC PbTransactionBatch} (hP : P.Conforms encodeBatch decodeBatch) (verify : Bool)
    (argv : List (List UInt8)) (w : World Key) (owner : ℕ → ℕ) (es : List SessionEvent) (s : SessionState)
    (hzmq : (options argv).useZmq = true) (hes : ∀ e ∈ es, InLoop (options argv) owner e)
    (h : run (step (generatorSetup P verify (options argv) w owner)) .initial es = some s) :
    Refines P verify (options argv) w owner es s := by
  have hbatch : 1 ≤ (options argv).batchSize ∧ (options argv).batchSize ≤ 256 := clampBatchSize_bounds _
  have htakes := takesInv_run hes h
  have hreads := readsInv_run hes h
  have hs := deliveryInv_run hP hbatch hes h
  refine ⟨threadSubmitted_eq htakes hreads hzmq w, totalSubmitted_eq htakes hreads hzmq w, ?_,
    takes_isSchedule htakes⟩
  obtain ⟨l, hperm, hl⟩ : s.delivered.reverse.Subperm s.taken.reverse :=
    (List.nodup_reverse.mpr hs.flight.delivered_nodup).subperm fun b hb =>
      List.mem_reverse.mpr (hs.flight.delivered_taken b (List.mem_reverse.mp hb))
  rw [receivedTxs_eq hP hbatch hs, created_eq htakes w]
  exact (hperm.flatMap_right _).symm.subperm.trans (hl.flatMap _).subperm

theorem loop_refinement_late : ∃ s,
    run (step (generatorSetup batchCodec false (options sampleArgs) sampleWorld fun _ => 0)) .initial lateReply =
        some s ∧
      Refines batchCodec false (options sampleArgs) sampleWorld (fun _ => 0) lateReply s :=
  ⟨_, rfl, loop_refinement batchCodec_conforms false sampleArgs sampleWorld (fun _ => 0) lateReply _ (by decide)
    lateReply_inLoop rfl⟩

end ShardingSim
