import ShardingSim.Library.Run
import ShardingSim.Submission

/-! The session of the generator's threads with the receiver over REQ and REP sockets. A REQ socket transmits
only when no request is outstanding; a `zmq_send` in between fails with `EFSM` and sends nothing, which
`main.c` does not see. A `zmq_recv` that times out leaves the request outstanding. `step` is one event of
the session in any interleaving; `honest_iff` says exactly in which runs every batch that is counted was
delivered and answered. -/
namespace ShardingSim
open Run
set_option autoImplicit false

/-- A thread with its socket: the batch whose request is outstanding, and the batch in hand between its
`zmq_send` and the end of its `zmq_recv`, with whether the `zmq_send` transmitted. -/
structure ThreadState where
  outstanding : Option ℕ
  handling : Option (ℕ × Bool)

/-- `requests` and `replies` are in flight: thread and batch, and for a reply its text. `counted` lists what
was added to `thread_submitted`: the batch whose size was added, and the batch the reply answers. -/
structure SessionState where
  taken : List ℕ
  threads : ℕ → ThreadState
  requests : List (ℕ × ℕ)
  receiver : ReceiverState
  delivered : List ℕ
  replies : List (ℕ × ℕ × List UInt8)
  counted : List (ℕ × ℕ)

def SessionState.initial : SessionState where
  taken := []
  threads := fun _ => ⟨none, none⟩
  requests := []
  receiver := ⟨[], 0⟩
  delivered := []
  replies := []
  counted := []

structure Setup where
  codec : ProtobufC PbTransactionBatch
  verify : Bool
  message : ℕ → List UInt8

inductive SessionEvent where
  /-- Thread `t` takes batch `b` and calls `zmq_send`. -/
  | take (t b : ℕ)
  /-- The receiver receives the request of thread `t` for batch `b` and replies. -/
  | deliver (t b : ℕ)
  /-- `zmq_recv` of thread `t` returns the reply to its outstanding request. -/
  | answer (t : ℕ)
  /-- `zmq_recv` of thread `t` times out. -/
  | timeout (t : ℕ)

def setThread (s : SessionState) (t : ℕ) (th : ThreadState) : SessionState :=
  { s with threads := Function.update s.threads t th }

/-- A batch is given to one thread only, when that thread has none. -/
def takeStep (s : SessionState) (t b : ℕ) : Option SessionState :=
  if (s.threads t).handling.isNone ∧ b ∉ s.taken then
    match (s.threads t).outstanding with
    | none =>
      some { setThread s t ⟨some b, some (b, true)⟩ with
        taken := b :: s.taken
        requests := s.requests ++ [(t, b)] }
    -- the result of `zmq_send` is dropped
    | some b' => some { setThread s t ⟨some b', some (b, false)⟩ with taken := b :: s.taken }
  else none

def deliverStep (c : Setup) (s : SessionState) (t b : ℕ) : Option SessionState :=
  if (t, b) ∈ s.requests then
    some { s with
      requests := s.requests.erase (t, b)
      receiver := (receiverStep c.codec c.verify s.receiver (.message (c.message b))).1
      delivered := b :: s.delivered
      replies := s.replies ++ [(t, b, (serve c.codec c.verify s.receiver.buf (c.message b)).reply)] }
  else none

def replyTo (s : SessionState) (t b : ℕ) : Option (List UInt8) :=
  (s.replies.find? fun r => r.1 = t ∧ r.2.1 = b).map fun r => r.2.2

def answerStep (s : SessionState) (t : ℕ) : Option SessionState :=
  match (s.threads t).outstanding, (s.threads t).handling with
  | some b', some (b, _) =>
    (replyTo s t b').map fun text =>
      { setThread s t ⟨none, none⟩ with
        replies := s.replies.filter fun r => ¬ (r.1 = t ∧ r.2.1 = b')
        counted := if replyCounts (some text) then s.counted ++ [(b, b')] else s.counted }
  | _, _ => none

def timeoutStep (s : SessionState) (t : ℕ) : Option SessionState :=
  if (s.threads t).handling.isSome then some (setThread s t ⟨(s.threads t).outstanding, none⟩) else none

def step (c : Setup) (s : SessionState) : SessionEvent → Option SessionState
  | .take t b => takeStep s t b
  | .deliver t b => deliverStep c s t b
  | .answer t => answerStep s t
  | .timeout t => timeoutStep s t

/-! ## The property and its condition -/

/-- Every batch that was counted was delivered, and the reply that caused it answers that batch. -/
def Honest (s : SessionState) : Prop := ∀ p ∈ s.counted, p.1 ∈ s.delivered ∧ p.2 = p.1

/-- The step is not a thread, whose `zmq_send` for the batch in hand was refused, reading an `OK`. -/
def NoOkAfterRefusal (s : SessionState) : SessionEvent → Prop
  | .answer t => ∀ b b' text, (s.threads t).handling = some (b, false) →
      (s.threads t).outstanding = some b' → replyTo s t b' = some text → replyCounts (some text) = false
  | _ => True

/-! ## Invariant -/

/-- A socket agrees with the batch in hand: the request outstanding is for a batch already taken, namely the
one in hand if its `zmq_send` transmitted, and another one if it was refused. -/
structure ThreadInv (taken : List ℕ) (th : ThreadState) : Prop where
  outstanding_taken : ∀ b, th.outstanding = some b → b ∈ taken
  sent : ∀ b, th.handling = some (b, true) → th.outstanding = some b
  refused : ∀ b, th.handling = some (b, false) → ∃ b', th.outstanding = some b' ∧ b' ≠ b

structure SessionInv (s : SessionState) : Prop where
  threads : ∀ t, ThreadInv s.taken (s.threads t)
  replies_delivered : ∀ r ∈ s.replies, r.2.1 ∈ s.delivered
  counted_delivered : ∀ p ∈ s.counted, p.2 ∈ s.delivered

theorem threadInv_idle {taken : List ℕ} {outstanding : Option ℕ}
    (h : ∀ b, outstanding = some b → b ∈ taken) : ThreadInv taken ⟨outstanding, none⟩ where
  outstanding_taken := h
  sent := by intro b hb; cases hb
  refused := by intro b hb; cases hb

theorem ThreadInv.mono {taken taken' : List ℕ} {th : ThreadState} (h : ThreadInv taken th)
    (hsub : taken ⊆ taken') : ThreadInv taken' th where
  outstanding_taken := fun b hb => hsub (h.outstanding_taken b hb)
  sent := h.sent
  refused := h.refused

theorem setThread_self (s : SessionState) (t : ℕ) (th : ThreadState) : (setThread s t th).threads t = th :=
  Function.update_self _ _ _

theorem setThread_of_ne {s : SessionState} {t u : ℕ} {th : ThreadState} (h : u ≠ t) :
    (setThread s t th).threads u = s.threads u := Function.update_of_ne h _ _

theorem threadInv_setThread {taken : List ℕ} {s : SessionState} {t : ℕ} {th : ThreadState}
    (hs : ∀ u, ThreadInv taken (s.threads u)) (hth : ThreadInv taken th) (u : ℕ) :
    ThreadInv taken ((setThread s t th).threads u) := by
  by_cases h : u = t
  · rw [h, setThread_self]
    exact hth
  · rw [setThread_of_ne h]
    exact hs u

theorem sessionInv_initial : SessionInv SessionState.initial where
  threads := fun _ => threadInv_idle (by intro b hb; cases hb)
  replies_delivered := by intro r hr; cases hr
  counted_delivered := by intro p hp; cases hp

theorem honest_initial : Honest .initial := by
  intro p hp
  cases hp

theorem honest_iff_eq {s : SessionState} (h : SessionInv s) : Honest s ↔ ∀ p ∈ s.counted, p.2 = p.1 := by
  refine forall₂_congr fun p hp => ⟨And.right, fun he => ⟨?_, he⟩⟩
  rw [← he]
  exact h.counted_delivered p hp

/-! ## Steps -/

theorem takeStep_inv {s s' : SessionState} {t b : ℕ} (hs : SessionInv s) (h : takeStep s t b = some s') :
    SessionInv s' ∧ s'.counted = s.counted := by
  unfold takeStep at h
  split at h
  · rename_i hfree
    have hold : ∀ u, ThreadInv (b :: s.taken) (s.threads u) := fun u =>
      (hs.threads u).mono (List.subset_cons_self _ _)
    split at h
    · -- the request is transmitted
      cases h
      have hnew : ThreadInv (b :: s.taken) ⟨some b, some (b, true)⟩ := by
        refine ⟨fun c hc => ?_, fun c hc => ?_, fun c hc => ?_⟩ <;> cases hc
        · exact List.mem_cons_self
        · rfl
      exact ⟨⟨threadInv_setThread hold hnew, hs.replies_delivered, hs.counted_delivered⟩, rfl⟩
    · -- the request is refused: the one outstanding is older
      rename_i b' hout
      cases h
      have hmem : b' ∈ s.taken := (hs.threads t).outstanding_taken b' hout
      have hne : b' ≠ b := fun he => hfree.2 (he ▸ hmem)
      have hnew : ThreadInv (b :: s.taken) ⟨some b', some (b, false)⟩ := by
        refine ⟨fun c hc => ?_, fun c hc => ?_, fun c hc => ?_⟩ <;> cases hc
        · exact List.mem_cons_of_mem _ hmem
        · exact ⟨b', rfl, hne⟩
      exact ⟨⟨threadInv_setThread hold hnew, hs.replies_delivered, hs.counted_delivered⟩, rfl⟩
  · cases h

theorem deliverStep_inv {c : Setup} {s s' : SessionState} {t b : ℕ} (hs : SessionInv s)
    (h : deliverStep c s t b = some s') : SessionInv s' ∧ s'.counted = s.counted := by
  unfold deliverStep at h
  split at h
  · cases h
    refine ⟨⟨hs.threads, fun r hr => ?_, fun p hp => List.mem_cons_of_mem _ (hs.counted_delivered p hp)⟩,
      rfl⟩
    rcases List.mem_append.mp hr with hr | hr
    · exact List.mem_cons_of_mem _ (hs.replies_delivered r hr)
    · rw [List.mem_singleton.mp hr]
      exact List.mem_cons_self
  · cases h

theorem timeoutStep_inv {s s' : SessionState} {t : ℕ} (hs : SessionInv s)
    (h : timeoutStep s t = some s') : SessionInv s' ∧ s'.counted = s.counted := by
  unfold timeoutStep at h
  split at h
  · cases h
    have hnew : ThreadInv s.taken ⟨(s.threads t).outstanding, none⟩ :=
      threadInv_idle (hs.threads t).outstanding_taken
    exact ⟨⟨threadInv_setThread hs.threads hnew, hs.replies_delivered, hs.counted_delivered⟩, rfl⟩
  · cases h

theorem replyTo_delivered {s : SessionState} {t b : ℕ} {text : List UInt8} (hs : SessionInv s)
    (h : replyTo s t b = some text) : b ∈ s.delivered := by
  obtain ⟨r, hfind, -⟩ := Option.map_eq_some_iff.mp h
  have hmatch := List.find?_some hfind
  simp only [decide_eq_true_eq] at hmatch
  rw [← hmatch.2]
  exact hs.replies_delivered r (List.mem_of_find?_eq_some hfind)

theorem answerStep_cases {s s' : SessionState} {t : ℕ} (h : answerStep s t = some s') :
    ∃ b b' sent text, (s.threads t).outstanding = some b' ∧ (s.threads t).handling = some (b, sent) ∧
      replyTo s t b' = some text ∧
      s' = { setThread s t ⟨none, none⟩ with
        replies := s.replies.filter fun r => ¬ (r.1 = t ∧ r.2.1 = b')
        counted := if replyCounts (some text) then s.counted ++ [(b, b')] else s.counted } := by
  unfold answerStep at h
  split at h
  · rename_i b' b sent hout hhand
    obtain ⟨text, htext, rfl⟩ := Option.map_eq_some_iff.mp h
    exact ⟨b, b', sent, text, hout, hhand, htext, rfl⟩
  · cases h

theorem noOkAfterRefusal_iff {s : SessionState} {t b b' : ℕ} {sent : Bool} {text : List UInt8} (hs : SessionInv s)
    (hout : (s.threads t).outstanding = some b') (hhand : (s.threads t).handling = some (b, sent))
    (htext : replyTo s t b' = some text) :
    NoOkAfterRefusal s (.answer t) ↔ (replyCounts (some text) = true → b' = b) := by
  constructor
  · intro hno hok
    cases sent with
    | true => exact Option.some.inj (hout.symm.trans ((hs.threads t).sent b hhand))
    | false =>
      rw [hno b b' text hhand hout htext] at hok
      cases hok
  · intro heq c c' text' hhand' hout' htext'
    rw [hhand] at hhand'
    rw [hout] at hout'
    cases hhand'
    cases hout'
    rw [htext] at htext'
    cases htext'
    obtain ⟨d, hd, hne⟩ := (hs.threads t).refused b hhand
    rw [hout] at hd
    cases hd
    rw [Bool.eq_false_iff]
    exact fun hok => hne (heq hok)

theorem answerStep_inv {s s' : SessionState} {t : ℕ} (hs : SessionInv s) (h : answerStep s t = some s') :
    SessionInv s' := by
  obtain ⟨b, b', sent, text, -, -, htext, rfl⟩ := answerStep_cases h
  have hdelivered := replyTo_delivered hs htext
  refine ⟨threadInv_setThread hs.threads (threadInv_idle (by intro c hc; cases hc)),
    fun r hr => hs.replies_delivered r (List.mem_of_mem_filter hr), fun p hp => ?_⟩
  dsimp only at hp
  split at hp
  · rcases List.mem_append.mp hp with hp | hp
    · exact hs.counted_delivered p hp
    · rw [List.mem_singleton.mp hp]
      exact hdelivered
  · exact hs.counted_delivered p hp

/-- **The step lemma for replies**: it keeps the property exactly if it meets the condition. -/
theorem answerStep_honest {s s' : SessionState} {t : ℕ} (hs : SessionInv s)
    (h : answerStep s t = some s') :
    SessionInv s' ∧ (Honest s' ↔ Honest s ∧ NoOkAfterRefusal s (.answer t)) := by
  have hinv := answerStep_inv hs h
  refine ⟨hinv, ?_⟩
  rw [honest_iff_eq hinv, honest_iff_eq hs]
  obtain ⟨b, b', sent, text, hout, hhand, htext, rfl⟩ := answerStep_cases h
  rw [noOkAfterRefusal_iff hs hout hhand htext]
  dsimp only
  by_cases hok : replyCounts (some text) = true
  · rw [if_pos hok, List.forall_mem_append, List.forall_mem_singleton]
    exact and_congr_right fun _ => ⟨fun he _ => he, fun himp => himp hok⟩
  · rw [if_neg hok]
    exact (and_iff_left fun hok' => absurd hok' hok).symm

/-- Every step keeps the invariant, and keeps the property exactly if it meets the condition. -/
theorem step_honest (c : Setup) (s : SessionState) (e : SessionEvent) (s' : SessionState)
    (hs : SessionInv s) (h : step c s e = some s') :
    SessionInv s' ∧ (Honest s' ↔ Honest s ∧ NoOkAfterRefusal s e) := by
  have hsame : SessionInv s' ∧ s'.counted = s.counted →
      SessionInv s' ∧ (Honest s' ↔ Honest s ∧ True) := by
    rintro ⟨hs', hcounted⟩
    rw [honest_iff_eq hs', honest_iff_eq hs, hcounted, and_true]
    exact ⟨hs', Iff.rfl⟩
  cases e with
  | take t b => exact hsame (takeStep_inv hs h)
  | deliver t b => exact hsame (deliverStep_inv hs h)
  | timeout t => exact hsame (timeoutStep_inv hs h)
  | answer t => exact answerStep_honest hs h

/-! ## Runs without timeouts -/

/-- A thread that is idle, or waits for the reply to the batch in hand. -/
def InStep (th : ThreadState) : Prop := th = ⟨none, none⟩ ∨ ∃ b, th = ⟨some b, some (b, true)⟩

theorem inStep_setThread {s : SessionState} {t : ℕ} {th : ThreadState} (hs : ∀ u, InStep (s.threads u))
    (hth : InStep th) (u : ℕ) : InStep ((setThread s t th).threads u) := by
  by_cases h : u = t
  · rw [h, setThread_self]
    exact hth
  · rw [setThread_of_ne h]
    exact hs u

theorem noOkAfterRefusal_of_inStep {s : SessionState} (hs : ∀ u, InStep (s.threads u)) (e : SessionEvent) :
    NoOkAfterRefusal s e := by
  cases e with
  | take t b => exact trivial
  | deliver t b => exact trivial
  | timeout t => exact trivial
  | answer t =>
    intro b b' text hhand
    obtain hidle | ⟨c, hwait⟩ := hs t
    · rw [hidle] at hhand
      cases hhand
    · rw [hwait] at hhand
      cases hhand

theorem step_inStep (c : Setup) (s : SessionState) (e : SessionEvent) (s' : SessionState)
    (hs : ∀ u, InStep (s.threads u)) (he : ∀ t, e ≠ .timeout t) (h : step c s e = some s') :
    ∀ u, InStep (s'.threads u) := by
  cases e with
  | timeout t => exact absurd rfl (he t)
  | deliver t b =>
    rw [step, deliverStep] at h
    split at h
    · cases h
      exact hs
    · cases h
  | answer t =>
    obtain ⟨b, b', sent, text, -, -, -, rfl⟩ := answerStep_cases h
    exact inStep_setThread hs (Or.inl rfl)
  | take t b =>
    rw [step, takeStep] at h
    split at h
    · rename_i hfree
      split at h
      · cases h
        exact inStep_setThread hs (Or.inr ⟨b, rfl⟩)
      · -- nothing in hand, so nothing is outstanding
        rename_i b' hout
        obtain hidle | ⟨d, hwait⟩ := hs t
        · rw [hidle] at hout
          cases hout
        · rw [hwait] at hfree
          cases hfree.1
    · cases h

/-- **Without receive timeouts** every batch that is counted was delivered and answered. -/
theorem honest_of_no_timeout (c : Setup) {es : List SessionEvent} {s : SessionState}
    (h : run (step c) .initial es = some s) (hes : ∀ e ∈ es, ∀ t, e ≠ .timeout t) : Honest s := by
  have hstart : ∀ u, InStep (SessionState.initial.threads u) := fun _ => Or.inl rfl
  have hall : AllSteps (step c) NoOkAfterRefusal .initial es :=
    allSteps_of_inv (step_inStep c) (fun s e hs _ => noOkAfterRefusal_of_inStep hs e) hstart hes
  exact (run_iff (step_honest c) sessionInv_initial h).mpr ⟨honest_initial, hall⟩

/-! ## Exactly the honest runs -/

/-- **Exactly the runs in which no `OK` is read after a refused `zmq_send` are honest.** -/
theorem honest_iff (c : Setup) (es : List SessionEvent) (s : SessionState)
    (h : run (step c) .initial es = some s) :
    Honest s ↔ AllSteps (step c) NoOkAfterRefusal .initial es := by
  rw [run_iff (step_honest c) sessionInv_initial h]
  exact and_iff_right honest_initial

def sampleSetup : Setup where
  codec := batchCodec
  verify := false
  message := fun _ => submitBatchPbPrefix ++ unsignedPayload

theorem honest_iff_answered : ∃ s, run (step sampleSetup) .initial [.take 0 0, .deliver 0 0, .answer 0] = some s ∧
    Honest s := by
  refine ⟨_, rfl, (honest_iff sampleSetup [.take 0 0, .deliver 0 0, .answer 0] _ rfl).mpr ?_⟩
  exact allSteps_of_inv (E := fun e => ∀ t, e ≠ .timeout t) (step_inStep sampleSetup)
    (fun s e hs _ => noOkAfterRefusal_of_inStep hs e) (fun _ => Or.inl rfl) (by simp)

/-- A late reply to batch 0 is taken for one to batch 1, whose `zmq_send` was refused. -/
theorem late_reply_counted : ¬ ∀ (c : Setup) (es : List SessionEvent) (s : SessionState),
    run (step c) .initial es = some s → Honest s := by
  intro h
  have hrun := h sampleSetup [.take 0 0, .timeout 0, .take 0 1, .deliver 0 0, .answer 0] _ rfl
  have hok : replyCounts (some (serve batchCodec false [] (submitBatchPbPrefix ++ unsignedPayload)).reply) =
      true := by
    rw [serve_batch batchCodec false [] unsignedPayload_ne_nil unsignedPayload_fits]
    exact replyCounts_okReply _ _
  have hcounted : ((1, 0) : ℕ × ℕ) ∈ (if replyCounts (some (serve batchCodec false []
      (submitBatchPbPrefix ++ unsignedPayload)).reply) then [(1, 0)] else []) := by
    rw [if_pos hok]
    exact List.mem_singleton_self _
  exact absurd (hrun (1, 0) hcounted).2 (by decide)

end ShardingSim
