import ShardingSim.Session

/-! What is in flight in a session: for each thread the request that its socket has outstanding, or the reply to
it, and nothing else. From this follows that no batch is received twice and no reply is read twice, whatever times
out (`FlightInv`), and that there are never more messages in flight than threads (`inFlight_length_le`). -/
namespace ShardingSim
open Run
set_option autoImplicit false

/-! ## Invariant -/

/-- The requests and replies in flight, as thread and batch. -/
def inFlight (s : SessionState) : List (ℕ × ℕ) := s.requests ++ s.replies.map fun r => (r.1, r.2.1)

/-- A socket and the messages in flight agree, and nothing happens twice to a batch: it is taken once, delivered
once, counted once, and the reply to it is read once. -/
structure FlightInv (s : SessionState) : Prop where
  session : SessionInv s
  taken_nodup : s.taken.Nodup
  inFlight_iff : ∀ t b, (t, b) ∈ inFlight s ↔ (s.threads t).outstanding = some b
  inFlight_nodup : ((inFlight s).map Prod.fst).Nodup
  outstanding_inj : ∀ t u b, (s.threads t).outstanding = some b → (s.threads u).outstanding = some b → t = u
  delivered_nodup : s.delivered.Nodup
  delivered_taken : ∀ b ∈ s.delivered, b ∈ s.taken
  requests_fresh : ∀ r ∈ s.requests, r.2 ∉ s.delivered
  handling_taken : ∀ t b x, (s.threads t).handling = some (b, x) → b ∈ s.taken
  handling_fresh : ∀ t b x, (s.threads t).handling = some (b, x) → b ∉ s.counted.map Prod.fst
  handling_inj : ∀ t u b x y, (s.threads t).handling = some (b, x) → (s.threads u).handling = some (b, y) → t = u
  counted_nodup : (s.counted.map Prod.fst).Nodup
  counted_taken : ∀ b ∈ s.counted.map Prod.fst, b ∈ s.taken
  read_nodup : (s.counted.map Prod.snd).Nodup
  replies_fresh : ∀ r ∈ s.replies, r.2.1 ∉ s.counted.map Prod.snd

theorem flightInv_initial : FlightInv .initial where
  session := sessionInv_initial
  taken_nodup := List.nodup_nil
  inFlight_iff := by simp [inFlight, SessionState.initial]
  inFlight_nodup := List.nodup_nil
  outstanding_inj := by simp [SessionState.initial]
  delivered_nodup := List.nodup_nil
  delivered_taken := by simp [SessionState.initial]
  requests_fresh := by simp [SessionState.initial]
  handling_taken := by simp [SessionState.initial]
  handling_fresh := by simp [SessionState.initial]
  handling_inj := by simp [SessionState.initial]
  counted_nodup := List.nodup_nil
  counted_taken := by simp [SessionState.initial]
  read_nodup := List.nodup_nil
  replies_fresh := by simp [SessionState.initial]

/-! ## Threads -/

theorem setThread_threads (s : SessionState) (t u : ℕ) (th : ThreadState) :
    (setThread s t th).threads u = if u = t then th else s.threads u := Function.update_apply _ _ _ _

section Threads
variable {s : SessionState} {t : ℕ}

/-- A thread that gets a batch of its own does not collide with the others. -/
theorem handling_inj_setThread {b : ℕ} {x : Bool} {outstanding : Option ℕ} (hs : FlightInv s) (hb : b ∉ s.taken)
    (u v c : ℕ) (y z : Bool)
    (hu : ((setThread s t ⟨outstanding, some (b, x)⟩).threads u).handling = some (c, y))
    (hv : ((setThread s t ⟨outstanding, some (b, x)⟩).threads v).handling = some (c, z)) : u = v := by
  rw [setThread_threads] at hu hv
  split at hu <;> split at hv
  · rename_i hut hvt
    rw [hut, hvt]
  · obtain ⟨rfl, -⟩ := Prod.mk.inj (Option.some.inj hu)
    exact absurd (hs.handling_taken v _ _ hv) hb
  · obtain ⟨rfl, -⟩ := Prod.mk.inj (Option.some.inj hv)
    exact absurd (hs.handling_taken u _ _ hu) hb
  · exact hs.handling_inj u v c y z hu hv

/-- A thread that waits for the batch it waited for. -/
theorem outstanding_setThread_same {outstanding : Option ℕ} {handling : Option (ℕ × Bool)}
    (hout : (s.threads t).outstanding = outstanding) (u : ℕ) :
    ((setThread s t ⟨outstanding, handling⟩).threads u).outstanding = (s.threads u).outstanding := by
  rw [setThread_threads]
  split
  · rename_i hut
    rw [hut, hout]
  · rfl

/-- A thread that waits for nothing any more. -/
theorem outstanding_setThread_none {handling : Option (ℕ × Bool)} (u c : ℕ) :
    ((setThread s t ⟨none, handling⟩).threads u).outstanding = some c ↔
      (s.threads u).outstanding = some c ∧ u ≠ t := by
  rw [setThread_threads]
  split
  · rename_i hut
    simp [hut]
  · rename_i hut
    simp [hut]

/-- What a thread has in hand after it took `b` is `b`, or was in hand before. -/
theorem handling_setThread_take {b : ℕ} {x : Bool} {outstanding : Option ℕ} {u c : ℕ} {y : Bool}
    (h : ((setThread s t ⟨outstanding, some (b, x)⟩).threads u).handling = some (c, y)) :
    c = b ∨ (s.threads u).handling = some (c, y) := by
  rw [setThread_threads] at h
  split at h
  · exact Or.inl (Prod.mk.inj (Option.some.inj h)).1.symm
  · exact Or.inr h

/-- A thread that puts its batch down has none in hand, and the others keep theirs. -/
theorem handling_setThread_idle {outstanding : Option ℕ} {u c : ℕ} {y : Bool}
    (h : ((setThread s t ⟨outstanding, none⟩).threads u).handling = some (c, y)) :
    u ≠ t ∧ (s.threads u).handling = some (c, y) := by
  rw [setThread_threads] at h
  split at h
  · cases h
  · rename_i hne
    exact ⟨hne, h⟩

end Threads

/-! ## Steps -/

section Steps
variable {s s' : SessionState} {t b : ℕ}

/-- After thread `t` took batch `b` and its `zmq_send` transmitted the request, or was refused. -/
def sentState (s : SessionState) (t b : ℕ) : SessionState :=
  { setThread s t ⟨some b, some (b, true)⟩ with
    taken := b :: s.taken
    requests := s.requests ++ [(t, b)] }

def refusedState (s : SessionState) (t b b' : ℕ) : SessionState :=
  { setThread s t ⟨some b', some (b, false)⟩ with taken := b :: s.taken }

theorem takeStep_cases (h : takeStep s t b = some s') : (s.threads t).handling = none ∧ b ∉ s.taken ∧
    ((s.threads t).outstanding = none ∧ s' = sentState s t b ∨
      ∃ b', (s.threads t).outstanding = some b' ∧ s' = refusedState s t b b') := by
  unfold takeStep at h
  split at h
  · rename_i hfree
    refine ⟨Option.isNone_iff_eq_none.mp hfree.1, hfree.2, ?_⟩
    split at h
    · rename_i hout
      exact Or.inl ⟨hout, (Option.some.inj h).symm⟩
    · rename_i b' hout
      exact Or.inr ⟨b', hout, (Option.some.inj h).symm⟩
  · cases h

theorem deliverStep_cases {c : Setup} (h : deliverStep c s t b = some s') : (t, b) ∈ s.requests ∧
    s' = { s with
      requests := s.requests.erase (t, b)
      receiver := (receiverStep c.codec c.verify s.receiver (.message (c.message b))).1
      delivered := b :: s.delivered
      replies := s.replies ++ [(t, b, (serve c.codec c.verify s.receiver.buf (c.message b)).reply)] } := by
  unfold deliverStep at h
  split at h
  · rename_i hmem
    exact ⟨hmem, (Option.some.inj h).symm⟩
  · cases h

theorem timeoutStep_cases (h : timeoutStep s t = some s') :
    (s.threads t).handling.isSome ∧ s' = setThread s t ⟨(s.threads t).outstanding, none⟩ := by
  unfold timeoutStep at h
  split at h
  · rename_i hsome
    exact ⟨hsome, (Option.some.inj h).symm⟩
  · cases h

/-- A request transmitted is one more message in flight, for the thread that had none. -/
theorem flightInv_takeSent (hs : FlightInv s) (hb : b ∉ s.taken) (hout : (s.threads t).outstanding = none)
    (h : takeStep s t b = some (sentState s t b)) : FlightInv (sentState s t b) := by
  have hdelivered : b ∉ s.delivered := fun hmem => hb (hs.delivered_taken b hmem)
  have hcounted : b ∉ s.counted.map Prod.fst := fun hmem => hb (hs.counted_taken b hmem)
  have hold : ∀ u, (s.threads u).outstanding ≠ some b := fun u hu =>
    hb ((hs.session.threads u).outstanding_taken b hu)
  have hperm : (inFlight (sentState s t b)).Perm ((t, b) :: inFlight s) := by
    show ((s.requests ++ [(t, b)]) ++ s.replies.map fun r => (r.1, r.2.1)).Perm _
    rw [List.append_assoc]
    exact List.perm_middle
  have hfree : t ∉ (inFlight s).map Prod.fst := by
    intro hmem
    obtain ⟨⟨u, c⟩, hr, rfl⟩ := List.mem_map.mp hmem
    rw [(hs.inFlight_iff u c).mp hr] at hout
    cases hout
  refine ⟨(takeStep_inv hs.session h).1, List.nodup_cons.mpr ⟨hb, hs.taken_nodup⟩, fun u c => ?_, ?_,
    fun u v c hu hv => ?_,
    hs.delivered_nodup, fun c hc => List.mem_cons_of_mem _ (hs.delivered_taken c hc), fun r hr => ?_,
    fun u c y hu => ?_, fun u c y hu => ?_, handling_inj_setThread hs hb, hs.counted_nodup,
    fun c hc => List.mem_cons_of_mem _ (hs.counted_taken c hc), hs.read_nodup, hs.replies_fresh⟩
  · rw [hperm.mem_iff, List.mem_cons, hs.inFlight_iff]
    show _ ↔ ((setThread s t ⟨some b, some (b, true)⟩).threads u).outstanding = some c
    rw [setThread_threads]
    split
    · rename_i hut
      subst hut
      simp [hout, eq_comm]
    · rename_i hut
      simp [hut]
  · exact (hperm.map Prod.fst).nodup_iff.mpr (List.nodup_cons.mpr ⟨hfree, hs.inFlight_nodup⟩)
  · change ((setThread s t ⟨some b, some (b, true)⟩).threads u).outstanding = some c at hu
    change ((setThread s t ⟨some b, some (b, true)⟩).threads v).outstanding = some c at hv
    rw [setThread_threads] at hu hv
    split at hu <;> split at hv
    · rename_i hut hvt
      rw [hut, hvt]
    · exact absurd ((Option.some.inj hu) ▸ hv) (hold v)
    · exact absurd ((Option.some.inj hv) ▸ hu) (hold u)
    · exact hs.outstanding_inj u v c hu hv
  · rcases List.mem_append.mp hr with hr | hr
    · exact hs.requests_fresh r hr
    · rw [List.mem_singleton.mp hr]
      exact hdelivered
  · rcases handling_setThread_take hu with rfl | hu
    · exact List.mem_cons_self
    · exact List.mem_cons_of_mem _ (hs.handling_taken u c y hu)
  · rcases handling_setThread_take hu with rfl | hu
    · exact hcounted
    · exact hs.handling_fresh u c y hu

/-- A request refused leaves what is in flight as it is. -/
theorem flightInv_takeRefused {b' : ℕ} (hs : FlightInv s) (hb : b ∉ s.taken)
    (hout : (s.threads t).outstanding = some b')
    (h : takeStep s t b = some (refusedState s t b b')) : FlightInv (refusedState s t b b') := by
  have hcounted : b ∉ s.counted.map Prod.fst := fun hmem => hb (hs.counted_taken b hmem)
  have hsame : ∀ u, ((refusedState s t b b').threads u).outstanding = (s.threads u).outstanding :=
    outstanding_setThread_same hout
  refine ⟨(takeStep_inv hs.session h).1, List.nodup_cons.mpr ⟨hb, hs.taken_nodup⟩,
    fun u c => (hs.inFlight_iff u c).trans (by rw [← hsame u]), hs.inFlight_nodup,
    fun u v c hu hv => hs.outstanding_inj u v c ((hsame u).symm.trans hu) ((hsame v).symm.trans hv),
    hs.delivered_nodup, fun c hc => List.mem_cons_of_mem _ (hs.delivered_taken c hc), hs.requests_fresh,
    fun u c y hu => ?_, fun u c y hu => ?_, handling_inj_setThread hs hb, hs.counted_nodup,
    fun c hc => List.mem_cons_of_mem _ (hs.counted_taken c hc), hs.read_nodup, hs.replies_fresh⟩
  · rcases handling_setThread_take hu with rfl | hu
    · exact List.mem_cons_self
    · exact List.mem_cons_of_mem _ (hs.handling_taken u c y hu)
  · rcases handling_setThread_take hu with rfl | hu
    · exact hcounted
    · exact hs.handling_fresh u c y hu

theorem flightInv_take (hs : FlightInv s) (h : takeStep s t b = some s') : FlightInv s' := by
  obtain ⟨-, hb, ⟨hout, rfl⟩ | ⟨b', hout, rfl⟩⟩ := takeStep_cases h
  · exact flightInv_takeSent hs hb hout h
  · exact flightInv_takeRefused hs hb hout h

/-- A request delivered turns into the reply to it. -/
theorem flightInv_deliver {c : Setup} (hs : FlightInv s) (h : deliverStep c s t b = some s') : FlightInv s' := by
  have hsession := (deliverStep_inv hs.session h).1
  obtain ⟨hmem, rfl⟩ := deliverStep_cases h
  have hfresh : b ∉ s.delivered := hs.requests_fresh (t, b) hmem
  have hout : (s.threads t).outstanding = some b := (hs.inFlight_iff t b).mp (List.mem_append_left _ hmem)
  have hperm : (s.requests.erase (t, b) ++
      (s.replies ++ [(t, b, (serve c.codec c.verify s.receiver.buf (c.message b)).reply)]).map
        fun r => (r.1, r.2.1)).Perm (inFlight s) := by
    rw [List.map_append, ← List.append_assoc, List.map_singleton]
    refine List.perm_append_comm.trans ?_
    exact ((List.perm_cons_erase hmem).append_right _).symm
  have hrequests : s.requests.Nodup := (hs.inFlight_nodup.of_map Prod.fst).of_append_left
  refine ⟨hsession, hs.taken_nodup, fun u d => hperm.mem_iff.trans (hs.inFlight_iff u d),
    (hperm.map Prod.fst).nodup_iff.mpr hs.inFlight_nodup, hs.outstanding_inj,
    List.nodup_cons.mpr ⟨hfresh, hs.delivered_nodup⟩, fun d hd => ?_, fun r hr => ?_, hs.handling_taken,
    hs.handling_fresh, hs.handling_inj, hs.counted_nodup, hs.counted_taken, hs.read_nodup, fun r hr => ?_⟩
  · rcases List.mem_cons.mp hd with rfl | hd
    · exact (hs.session.threads t).outstanding_taken _ hout
    · exact hs.delivered_taken d hd
  · obtain ⟨hne, hr⟩ := hrequests.mem_erase_iff.mp hr
    refine fun hdelivered => (List.mem_cons.mp hdelivered).elim (fun hb => ?_) (hs.requests_fresh r hr)
    have hthread : (s.threads r.1).outstanding = some b :=
      hb ▸ (hs.inFlight_iff r.1 r.2).mp (List.mem_append_left _ hr)
    exact hne (Prod.ext (hs.outstanding_inj r.1 t b hthread hout) hb)
  · rcases List.mem_append.mp hr with hr | hr
    · exact hs.replies_fresh r hr
    · rw [List.mem_singleton.mp hr]
      intro hread
      obtain ⟨p, hp, hpb⟩ := List.mem_map.mp hread
      have hdelivered := hs.session.counted_delivered p hp
      rw [hpb] at hdelivered
      exact hfresh hdelivered

theorem flightInv_timeout (hs : FlightInv s) (h : timeoutStep s t = some s') : FlightInv s' := by
  have hsession := (timeoutStep_inv hs.session h).1
  obtain ⟨-, rfl⟩ := timeoutStep_cases h
  have hsame : ∀ u, ((setThread s t ⟨(s.threads t).outstanding, none⟩).threads u).outstanding =
      (s.threads u).outstanding := outstanding_setThread_same rfl
  exact ⟨hsession, hs.taken_nodup, fun u c => (hs.inFlight_iff u c).trans (by rw [← hsame u]), hs.inFlight_nodup,
    fun u v c hu hv => hs.outstanding_inj u v c ((hsame u).symm.trans hu) ((hsame v).symm.trans hv),
    hs.delivered_nodup, hs.delivered_taken, hs.requests_fresh,
    fun u c y hu => hs.handling_taken u c y (handling_setThread_idle hu).2,
    fun u c y hu => hs.handling_fresh u c y (handling_setThread_idle hu).2,
    fun u v c y z hu hv => hs.handling_inj u v c y z (handling_setThread_idle hu).2 (handling_setThread_idle hv).2,
    hs.counted_nodup, hs.counted_taken, hs.read_nodup, hs.replies_fresh⟩

/-- The reply that is read is the only message of its thread. -/
theorem mem_inFlight_answered {b' : ℕ} (hs : FlightInv s) (hout : (s.threads t).outstanding = some b')
    (hreply : (t, b') ∈ s.replies.map fun r => (r.1, r.2.1)) (u c : ℕ) :
    (u, c) ∈ inFlight { s with replies := s.replies.filter fun r => ¬ (r.1 = t ∧ r.2.1 = b') } ↔
      (u, c) ∈ inFlight s ∧ u ≠ t := by
  have hrequest : (t, b') ∉ s.requests := fun hmem =>
    List.disjoint_of_nodup_append (hs.inFlight_nodup.of_map Prod.fst) hmem hreply
  constructor
  · intro hmem
    rcases List.mem_append.mp hmem with hmem | hmem
    · refine ⟨List.mem_append_left _ hmem, ?_⟩
      rintro rfl
      have hout' := (hs.inFlight_iff u c).mp (List.mem_append_left _ hmem)
      exact hrequest (Option.some.inj (hout'.symm.trans hout) ▸ hmem)
    · obtain ⟨r, hr, heq⟩ := List.mem_map.mp hmem
      obtain ⟨hr, hother⟩ := List.mem_filter.mp hr
      obtain ⟨rfl, rfl⟩ := Prod.mk.inj heq
      have hmem' : (r.1, r.2.1) ∈ inFlight s := List.mem_append_right _ (List.mem_map.mpr ⟨r, hr, rfl⟩)
      refine ⟨hmem', fun hrt => of_decide_eq_true hother ⟨hrt, ?_⟩⟩
      have hout' := (hs.inFlight_iff r.1 r.2.1).mp hmem'
      rw [hrt] at hout'
      exact Option.some.inj (hout'.symm.trans hout)
  · rintro ⟨hmem, hut⟩
    rcases List.mem_append.mp hmem with hmem | hmem
    · exact List.mem_append_left _ hmem
    · obtain ⟨r, hr, heq⟩ := List.mem_map.mp hmem
      obtain ⟨rfl, rfl⟩ := Prod.mk.inj heq
      have hkept : r ∈ s.replies.filter fun r => ¬ (r.1 = t ∧ r.2.1 = b') :=
        List.mem_filter.mpr ⟨hr, decide_eq_true fun h => hut h.1⟩
      exact List.mem_append_right _ (List.mem_map.mpr ⟨r, hkept, rfl⟩)

/-- Answers are recorded if they are counted. -/
theorem mem_map_recorded {f : ℕ × ℕ → ℕ} {counts : Bool} {l : List (ℕ × ℕ)} {p : ℕ × ℕ} {d : ℕ}
    (h : d ∈ (if counts then l ++ [p] else l).map f) : d ∈ l.map f ∨ d = f p := by
  split at h
  · rwa [List.map_append, List.map_singleton, List.mem_append, List.mem_singleton] at h
  · exact Or.inl h

theorem nodup_map_recorded {f : ℕ × ℕ → ℕ} {counts : Bool} {l : List (ℕ × ℕ)} {p : ℕ × ℕ} (hl : (l.map f).Nodup)
    (hp : f p ∉ l.map f) : ((if counts then l ++ [p] else l).map f).Nodup := by
  split
  · rw [List.map_append, List.map_singleton, ← List.concat_eq_append, List.nodup_concat]
    exact ⟨hp, hl⟩
  · exact hl

/-- A reply that is read is consumed, and counted at most once. -/
theorem flightInv_answer (hs : FlightInv s) (h : answerStep s t = some s') : FlightInv s' := by
  have hsession := answerStep_inv hs.session h
  obtain ⟨b, b', x, text, hout, hhand, htext, rfl⟩ := answerStep_cases h
  obtain ⟨r, hfind, rfl⟩ := Option.map_eq_some_iff.mp htext
  have hmatch : r.1 = t ∧ r.2.1 = b' := by simpa using List.find?_some hfind
  have hreply : r ∈ s.replies := List.mem_of_find?_eq_some hfind
  have hflight : (t, b') ∈ s.replies.map fun r => (r.1, r.2.1) :=
    List.mem_map.mpr ⟨r, hreply, Prod.ext hmatch.1 hmatch.2⟩
  have hunread : b' ∉ s.counted.map Prod.snd := hmatch.2 ▸ hs.replies_fresh r hreply
  have hsub : (inFlight { s with replies := s.replies.filter fun r => ¬ (r.1 = t ∧ r.2.1 = b') }).Sublist
      (inFlight s) := (List.Sublist.refl _).append (List.filter_sublist.map _)
  refine ⟨hsession, hs.taken_nodup, fun u c => ?_, (hsub.map Prod.fst).nodup hs.inFlight_nodup,
    fun u v c hu hv => ?_, hs.delivered_nodup, hs.delivered_taken, hs.requests_fresh,
    fun u c y hu => hs.handling_taken u c y (handling_setThread_idle hu).2, fun u c y hu hc => ?_,
    fun u v c y z hu hv => hs.handling_inj u v c y z (handling_setThread_idle hu).2 (handling_setThread_idle hv).2,
    nodup_map_recorded hs.counted_nodup (hs.handling_fresh t b x hhand), fun c hc => ?_,
    nodup_map_recorded hs.read_nodup hunread, fun r' hr' hread => ?_⟩
  · -- the message of thread `t` is gone, the others are where they were
    exact (mem_inFlight_answered hs hout hflight u c).trans
      (((hs.inFlight_iff u c).and Iff.rfl).trans (outstanding_setThread_none u c).symm)
  · exact hs.outstanding_inj u v c ((outstanding_setThread_none u c).mp hu).1 ((outstanding_setThread_none v c).mp hv).1
  · obtain ⟨hne, hold⟩ := handling_setThread_idle hu
    refine (mem_map_recorded hc).elim (hs.handling_fresh u c y hold) fun hcb => ?_
    obtain rfl : c = b := hcb
    exact hne (hs.handling_inj u t c y x hold hhand)
  · refine (mem_map_recorded hc).elim (hs.counted_taken c) fun hcb => ?_
    obtain rfl : c = b := hcb
    exact hs.handling_taken t c x hhand
  · obtain ⟨hr', hother⟩ := List.mem_filter.mp hr'
    refine (mem_map_recorded hread).elim (hs.replies_fresh r' hr') fun heq => ?_
    have hout' : (s.threads r'.1).outstanding = some b' :=
      (hs.inFlight_iff r'.1 b').mp (List.mem_append_right _ (List.mem_map.mpr ⟨r', hr', Prod.ext rfl heq⟩))
    exact of_decide_eq_true hother ⟨hs.outstanding_inj r'.1 t b' hout' hout, heq⟩

end Steps

/-- **Every step keeps the invariant.** -/
theorem flightInv_step {c : Setup} {s s' : SessionState} {e : SessionEvent} (hs : FlightInv s)
    (h : step c s e = some s') : FlightInv s' := by
  cases e with
  | take t b => exact flightInv_take hs h
  | deliver t b => exact flightInv_deliver hs h
  | answer t => exact flightInv_answer hs h
  | timeout t => exact flightInv_timeout hs h

/-! ## Messages in flight -/

/-- **No more messages are in flight than threads that took a batch.** -/
theorem inFlight_length_le {s : SessionState} (hs : FlightInv s) {n : ℕ}
    (hthreads : ∀ t, (s.threads t).outstanding.isSome → t < n) :
    s.requests.length + s.replies.length ≤ n := by
  have hsub : (inFlight s).map Prod.fst ⊆ List.range n := by
    intro t ht
    obtain ⟨⟨u, b⟩, hmem, rfl⟩ := List.mem_map.mp ht
    refine List.mem_range.mpr (hthreads u ?_)
    rw [(hs.inFlight_iff u b).mp hmem]
    rfl
  have hle := (hs.inFlight_nodup.subperm hsub).length_le
  simpa [inFlight] using hle

end ShardingSim
