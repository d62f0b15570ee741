import ShardingSim.Schedule

/-! The reply of the receiver in the generator: `zmq_recv` into `resp[128]`, the terminator at the size that it
reports, and the comparison with `OK`. The bytes written and read are recorded; `repliesHandled_iff` says for
which replies they stay in the buffer. -/
namespace ShardingSim
set_option autoImplicit false

variable {Key : Type}

/-! ## Handling a reply -/

/-- `strncmp` on memory from index `i` on, which compares with `str` and stops at a difference or a zero: the
result is zero or not, and what was read where. -/
def strncmpAt (mem str : List UInt8) (i : ℕ) : ℕ → Bool × List (ℕ × UInt8)
  | 0 => (true, [])
  | n + 1 =>
    let c := mem.getD i 0
    if c ≠ str.getD i 0 then (false, [(i, c)])
    else if c = 0 then (true, [(i, c)])
    else
      let rest := strncmpAt mem str (i + 1) n
      (rest.1, (i, c) :: rest.2)

structure ReplyHandling where
  writes : List ℕ
  reads : List (ℕ × UInt8)
  submitted : ℤ

/-- From `zmq_recv` to `thread_submitted[tid] += txs_in_batch`; `none` is a failed `zmq_recv`. A write behind
the end of `resp` leaves it as it is here and is recorded. -/
def handleReply (resp : Vector UInt8 128) (submitted : ℤ) (txsInBatch : ℕ) :
    Option (List UInt8) → ReplyHandling
  | none => { writes := [], reads := [], submitted := submitted }
  | some msg =>
    let received := zmqRecv resp.toList 127 msg
    let sz := received.2
    let stored := List.range (min 127 msg.length)
    if 0 < sz then
      let mem := received.1.set sz 0
      let comparison := strncmpAt mem (ascii "OK") 0 2
      { writes := stored ++ [sz]
        reads := comparison.2
        submitted := if comparison.1 then submitted + txsInBatch else submitted }
    else { writes := stored, reads := [], submitted := submitted }

def saysOk (reply : Option (List UInt8)) : Bool := reply.any fun msg => startsWith msg (ascii "OK")

/-- Handling stays in the buffer, reads the reply and its terminator, and counts what is acknowledged. -/
structure ReplySafe (resp : Vector UInt8 128) (submitted : ℤ) (txsInBatch : ℕ)
    (reply : Option (List UInt8)) : Prop where
  writes : ∀ i ∈ (handleReply resp submitted txsInBatch reply).writes, i < 128
  reads : ∀ p ∈ (handleReply resp submitted txsInBatch reply).reads,
    ∃ msg, reply = some msg ∧ p.1 < 128 ∧ (msg ++ [0])[p.1]? = some p.2
  counts : (handleReply resp submitted txsInBatch reply).submitted =
    if saysOk reply then submitted + txsInBatch else submitted

/-! ## One reply -/

theorem strncmpAt_reads {mem str : List UInt8} {i k : ℕ} (n : ℕ) (hik : i ≤ k) (hk : mem.getD k 0 = 0) :
    ∀ p ∈ (strncmpAt mem str i n).2, p.1 ≤ k ∧ p.2 = mem.getD p.1 0 := by
  induction n generalizing i with
  | zero => exact fun p hp => absurd hp List.not_mem_nil
  | succ n ih =>
    have hone : ∀ p ∈ [(i, mem.getD i 0)], p.1 ≤ k ∧ p.2 = mem.getD p.1 0 := by
      intro p hp
      rw [List.mem_singleton.mp hp]
      exact ⟨hik, rfl⟩
    unfold strncmpAt
    dsimp only
    split
    · exact hone
    · split
      · exact hone
      · rename_i hne hzero
        have hlt : i < k := by
          refine lt_of_le_of_ne hik fun heq => hzero ?_
          rw [heq, hk]
        intro p hp
        rcases List.mem_cons.mp hp with rfl | hp
        · exact ⟨hik, rfl⟩
        · exact ih hlt p hp

theorem strncmpAt_iff {mem str : List UInt8} {i n : ℕ} (h0 : ∀ j < n, str.getD (i + j) 0 ≠ 0) :
    (strncmpAt mem str i n).1 = true ↔ ∀ j < n, mem.getD (i + j) 0 = str.getD (i + j) 0 := by
  induction n generalizing i with
  | zero => exact iff_of_true rfl fun j hj => absurd hj (Nat.not_lt_zero j)
  | succ n ih =>
    have hrest := ih (i := i + 1) fun j hj => by
      have := h0 (j + 1) (Nat.succ_lt_succ hj)
      rwa [Nat.add_comm j 1, ← Nat.add_assoc] at this
    have hfirst : str.getD i 0 ≠ 0 := h0 0 (Nat.succ_pos n)
    simp only [Nat.forall_lt_succ_left, Nat.add_zero]
    unfold strncmpAt
    dsimp only
    split
    · rename_i hne
      exact iff_of_false Bool.false_ne_true fun h => hne h.1
    · rename_i heq
      rw [not_not] at heq
      rw [if_neg (heq ▸ hfirst), and_iff_right heq, hrest]
      simp only [Nat.add_assoc, Nat.add_comm 1]

theorem startsWith_ok (msg : List UInt8) : startsWith msg (ascii "OK") = true ↔
    ∀ j < 2, (msg ++ [0]).getD (0 + j) 0 = (ascii "OK").getD (0 + j) 0 := by
  have hok : ascii "OK" = [ch 'O', ch 'K'] := by decide
  have hO : ch 'O' ≠ 0 := by decide
  have hK : ch 'K' ≠ 0 := by decide
  have htwo : ∀ P : ℕ → Prop, (∀ j < 2, P j) ↔ P 0 ∧ P 1 := fun P =>
    ⟨fun h => ⟨h 0 (by decide), h 1 (by decide)⟩, fun h j hj => by interval_cases j; exacts [h.1, h.2]⟩
  rw [hok, startsWith, decide_eq_true_iff, htwo]
  rcases msg with _ | ⟨a, _ | ⟨b, rest⟩⟩
  · simp [hO.symm]
  · simp [hK.symm]
  · simp

theorem received_eq (resp : Vector UInt8 128) {msg : List UInt8} (hlen : msg.length ≤ 127) :
    (zmqRecv resp.toList 127 msg).2 = msg.length ∧ ∃ rest,
      (zmqRecv resp.toList 127 msg).1.set msg.length 0 = (msg ++ [0]) ++ rest := by
  have hroom : msg.length < resp.toList.length := by
    rw [Vector.length_toList]
    omega
  refine ⟨min_eq_left (by omega), resp.toList.drop (msg.length + 1), ?_⟩
  rw [zmqRecv, List.take_of_length_le hlen, min_eq_right hlen, List.drop_eq_getElem_cons hroom,
    List.set_append_right _ _ (le_refl _), Nat.sub_self, List.set_cons_zero, List.append_assoc]
  rfl

theorem getD_received {msg rest : List UInt8} {i : ℕ} (hi : i ≤ msg.length) :
    (msg ++ [0] ++ rest).getD i 0 = (msg ++ [0]).getD i 0 := by
  have hlt : i < (msg ++ [0]).length := by
    rw [List.length_append, List.length_singleton]
    omega
  rw [List.getD_eq_getElem?_getD, List.getD_eq_getElem?_getD, List.getElem?_append_left hlt]

theorem comparison_eq {msg rest : List UInt8} (hpos : 0 < msg.length) :
    (strncmpAt (msg ++ [0] ++ rest) (ascii "OK") 0 2).1 = startsWith msg (ascii "OK") := by
  have h0 : ∀ j < 2, (ascii "OK").getD (0 + j) 0 ≠ 0 := by decide
  rw [Bool.eq_iff_iff, strncmpAt_iff h0, startsWith_ok]
  refine forall₂_congr fun j hj => ?_
  rw [getD_received (by omega)]

theorem comparison_reads {msg rest : List UInt8} : ∀ p ∈ (strncmpAt (msg ++ [0] ++ rest) (ascii "OK") 0 2).2,
    p.1 ≤ msg.length ∧ (msg ++ [0])[p.1]? = some p.2 := by
  have hend : (msg ++ [0] ++ rest).getD msg.length 0 = 0 := by
    rw [getD_received (le_refl _)]
    simp
  intro p hp
  obtain ⟨hle, hvalue⟩ := strncmpAt_reads 2 (Nat.zero_le _) hend p hp
  have hlt : p.1 < (msg ++ [0]).length := by
    rw [List.length_append, List.length_singleton]
    omega
  rw [getD_received hle, List.getD_eq_getElem?_getD, List.getElem?_eq_getElem hlt, Option.getD_some] at hvalue
  rw [List.getElem?_eq_getElem hlt, hvalue]
  exact ⟨hle, rfl⟩

theorem handleReply_short (resp : Vector UInt8 128) (submitted : ℤ) (txsInBatch : ℕ) {msg : List UInt8}
    (hpos : 0 < msg.length) (hlen : msg.length ≤ 127) : ∃ rest,
      handleReply resp submitted txsInBatch (some msg) =
        { writes := List.range msg.length ++ [msg.length]
          reads := (strncmpAt (msg ++ [0] ++ rest) (ascii "OK") 0 2).2
          submitted := if startsWith msg (ascii "OK") then submitted + txsInBatch else submitted } := by
  obtain ⟨hsize, rest, hmem⟩ := received_eq resp hlen
  refine ⟨rest, ?_⟩
  rw [handleReply]
  simp only [hsize, hmem, if_pos hpos, min_eq_right hlen, comparison_eq hpos]

/-- **One reply.** Handling it is safe exactly if the buffer holds it with its terminator. -/
theorem replySafe_iff (resp : Vector UInt8 128) (submitted : ℤ) (txsInBatch : ℕ)
    (reply : Option (List UInt8)) :
    ReplySafe resp submitted txsInBatch reply ↔ ∀ msg, reply = some msg → msg.length ≤ 127 := by
  constructor
  · rintro h msg rfl
    -- the size reported is the index of the terminator
    by_contra hlong
    have hpos : 0 < (zmqRecv resp.toList 127 msg).2 := by
      rw [zmqRecv]
      omega
    have hwrite := h.writes (zmqRecv resp.toList 127 msg).2 (by
      rw [handleReply]
      simp only [if_pos hpos]
      exact List.mem_append_right _ (List.mem_singleton_self _))
    rw [zmqRecv] at hwrite
    omega
  · intro hshort
    rcases reply with _ | ⟨_ | ⟨c, rest⟩⟩
    · exact ⟨fun i hi => absurd hi List.not_mem_nil, fun p hp => absurd hp List.not_mem_nil, rfl⟩
    · exact ⟨fun i hi => absurd hi List.not_mem_nil, fun p hp => absurd hp List.not_mem_nil, rfl⟩
    · have hlen := hshort _ rfl
      have hpos := List.length_pos_of_ne_nil (List.cons_ne_nil c rest)
      obtain ⟨tail, hhandle⟩ := handleReply_short resp submitted txsInBatch hpos hlen
      constructor
      · rw [hhandle]
        intro i hi
        rcases List.mem_append.mp hi with hi | hi
        · have := List.mem_range.mp hi
          omega
        · rw [List.mem_singleton.mp hi]
          omega
      · rw [hhandle]
        intro p hp
        obtain ⟨hle, hbyte⟩ := comparison_reads p hp
        exact ⟨_, rfl, by omega, hbyte⟩
      · rw [hhandle]
        rfl

/-! ## The replies of a run -/

/-- The counter of a thread after a batch, whose reply is read only if it has transactions. -/
def replyStep (o : Options) (w : World Key) (resp : ℕ → Vector UInt8 128) (submitted : ℕ → ℤ) (p : ℕ × ℕ) :
    ℕ → ℤ :=
  let txsInBatch := (createBatch o w p.1 p.2).length
  Function.update submitted p.1
    (if 0 < txsInBatch then (handleReply (resp p.2) (submitted p.1) txsInBatch (w.reply p.2)).submitted
    else submitted p.1)

def replyLoop (o : Options) (w : World Key) (resp : ℕ → Vector UInt8 128) (schedule : List (ℕ × ℕ)) : ℕ → ℤ :=
  schedule.foldl (replyStep o w resp) fun _ => 0

def acknowledged (o : Options) (w : World Key) (p : ℕ × ℕ) : ℤ :=
  if saysOk (w.reply p.2) then (createBatch o w p.1 p.2).length else 0

/-- All replies are handled safely, and each acknowledged batch is counted once, for its thread. -/
structure RepliesHandled (o : Options) (w : World Key) (resp : ℕ → Vector UInt8 128)
    (schedule : List (ℕ × ℕ)) : Prop where
  safe : ∀ p ∈ schedule, 0 < (createBatch o w p.1 p.2).length → ∀ submitted,
    ReplySafe (resp p.2) submitted (createBatch o w p.1 p.2).length (w.reply p.2)
  once : ∀ tid, replyLoop o w resp schedule tid =
    ((schedule.filter fun p => p.1 = tid).map (acknowledged o w)).sum

section Run
variable {o : Options} {w : World Key} {resp : ℕ → Vector UInt8 128}

theorem replyStep_eq {submitted : ℕ → ℤ} {p : ℕ × ℕ}
    (h : ∀ msg, w.reply p.2 = some msg → msg.length ≤ 127) :
    replyStep o w resp submitted p =
      Function.update submitted p.1 (submitted p.1 + acknowledged o w p) := by
  have hcounts := ((replySafe_iff (resp p.2) (submitted p.1) (createBatch o w p.1 p.2).length _).mpr h).counts
  unfold replyStep acknowledged
  dsimp only
  rw [hcounts]
  congr 1
  by_cases hpos : 0 < (createBatch o w p.1 p.2).length
  · rw [if_pos hpos]
    split <;> simp
  · rw [if_neg hpos, Nat.eq_zero_of_not_pos hpos]
    simp

theorem foldl_replyStep (submitted : ℕ → ℤ) {schedule : List (ℕ × ℕ)}
    (h : ∀ p ∈ schedule, ∀ msg, w.reply p.2 = some msg → msg.length ≤ 127) (tid : ℕ) :
    schedule.foldl (replyStep o w resp) submitted tid =
      submitted tid + ((schedule.filter fun p => p.1 = tid).map (acknowledged o w)).sum := by
  induction schedule generalizing submitted with
  | nil => simp
  | cons p schedule ih =>
    rw [List.foldl_cons, ih _ fun q hq => h q (List.mem_cons_of_mem _ hq), replyStep_eq (h p List.mem_cons_self)]
    by_cases htid : p.1 = tid
    · rw [List.filter_cons_of_pos (by simpa using htid), List.map_cons, List.sum_cons, htid,
        Function.update_self, add_assoc]
    · rw [List.filter_cons_of_neg (by simpa using htid), Function.update_of_ne (Ne.symm htid)]

theorem saysOk_eq (reply : Option (List UInt8)) : saysOk reply = replyCounts reply := by
  rcases reply with _ | ⟨_ | ⟨c, rest⟩⟩
  · rfl
  · rfl
  · have htwo : (ascii "OK").length = 2 := by decide
    simp [saysOk, replyCounts, startsWith, htwo]

theorem counted_eq (hzmq : o.useZmq = true) (p : ℕ × ℕ) : counted o w p.2 = acknowledged o w p := by
  rw [counted, acknowledged, saysOk_eq, createBatch, List.length_map, List.length_range, hzmq]
  simp

/-- Over a connection the counters are those of the loop. -/
theorem replyLoop_eq (hzmq : o.useZmq = true) {schedule : List (ℕ × ℕ)}
    (h : ∀ p ∈ schedule, ∀ msg, w.reply p.2 = some msg → msg.length ≤ 127) :
    replyLoop o w resp schedule = (runLoop o w schedule).threadSubmitted := by
  have hfold : ∀ s : LoopState, schedule.foldl (replyStep o w resp) s.threadSubmitted =
      (schedule.foldl (fun s p => runBatch o w s p.1 p.2) s).threadSubmitted := by
    induction schedule with
    | nil => exact fun s => rfl
    | cons p schedule ih =>
      intro s
      rw [List.foldl_cons, List.foldl_cons, ← ih (fun q hq => h q (List.mem_cons_of_mem _ hq)),
        threadSubmitted_runBatch, counted_eq hzmq, replyStep_eq (h p List.mem_cons_self)]
  exact hfold { threadSubmitted := fun _ => 0, created := [] }

end Run

/-- **The replies of a run.** In every schedule of every argument vector, they are all handled safely, and
counted once, exactly if none has more than 127 bytes. -/
theorem repliesHandled_iff (argv : List (List UInt8)) (w : World Key) (resp : ℕ → Vector UInt8 128)
    {schedule : List (ℕ × ℕ)} (hschedule : IsSchedule (options argv) schedule) :
    RepliesHandled (options argv) w resp schedule ↔
      ∀ b < (numBatches (options argv)).toNat, ∀ msg, w.reply b = some msg → msg.length ≤ 127 := by
  have hbatch : 1 ≤ (options argv).batchSize := (clampBatchSize_bounds _).1
  generalize options argv = o at *
  have hlt : ∀ p ∈ schedule, p.2 < (numBatches o).toNat := fun p hp =>
    List.mem_range.mp (hschedule.batches.subset (List.mem_map_of_mem hp))
  constructor
  · intro h b hb
    obtain ⟨p, hp, rfl⟩ := List.mem_map.mp (hschedule.batches.symm.subset (List.mem_range.mpr hb))
    have hbounds := batch_bounds hbatch hb
    have hpos : 0 < (createBatch o w p.1 p.2).length := by
      rw [createBatch, List.length_map, List.length_range]
      omega
    exact (replySafe_iff _ 0 _ _).mp (h.safe p hp hpos 0)
  · intro h
    refine ⟨fun p hp _ submitted => (replySafe_iff _ _ _ _).mpr (h p.2 (hlt p hp)), fun tid => ?_⟩
    rw [replyLoop, foldl_replyStep _ (fun p hp => h p.2 (hlt p hp)), zero_add]

/-- The receiver of `sampleWorld` with another reply to every batch. -/
def answeringWorld (reply : List UInt8) : World Unit := { sampleWorld with reply := fun _ => some reply }

theorem sampleArgs_isSchedule : IsSchedule (options sampleArgs) [(1, 1), (0, 0)] := ⟨by decide, by decide⟩

theorem repliesHandled_sample : RepliesHandled (options sampleArgs) (answeringWorld (ascii "OK:2|0"))
    (fun _ => Vector.replicate 128 0) [(1, 1), (0, 0)] := by
  refine (repliesHandled_iff sampleArgs _ _ sampleArgs_isSchedule).mpr fun b _ msg hmsg => ?_
  obtain rfl := Option.some.inj hmsg
  decide

/-- A reply of 128 bytes puts the terminator behind the buffer. -/
theorem reply_overrun : ¬ ∀ (argv : List (List UInt8)) (w : World Unit) (resp : ℕ → Vector UInt8 128)
    (schedule : List (ℕ × ℕ)), IsSchedule (options argv) schedule →
      RepliesHandled (options argv) w resp schedule := by
  intro h
  have hhandled := h sampleArgs (answeringWorld (List.replicate 128 (ch 'O'))) (fun _ => Vector.replicate 128 0)
    [(1, 1), (0, 0)] sampleArgs_isSchedule
  have hpos : 0 < (createBatch (options sampleArgs) (answeringWorld (List.replicate 128 (ch 'O'))) 1 1).length := by
    rw [createBatch, List.length_map, List.length_range]
    decide
  have hsafe := hhandled.safe (1, 1) List.mem_cons_self hpos 0
  have hlen := (replySafe_iff _ _ _ _).mp hsafe _ rfl
  rw [List.length_replicate] at hlen
  exact absurd hlen (by decide)

end ShardingSim
