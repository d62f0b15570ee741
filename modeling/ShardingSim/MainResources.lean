import ShardingSim.BatchResources

/-! The blocks, handles and sockets of the generator. `main` releases all that it acquires whatever fails, and in
every interleaving of its threads (`generator_releases`). -/
namespace ShardingSim
open Ownership Run
set_option autoImplicit false

variable {Key : Type}

/-! ## The program -/

def destroyWalletsOps (keys : ℕ → KeyCalls Key) (n : ℕ) : List (Op MainBlock) :=
  (List.range n).flatMap fun t =>
    .use .threadWallets :: (walletDestroyOps (keys t).key).map (Op.map (.wallet t))

/-- The loop that makes the wallets, from thread `t` on, and whether it gets through. -/
def createWallets (keys : ℕ → KeyCalls Key) (t : ℕ) : ℕ → List (Op MainBlock) × Bool
  | 0 => ([], true)
  | n + 1 =>
    let create := (walletCreateNamedOps (keys t)).map (Op.map (.wallet t)) ++ [.use .threadWallets]
    if (keys t).key.isSome then
      let rest := createWallets keys (t + 1) n
      (create ++ rest.1, rest.2)
    else (create ++ (destroyWalletsOps keys t ++ [.release .threadWallets]), false)

def closeSocketOps (sockets : ℕ → SocketCalls) (t : ℕ) : List (Op MainBlock) :=
  .use .threadSocks :: .use .threadCtxs ::
    ((if (sockets t).opens then [.release (.zmqSock t)] else []) ++
      if (sockets t).ctxNew then [.release (.zmqCtx t)] else [])

def closeSocketsOps (sockets : ℕ → SocketCalls) (n : ℕ) : List (Op MainBlock) :=
  (List.range n).flatMap (closeSocketOps sockets)

/-- `zmq_ctx_new`, `zmq_socket` and `zmq_connect`. -/
def openSocketOps (calls : SocketCalls) (t : ℕ) : List (Op MainBlock) :=
  .use .threadCtxs :: .use .threadSocks ::
    if calls.ctxNew then
      .acquire (.zmqCtx t) :: .use (.zmqCtx t) ::
        if calls.socket then [.acquire (.zmqSock t), .use (.zmqSock t)] else []
    else []

def openSockets (sockets : ℕ → SocketCalls) (t : ℕ) : ℕ → List (Op MainBlock) × Bool
  | 0 => ([], true)
  | n + 1 =>
    if (sockets t).opens && (sockets t).connect then
      let rest := openSockets sockets (t + 1) n
      (openSocketOps (sockets t) t ++ .use (.zmqSock t) :: rest.1, rest.2)
    else
      (openSocketOps (sockets t) t ++ (closeSocketsOps sockets (t + 1) ++
        [.release .threadSocks, .release .threadCtxs]), false)

/-- From the counters of the threads on. `ops` is what the threads do. -/
def runThreadsOps (o : Options) (keys : ℕ → KeyCalls Key) (sockets : ℕ → SocketCalls)
    (ops : List (ℕ × Op MainBlock)) : List (Op MainBlock) :=
  .acquire .threadSubmitted :: .use .threadSubmitted :: (ops.map Prod.snd ++
    ((if o.useZmq then
        closeSocketsOps sockets o.numThreads.toNat ++ [.release .threadSocks, .release .threadCtxs]
      else []) ++
      .use .threadSubmitted :: (destroyWalletsOps keys o.numThreads.toNat ++
        [.release .threadWallets, .release .threadSubmitted])))

/-- `main` from the first allocation to its `return`. -/
def mainOps (o : Options) (keys : ℕ → KeyCalls Key) (sockets : ℕ → SocketCalls)
    (ops : List (ℕ × Op MainBlock)) : List (Op MainBlock) :=
  let wallets := createWallets keys 0 o.numThreads.toNat
  .acquire .threadWallets :: (wallets.1 ++
    if !wallets.2 then []
    else if !o.useZmq then runThreadsOps o keys sockets ops
    else
      let opened := openSockets sockets 0 o.numThreads.toNat
      .acquire .threadCtxs :: .acquire .threadSocks :: (opened.1 ++
        if !opened.2 then destroyWalletsOps keys o.numThreads.toNat ++ [.release .threadWallets]
        else runThreadsOps o keys sockets ops))

/-- What `main` holds between its steps: the tables, and the wallets and sockets of a range of threads. -/
structure Stage where
  threadWallets : Bool
  walletsFrom : ℕ
  walletsTo : ℕ
  zmqTables : Bool
  socketsFrom : ℕ
  socketsTo : ℕ
  threadSubmitted : Bool

def Stage.held (sockets : ℕ → SocketCalls) (s : Stage) : MainBlock → Bool
  | .threadWallets => s.threadWallets
  | .threadCtxs => s.zmqTables
  | .threadSocks => s.zmqTables
  | .threadSubmitted => s.threadSubmitted
  | .wallet t .wallet => s.walletsFrom ≤ t ∧ t < s.walletsTo
  | .wallet t .evpKey => s.walletsFrom ≤ t ∧ t < s.walletsTo
  | .zmqCtx t => (s.socketsFrom ≤ t ∧ t < s.socketsTo) ∧ (sockets t).ctxNew = true
  | .zmqSock t => (s.socketsFrom ≤ t ∧ t < s.socketsTo) ∧ (sockets t).opens = true
  | _ => false

section Stages
variable (keys : ℕ → KeyCalls Key) (sockets : ℕ → SocketCalls)

theorem wallet_injective (t : ℕ) : (MainBlock.wallet t).Injective := by
  intro p q h
  cases h
  rfl

theorem createWallet_stage (s : Stage) {t : ℕ} (ht : s.walletsTo = t) (hle : s.walletsFrom ≤ t) :
    run stepHeld (s.held sockets) ((walletCreateNamedOps (keys t)).map (Op.map (.wallet t))) =
      some ({ s with walletsTo := if (keys t).key.isSome then t + 1 else t }.held sockets) := by
  refine run_map (wallet_injective t) (walletCreateNamedOps_sound (keys t)) (fun q => ?_) (fun q => ?_)
    fun r hr => ?_
  · cases q <;> simp [Stage.held, holding, ht]
  · cases q <;> cases hkey : (keys t).key.isSome <;> simp [Stage.held, holding, hle]
  · cases r with
    | wallet u block =>
      have hne : t ≠ u := fun htu => hr block (by rw [htu])
      have hsame : (s.walletsFrom ≤ u ∧ u < if (keys t).key.isSome then t + 1 else t) ↔
          s.walletsFrom ≤ u ∧ u < s.walletsTo := by
        split <;> omega
      cases block <;> first | rfl | exact decide_eq_decide.mpr hsame
    | _ => rfl

theorem destroyWallets_stage (s : Stage) (hfrom : s.walletsFrom = 0) (htable : s.threadWallets = true)
    (hkeys : ∀ t < s.walletsTo, (keys t).key.isSome) :
    run stepHeld (s.held sockets) (destroyWalletsOps keys s.walletsTo) =
      some ({ s with walletsFrom := s.walletsTo }.held sockets) := by
  have hstart : s.held sockets = { s with walletsFrom := 0 }.held sockets := by rw [← hfrom]
  rw [hstart]
  refine run_flatMap_range (S := fun t => { s with walletsFrom := t }.held sockets) fun t ht => ?_
  rw [run_use (by simpa [Stage.held] using htable)]
  refine run_map (wallet_injective t) (walletDestroyOps_sound (keys t).key) (fun q => ?_) (fun q => ?_) fun r hr => ?_
  · cases q <;> simp [Stage.held, holding, hkeys t ht, ht]
  · cases q <;> simp [Stage.held, holding]
  · cases r with
    | wallet u block =>
      have hne : t ≠ u := fun htu => hr block (by rw [htu])
      have hsame : (t + 1 ≤ u ∧ u < s.walletsTo) ↔ t ≤ u ∧ u < s.walletsTo := by omega
      cases block <;> first | rfl | exact decide_eq_decide.mpr hsame
    | _ => rfl

/-- `main` with wallets for the threads below `t`. -/
def withWallets (t : ℕ) : Stage := ⟨true, 0, t, false, 0, 0, false⟩

def nothing (_ : MainBlock) : Bool := false

theorem held_eq_nothing {s : Stage}
    (htables : s.threadWallets = false ∧ s.zmqTables = false ∧ s.threadSubmitted = false)
    (hwallets : s.walletsTo ≤ s.walletsFrom) (hsockets : s.socketsTo ≤ s.socketsFrom) :
    s.held sockets = nothing := by
  obtain ⟨htable, hzmq, hsubmitted⟩ := htables
  have hwallet : ∀ t, ¬ (s.walletsFrom ≤ t ∧ t < s.walletsTo) := fun t => by omega
  have hsocket : ∀ t, ¬ (s.socketsFrom ≤ t ∧ t < s.socketsTo) := fun t => by omega
  funext r
  cases r with
  | wallet t block => cases block <;> simp [Stage.held, nothing, hwallet t]
  | zmqCtx t => simp [Stage.held, nothing, hsocket t]
  | zmqSock t => simp [Stage.held, nothing, hsocket t]
  | threadWallets => exact htable
  | threadCtxs => exact hzmq
  | threadSocks => exact hzmq
  | threadSubmitted => exact hsubmitted
  | _ => rfl

theorem held_threadWallets (s : Stage) (b : Bool) :
    Function.update (s.held sockets) .threadWallets b = { s with threadWallets := b }.held sockets := by
  funext r
  cases r with
  | wallet t block => cases block <;> rfl
  | _ => rfl

theorem held_threadSubmitted (s : Stage) (b : Bool) :
    Function.update (s.held sockets) .threadSubmitted b = { s with threadSubmitted := b }.held sockets := by
  funext r
  cases r with
  | wallet t block => cases block <;> rfl
  | _ => rfl

theorem held_zmqTables (s : Stage) (b : Bool) :
    Function.update (Function.update (s.held sockets) .threadCtxs b) .threadSocks b =
      { s with zmqTables := b }.held sockets := by
  funext r
  cases r with
  | wallet t block => cases block <;> rfl
  | _ => rfl

/-- The wallets are made, or `main` releases those made before. -/
theorem createWallets_stage (t m : ℕ) (hkeys : ∀ u < t, (keys u).key.isSome) :
    run stepHeld ((withWallets t).held sockets) (createWallets keys t m).1 =
        some (if (createWallets keys t m).2 then (withWallets (t + m)).held sockets else nothing) ∧
      ((createWallets keys t m).2 = true → ∀ u < t + m, (keys u).key.isSome) := by
  induction m generalizing t with
  | zero => exact ⟨rfl, fun _ => hkeys⟩
  | succ m ih =>
    have hstore : ∀ u, run stepHeld ({ withWallets t with walletsTo := u }.held sockets) [.use .threadWallets] =
        some ({ withWallets t with walletsTo := u }.held sockets) := fun _ => run_use rfl
    have hcreate := run_append_of_eq
      (createWallet_stage keys sockets (withWallets t) (t := t) rfl (Nat.zero_le t)) (hstore _)
    rw [createWallets]
    by_cases hkey : (keys t).key.isSome = true
    · rw [if_pos hkey] at hcreate ⊢
      obtain ⟨hrest, hall⟩ := ih (t + 1) fun u hu => (Nat.lt_succ_iff_lt_or_eq.mp hu).elim (hkeys u) fun h => h ▸ hkey
      rw [Nat.add_right_comm] at hrest hall
      exact ⟨run_append_of_eq hcreate hrest, hall⟩
    · rw [if_neg hkey] at hcreate ⊢
      refine ⟨run_append_of_eq hcreate (run_append_of_eq
        (destroyWallets_stage keys sockets (withWallets t) rfl rfl hkeys) ?_), fun h => by cases h⟩
      rw [run_release rfl, held_threadWallets, if_neg Bool.false_ne_true]
      exact congrArg some (held_eq_nothing sockets ⟨rfl, rfl, rfl⟩ (le_refl t) (le_refl 0))

/-- The sockets below `t` are open, as far as the calls returned. -/
theorem openSocket_stage (s : Stage) {t : ℕ} (ht : s.socketsTo = t) (hle : s.socketsFrom ≤ t)
    (htables : s.zmqTables = true) :
    run stepHeld (s.held sockets) (openSocketOps (sockets t) t) =
      some ({ s with socketsTo := t + 1 }.held sockets) := by
  have hctxs : s.held sockets .threadCtxs = true := htables
  have hsocks : s.held sockets .threadSocks = true := htables
  have hctx : s.held sockets (.zmqCtx t) = false := by simp [Stage.held, ht]
  have hsock : s.held sockets (.zmqSock t) = false := by simp [Stage.held, ht]
  have hopened : run stepHeld (s.held sockets) (openSocketOps (sockets t) t) =
      some (Function.update (Function.update (s.held sockets) (.zmqCtx t) (sockets t).ctxNew) (.zmqSock t)
        (sockets t).opens) := by
    rw [openSocketOps, run_use hctxs, run_use hsocks, SocketCalls.opens]
    cases (sockets t).ctxNew with
    | false =>
      rw [if_neg Bool.false_ne_true, Bool.false_and, update_held hctx, update_held hsock]
      rfl
    | true =>
      rw [if_pos rfl, run_acquire hctx, run_use (by simp), Bool.true_and]
      have hfree : Function.update (s.held sockets) (.zmqCtx t) true (.zmqSock t) = false := by simp [hsock]
      cases (sockets t).socket with
      | false =>
        rw [if_neg Bool.false_ne_true, update_held hfree]
        rfl
      | true =>
        rw [if_pos rfl, run_acquire hfree, run_use (by simp)]
        rfl
  rw [hopened]
  refine congrArg some (funext fun r => ?_)
  have hsame : ∀ u, u ≠ t → ((s.socketsFrom ≤ u ∧ u < t + 1) ↔ s.socketsFrom ≤ u ∧ u < s.socketsTo) := by omega
  cases r with
  | wallet u block => cases block <;> rfl
  | zmqCtx u =>
    rcases eq_or_ne u t with rfl | hu
    · simp [Stage.held, hle]
    · have hne : MainBlock.zmqCtx u ≠ .zmqCtx t := by simpa using hu
      rw [Function.update_of_ne (by simp), Function.update_of_ne hne]
      exact decide_eq_decide.mpr (and_congr_left' (hsame u hu).symm)
  | zmqSock u =>
    rcases eq_or_ne u t with rfl | hu
    · simp [Stage.held, hle]
    · have hne : MainBlock.zmqSock u ≠ .zmqSock t := by simpa using hu
      rw [Function.update_of_ne hne, Function.update_of_ne (by simp)]
      exact decide_eq_decide.mpr (and_congr_left' (hsame u hu).symm)
  | _ => rfl

theorem closeSocket_held {held : MainBlock → Bool} {t : ℕ} (hsocks : held .threadSocks = true)
    (hctxs : held .threadCtxs = true) (hctx : held (.zmqCtx t) = (sockets t).ctxNew)
    (hsock : held (.zmqSock t) = (sockets t).opens) : run stepHeld held (closeSocketOps sockets t) =
      some (Function.update (Function.update held (.zmqSock t) false) (.zmqCtx t) false) := by
  rw [closeSocketOps, run_use hsocks, run_use hctxs]
  cases hopens : (sockets t).opens with
  | false =>
    rw [hopens] at hsock
    rw [if_neg Bool.false_ne_true, List.nil_append, update_held hsock]
    cases hnew : (sockets t).ctxNew with
    | false =>
      rw [hnew] at hctx
      rw [if_neg Bool.false_ne_true, update_held hctx]
      rfl
    | true => rw [if_pos rfl, run_release (hctx.trans hnew)]; rfl
  | true =>
    have hnew : (sockets t).ctxNew = true := (Bool.and_eq_true_iff.mp hopens).1
    rw [if_pos rfl, if_pos hnew, List.singleton_append, run_release (hsock.trans hopens),
      run_release (by simp [hctx, hnew])]
    rfl

theorem closeSockets_stage (s : Stage) (hfrom : s.socketsFrom = 0) (htables : s.zmqTables = true) :
    run stepHeld (s.held sockets) (closeSocketsOps sockets s.socketsTo) =
      some ({ s with socketsFrom := s.socketsTo }.held sockets) := by
  have hstart : s.held sockets = { s with socketsFrom := 0 }.held sockets := by rw [← hfrom]
  rw [hstart]
  refine run_flatMap_range (S := fun t => { s with socketsFrom := t }.held sockets) fun t ht => ?_
  have hctx : ({ s with socketsFrom := t }.held sockets) (.zmqCtx t) = (sockets t).ctxNew := by
    simp [Stage.held, ht]
  have hsock : ({ s with socketsFrom := t }.held sockets) (.zmqSock t) = (sockets t).opens := by
    simp [Stage.held, ht]
  rw [closeSocket_held sockets htables htables hctx hsock]
  refine congrArg some (funext fun r => ?_)
  have hsame : ∀ u, u ≠ t → ((t + 1 ≤ u ∧ u < s.socketsTo) ↔ t ≤ u ∧ u < s.socketsTo) := by omega
  cases r with
  | wallet u block => cases block <;> rfl
  | zmqCtx u =>
    rcases eq_or_ne u t with rfl | hu
    · simp [Stage.held]
    · have hne : MainBlock.zmqCtx u ≠ .zmqCtx t := by simpa using hu
      rw [Function.update_of_ne hne, Function.update_of_ne (by simp)]
      exact decide_eq_decide.mpr (and_congr_left' (hsame u hu).symm)
  | zmqSock u =>
    rcases eq_or_ne u t with rfl | hu
    · simp [Stage.held]
    · have hne : MainBlock.zmqSock u ≠ .zmqSock t := by simpa using hu
      rw [Function.update_of_ne (by simp), Function.update_of_ne hne]
      exact decide_eq_decide.mpr (and_congr_left' (hsame u hu).symm)
  | _ => rfl

/-- `main` with wallets for `n` threads and sockets for those below `t`. -/
def withSockets (n t : ℕ) : Stage := ⟨true, 0, n, true, 0, t, false⟩

theorem held_eq_of_noSockets {s : Stage} (t : ℕ) :
    { s with zmqTables := false, socketsFrom := t, socketsTo := t }.held sockets =
      { s with zmqTables := false, socketsFrom := 0, socketsTo := 0 }.held sockets := by
  have hnone : ∀ u v : ℕ, ¬ (v ≤ u ∧ u < v) := by omega
  funext r
  cases r with
  | wallet u block => cases block <;> rfl
  | zmqCtx u => simp [Stage.held, hnone u t]
  | zmqSock u => simp [Stage.held, hnone u t]
  | _ => rfl

/-- The sockets are opened, or `main` closes those opened before and frees their tables. -/
theorem openSockets_stage (n t m : ℕ) :
    run stepHeld ((withSockets n t).held sockets) (openSockets sockets t m).1 =
      some (if (openSockets sockets t m).2 then (withSockets n (t + m)).held sockets
        else (withWallets n).held sockets) := by
  induction m generalizing t with
  | zero => rfl
  | succ m ih =>
    have hopen := openSocket_stage sockets (withSockets n t) (t := t) rfl (Nat.zero_le t) rfl
    rw [openSockets]
    cases hconnects : (sockets t).opens && (sockets t).connect with
    | true =>
      have hrest := ih (t + 1)
      rw [Nat.add_right_comm] at hrest
      have hsock : (withSockets n (t + 1)).held sockets (.zmqSock t) = true := by
        simp [Stage.held, withSockets, (Bool.and_eq_true_iff.mp hconnects).1]
      exact run_append_of_eq hopen ((run_use hsock).trans hrest)
    | false =>
      refine run_append_of_eq hopen (run_append_of_eq
        (closeSockets_stage sockets (withSockets n (t + 1)) rfl rfl) ?_)
      rw [run_release rfl, run_release rfl, Function.update_comm (by simp), held_zmqTables]
      exact congrArg some (held_eq_of_noSockets sockets (s := withSockets n 0) (t + 1))

theorem opens_of_openSockets {t m : ℕ} (h : (openSockets sockets t m).2 = true) :
    ∀ u, t ≤ u → u < t + m → (sockets u).opens = true := by
  induction m generalizing t with
  | zero => omega
  | succ m ih =>
    rw [openSockets] at h
    intro u hle hlt
    cases hconnects : (sockets t).opens && (sockets t).connect with
    | false =>
      rw [hconnects] at h
      cases h
    | true =>
      rw [hconnects] at h
      rcases Nat.eq_or_lt_of_le hle with rfl | hgt
      · exact (Bool.and_eq_true_iff.mp hconnects).1
      · exact ih h u hgt (by omega)

variable {o : Options} {w : World Key} {schedule : List (ℕ × ℕ)} {ops : List (ℕ × Op MainBlock)}
  (hschedule : IsSchedule o schedule) (hrun : IsParallelRun o w schedule ops)
  (hkeys : ∀ t < o.numThreads.toNat, (keys t).key.isSome)
  (hwallets : ∀ t < o.numThreads.toNat, (w.wallet t).evpKey = (keys t).key)
include hschedule hrun hkeys hwallets

/-- The threads find their wallets and sockets. -/
theorem threads_stage (s : Stage) (htable : s.threadWallets = true) (hfrom : s.walletsFrom = 0)
    (hto : s.walletsTo = o.numThreads.toNat) (hsubmitted : s.threadSubmitted = true)
    (hsockets : o.useZmq = true → s.zmqTables = true ∧ s.socketsFrom = 0 ∧ s.socketsTo = o.numThreads.toNat ∧
      ∀ t < o.numThreads.toNat, (sockets t).opens = true) :
    run stepHeld (s.held sockets) (ops.map Prod.snd) = some (s.held sockets) := by
  have hnodup : (schedule.map Prod.snd).Nodup := hschedule.batches.nodup_iff.mpr List.nodup_range
  refine parallel_sound hrun hnodup fun p hp => ?_
  have hlt := hschedule.threads p hp
  have hwallet : s.walletsFrom ≤ p.1 ∧ p.1 < s.walletsTo := by omega
  exact
    { threadWallets := htable
      threadSubmitted := hsubmitted
      socket := fun hzmq => by
        obtain ⟨htables, hlo, hhi, hopens⟩ := hsockets hzmq
        refine ⟨htables, ?_⟩
        simp [Stage.held, hlo, hhi, hlt, hopens p.1 hlt]
      wallet := by simpa [Stage.held] using hwallet
      evpKey := by
        rw [hwallets p.1 hlt, hkeys p.1 hlt]
        simpa [Stage.held] using hwallet
      rawTxs := rfl
      pbArr := rfl
      pbPtrs := rfl
      msg := rfl
      tx := fun _ => rfl
      signCtx := fun _ => rfl
      sigBuf := fun _ => rfl }

omit hschedule hrun hwallets in
/-- The end of `main`, once the sockets are closed. -/
theorem finish_stage {n : ℕ} (hn : n = o.numThreads.toNat) :
    run stepHeld ({ withWallets n with threadSubmitted := true }.held sockets)
      (.use .threadSubmitted :: (destroyWalletsOps keys n ++ [.release .threadWallets, .release .threadSubmitted])) =
        some nothing := by
  rw [run_use rfl]
  refine run_append_of_eq (destroyWallets_stage keys sockets { withWallets n with threadSubmitted := true } rfl rfl
    (hn ▸ hkeys)) ?_
  rw [run_release rfl, run_release rfl, held_threadWallets, held_threadSubmitted]
  exact congrArg some (held_eq_nothing sockets ⟨rfl, rfl, rfl⟩ (le_refl n) (le_refl 0))

theorem runThreads_stage (hopens : o.useZmq = true → ∀ t < o.numThreads.toNat, (sockets t).opens = true) :
    run stepHeld ((if o.useZmq then withSockets o.numThreads.toNat o.numThreads.toNat
      else withWallets o.numThreads.toNat).held sockets) (runThreadsOps o keys sockets ops) = some nothing := by
  have hfinish := finish_stage keys sockets hkeys rfl
  cases hzmq : o.useZmq with
  | false =>
    rw [if_neg Bool.false_ne_true, runThreadsOps, hzmq, run_acquire rfl, held_threadSubmitted, run_use rfl]
    refine run_append_of_eq (threads_stage keys sockets hschedule hrun hkeys hwallets _ rfl rfl rfl rfl fun h => ?_)
      hfinish
    rw [hzmq] at h
    cases h
  | true =>
    rw [if_pos rfl, runThreadsOps, hzmq, run_acquire rfl, held_threadSubmitted, run_use rfl, if_pos rfl]
    refine run_append_of_eq (threads_stage keys sockets hschedule hrun hkeys hwallets _ rfl rfl rfl rfl fun _ =>
      ⟨rfl, rfl, rfl, hopens hzmq⟩) ?_
    rw [List.append_assoc]
    refine run_append_of_eq (closeSockets_stage sockets
      { withSockets o.numThreads.toNat o.numThreads.toNat with threadSubmitted := true } rfl rfl) ?_
    rw [List.cons_append, List.cons_append, List.nil_append, run_release rfl, run_release rfl,
      Function.update_comm (by simp), held_zmqTables]
    have hclosed := held_eq_of_noSockets sockets
      (s := { withSockets o.numThreads.toNat 0 with threadSubmitted := true }) o.numThreads.toNat
    exact (congrArg (fun held => run stepHeld held _) hclosed).trans hfinish

end Stages

/-- **The generator releases all that it acquires**, whichever wallet cannot be made, whichever socket cannot be
connected and however the threads are interleaved; nothing is used before it is acquired or after it is released. -/
theorem generator_releases (o : Options) (w : World Key) (keys : ℕ → KeyCalls Key) (sockets : ℕ → SocketCalls)
    (schedule : List (ℕ × ℕ)) (ops : List (ℕ × Op MainBlock)) (hschedule : IsSchedule o schedule)
    (hrun : IsParallelRun o w schedule ops)
    (hwallets : ∀ t < o.numThreads.toNat, (w.wallet t).evpKey = (keys t).key) :
    run stepHeld nothing (mainOps o keys sockets ops) = some nothing := by
  obtain ⟨hcreate, hkeys⟩ := createWallets_stage keys sockets 0 o.numThreads.toNat (by omega)
  rw [Nat.zero_add] at hcreate hkeys
  have hstart : Function.update nothing .threadWallets true = (withWallets 0).held sockets := by
    rw [← held_eq_nothing sockets (s := ⟨false, 0, 0, false, 0, 0, false⟩) ⟨rfl, rfl, rfl⟩ (le_refl 0) (le_refl 0),
      held_threadWallets]
    rfl
  rw [mainOps, run_acquire rfl, hstart]
  refine run_append_of_eq hcreate ?_
  cases hmade : (createWallets keys 0 o.numThreads.toNat).2 with
  | false => rfl
  | true =>
    have hthreads := runThreads_stage keys sockets hschedule hrun (hkeys hmade) hwallets
    cases hzmq : o.useZmq with
    | false =>
      rw [hzmq] at hthreads
      exact hthreads (fun h => by cases h)
    | true =>
      rw [hzmq] at hthreads
      have hopen := openSockets_stage sockets o.numThreads.toNat 0 o.numThreads.toNat
      rw [Nat.zero_add] at hopen
      have htables : Function.update (Function.update ((withWallets o.numThreads.toNat).held sockets) .threadCtxs true)
          .threadSocks true = (withSockets o.numThreads.toNat 0).held sockets := held_zmqTables sockets _ true
      show run stepHeld ((withWallets o.numThreads.toNat).held sockets)
        (.acquire .threadCtxs :: .acquire .threadSocks :: _) = _
      rw [run_acquire rfl, run_acquire rfl, htables]
      refine run_append_of_eq hopen ?_
      cases hopened : (openSockets sockets 0 o.numThreads.toNat).2 with
      | false =>
        refine run_append_of_eq (destroyWallets_stage keys sockets (withWallets o.numThreads.toNat) rfl rfl
          (hkeys hmade)) ?_
        rw [run_release rfl, held_threadWallets]
        exact congrArg some (held_eq_nothing sockets ⟨rfl, rfl, rfl⟩ (le_refl _) (le_refl 0))
      | true =>
        refine hthreads fun _ t ht => opens_of_openSockets sockets hopened t (Nat.zero_le t) ?_
        rwa [Nat.zero_add]

/-- One of the interleavings: the batches one after the other. -/
def sequentialOps (o : Options) (w : World Key) (schedule : List (ℕ × ℕ)) : List (ℕ × Op MainBlock) :=
  schedule.flatMap fun p => (batchOps o w p.1 p.2).map fun op => (p.1, op)

theorem sequentialOps_isParallelRun (o : Options) (w : World Key) (schedule : List (ℕ × ℕ)) :
    IsParallelRun o w schedule (sequentialOps o w schedule) := by
  intro t
  induction schedule with
  | nil => rfl
  | cons p schedule ih =>
    have happend : threadOps t (sequentialOps o w (p :: schedule)) =
        threadOps t ((batchOps o w p.1 p.2).map fun op => (p.1, op)) ++ threadOps t (sequentialOps o w schedule) := by
      simp [threadOps, sequentialOps]
    rw [happend, ih]
    by_cases hp : p.1 = t
    · subst hp
      simp [threadOps, List.filter_map, Function.comp_def]
    · simp [threadOps, List.filter_map, Function.comp_def, hp]

def keyedWorld : World Unit :=
  { sampleWorld with wallet := fun _ => { (zeroWallet : Wallet Unit) with evpKey := some () } }

theorem generator_releases_sample : run stepHeld nothing (mainOps (options sampleArgs)
    (fun _ => ⟨true, true, true, some (), none⟩) (fun _ => ⟨true, true, true⟩)
    (sequentialOps (options sampleArgs) keyedWorld [(1, 1), (0, 0)])) = some nothing :=
  generator_releases (options sampleArgs) keyedWorld (fun _ => ⟨true, true, true, some (), none⟩)
    (fun _ => ⟨true, true, true⟩) [(1, 1), (0, 0)] _ ⟨by decide, by decide⟩ (sequentialOps_isParallelRun _ _ _)
    fun _ _ => rfl

end ShardingSim
