import Mathlib.Tactic

/-! Runs of a partial step function over a list of events, and the rule by which facts about one step become
facts about runs: if, under an invariant, a step keeps a property exactly when it meets a condition, the
property holds at the end of a run exactly when all its steps met the condition. -/
namespace Run
set_option autoImplicit false

variable {σ ε : Type*} (step : σ → ε → Option σ)

/-- The state after the events, if every step is enabled. -/
def run (s : σ) : List ε → Option σ
  | [] => some s
  | e :: es => (step s e).bind fun s' => run s' es

def AllSteps (C : σ → ε → Prop) (s : σ) : List ε → Prop
  | [] => True
  | e :: es => C s e ∧ ∀ s', step s e = some s' → AllSteps C s' es

variable {step}

theorem run_cons {s s' : σ} {e : ε} {es : List ε} (h : run step s (e :: es) = some s') :
    ∃ s₁, step s e = some s₁ ∧ run step s₁ es = some s' := by
  rw [run] at h
  exact Option.bind_eq_some_iff.mp h

theorem run_append (s : σ) (es fs : List ε) :
    run step s (es ++ fs) = (run step s es).bind fun s' => run step s' fs := by
  induction es generalizing s with
  | nil => rfl
  | cons e es ih =>
    rw [List.cons_append, run, run, Option.bind_assoc]
    exact congrArg _ (funext ih)

theorem run_append_of_eq {s s₁ s' : σ} {es fs : List ε} (h : run step s es = some s₁)
    (h' : run step s₁ fs = some s') : run step s (es ++ fs) = some s' := by
  rw [run_append, h]
  exact h'

/-- **The rule for loops.** `S k` is the state before pass `k`. -/
theorem run_flatMap_range {S : ℕ → σ} {body : ℕ → List ε} {n : ℕ}
    (h : ∀ k < n, run step (S k) (body k) = some (S (k + 1))) :
    run step (S 0) ((List.range n).flatMap body) = some (S n) := by
  induction n with
  | zero => rfl
  | succ n ih =>
    rw [List.range_succ, List.flatMap_append, List.flatMap_singleton]
    exact run_append_of_eq (ih fun k hk => h k (Nat.lt_succ_of_lt hk)) (h n (Nat.lt_succ_self n))

theorem run_flatMap {α : Type*} {s : σ} {body : α → List ε} {l : List α}
    (h : ∀ a ∈ l, run step s (body a) = some s) : run step s (l.flatMap body) = some s := by
  induction l with
  | nil => rfl
  | cons a l ih =>
    rw [List.flatMap_cons]
    exact run_append_of_eq (h a List.mem_cons_self) (ih fun b hb => h b (List.mem_cons_of_mem _ hb))

theorem run_isSome_of_prefix {s : σ} {es fs : List ε} (h : es <+: fs) (hrun : (run step s fs).isSome) :
    (run step s es).isSome := by
  obtain ⟨rest, rfl⟩ := h
  rw [run_append] at hrun
  exact Option.isSome_of_isSome_bind hrun

theorem allSteps_cons {C : σ → ε → Prop} {s s₁ : σ} {e : ε} {es : List ε} (h : step s e = some s₁) :
    AllSteps step C s (e :: es) ↔ C s e ∧ AllSteps step C s₁ es := by
  rw [AllSteps, h]
  simp only [Option.some.injEq, forall_eq']

/-- **The rule for runs.** -/
theorem run_iff {I G : σ → Prop} {C : σ → ε → Prop}
    (hstep : ∀ s e s', I s → step s e = some s' → I s' ∧ (G s' ↔ G s ∧ C s e)) {s s' : σ} {es : List ε}
    (hI : I s) (h : run step s es = some s') : G s' ↔ G s ∧ AllSteps step C s es := by
  induction es generalizing s with
  | nil =>
    obtain rfl := Option.some.inj h
    exact (and_iff_left trivial).symm
  | cons e es ih =>
    obtain ⟨s₁, h₁, hrest⟩ := run_cons h
    obtain ⟨hI₁, hG⟩ := hstep s e s₁ hI h₁
    rw [ih hI₁ hrest, hG, allSteps_cons h₁, and_assoc]

theorem allSteps_of_inv {I : σ → Prop} {E : ε → Prop} {C : σ → ε → Prop}
    (hstep : ∀ s e s', I s → E e → step s e = some s' → I s') (hcond : ∀ s e, I s → E e → C s e) {s : σ}
    {es : List ε} (hI : I s) (hE : ∀ e ∈ es, E e) : AllSteps step C s es := by
  induction es generalizing s with
  | nil => exact trivial
  | cons e es ih =>
    have he := hE e List.mem_cons_self
    exact ⟨hcond s e hI he, fun s' hs' => ih (hstep s e s' hI he hs') fun e' he' =>
      hE e' (List.mem_cons_of_mem _ he')⟩

/-! ## Invariants and measures -/

section Measure
variable {I : σ → Prop} {E : ε → Prop}
  (hinv : ∀ s e s', I s → E e → step s e = some s' → I s')
include hinv

theorem run_inv {s s' : σ} {es : List ε} (hI : I s) (hE : ∀ e ∈ es, E e) (h : run step s es = some s') : I s' := by
  induction es generalizing s with
  | nil =>
    obtain rfl := Option.some.inj h
    exact hI
  | cons e es ih =>
    obtain ⟨s₁, h₁, hrest⟩ := run_cons h
    exact ih (hinv s e s₁ hI (hE e List.mem_cons_self) h₁) (fun e' he' => hE e' (List.mem_cons_of_mem _ he')) hrest

variable {μ : σ → ℕ} (hμ : ∀ s e s', I s → E e → step s e = some s' → μ s' < μ s)
include hμ

/-- **The rule for termination.** A measure that every step lowers bounds the runs. -/
theorem run_length_le {s s' : σ} {es : List ε} (hI : I s) (hE : ∀ e ∈ es, E e) (h : run step s es = some s') :
    es.length + μ s' ≤ μ s := by
  induction es generalizing s with
  | nil =>
    obtain rfl := Option.some.inj h
    rw [List.length_nil, Nat.zero_add]
  | cons e es ih =>
    obtain ⟨s₁, h₁, hrest⟩ := run_cons h
    have he := hE e List.mem_cons_self
    have hlt := hμ s e s₁ hI he h₁
    have hle := ih (hinv s e s₁ hI he h₁) (fun e' he' => hE e' (List.mem_cons_of_mem _ he')) hrest
    rw [List.length_cons]
    omega

/-- **The rule for completion.** If some step is always enabled short of `F`, then `F` can be reached. -/
theorem exists_run_of_progress {F : σ → Prop} (hprogress : ∀ s, I s → ¬ F s → ∃ e s', E e ∧ step s e = some s')
    {s : σ} (hI : I s) : ∃ es s', (∀ e ∈ es, E e) ∧ run step s es = some s' ∧ F s' := by
  induction hn : μ s using Nat.strong_induction_on generalizing s with
  | _ n ih =>
    by_cases hF : F s
    · exact ⟨[], s, fun e he => absurd he List.not_mem_nil, rfl, hF⟩
    · obtain ⟨e, s₁, he, h₁⟩ := hprogress s hI hF
      have hlt := hμ s e s₁ hI he h₁
      obtain ⟨es, s', hes, hrun, hend⟩ := ih (μ s₁) (hn ▸ hlt) (hinv s e s₁ hI he h₁) rfl
      refine ⟨e :: es, s', List.forall_mem_cons.mpr ⟨he, hes⟩, ?_, hend⟩
      rw [run, h₁]
      exact hrun

end Measure

/-! ## Histories -/

section History
variable {α : Type*} (out : σ → ε → List α)

/-- What the steps of a run put out. -/
def history (step : σ → ε → Option σ) (s : σ) : List ε → List α
  | [] => []
  | e :: es => out s e ++ match step s e with
    | some s' => history step s' es
    | none => []

variable {out}

/-- **The rule for histories.** A relation of a state to what was put out so far. -/
theorem history_inv {I : σ → List α → Prop} {E : ε → Prop}
    (hinv : ∀ s l e s', I s l → E e → step s e = some s' → I s' (l ++ out s e)) {s s' : σ} {l : List α}
    {es : List ε} (hI : I s l) (hE : ∀ e ∈ es, E e) (h : run step s es = some s') :
    I s' (l ++ history out step s es) := by
  induction es generalizing s l with
  | nil =>
    obtain rfl := Option.some.inj h
    rw [history, List.append_nil]
    exact hI
  | cons e es ih =>
    obtain ⟨s₁, h₁, hrest⟩ := run_cons h
    have hnext := ih (hinv s l e s₁ hI (hE e List.mem_cons_self) h₁)
      (fun e' he' => hE e' (List.mem_cons_of_mem _ he')) hrest
    rw [history, h₁, ← List.append_assoc]
    exact hnext

end History

/-! ## Simulations -/

section Simulation
variable {τ α : Type*} {step' : τ → ε → Option τ} {R : σ → τ → Prop}
  (hstep : ∀ s t e, R s t → Option.Rel R (step s e) (step' t e))
include hstep

end Simulation

/-! ## Rounds -/

theorem run_replicate_of_fixed {s : σ} {e : ε} (h : step s e = some s) (n : ℕ) :
    run step s (List.replicate n e) = some s := by
  induction n with
  | zero => rfl
  | succ n ih =>
    rw [List.replicate_succ, run, h]
    exact ih

/-- **The rule for rounds** of one event: what a step does not leave smaller is not changed any more. -/
theorem run_replicate_fixed {I : σ → Prop} (size : σ → ℕ) {e : ε}
    (hstep : ∀ s, I s → ∃ s', step s e = some s' ∧ I s' ∧ (step s' e = some s' ∨ size s' < size s)) {s : σ} (hI : I s)
    {n : ℕ} (hn : size s < n) : ∃ s', run step s (List.replicate n e) = some s' ∧ I s' ∧ step s' e = some s' := by
  induction n generalizing s with
  | zero => exact absurd hn (Nat.not_lt_zero _)
  | succ n ih =>
    obtain ⟨s₁, h₁, hI₁, hnext⟩ := hstep s hI
    rw [List.replicate_succ, run, h₁]
    rcases hnext with hfixed | hlt
    · exact ⟨s₁, run_replicate_of_fixed hfixed n, hI₁, hfixed⟩
    · exact ih hI₁ (by omega)

end Run
