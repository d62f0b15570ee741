import ShardingSim.Library.Run

/-! Resources that are acquired, used and released: blocks of memory, handles, sockets. `run stepHeld` on what is held
says whether a sequence of operations is sound, which it is if it is sound for each resource (`run_iff`); an
acquired resource is not acquired again, and one that is not held is neither used nor released. Programs that
are sound alone and share resources only by using them are sound in every interleaving (`run_interleaved`). -/
namespace Ownership
open Run
set_option autoImplicit false

variable {R T : Type*}

inductive Op (R : Type*) where
  | acquire (r : R)
  | use (r : R)
  | release (r : R)
deriving DecidableEq

def Op.target : Op R → R
  | .acquire r => r
  | .use r => r
  | .release r => r

/-- One resource, held or not, under an operation on it. -/
def stepOne (held : Bool) : Op R → Option Bool
  | .acquire _ => if held then none else some true
  | .use _ => if held then some true else none
  | .release _ => if held then some false else none

theorem run_stepOne_use {held held' : Bool} {ops : List (Op R)} (hne : ops ≠ [])
    (huse : ∀ op ∈ ops, ∃ r, op = .use r) (h : run stepOne held ops = some held') :
    held = true := by
  obtain ⟨op, rest, rfl⟩ := List.exists_cons_of_ne_nil hne
  obtain ⟨r, rfl⟩ := huse op List.mem_cons_self
  obtain ⟨after, hafter, -⟩ := run_cons h
  cases held with
  | true => rfl
  | false => cases hafter

theorem run_stepOne_held {ops : List (Op R)} (huse : ∀ op ∈ ops, ∃ r, op = .use r) :
    run stepOne true ops = some true := by
  induction ops with
  | nil => rfl
  | cons op rest ih =>
    obtain ⟨r, rfl⟩ := huse op List.mem_cons_self
    exact ih fun op hop => huse op (List.mem_cons_of_mem _ hop)

variable [DecidableEq R]

def stepHeld (held : R → Bool) (op : Op R) : Option (R → Bool) :=
  (stepOne (held op.target) op).map fun after => Function.update held op.target after

/-- The operations on one resource. -/
def on (r : R) (ops : List (Op R)) : List (Op R) := ops.filter fun op => op.target = r

/-- What is held are the listed resources. -/
def holding (held : List R) (r : R) : Bool := decide (r ∈ held)

/-! ## One operation at a time -/

section Operations
variable {held : R → Bool} {r : R} {ops : List (Op R)}

theorem run_acquire (h : held r = false) :
    run stepHeld held (.acquire r :: ops) = run stepHeld (Function.update held r true) ops := by
  simp [run, stepHeld, stepOne, Op.target, h]

theorem update_held {after : Bool} (h : held r = after) : Function.update held r after = held :=
  h ▸ Function.update_eq_self r held

theorem run_use (h : held r = true) : run stepHeld held (.use r :: ops) = run stepHeld held ops := by
  simp [run, stepHeld, stepOne, Op.target, h, update_held h]

theorem run_release (h : held r = true) :
    run stepHeld held (.release r :: ops) = run stepHeld (Function.update held r false) ops := by
  simp [run, stepHeld, stepOne, Op.target, h]

theorem run_uses (h : ∀ op ∈ ops, ∃ r, op = .use r ∧ held r = true) : run stepHeld held ops = some held := by
  induction ops with
  | nil => rfl
  | cons op ops ih =>
    obtain ⟨r, rfl, hr⟩ := h op List.mem_cons_self
    rw [run_use hr]
    exact ih fun op hop => h op (List.mem_cons_of_mem _ hop)

end Operations

/-! ## One resource at a time -/

/-- **The rule for resources.** A sequence is sound exactly if it is for each resource. -/
theorem run_iff {held held' : R → Bool} {ops : List (Op R)} :
    run stepHeld held ops = some held' ↔ ∀ r, run stepOne (held r) (on r ops) = some (held' r) := by
  induction ops generalizing held with
  | nil => simp [run, on, funext_iff]
  | cons op ops ih =>
    have hself : on op.target (op :: ops) = op :: on op.target ops := by simp [on]
    have hother : ∀ r, r ≠ op.target → on r (op :: ops) = on r ops := fun r hr => by simp [on, Ne.symm hr]
    constructor
    · intro h r
      obtain ⟨held₁, h₁, hrest⟩ := run_cons h
      obtain ⟨after, hafter, rfl⟩ := Option.map_eq_some_iff.mp h₁
      have hr := ih.mp hrest r
      by_cases heq : r = op.target
      · subst heq
        rw [Function.update_self] at hr
        rw [hself, run, hafter]
        exact hr
      · rw [Function.update_of_ne heq] at hr
        rw [hother r heq]
        exact hr
    · intro h
      have htarget := h op.target
      rw [hself] at htarget
      obtain ⟨after, hafter, hrest⟩ := run_cons htarget
      have hstep : stepHeld held op = some (Function.update held op.target after) := by rw [stepHeld, hafter]; rfl
      rw [run, hstep]
      refine ih.mpr fun r => ?_
      by_cases heq : r = op.target
      · rw [heq, Function.update_self]
        exact hrest
      · have hr := h r
        rw [hother r heq] at hr
        rw [Function.update_of_ne heq]
        exact hr

/-! ## Renaming -/

def Op.map {Q : Type*} (f : Q → R) : Op Q → Op R
  | .acquire q => .acquire (f q)
  | .use q => .use (f q)
  | .release q => .release (f q)

omit [DecidableEq R] in
theorem run_stepOne_map {Q : Type*} (f : Q → R) (held : Bool) (ops : List (Op Q)) :
    run stepOne held (ops.map (Op.map f)) = run stepOne held ops := by
  induction ops generalizing held with
  | nil => rfl
  | cons op ops ih =>
    have hop : stepOne held (op.map f) = stepOne held op := by cases op <;> rfl
    rw [List.map_cons, run, run, hop]
    exact congrArg _ (funext ih)

/-- **The rule for calls.** A function that is sound on resources of its own is sound where these are given other
names, and leaves all others as they are. -/
theorem run_map {Q : Type*} [DecidableEq Q] {f : Q → R} (hf : f.Injective) {before after : Q → Bool}
    {held held' : R → Bool} {ops : List (Op Q)} (h : run stepHeld before ops = some after)
    (hbefore : ∀ q, held (f q) = before q) (hafter : ∀ q, held' (f q) = after q)
    (hother : ∀ r, (∀ q, f q ≠ r) → held' r = held r) :
    run stepHeld held (ops.map (Op.map f)) = some held' := by
  have htarget : ∀ op : Op Q, (op.map f).target = f op.target := fun op => by cases op <;> rfl
  refine run_iff.mpr fun r => ?_
  by_cases hr : ∃ q, f q = r
  · obtain ⟨q, rfl⟩ := hr
    have hon : on (f q) (ops.map (Op.map f)) = (on q ops).map (Op.map f) := by
      rw [on, on, List.filter_map]
      refine congrArg (List.map _) (List.filter_congr fun op _ => ?_)
      rw [Function.comp_apply, htarget]
      exact decide_eq_decide.mpr hf.eq_iff
    rw [hon, run_stepOne_map, hbefore, hafter]
    exact run_iff.mp h q
  · have hne : ∀ q, f q ≠ r := fun q hq => hr ⟨q, hq⟩
    have hon : on r (ops.map (Op.map f)) = [] := by
      rw [on, List.filter_eq_nil_iff]
      intro op hop
      obtain ⟨op, -, rfl⟩ := List.mem_map.mp hop
      simpa [htarget] using hne op.target
    rw [hon, hother r hne]
    rfl

/-! ## Interleavings -/

variable [DecidableEq T]

/-- What thread `t` does in an interleaving. -/
def threadOps (t : T) (ops : List (T × Op R)) : List (Op R) := (ops.filter fun p => p.1 = t).map Prod.snd

/-- Each resource is touched by one thread only, or only used. -/
def Shared (ops : List (T × Op R)) : Prop :=
  ∀ r, (∃ t, ∀ p ∈ ops, p.2.target = r → p.1 = t) ∨ ∀ p ∈ ops, p.2.target = r → p.2 = .use r

theorem on_threadOps {ops : List (T × Op R)} {r : R} {t : T} (h : ∀ p ∈ ops, p.2.target = r → p.1 = t) :
    on r (threadOps t ops) = on r (ops.map Prod.snd) := by
  rw [on, on, threadOps, List.filter_map, List.filter_map, List.filter_filter]
  refine congrArg (List.map Prod.snd) (List.filter_congr fun p hp => ?_)
  by_cases hr : p.2.target = r
  · simp [hr, h p hp hr]
  · simp [hr]

/-- **The rule for threads.** If each thread is sound alone and leaves what is held as it was, then so does every
interleaving. -/
theorem run_interleaved {held : R → Bool} {ops : List (T × Op R)} (hshared : Shared ops)
    (hthreads : ∀ t, run stepHeld held (threadOps t ops) = some held) :
    run stepHeld held (ops.map Prod.snd) = some held := by
  refine run_iff.mpr fun r => ?_
  rcases hshared r with ⟨t, ht⟩ | huse
  · rw [← on_threadOps ht]
    exact run_iff.mp (hthreads t) r
  · have hall : ∀ op ∈ on r (ops.map Prod.snd), ∃ r, op = .use r := by
      intro op hop
      obtain ⟨hmem, hr⟩ := List.mem_filter.mp hop
      obtain ⟨p, hp, rfl⟩ := List.mem_map.mp hmem
      exact ⟨r, huse p hp (by simpa using hr)⟩
    by_cases hnil : on r (ops.map Prod.snd) = []
    · rw [hnil]
      rfl
    · -- a thread that uses the resource has it
      obtain ⟨op, hop⟩ := List.exists_mem_of_ne_nil _ hnil
      obtain ⟨hmem, hr⟩ := List.mem_filter.mp hop
      obtain ⟨p, hp, rfl⟩ := List.mem_map.mp hmem
      have hthread := run_iff.mp (hthreads p.1) r
      have hp' : p.2 ∈ on r (threadOps p.1 ops) :=
        List.mem_filter.mpr ⟨List.mem_map.mpr ⟨p, List.mem_filter.mpr ⟨hp, by simp⟩, rfl⟩, hr⟩
      have huses : ∀ op ∈ on r (threadOps p.1 ops), ∃ r, op = .use r := by
        intro op hop
        obtain ⟨hmem, hr⟩ := List.mem_filter.mp hop
        obtain ⟨q, hq, rfl⟩ := List.mem_map.mp hmem
        exact ⟨r, huse q (List.mem_of_mem_filter hq) (by simpa using hr)⟩
      have hheld := run_stepOne_use (List.ne_nil_of_mem hp') huses hthread
      rw [hheld]
      exact run_stepOne_held hall

end Ownership
