import Mathlib.Tactic

/-! Memory that records its loads and stores in order, with the rule for a loop whose index runs through an
interval. -/
namespace AccessLog
set_option autoImplicit false

variable {α : Type*}

inductive Access (α : Type*) where
  | load (i : ℕ) (a : α)
  | store (i : ℕ) (a : α)

structure Memory (α : Type*) where
  cells : List α
  log : List (Access α)

def store (m : Memory α) (i : ℕ) (a : α) : Memory α where
  cells := m.cells.set i a
  log := m.log ++ [.store i a]

/-- The element at index `i`; behind the cells there is only `d`. -/
def load (d : α) (m : Memory α) (i : ℕ) : α × Memory α :=
  (m.cells.getD i d, { m with log := m.log ++ [.load i (m.cells.getD i d)] })

def Access.stored : Access α → Option (ℕ × α)
  | .load _ _ => none
  | .store i a => some (i, a)

/-- What was stored where, in order. -/
def stores (log : List (Access α)) : List (ℕ × α) := log.filterMap Access.stored

/-- Every load is below `bound` and reads what was stored there before. -/
def LoadsStored (bound : ℕ) (log : List (Access α)) : Prop :=
  ∀ pre i a post, log = pre ++ .load i a :: post → i < bound ∧ .store i a ∈ pre

/-! ## Logs -/

theorem mem_stores_iff {log : List (Access α)} {i : ℕ} {a : α} : (i, a) ∈ stores log ↔ .store i a ∈ log := by
  rw [stores, List.mem_filterMap]
  constructor
  · rintro ⟨access, hmem, hstored⟩
    cases access with
    | load j b => cases hstored
    | store j b =>
      obtain ⟨rfl, rfl⟩ := Prod.mk.inj (Option.some.inj hstored)
      exact hmem
  · exact fun hmem => ⟨_, hmem, rfl⟩

theorem stores_concat_store (log : List (Access α)) (i : ℕ) (a : α) :
    stores (log ++ [.store i a]) = stores log ++ [(i, a)] := List.filterMap_append

theorem stores_concat_load (log : List (Access α)) (i : ℕ) (a : α) :
    stores (log ++ [.load i a]) = stores log := by
  rw [stores, List.filterMap_append]
  exact List.append_nil _

theorem loadsStored_nil (bound : ℕ) : LoadsStored bound ([] : List (Access α)) := by
  intro pre i a post h
  exact absurd h.symm (List.append_ne_nil_of_right_ne_nil _ (List.cons_ne_nil _ _))

theorem loadsStored_concat {bound : ℕ} {log : List (Access α)} {access : Access α} (h : LoadsStored bound log)
    (hlast : ∀ i a, access = .load i a → i < bound ∧ .store i a ∈ log) :
    LoadsStored bound (log ++ [access]) := by
  intro pre i a post heq
  rcases post.eq_nil_or_concat with rfl | ⟨init, last, rfl⟩
  · obtain ⟨rfl, hload⟩ := List.append_inj' heq rfl
    exact hlast i a (List.singleton_inj.mp hload)
  · rw [List.concat_eq_append, ← List.cons_append, ← List.append_assoc] at heq
    exact h pre i a init (List.append_inj' heq rfl).1

/-! ## Loops -/

/-- **The rule for loops.** -/
theorem foldl_range'_inv {σ : Type*} {I : ℕ → σ → Prop} (step : σ → ℕ → σ) {start n : ℕ} {s : σ}
    (hstep : ∀ k s, start ≤ k → k < start + n → I k s → I (k + 1) (step s k)) (h : I start s) :
    I (start + n) ((List.range' start n).foldl step s) := by
  induction n with
  | zero => exact h
  | succ n ih =>
    rw [List.range'_1_concat, List.foldl_concat]
    have hstart := ih fun k s hge hlt => hstep k s hge (by omega)
    exact hstep (start + n) _ (Nat.le_add_right _ _) (by omega) hstart

end AccessLog
