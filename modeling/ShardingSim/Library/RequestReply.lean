import ShardingSim.Library.Run

/-! A server on a request-reply socket. It may receive when no reply is due and must reply before it receives
again; a call out of turn breaks the alternation for good. A server that answers every request it receives
by one reply never makes such a call (`run_exchanges`). -/
namespace RequestReply
open Run
set_option autoImplicit false

variable {α β : Type*}

inductive Call (α β : Type*) where
  | recvFailed
  | recv (request : α)
  | send (reply : β)

inductive Phase where
  | receiving
  | replying
deriving DecidableEq

/-- The socket before and after a call; `none` is a call out of turn. -/
def step : Phase → Call α β → Option Phase
  | .receiving, .recvFailed => some .receiving
  | .receiving, .recv _ => some .replying
  | .replying, .send _ => some .receiving
  | _, _ => none

/-- The calls of a server whose reply is a function of the request; `none` is a receive that fails. -/
def exchange (reply : α → β) : Option α → List (Call α β)
  | none => [.recvFailed]
  | some request => [.recv request, .send (reply request)]

theorem run_exchange (reply : α → β) (event : Option α) :
    run step .receiving (exchange reply event) = some .receiving := by
  cases event with
  | none => rfl
  | some request => rfl

theorem run_exchanges (reply : α → β) (events : List (Option α)) :
    run step .receiving (events.flatMap (exchange reply)) = some .receiving := by
  induction events with
  | nil => rfl
  | cons event events ih =>
    rw [List.flatMap_cons, run_append, run_exchange]
    exact ih

end RequestReply
