import ShardingSim.Receiver
import ShardingSim.Resources

/-! The blocks, handles and sockets of the receiver, which holds the same three things before each pass of its loop
(`receiver_holds`). -/
namespace ShardingSim
open Ownership Run
set_option autoImplicit false

inductive ReceiverBlock where
  | ctx
  | rep
  | buf
  | batch
  | tx
deriving DecidableEq

/-- `pb_to_tx`, the verification if asked for, and `transaction_destroy`. -/
def judgeOps (verify : Bool) : List (Op ReceiverBlock) :=
  [.use .batch, .acquire .tx, .use .tx, .use .batch] ++ (if verify then [.use .tx] else []) ++
    [.use .tx, .release .tx]

def batchPassOps (verify : Bool) (batch : Option PbTransactionBatch) : List (Op ReceiverBlock) :=
  match batch with
  | none => []
  | some batch => .acquire .batch :: (batch.transactions.flatMap fun _ => judgeOps verify) ++ [.release .batch]

/-- A pass of the loop. -/
def passOps (P : ProtobufC PbTransactionBatch) (verify : Bool) (s : ReceiverState) (e : RecvEvent) :
    List (Op ReceiverBlock) :=
  [.use .rep, .use .buf] ++
    match e with
    | .failed => []
    | .message msg =>
      let received := zmqRecv s.buf (recvBufSize - 1) msg
      .use .buf :: (if isBatch received.1 received.2 then
        .use .buf :: batchPassOps verify (P.unpack (payload received.1 received.2)) else []) ++ [.use .rep]

def receiverLoopOps (P : ProtobufC PbTransactionBatch) (verify : Bool) (s : ReceiverState) :
    List RecvEvent → List (Op ReceiverBlock)
  | [] => []
  | e :: es => passOps P verify s e ++ receiverLoopOps P verify (receiverStep P verify s e).1 es

/-- `main` up to the end of some pass. `calls.connect` stands for `zmq_bind`. -/
def receiverOps (P : ProtobufC PbTransactionBatch) (verify : Bool) (calls : SocketCalls) (s : ReceiverState)
    (es : List RecvEvent) : List (Op ReceiverBlock) :=
  (if calls.ctxNew then .acquire .ctx :: (if calls.socket then [.use .ctx, .acquire .rep, .use .rep] else [])
    else []) ++
    if !(calls.opens && calls.connect) then
      (if calls.opens then [.release .rep] else []) ++ (if calls.ctxNew then [.release .ctx] else [])
    else .acquire .buf :: receiverLoopOps P verify s es

theorem judge_sound (verify : Bool) : run stepHeld (holding [.ctx, .rep, .buf, .batch]) (judgeOps verify) =
    some (holding [.ctx, .rep, .buf, .batch]) := by
  cases verify <;> exact congrArg some (funext fun r => by cases r <;> rfl)

theorem batchPass_sound (verify : Bool) (batch : Option PbTransactionBatch) :
    run stepHeld (holding [.ctx, .rep, .buf]) (batchPassOps verify batch) = some (holding [.ctx, .rep, .buf]) := by
  cases batch with
  | none => rfl
  | some batch =>
    have hacquired : Function.update (holding [ReceiverBlock.ctx, .rep, .buf]) .batch true =
        holding [.ctx, .rep, .buf, .batch] := funext fun r => by cases r <;> rfl
    have hjudged : run stepHeld (holding [.ctx, .rep, .buf, .batch])
        (batch.transactions.flatMap fun _ => judgeOps verify) = some (holding [.ctx, .rep, .buf, .batch]) :=
      run_flatMap fun _ _ => judge_sound verify
    show run stepHeld _
      (.acquire .batch :: ((batch.transactions.flatMap fun _ => judgeOps verify) ++ [.release .batch])) = _
    rw [run_acquire rfl, hacquired]
    exact run_append_of_eq hjudged (congrArg some (funext fun r => by cases r <;> rfl))

theorem pass_sound (P : ProtobufC PbTransactionBatch) (verify : Bool) (s : ReceiverState) (e : RecvEvent) :
    run stepHeld (holding [.ctx, .rep, .buf]) (passOps P verify s e) = some (holding [.ctx, .rep, .buf]) := by
  unfold passOps
  rw [List.cons_append, List.cons_append, List.nil_append, run_use rfl, run_use rfl]
  cases e with
  | failed => rfl
  | message msg =>
    have hanswer : run stepHeld (holding [.ctx, .rep, .buf]) ([.use .rep] : List (Op ReceiverBlock)) =
        some (holding [.ctx, .rep, .buf]) := run_use rfl
    refine run_append_of_eq ?_ hanswer
    rw [run_use rfl]
    split_ifs
    · rw [run_use rfl]
      exact batchPass_sound verify _
    · rfl

theorem receiverLoop_sound (P : ProtobufC PbTransactionBatch) (verify : Bool) (s : ReceiverState)
    (es : List RecvEvent) : run stepHeld (holding [.ctx, .rep, .buf]) (receiverLoopOps P verify s es) =
      some (holding [.ctx, .rep, .buf]) := by
  induction es generalizing s with
  | nil => rfl
  | cons e es ih => exact run_append_of_eq (pass_sound P verify s e) (ih _)

/-- **The receiver does not grow.** Before each pass of its loop, however many there were and whatever it received,
it holds its context, its socket and its buffer; if it could not be bound, it has released all. -/
theorem receiver_holds (P : ProtobufC PbTransactionBatch) (verify : Bool) (calls : SocketCalls) (s : ReceiverState)
    (es : List RecvEvent) : run stepHeld (holding []) (receiverOps P verify calls s es) =
      some (holding (if calls.opens && calls.connect then [.ctx, .rep, .buf] else [])) := by
  cases hbound : calls.opens && calls.connect with
  | true =>
    have hopens : calls.opens = true := (Bool.and_eq_true_iff.mp hbound).1
    have hnew : calls.ctxNew = true := (Bool.and_eq_true_iff.mp hopens).1
    have hsocket : calls.socket = true := (Bool.and_eq_true_iff.mp hopens).2
    have hstart : run stepHeld (holding []) [.acquire .ctx, .use .ctx, .acquire .rep, .use .rep, .acquire .buf] =
        some (holding [ReceiverBlock.ctx, .rep, .buf]) := congrArg some (funext fun r => by cases r <;> rfl)
    have hall := run_append_of_eq hstart (receiverLoop_sound P verify s es)
    rw [receiverOps, hbound, hnew, hsocket]
    exact hall
  | false =>
    obtain ⟨ctxNew, socket, connect⟩ := calls
    unfold receiverOps
    rw [hbound]
    unfold SocketCalls.opens
    cases ctxNew <;> cases socket <;> exact congrArg some (funext fun r => by cases r <;> rfl)

end ShardingSim
