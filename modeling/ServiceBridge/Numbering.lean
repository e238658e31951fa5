import ServiceBridge.Interleaving

/-! `req_pop_msg` under any number of threads. Its `try_pop` is a critical section of `concurrent_queue`; the
    read and increment of `seq_req` is a step of its own, outside of any lock. -/

namespace ServiceBridge.Numbering
open Interleaving (Item)

/-- `Q_req` and `seq_req`, the request that each thread has popped and not numbered yet, and the `VALID`
    messages so far, each with the request it was built from. -/
structure State (ι : Type) where
  qReq : Interleaving.State ι XferType
  seqReq : Nat
  held : ι → Option (Item ι XferType)
  messages : List (SrvMsg × Item ι XferType)

inductive Act (ι : Type) where
  /-- A producer's `Q_req.push( data )` up to the unlock. -/
  | push (i : ι) (data : XferType)
  | notify (i : ι)
  /-- `req_pop_msg` up to the end of `try_pop`; without a request the message is `EMPTY`. -/
  | tryPop (i : ι)
  /-- `seq_req++` and the message. -/
  | number (i : ι)
  deriving DecidableEq

variable {ι : Type} [DecidableEq ι] [Fintype ι]

namespace State

def initial : State ι where
  qReq := .initial
  seqReq := 0
  held := fun _ => none
  messages := []

def popped (queue : List (Item ι XferType)) : Option (Item ι XferType) :=
  match ConcurrentQueue.tryPop queue with
  | .ok (item, _) => item
  | .error _ => none

/-- The thread `i` gives the next number to the request it holds. -/
def numbered (s : State ι) (i : ι) (item : Item ι XferType) : State ι :=
  { s with
    seqReq := increment s.seqReq
    held := Function.update s.held i none
    messages := s.messages ++ [(SrvMsg.new .request .valid s.seqReq item.value.length, item)] }

def step (s : State ι) : Act ι → Option (State ι)
  | .push i data =>
    if s.held i = none then (s.qReq.step (.push i data)).map fun qReq => { s with qReq := qReq } else none
  | .notify i => (s.qReq.step (.notify i none)).map fun qReq => { s with qReq := qReq }
  | .tryPop i =>
    if s.held i = none then
      (s.qReq.step (.tryPop i)).map fun qReq =>
        { s with qReq := qReq, held := Function.update s.held i (popped s.qReq.queue) }
    else none
  | .number i =>
    match s.held i with
    | none => none
    | some item => some (s.numbered i item)

end State

def system (ι : Type) [DecidableEq ι] [Fintype ι] : System (State ι) (Act ι) where
  init := fun s => s = State.initial
  step := State.step

end ServiceBridge.Numbering
