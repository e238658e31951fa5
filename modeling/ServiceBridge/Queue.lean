import ServiceBridge.Text

/-! `concurrent_queue`, `SrvMsg` and `ServiceQueue` of `src/Connection.hpp`. What an operation of the queue
    does while it holds the lock is a function of the queue's contents; how these critical sections
    interleave is in `ServiceBridge.Interleaving`. -/

namespace ServiceBridge

variable {T : Type}

/-! ### std::queue -/

def front : List T → Except Fault T
  | [] => .error .emptyQueue
  | x :: _ => .ok x

def pop : List T → Except Fault (List T)
  | [] => .error .emptyQueue
  | _ :: queue => .ok queue

/-! ### concurrent_queue -/

namespace ConcurrentQueue

/-- `push` up to `lock.unlock()`. -/
def push (queue : List T) (data : T) : List T := queue ++ [data]

def empty (queue : List T) : Bool := queue.isEmpty

/-- `try_pop`: the value it writes to `popped_value` if it returns `true`, and the queue it leaves. -/
def tryPop (queue : List T) : Except Fault (Option T × List T) :=
  if queue.isEmpty then .ok (none, queue)
  else do
    let poppedValue ← front queue
    let rest ← pop queue
    return (some poppedValue, rest)

/-- `wait_and_pop` from one test of its loop condition until it gives the lock up: `none` when it goes to
    sleep in `cond_var.wait`, else the value it writes to `popped_value`. -/
def waitAndPop (queue : List T) : Except Fault (Option T × List T) :=
  if queue.isEmpty then .ok (none, queue)
  else do
    let poppedValue ← front queue
    let rest ← pop queue
    return (some poppedValue, rest)

@[simp] theorem tryPop_nil : tryPop ([] : List T) = .ok (none, []) := rfl

@[simp] theorem tryPop_cons (x : T) (queue : List T) : tryPop (x :: queue) = .ok (some x, queue) := rfl

@[simp] theorem waitAndPop_nil : waitAndPop ([] : List T) = .ok (none, []) := rfl

@[simp] theorem waitAndPop_cons (x : T) (queue : List T) : waitAndPop (x :: queue) = .ok (some x, queue) := rfl

end ConcurrentQueue

/-! ### SrvMsg -/

inductive MsgType where
  | request
  | response
  deriving DecidableEq, Repr

inductive StatusType where
  | valid
  | error
  | empty
  | open
  | closed
  | waiting
  | running
  | stopped
  deriving DecidableEq, Repr

abbrev XferType := List Float

def sizeofDouble : Nat := 8

def badIndex : Nat := Str.sizeRange - 1

structure SrvMsg where
  type : MsgType
  status : StatusType
  sequence : Nat
  data : XferType
  payloadSize : Nat

/-- The constructor `SrvMsg( typ , stts , seq , N )`. -/
def SrvMsg.new (typ : MsgType) (stts : StatusType) (seq N : Nat) : SrvMsg where
  type := typ
  status := stts
  sequence := seq
  data := []
  payloadSize := sizeofDouble * N % Str.sizeRange

/-! ### ServiceQueue -/

/-- `ServiceQueue<T>`, each of its two queues as its contents, head first. -/
structure ServiceQueue (T : Type) where
  topicName : Str
  queueSize : Nat
  seqReq : Nat
  seqRsp : Nat
  qReq : List T
  qRsp : List T

def ServiceQueue.new (tpcName : Str) (qLen : Nat) : ServiceQueue T where
  topicName := tpcName
  queueSize := qLen
  seqReq := 0
  seqRsp := 0
  qReq := []
  qRsp := []

/-- `n++` on a `size_t`. -/
def increment (n : Nat) : Nat := (n + 1) % Str.sizeRange

namespace ServiceQueue

/-- `req_pop_msg`. The payload stands in the place of the constructor's `N`, as its number of elements. -/
def reqPopMsg (q : ServiceQueue XferType) : Except Fault (SrvMsg × ServiceQueue XferType) := do
  match ← ConcurrentQueue.tryPop q.qReq with
  | (some data, rest) =>
    return (SrvMsg.new .request .valid q.seqReq data.length,
      { q with qReq := rest, seqReq := increment q.seqReq })
  | (none, rest) =>
    -- `data` is as its default constructor left it
    let data : XferType := []
    return (SrvMsg.new .request .empty badIndex data.length, { q with qReq := rest })

/-- `rsp_pop_msg`, which numbers its messages with `seq_req`, too. -/
def rspPopMsg (q : ServiceQueue XferType) : Except Fault (SrvMsg × ServiceQueue XferType) := do
  match ← ConcurrentQueue.tryPop q.qRsp with
  | (some data, rest) =>
    return (SrvMsg.new .response .valid q.seqReq data.length,
      { q with qRsp := rest, seqReq := increment q.seqReq })
  | (none, rest) =>
    let data : XferType := []
    return (SrvMsg.new .response .empty badIndex data.length, { q with qRsp := rest })

end ServiceQueue

end ServiceBridge
