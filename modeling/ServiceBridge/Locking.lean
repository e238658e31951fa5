import ServiceBridge.Interleaving

/-! `concurrent_queue` one access at a time: a thread takes the lock, looks at the queue and changes it in the single
    steps of the source, and gives the lock up. -/

namespace ServiceBridge.Locking

variable {ι T : Type}

/-- Who calls `empty` and `try_pop`: a user of the queue, or `clear`. -/
inductive Caller where
  | user
  | clear
  deriving DecidableEq, Repr

inductive Pop where
  | tryPop (caller : Caller)
  | waitAndPop
  deriving DecidableEq, Repr

/-- What a thread takes the lock for. -/
inductive Op (T : Type) where
  | push (data : T)
  | empty (caller : Caller)
  | pop (p : Pop)

/-- Where a thread is: in no operation; in front of the lock, also at the end of `cond_var.wait`; past it; before
    `front`; before `pop`, with `popped_value`; before `cond_var.wait`; in it; before the lock is given up, with what
    is returned; in `push` before `notify_one`. -/
inductive Pc (T : Type) where
  | idle
  | locking (op : Op T)
  | locked (op : Op T)
  | front (p : Pop)
  | pop (p : Pop) (poppedValue : T)
  | sleeping
  | asleep
  | unlocking (op : Op T) (result : Bool)
  | notifying

/-- With the lock. -/
def Pc.holds : Pc T → Bool
  | locked _ => true
  | front _ => true
  | pop _ _ => true
  | sleeping => true
  | unlocking _ _ => true
  | _ => false

def Pc.isAsleep : Pc T → Bool
  | asleep => true
  | _ => false

/-- The member functions of the class. -/
inductive Call (T : Type) where
  | push (data : T)
  | empty
  | tryPop
  | waitAndPop
  | clear

def Call.first : Call T → Op T
  | push data => .push data
  | empty => .empty .user
  | tryPop => .pop (.tryPop .user)
  | waitAndPop => .pop .waitAndPop
  | clear => .empty .clear

/-- Where a thread goes on when it has given the lock up; `clear` calls `empty` and `try_pop` in turn. -/
def Op.next : Op T → Bool → Pc T
  | push _, _ => .notifying
  | empty .clear, false => .locking (.pop (.tryPop .clear))
  | pop (.tryPop .clear), _ => .locking (.empty .clear)
  | _, _ => .idle

/-- `clear` throws away what it pops. -/
def Pop.discards : Pop → Bool
  | tryPop .clear => true
  | _ => false

/-- The queue and its lock, where each thread is, who pushed what, who has taken what and whether `clear` did, in
    the order of the accesses, and whether `front` or `pop` met an empty queue. -/
structure State (ι T : Type) where
  queue : List T
  mutex : Option ι
  pc : ι → Pc T
  pushed : List (ι × T)
  taken : List (ι × T × Bool)
  fault : Option Fault

inductive Act (ι T : Type) where
  | call (i : ι) (c : Call T)
  | goOn (i : ι)
  /-- `notify_one`, which wakes a thread if one is asleep. -/
  | notify (i : ι) (sleeper : Option ι)
  | spuriousWake (i : ι)

namespace State
variable [DecidableEq ι]

def initial : State ι T where
  queue := []
  mutex := none
  pc := fun _ => .idle
  pushed := []
  taken := []
  fault := none

def goto (s : State ι T) (i : ι) (p : Pc T) : State ι T := { s with pc := Function.update s.pc i p }

/-- The first access with the lock. -/
def access (s : State ι T) (i : ι) : Op T → State ι T
  | .push data => { s.goto i (.unlocking (.push data) true) with
      queue := ConcurrentQueue.push s.queue data
      pushed := s.pushed ++ [(i, data)] }
  | .empty caller => s.goto i (.unlocking (.empty caller) (ConcurrentQueue.empty s.queue))
  | .pop (.tryPop caller) =>
    s.goto i (if s.queue.isEmpty then .unlocking (.pop (.tryPop caller)) false else .front (.tryPop caller))
  | .pop .waitAndPop => s.goto i (if s.queue.isEmpty then .sleeping else .front .waitAndPop)

/-- The next step of a thread; none where it waits for the lock or for a `notify_one`, or is to call it. -/
def goOn (s : State ι T) (i : ι) : Option (State ι T) :=
  match s.pc i with
  | .locking op => if s.mutex = none then some { s.goto i (.locked op) with mutex := some i } else none
  | .locked op => some (s.access i op)
  | .front p =>
    match ServiceBridge.front s.queue with
    | .error e => some { s with fault := some e }
    | .ok poppedValue => some (s.goto i (.pop p poppedValue))
  | .pop p poppedValue =>
    match ServiceBridge.pop s.queue with
    | .error e => some { s with fault := some e }
    | .ok queue => some { s.goto i (.unlocking (.pop p) true) with
        queue := queue
        taken := s.taken ++ [(i, poppedValue, p.discards)] }
  | .sleeping => some { s.goto i .asleep with mutex := none }
  | .unlocking op result => some { s.goto i (op.next result) with mutex := none }
  | _ => none

def step [Fintype ι] (s : State ι T) : Act ι T → Option (State ι T)
  | .call i c =>
    match s.pc i with
    | .idle => some (s.goto i (.locking c.first))
    | _ => none
  | .goOn i => s.goOn i
  | .notify i (some j) =>
    match s.pc i, s.pc j with
    | .notifying, .asleep => some ((s.goto i .idle).goto j (.locking (.pop .waitAndPop)))
    | _, _ => none
  | .notify i none =>
    match s.pc i with
    | .notifying => if ∀ j, (s.pc j).isAsleep = false then some (s.goto i .idle) else none
    | _ => none
  | .spuriousWake i =>
    match s.pc i with
    | .asleep => some (s.goto i (.locking (.pop .waitAndPop)))
    | _ => none

end State

def system (ι T : Type) [DecidableEq ι] [Fintype ι] : System (State ι T) (Act ι T) where
  init := fun s => s = State.initial
  step := State.step

end ServiceBridge.Locking
