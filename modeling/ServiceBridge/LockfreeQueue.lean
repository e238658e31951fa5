import Mathlib.Algebra.Group.Nat.Defs
import Mathlib.Data.Fintype.Basic
import ServiceBridge.Library.Transition

/-! `example/lockfree_queue.cpp`: producers that number values with one counter and push them to a queue without
    locks, consumers that poll it and count what they pop, and `main`, which joins them. -/

namespace ServiceBridge.LockfreeQueue

/-- What is assumed of `boost::lockfree::queue<int>`: each operation takes effect at once, the values leave in the
    order in which they came, a `pop` fails only when there is none, and a `push` only when there is no memory for
    a node. -/
abbrev Queue := List Nat

namespace Queue

/-- A `push` for which there is memory. -/
def push (queue : Queue) (value : Nat) : Queue := queue ++ [value]

def pop : Queue → Option (Nat × Queue)
  | [] => none
  | value :: queue => some (value, queue)

end Queue

/-- Where a thread is in `producer`: before the test of its loop, or with a value that it has not pushed. -/
inductive Producer where
  | counting (i : Nat)
  | pushing (i value : Nat)
  | finished
  deriving DecidableEq

/-- Where a thread is in `consumer`: before the test of `done`, before a `pop`, or before the count of what it
    popped. The loop around the pops is the `last` one when `done` was set. -/
inductive Consumer where
  | testing
  | popping (last : Bool)
  | counting (last : Bool)
  | finished
  deriving DecidableEq

inductive Main where
  | joiningProducers
  | joiningConsumers
  /-- `main` has written how many were produced and consumed. -/
  | reported (produced consumed : Nat)
  deriving DecidableEq

/-- The globals, where each thread is, and all that was popped, in its order. The counters are `boost::atomic_int`s
    in the code, which count like this as long as they fit. -/
structure State (ι κ : Type) where
  producerCount : Nat
  consumerCount : Nat
  queue : Queue
  done : Bool
  producer : ι → Producer
  consumer : κ → Consumer
  main : Main
  popped : List Nat

inductive Act (ι κ : Type) where
  /-- The test of the loop, and `++producer_count`. -/
  | produce (i : ι)
  | push (i : ι) (ok : Bool)
  | test (j : κ)
  | pop (j : κ)
  /-- `++consumer_count` -/
  | count (j : κ)
  /-- `producer_threads.join_all()` and `done = true` -/
  | setDone
  /-- `consumer_threads.join_all()` and the output -/
  | report

variable {ι κ : Type}

namespace State

/-- The counters are in the range of an `int`. -/
def CountersFit (s : State ι κ) : Prop := s.producerCount < 2 ^ 31 ∧ s.consumerCount < 2 ^ 31

/-- All the threads have been created. -/
def initial : State ι κ where
  producerCount := 0
  consumerCount := 0
  queue := []
  done := false
  producer := fun _ => .counting 0
  consumer := fun _ => .testing
  main := .joiningProducers
  popped := []

section
variable [DecidableEq ι]

def produce (iterations : Nat) (s : State ι κ) (i : ι) : Option (State ι κ) :=
  match s.producer i with
  | .counting k =>
    if k ≠ iterations then
      let value := s.producerCount + 1
      some { s with producerCount := value, producer := Function.update s.producer i (.pushing k value) }
    else some { s with producer := Function.update s.producer i .finished }
  | _ => none

def push (s : State ι κ) (i : ι) (ok : Bool) : Option (State ι κ) :=
  match s.producer i with
  | .pushing k value =>
    if ok then
      some { s with queue := s.queue.push value, producer := Function.update s.producer i (.counting (k + 1)) }
    else some s
  | _ => none

end

section
variable [DecidableEq κ]

def test (s : State ι κ) (j : κ) : Option (State ι κ) :=
  match s.consumer j with
  | .testing => some { s with consumer := Function.update s.consumer j (.popping s.done) }
  | _ => none

def pop (s : State ι κ) (j : κ) : Option (State ι κ) :=
  match s.consumer j with
  | .popping last =>
    match s.queue.pop with
    | none => some { s with consumer := Function.update s.consumer j (if last then .finished else .testing) }
    | some (value, queue) =>
      some { s with
        queue := queue
        popped := s.popped ++ [value]
        consumer := Function.update s.consumer j (.counting last) }
  | _ => none

def count (s : State ι κ) (j : κ) : Option (State ι κ) :=
  match s.consumer j with
  | .counting last =>
    some { s with
      consumerCount := s.consumerCount + 1
      consumer := Function.update s.consumer j (.popping last) }
  | _ => none

end

def setDone [Fintype ι] (s : State ι κ) : Option (State ι κ) :=
  if s.main = .joiningProducers ∧ ∀ i, s.producer i = .finished then
    some { s with done := true, main := .joiningConsumers }
  else none

def report [Fintype κ] (s : State ι κ) : Option (State ι κ) :=
  if s.main = .joiningConsumers ∧ ∀ j, s.consumer j = .finished then
    some { s with main := .reported s.producerCount s.consumerCount }
  else none

def step [Fintype ι] [DecidableEq ι] [Fintype κ] [DecidableEq κ] (iterations : Nat) (s : State ι κ) :
    Act ι κ → Option (State ι κ)
  | .produce i => s.produce iterations i
  | .push i ok => s.push i ok
  | .test j => s.test j
  | .pop j => s.pop j
  | .count j => s.count j
  | .setDone => s.setDone
  | .report => s.report

end State

def system (ι κ : Type) [Fintype ι] [DecidableEq ι] [Fintype κ] [DecidableEq κ] (iterations : Nat) :
    System (State ι κ) (Act ι κ) where
  init := fun s => s = State.initial
  step := State.step iterations

def iterations : Nat := 10000000

abbrev producerThreadCount : Nat := 4

abbrev consumerThreadCount : Nat := 4

/-- The threads that the program runs. -/
def program : System (State (Fin producerThreadCount) (Fin consumerThreadCount))
    (Act (Fin producerThreadCount) (Fin consumerThreadCount)) :=
  system _ _ iterations

end ServiceBridge.LockfreeQueue
