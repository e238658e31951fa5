import Mathlib.Data.Fintype.Basic
import Mathlib.Logic.Function.Basic
import ServiceBridge.Library.Transition
import ServiceBridge.Queue

/-! `concurrent_queue` under any number of threads. A step is a critical section of one thread, or what a
    thread does outside of them: the `notify_one` at the end of `push`, and waking up in `wait_and_pop`. -/

namespace ServiceBridge.Interleaving

/-- Where a thread is: in no operation; in `push` between the unlock and `notify_one`; in `cond_var.wait`, the
    lock given up; woken up there, and about to test the loop condition again; in `clear`, before `empty()`
    or before `try_pop`. -/
inductive Pc where
  | idle
  | notifying
  | asleep
  | woken
  | clearTest
  | clearPop
  deriving DecidableEq, Repr

/-- An element of the queue, with the thread that pushed it and the number of elements pushed before it. -/
structure Item (ι T : Type) where
  value : T
  producer : ι
  stamp : Nat
  deriving DecidableEq, Repr

/-- An element that has left the queue: with whom, and whether `clear` threw it away. -/
structure Removal (ι T : Type) where
  item : Item ι T
  consumer : ι
  discarded : Bool
  deriving DecidableEq, Repr

/-- The queue, where each thread is, and what has been pushed and removed so far. -/
structure State (ι T : Type) where
  queue : List (Item ι T)
  pc : ι → Pc
  pushed : List (Item ι T)
  removed : List (Removal ι T)
  fault : Option Fault

inductive Act (ι T : Type) where
  | push (i : ι) (data : T)
  /-- `notify_one`, which wakes a thread if one is asleep. -/
  | notify (i : ι) (sleeper : Option ι)
  | empty (i : ι)
  | tryPop (i : ι)
  | waitAndPop (i : ι)
  | spuriousWake (i : ι)
  | retest (i : ι)
  | clear (i : ι)
  | clearTest (i : ι)
  | clearPop (i : ι)
  deriving DecidableEq, Repr

variable {ι T : Type} [DecidableEq ι]

namespace State

def initial : State ι T where
  queue := []
  pc := fun _ => .idle
  pushed := []
  removed := []
  fault := none

def goto (s : State ι T) (i : ι) (p : Pc) : State ι T := { s with pc := Function.update s.pc i p }

def afterPush (s : State ι T) (i : ι) (data : T) : State ι T :=
  let item : Item ι T := ⟨data, i, s.pushed.length⟩
  { s.goto i .notifying with
    queue := ConcurrentQueue.push s.queue item
    pushed := s.pushed ++ [item] }

/-- The thread `i` leaves a critical section that pops: with an element it goes on at `got`. -/
def afterPop (s : State ι T) (i : ι) (got missed : Pc) (discarded : Bool) :
    Except Fault (Option (Item ι T) × List (Item ι T)) → State ι T
  | .error e => { s with fault := some e }
  | .ok (none, queue) => { s.goto i missed with queue := queue }
  | .ok (some item, queue) => { s.goto i got with
      queue := queue
      removed := s.removed ++ [⟨item, i, discarded⟩] }

section
variable {s : State ι T} {i j : ι} {p : Pc} {data : T}

@[simp] theorem queue_goto : (s.goto i p).queue = s.queue := rfl

theorem pc_goto : (s.goto i p).pc i = p := Function.update_self ..

theorem pc_goto_of_ne (h : j ≠ i) : (s.goto i p).pc j = s.pc j := Function.update_of_ne h ..

@[simp] theorem queue_afterPush :
    (s.afterPush i data).queue = s.queue ++ [⟨data, i, s.pushed.length⟩] := rfl

@[simp] theorem pushed_afterPush :
    (s.afterPush i data).pushed = s.pushed ++ [⟨data, i, s.pushed.length⟩] := rfl

end

def step [Fintype ι] (s : State ι T) : Act ι T → Option (State ι T)
  | .push i data => if s.pc i = .idle then some (s.afterPush i data) else none
  | .notify i (some j) =>
    if s.pc i = .notifying ∧ s.pc j = .asleep then some ((s.goto i .idle).goto j .woken) else none
  | .notify i none =>
    if s.pc i = .notifying ∧ ∀ j, s.pc j ≠ .asleep then some (s.goto i .idle) else none
  | .empty i => if s.pc i = .idle then some (s.goto i .idle) else none
  | .tryPop i =>
    if s.pc i = .idle then some (s.afterPop i .idle .idle false (ConcurrentQueue.tryPop s.queue)) else none
  | .waitAndPop i =>
    if s.pc i = .idle then some (s.afterPop i .idle .asleep false (ConcurrentQueue.waitAndPop s.queue))
    else none
  | .spuriousWake i => if s.pc i = .asleep then some (s.goto i .woken) else none
  | .retest i =>
    if s.pc i = .woken then some (s.afterPop i .idle .asleep false (ConcurrentQueue.waitAndPop s.queue))
    else none
  | .clear i => if s.pc i = .idle then some (s.goto i .clearTest) else none
  | .clearTest i =>
    if s.pc i = .clearTest then some (s.goto i (if ConcurrentQueue.empty s.queue then .idle else .clearPop))
    else none
  | .clearPop i =>
    if s.pc i = .clearPop then
      some (s.afterPop i .clearTest .clearTest true (ConcurrentQueue.tryPop s.queue))
    else none

end State

def system (ι T : Type) [DecidableEq ι] [Fintype ι] : System (State ι T) (Act ι T) where
  init := fun s => s = State.initial
  step := State.step

/-! ### What a step can do -/

/-- The moves of a thread that touch neither the queue nor another thread. -/
def quietMoves : List (Pc × Pc) :=
  [(.idle, .idle), (.asleep, .woken), (.idle, .clearTest), (.clearTest, .idle), (.clearTest, .clearPop)]

def missedMoves : List (Pc × Pc) :=
  [(.idle, .idle), (.idle, .asleep), (.woken, .asleep), (.clearPop, .clearTest)]

def gotMoves : List (Pc × Pc) := [(.idle, .idle), (.woken, .idle), (.clearPop, .clearTest)]

inductive Effect (s : State ι T) : State ι T → Prop
  | push {i : ι} (data : T) (hi : s.pc i = .idle) : Effect s (s.afterPush i data)
  | wake {i j : ι} (hi : s.pc i = .notifying) (hj : s.pc j = .asleep) :
      Effect s ((s.goto i .idle).goto j .woken)
  | unheard {i : ι} (hi : s.pc i = .notifying) (hno : ∀ j, s.pc j ≠ .asleep) : Effect s (s.goto i .idle)
  | quiet {i : ι} {p : Pc} (hi : (s.pc i, p) ∈ quietMoves) : Effect s (s.goto i p)
  | missed {i : ι} {p : Pc} (hi : (s.pc i, p) ∈ missedMoves) (hq : s.queue = []) : Effect s (s.goto i p)
  | got {i : ι} {p : Pc} {item : Item ι T} {queue : List (Item ι T)} {discarded : Bool}
      (hi : (s.pc i, p) ∈ gotMoves) (hq : s.queue = item :: queue) :
      Effect s { s.goto i p with queue := queue, removed := s.removed ++ [⟨item, i, discarded⟩] }

/-- A critical section that pops takes the first element, or finds none. -/
theorem effect_afterPop {s : State ι T} {i : ι} {got missed : Pc} {discarded : Bool}
    {pop : List (Item ι T) → Except Fault (Option (Item ι T) × List (Item ι T))}
    (nil : pop [] = .ok (none, [])) (cons : ∀ item queue, pop (item :: queue) = .ok (some item, queue))
    (hgot : (s.pc i, got) ∈ gotMoves) (hmissed : (s.pc i, missed) ∈ missedMoves) :
    Effect s (s.afterPop i got missed discarded (pop s.queue)) := by
  cases hq : s.queue with
  | nil =>
    rw [nil, State.afterPop, ← hq]
    exact .missed hmissed hq
  | cons item queue =>
    rw [cons]
    exact .got hgot hq

theorem effect_of_step [Fintype ι] {s s' : State ι T} {a : Act ι T} (h : s.step a = some s') : Effect s s' := by
  cases a with
  | push i data =>
    obtain ⟨hi, ⟨⟩⟩ := Option.ite_none_right_eq_some.mp h
    exact .push data hi
  | notify i sleeper =>
    cases sleeper with
    | none =>
      obtain ⟨⟨hi, hno⟩, ⟨⟩⟩ := Option.ite_none_right_eq_some.mp h
      exact .unheard hi hno
    | some j =>
      obtain ⟨⟨hi, hj⟩, ⟨⟩⟩ := Option.ite_none_right_eq_some.mp h
      exact .wake hi hj
  | empty i =>
    obtain ⟨hi, ⟨⟩⟩ := Option.ite_none_right_eq_some.mp h
    exact .quiet (by simp [hi, quietMoves])
  | tryPop i =>
    obtain ⟨hi, ⟨⟩⟩ := Option.ite_none_right_eq_some.mp h
    exact effect_afterPop ConcurrentQueue.tryPop_nil ConcurrentQueue.tryPop_cons (by simp [hi, gotMoves])
      (by simp [hi, missedMoves])
  | waitAndPop i =>
    obtain ⟨hi, ⟨⟩⟩ := Option.ite_none_right_eq_some.mp h
    exact effect_afterPop ConcurrentQueue.waitAndPop_nil ConcurrentQueue.waitAndPop_cons (by simp [hi, gotMoves])
      (by simp [hi, missedMoves])
  | spuriousWake i =>
    obtain ⟨hi, ⟨⟩⟩ := Option.ite_none_right_eq_some.mp h
    exact .quiet (by simp [hi, quietMoves])
  | retest i =>
    obtain ⟨hi, ⟨⟩⟩ := Option.ite_none_right_eq_some.mp h
    exact effect_afterPop ConcurrentQueue.waitAndPop_nil ConcurrentQueue.waitAndPop_cons (by simp [hi, gotMoves])
      (by simp [hi, missedMoves])
  | clear i =>
    obtain ⟨hi, ⟨⟩⟩ := Option.ite_none_right_eq_some.mp h
    exact .quiet (by simp [hi, quietMoves])
  | clearTest i =>
    obtain ⟨hi, ⟨⟩⟩ := Option.ite_none_right_eq_some.mp h
    refine .quiet ?_
    rw [hi]
    split <;> simp [quietMoves]
  | clearPop i =>
    obtain ⟨hi, ⟨⟩⟩ := Option.ite_none_right_eq_some.mp h
    exact effect_afterPop ConcurrentQueue.tryPop_nil ConcurrentQueue.tryPop_cons (by simp [hi, gotMoves])
      (by simp [hi, missedMoves])

end ServiceBridge.Interleaving
