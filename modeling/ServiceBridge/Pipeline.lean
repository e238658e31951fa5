import Mathlib.Data.Rat.Init
import Mathlib.Data.List.Basic
import ServiceBridge.Interleaving

/-! The pipeline of `test/b_thread.cpp`: `Worker`s that take payloads from one `concurrent_queue`, multiply
    them, and push them to another. The entries are exact numbers. -/

namespace ServiceBridge.Pipeline
open Interleaving (Item)

/-! ### Payloads -/

/-- A `Payload`, whose array has `dataLen` entries. -/
structure Payload where
  data : List ℚ
  dataLen : Nat
  entries : data.length = dataLen
  deriving DecidableEq

/-- `DATA_LEN` -/
def dataLen : Nat := 5

/-- The loop of `mult_arr`; `none` when it reads past the end of the array. -/
def multEntries (elem : Payload) (factor : ℚ) : Option (List ℚ) :=
  (List.range dataLen).mapM fun i => (elem.data[i]?).map (· * factor)

theorem mapM_range_getElem? {α β : Type} (f : α → β) (l : List α) (n : Nat) :
    ((List.range n).mapM fun i => (l[i]?).map f) = if n ≤ l.length then some ((l.take n).map f) else none := by
  induction n with
  | zero => simp
  | succ n ih =>
    rw [List.range_succ, List.mapM_append, ih]
    by_cases hlt : n < l.length
    · rw [if_pos hlt.le, if_pos (Nat.succ_le_of_lt hlt), List.take_add_one, List.getElem?_eq_getElem hlt,
        List.map_append]
      simp [hlt]
    · rw [if_neg (show ¬ n + 1 ≤ l.length by omega)]
      by_cases hle : n ≤ l.length
      · rw [if_pos hle]
        simp [List.getElem?_eq_none (Nat.le_of_not_lt hlt)]
      · rw [if_neg hle]
        rfl

theorem multEntries_eq (elem : Payload) (factor : ℚ) : multEntries elem factor =
    if dataLen ≤ elem.dataLen then some ((elem.data.take dataLen).map (· * factor)) else none := by
  rw [multEntries, mapM_range_getElem?, elem.entries]

theorem length_multEntries {elem : Payload} {factor : ℚ} {data : List ℚ} (h : multEntries elem factor = some data) :
    data.length = dataLen := by
  rw [multEntries_eq] at h
  obtain ⟨hle, ⟨⟩⟩ := Option.ite_none_right_eq_some.mp h
  rw [List.length_map, List.length_take, elem.entries, Nat.min_eq_left hle]

/-- `mult_arr( elem , factor , n )`. The body never reads `n`. -/
def multArr (elem : Payload) (factor : ℚ) (_n : Nat) : Option Payload :=
  match h : multEntries elem factor with
  | none => none
  | some data => some ⟨data, dataLen, length_multEntries h⟩

theorem multArr_eq_some_iff {elem outVal : Payload} {factor : ℚ} {n : Nat} :
    multArr elem factor n = some outVal ↔ multEntries elem factor = some outVal.data := by
  unfold multArr
  split
  · rename_i hnone
    rw [hnone]
    exact iff_of_false nofun nofun
  · rename_i data hdata
    constructor
    · rintro ⟨⟩
      exact hdata
    · intro hout
      have hlen := outVal.entries.symm.trans (length_multEntries hout)
      have heq := Option.some.inj (hdata.symm.trans hout)
      rw [Option.some.injEq, Payload.mk.injEq]
      exact ⟨heq, hlen.symm⟩

/-! ### Workers -/

/-- A `Worker`; its queues are those of the state. -/
structure Worker where
  factor : ℚ

/-- Where a thread is in `process_one`: outside of it; past the test of `in`; in `wait_and_pop` without an
    element; with the payload that it has popped; past the push, before its `notify_one`. -/
inductive Pc (ι : Type) where
  | idle
  | tested
  | popping
  | popped (inVal : Item ι Payload)
  | pushed
  deriving DecidableEq

def Pc.inVal {ι : Type} : Pc ι → Option (Item ι Payload)
  | popped inVal => some inVal
  | _ => none

/-- The two queues under the threads, where each thread is, the inputs whose result has been pushed with who
    processed them, and whether an array was read past its end. -/
structure State (ι : Type) where
  workers : ι → Worker
  input : Interleaving.State ι Payload
  output : Interleaving.State ι Payload
  pc : ι → Pc ι
  completed : List (ι × Item ι Payload)
  outOfBounds : Bool

inductive Act (ι : Type) where
  /-- A producer's `in.push( data )` up to the unlock. -/
  | feed (i : ι) (data : Payload)
  | feedNotify (i : ι) (sleeper : Option ι)
  /-- `process_one` up to the end of `in.empty()`. -/
  | test (i : ι)
  /-- `in.wait_and_pop( inVal )` until it returns or sleeps. -/
  | enter (i : ι)
  | spuriousWake (i : ι)
  | retest (i : ι)
  /-- `mult_arr` and `out.push( outVal )` up to the unlock. -/
  | push (i : ι)
  | pushNotify (i : ι) (sleeper : Option ι)
  /-- A `try_pop` by whoever reads `out`. -/
  | collect (i : ι)

variable {ι : Type}

namespace State

def initial (workers : ι → Worker) : State ι where
  workers := workers
  input := .initial
  output := .initial
  pc := fun _ => .idle
  completed := []
  outOfBounds := false

def goto [DecidableEq ι] (s : State ι) (i : ι) (p : Pc ι) : State ι := { s with pc := Function.update s.pc i p }

section
variable [DecidableEq ι] {s : State ι} {i j : ι} {p : Pc ι}

theorem pc_goto : (s.goto i p).pc i = p := Function.update_self ..

theorem pc_goto_of_ne (h : j ≠ i) : (s.goto i p).pc j = s.pc j := Function.update_of_ne h ..

end

/-- Where `wait_and_pop` is after a look at the queue. -/
def looked (queue : List (Item ι Payload)) : Pc ι :=
  match ConcurrentQueue.waitAndPop queue with
  | .ok (some inVal, _) => .popped inVal
  | _ => .popping

def step [DecidableEq ι] [Fintype ι] (s : State ι) : Act ι → Option (State ι)
  | .feed i data =>
    if s.pc i = .idle then (s.input.step (.push i data)).map fun input => { s with input := input } else none
  | .feedNotify i sleeper => (s.input.step (.notify i sleeper)).map fun input => { s with input := input }
  | .test i =>
    if s.pc i = .idle then
      (s.input.step (.empty i)).map fun input =>
        { s.goto i (if ConcurrentQueue.empty s.input.queue then .idle else .tested) with input := input }
    else none
  | .enter i =>
    if s.pc i = .tested then
      (s.input.step (.waitAndPop i)).map fun input => { s.goto i (looked s.input.queue) with input := input }
    else none
  | .spuriousWake i => (s.input.step (.spuriousWake i)).map fun input => { s with input := input }
  | .retest i =>
    if s.pc i = .popping then
      (s.input.step (.retest i)).map fun input => { s.goto i (looked s.input.queue) with input := input }
    else none
  | .push i =>
    match s.pc i with
    | .popped inVal =>
      match multArr inVal.value 2 dataLen with
      | none => some { s with outOfBounds := true }
      | some outVal =>
        (s.output.step (.push i outVal)).map fun output =>
          { s.goto i .pushed with output := output, completed := s.completed ++ [(i, inVal)] }
    | _ => none
  | .pushNotify i sleeper =>
    if s.pc i = .pushed then
      (s.output.step (.notify i sleeper)).map fun output => { s.goto i .idle with output := output }
    else none
  | .collect i =>
    if s.pc i = .idle then (s.output.step (.tryPop i)).map fun output => { s with output := output } else none

end State

def system (ι : Type) [DecidableEq ι] [Fintype ι] : System (State ι) (Act ι) where
  init := fun s => ∃ workers, s = State.initial workers
  step := State.step

end ServiceBridge.Pipeline
