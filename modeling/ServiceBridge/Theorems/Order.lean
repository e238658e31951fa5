import ServiceBridge.Interleaving
import ServiceBridge.Library.Fifo

/-! `concurrent_queue` is a first-in first-out queue: under any interleaving it refines a log of what is pushed
    and a cursor that each removal moves on by one. -/

namespace ServiceBridge.Interleaving
open Fifo

variable {ι T : Type}

def State.taken (s : State ι T) : List (Item ι T) := s.removed.map (·.item)

/-- What the queue stands for: the log is what was pushed, the cursor divides what was removed from what is
    queued, and no operation has failed. -/
structure Refines (s : State ι T) (L : Log (Item ι T)) : Prop where
  entries : L.entries = s.pushed
  removed : L.removed = s.taken
  pending : L.pending = s.queue
  fault : s.fault = none

namespace Refines
variable {s : State ι T} {L : Log (Item ι T)}

theorem initial : Refines (State.initial : State ι T) .empty := ⟨rfl, rfl, rfl, rfl⟩

variable [DecidableEq ι]

theorem goto (h : Refines s L) (i : ι) (p : Pc) : Refines (s.goto i p) L :=
  ⟨h.entries, h.removed, h.pending, h.fault⟩

theorem push (h : Refines s L) (i : ι) (data : T) :
    Refines (s.afterPush i data) (L.append ⟨data, i, s.pushed.length⟩) where
  entries := congrArg (· ++ [_]) h.entries
  removed := Log.removed_append.trans h.removed
  pending := Log.pending_append.trans (congrArg (· ++ [_]) h.pending)
  fault := h.fault

theorem got {i : ι} {p : Pc} {item : Item ι T} {queue : List (Item ι T)} {discarded : Bool} (h : Refines s L)
    (hq : s.queue = item :: queue) :
    Refines { s.goto i p with queue := queue, removed := s.removed ++ [⟨item, i, discarded⟩] }
      (L.advance (Log.lt_of_pending (h.pending.trans hq))) where
  entries := h.entries
  removed := by
    rw [Log.removed_advance (h.pending.trans hq), h.removed, State.taken, State.taken, List.map_append]
    rfl
  pending := Log.pending_advance (h.pending.trans hq)
  fault := h.fault

end Refines

variable [DecidableEq ι] [Fintype ι]

/-- Each step of the threads is a step of the log or none. -/
def refinement (ι T : Type) [DecidableEq ι] [Fintype ι] :
    System.Simulation (system ι T) (Fifo.system (Item ι T)) where
  rel := Refines
  init := by
    rintro s rfl
    exact ⟨.empty, rfl, .initial⟩
  step := by
    intro s a s' L h hs
    cases effect_of_step hs with
    | push data hi => exact Or.inr ⟨.append _, _, rfl, h.push _ data⟩
    | wake hi hj => exact Or.inl ((h.goto _ _).goto _ _)
    | unheard hi hno => exact Or.inl (h.goto _ _)
    | quiet hi => exact Or.inl (h.goto _ _)
    | missed hi hq => exact Or.inl (h.goto _ _)
    | got hi hq => exact Or.inr ⟨.advance, _, Fifo.step_advance _, h.got hq⟩

theorem refines_of_reachable {s : State ι T} (h : (system ι T).Reachable s) : ∃ L, Refines s L := by
  obtain ⟨L, -, hrel⟩ := (refinement ι T).reachable h
  exact ⟨L, hrel⟩

theorem stamps_of_reachable {s : State ι T} (h : (system ι T).Reachable s) :
    s.pushed.map (·.stamp) = List.range s.pushed.length := by
  refine h.invariant (I := fun s => s.pushed.map (·.stamp) = List.range s.pushed.length) ?_ ?_
  · rintro s rfl
    rfl
  · intro s a s' hstamps hs
    cases effect_of_step hs with
    | @push i data hi =>
      rw [State.pushed_afterPush, List.map_append, hstamps, List.length_append, List.length_singleton,
        List.range_succ]
      rfl
    | wake hi hj => exact hstamps
    | unheard hi hno => exact hstamps
    | quiet hi => exact hstamps
    | missed hi hq => exact hstamps
    | got hi hq => exact hstamps

theorem taken_append_queue {s : State ι T} (h : (system ι T).Reachable s) : s.taken ++ s.queue = s.pushed := by
  obtain ⟨L, hL⟩ := refines_of_reachable h
  rw [← hL.removed, ← hL.pending, ← hL.entries]
  exact L.removed_append_pending

theorem stamps_nodup {s : State ι T} (h : (system ι T).Reachable s) :
    ((s.taken ++ s.queue).map (·.stamp)).Nodup := by
  rw [taken_append_queue h, stamps_of_reachable h]
  exact List.nodup_range

theorem taken_nodup {s : State ι T} (h : (system ι T).Reachable s) : (s.taken.map (·.stamp)).Nodup := by
  have distinct := stamps_nodup h
  rw [List.map_append] at distinct
  exact distinct.of_append_left

theorem removed_unique {s : State ι T} (h : (system ι T).Reachable s) {k k' : Nat} {r r' : Removal ι T}
    (hk : s.removed[k]? = some r) (hk' : s.removed[k']? = some r') (heq : r.item = r'.item) : k = k' := by
  have distinct := taken_nodup h
  rw [State.taken, List.map_map] at distinct
  obtain ⟨hlt, -⟩ := List.getElem?_eq_some_iff.mp hk
  refine (List.getElem?_inj (by rwa [List.length_map]) distinct).mp ?_
  rw [List.getElem?_map, List.getElem?_map, hk, hk', Option.map_some, Option.map_some, Function.comp_apply,
    Function.comp_apply, heq]

/-- What was removed, in order, and what is queued are what was pushed, in order; nothing is removed twice;
    `front` and `pop` never meet an empty queue; and the elements of each producer come out in its order. -/
theorem fifo_exactly_once {s : State ι T} (h : (system ι T).Reachable s) :
    s.taken ++ s.queue = s.pushed ∧
    (s.taken.map (·.stamp)).Nodup ∧
    s.fault = none ∧
    ∀ i, s.taken.filter (·.producer = i) <+: s.pushed.filter (·.producer = i) := by
  obtain ⟨L, hL⟩ := refines_of_reachable h
  refine ⟨taken_append_queue h, taken_nodup h, hL.fault, fun i => ?_⟩
  rw [← hL.removed, ← hL.entries]
  exact filter_removed_isPrefix _ L

theorem fifo_exactly_once_clear : ∃ s : State (Fin 2) Nat, (system (Fin 2) Nat).Reachable s ∧
    s.taken.map (·.value) = [7, 8] ∧ s.taken ++ s.queue = s.pushed := by
  have start := System.Trace.nil (M := system (Fin 2) Nat) (s := State.initial)
  have pushed := (((start.snoc (a := .push 0 7) rfl).snoc (a := .notify 0 none) rfl).snoc
    (a := .push 0 8) rfl).snoc (a := .notify 0 none) rfl
  have run := (((pushed.snoc (a := .clear 0) rfl).snoc (a := .clearTest 0) rfl).snoc
    (a := .tryPop 1) rfl).snoc (a := .clearPop 0) rfl
  have h : (system (Fin 2) Nat).Reachable _ := .of_trace rfl run
  exact ⟨_, h, rfl, (fifo_exactly_once h).1⟩

end ServiceBridge.Interleaving
