import ServiceBridge.Interleaving
import ServiceBridge.Library.Tally

/-! No wake-up is lost in `concurrent_queue`: while a consumer sleeps, each queued element has a `notify_one`
    to come or a woken consumer that will look at the queue. -/

namespace ServiceBridge.Interleaving
open Tally

variable {ι T : Type} [Fintype ι] [DecidableEq ι]

def State.count (s : State ι T) (p : Pc) : Nat := tally s.pc p

/-- While a thread is asleep, the elements number at most the pending notifications and woken threads. -/
def Awaited (s : State ι T) : Prop :=
  0 < s.count .asleep → s.queue.length ≤ s.count .notifying + s.count .woken

/-- What a thread at `p` is worth to the sleepers: a notification to come, or a look at the queue. -/
def worth (p : Pc) : Nat := if p = .notifying ∨ p = .woken then 1 else 0

section
variable {s : State ι T} {i j : ι} {p q : Pc}

theorem count_goto (hi : s.pc i = q) (k : Pc) : (s.goto i p).count k + (if q = k then 1 else 0) =
    s.count k + if p = k then 1 else 0 := by
  rw [← hi]
  exact tally_update s.pc i p k

theorem worth_goto (hi : s.pc i = q) : (s.goto i p).count .notifying + (s.goto i p).count .woken + worth q =
    s.count .notifying + s.count .woken + worth p := by
  have notifying := count_goto (p := p) hi .notifying
  have woken := count_goto (p := p) hi .woken
  unfold worth
  cases p <;> cases q <;> simp only [reduceCtorEq, or_false, false_or, if_true, if_false] at * <;> omega

/-- A thread that does not fall asleep, and adds no more to the queue than it becomes worth. -/
theorem Awaited.move {s' : State ι T} (h : Awaited s) (hi : s.pc i = q) (hpc : s'.pc = (s.goto i p).pc)
    (awake : p ≠ .asleep) (hlen : s'.queue.length + worth q ≤ s.queue.length + worth p) : Awaited s' := by
  have hcount : ∀ k, s'.count k = (s.goto i p).count k := fun k => congrArg (tally · k) hpc
  have asleep := count_goto (p := p) hi .asleep
  have heard := worth_goto (p := p) hi
  rw [if_neg awake] at asleep
  intro hpos
  rw [hcount] at hpos
  rw [hcount, hcount]
  have hle := h (by omega)
  omega

theorem Awaited.wake (h : Awaited s) (hi : s.pc i = .notifying) (hj : s.pc j = .asleep) :
    Awaited ((s.goto i .idle).goto j .woken) := by
  intro hpos
  have hne : j ≠ i := by
    rintro rfl
    rw [hi] at hj
    cases hj
  have hj' : (s.goto i .idle).pc j = .asleep := (State.pc_goto_of_ne hne).trans hj
  have asleep₁ := count_goto (p := .idle) hi .asleep
  have asleep₂ := count_goto (p := .woken) hj' .asleep
  have heard₁ := worth_goto (p := .idle) hi
  have heard₂ := worth_goto (p := .woken) hj'
  simp only [worth, reduceCtorEq, or_false, or_true, if_true, if_false] at asleep₁ asleep₂ heard₁ heard₂
  have hle := h (by omega)
  rw [State.queue_goto, State.queue_goto]
  omega

theorem Awaited.quiet (h : Awaited s) (hi : (s.pc i, p) ∈ quietMoves) : Awaited (s.goto i p) := by
  generalize hq : s.pc i = q at hi
  simp only [quietMoves, List.mem_cons, Prod.mk.injEq, List.not_mem_nil, or_false] at hi
  rcases hi with ⟨rfl, rfl⟩ | ⟨rfl, rfl⟩ | ⟨rfl, rfl⟩ | ⟨rfl, rfl⟩ | ⟨rfl, rfl⟩ <;>
    exact h.move hq rfl (by decide) (Nat.add_le_add_left (by decide) _)

theorem Awaited.got {item : Item ι T} {queue : List (Item ι T)} {removed : List (Removal ι T)} (h : Awaited s)
    (hi : (s.pc i, p) ∈ gotMoves) (hs : s.queue = item :: queue) :
    Awaited { s.goto i p with queue := queue, removed := removed } := by
  generalize hq : s.pc i = q at hi
  have hlen : s.queue.length = queue.length + 1 := by rw [hs, List.length_cons]
  simp only [gotMoves, List.mem_cons, Prod.mk.injEq, List.not_mem_nil, or_false] at hi
  rcases hi with ⟨rfl, rfl⟩ | ⟨rfl, rfl⟩ | ⟨rfl, rfl⟩ <;>
    refine h.move hq rfl (by decide) ?_ <;> rw [hlen, Nat.add_assoc] <;>
    exact Nat.add_le_add_left (by decide) _

end

theorem Awaited.step {s s' : State ι T} {a : Act ι T} (h : Awaited s) (hs : s.step a = some s') :
    Awaited s' := by
  cases effect_of_step hs with
  | push data hi =>
    refine h.move hi rfl (by decide) ?_
    rw [State.queue_afterPush, List.length_append]
    exact Nat.le_refl _
  | wake hi hj => exact h.wake hi hj
  | @unheard i hi hno =>
    intro hpos
    have asleep := count_goto (p := .idle) hi .asleep
    have none : s.count .asleep = 0 := tally_eq_zero_iff.mpr hno
    rw [none, if_neg Pc.noConfusion, if_neg Pc.noConfusion] at asleep
    omega
  | quiet hi => exact h.quiet hi
  | missed hi hq =>
    intro _
    rw [State.queue_goto, hq]
    exact Nat.zero_le _
  | got hi hq => exact h.got hi hq

theorem awaited {s : State ι T} (h : (system ι T).Reachable s) : Awaited s := by
  refine h.invariant ?_ fun t a u ht hs => ht.step hs
  rintro t rfl _
  exact Nat.zero_le _

/-- While a consumer sleeps, the elements number at most the pending notifications and the woken consumers;
    so an element is never left with a sleeping consumer that nothing will wake. -/
theorem no_lost_wakeup {s : State ι T} (h : (system ι T).Reachable s) :
    ((∃ i, s.pc i = .asleep) → s.queue.length ≤ s.count .notifying + s.count .woken) ∧
    ¬ (s.queue ≠ [] ∧ (∃ i, s.pc i = .asleep) ∧ (∀ i, s.pc i ≠ .notifying) ∧ ∀ i, s.pc i ≠ .woken) := by
  have bound : (∃ i, s.pc i = .asleep) → s.queue.length ≤ s.count .notifying + s.count .woken :=
    fun hi => awaited h (tally_pos_iff.mpr hi)
  refine ⟨bound, ?_⟩
  rintro ⟨hne, hi, hnotifying, hwoken⟩
  have hle := bound hi
  rw [State.count, State.count, tally_eq_zero_iff.mpr hnotifying, tally_eq_zero_iff.mpr hwoken] at hle
  exact hne (List.length_eq_zero_iff.mp (Nat.le_zero.mp hle))

theorem no_lost_wakeup_pending : ∃ s : State (Fin 2) Nat, (system (Fin 2) Nat).Reachable s ∧ s.pc 0 = .asleep ∧
    s.queue.length = 1 ∧ s.queue.length ≤ s.count .notifying + s.count .woken := by
  have run := ((System.Trace.nil (M := system (Fin 2) Nat) (s := State.initial)).snoc
    (a := .waitAndPop 0) rfl).snoc (a := .push 1 7) rfl
  have h : (system (Fin 2) Nat).Reachable _ := .of_trace rfl run
  exact ⟨_, h, rfl, rfl, (no_lost_wakeup h).1 ⟨0, rfl⟩⟩

end ServiceBridge.Interleaving
