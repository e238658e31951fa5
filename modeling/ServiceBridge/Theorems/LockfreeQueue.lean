import Mathlib.Algebra.Order.BigOperators.Group.Finset
import Mathlib.Data.Fintype.Card
import ServiceBridge.Library.Custody
import ServiceBridge.Library.Tally
import ServiceBridge.LockfreeQueue

/-! Every value that the producers hand out is consumed once, and the program gets to its report. -/

namespace ServiceBridge.LockfreeQueue
open Custody Tally

variable {ι κ : Type} {n : Nat} {s t : State ι κ}

/-! ### What a step does -/

namespace Queue
variable {queue queue' : Queue} {value : Nat}

theorem pop_eq_none_iff : queue.pop = none ↔ queue = [] := by
  cases queue with
  | nil => exact iff_of_true rfl rfl
  | cons value queue => exact iff_of_false (fun h => by cases h) (List.cons_ne_nil _ _)

theorem pop_eq_some_iff : queue.pop = some (value, queue') ↔ queue = value :: queue' := by
  cases queue with
  | nil => exact iff_of_false (fun h => by cases h) (fun h => by cases h)
  | cons v queue => rw [pop, Option.some.injEq, Prod.mk.injEq, List.cons.injEq]

end Queue

/-- The steps, with the state that each leads to. -/
inductive Moves [DecidableEq ι] [DecidableEq κ] (n : Nat) (s : State ι κ) : State ι κ → Prop
  | produce {i : ι} {k : Nat} (hi : s.producer i = .counting k) (hk : k ≠ n) : Moves n s { s with
      producerCount := s.producerCount + 1
      producer := Function.update s.producer i (.pushing k (s.producerCount + 1)) }
  | leave {i : ι} (hi : s.producer i = .counting n) :
      Moves n s { s with producer := Function.update s.producer i .finished }
  | push {i : ι} {k value : Nat} (hi : s.producer i = .pushing k value) : Moves n s { s with
      queue := s.queue ++ [value]
      producer := Function.update s.producer i (.counting (k + 1)) }
  | full {i : ι} {k value : Nat} (hi : s.producer i = .pushing k value) : Moves n s s
  | test {j : κ} (hj : s.consumer j = .testing) :
      Moves n s { s with consumer := Function.update s.consumer j (.popping s.done) }
  | empty {j : κ} {last : Bool} (hj : s.consumer j = .popping last) (hqueue : s.queue = []) : Moves n s
      { s with consumer := Function.update s.consumer j (if last then .finished else .testing) }
  | pop {j : κ} {last : Bool} {value : Nat} {queue : List Nat} (hj : s.consumer j = .popping last)
      (hqueue : s.queue = value :: queue) : Moves n s { s with
        queue := queue
        popped := s.popped ++ [value]
        consumer := Function.update s.consumer j (.counting last) }
  | count {j : κ} {last : Bool} (hj : s.consumer j = .counting last) : Moves n s { s with
      consumerCount := s.consumerCount + 1
      consumer := Function.update s.consumer j (.popping last) }
  | setDone (hmain : s.main = .joiningProducers) (hall : ∀ i, s.producer i = .finished) :
      Moves n s { s with done := true, main := .joiningConsumers }
  | report (hmain : s.main = .joiningConsumers) (hall : ∀ j, s.consumer j = .finished) :
      Moves n s { s with main := .reported s.producerCount s.consumerCount }

theorem moves_of_step [Fintype ι] [DecidableEq ι] [Fintype κ] [DecidableEq κ] {a : Act ι κ}
    (h : s.step n a = some t) : Moves n s t := by
  cases a with
  | produce i =>
    simp only [State.step, State.produce] at h
    split at h
    · next k hi =>
      split_ifs at h with hk
      · cases h
        exact .produce hi hk
      · cases h
        obtain rfl := not_not.mp hk
        exact .leave hi
    · cases h
  | push i ok =>
    simp only [State.step, State.push] at h
    split at h
    · next k value hi =>
      split_ifs at h
      · cases h
        exact .push hi
      · cases h
        exact .full hi
    · cases h
  | test j =>
    simp only [State.step, State.test] at h
    split at h
    · next hj =>
      cases h
      exact .test hj
    · cases h
  | pop j =>
    simp only [State.step, State.pop] at h
    split at h
    · next last hj =>
      split at h
      · next hqueue =>
        cases h
        exact .empty hj (Queue.pop_eq_none_iff.mp hqueue)
      · next value queue hqueue =>
        cases h
        exact .pop hj (Queue.pop_eq_some_iff.mp hqueue)
    · cases h
  | count j =>
    simp only [State.step, State.count] at h
    split at h
    · next last hj =>
      cases h
      exact .count hj
    · cases h
  | setDone =>
    simp only [State.step, State.setDone, Option.ite_none_right_eq_some, Option.some.injEq] at h
    obtain ⟨⟨hmain, hall⟩, rfl⟩ := h
    exact .setDone hmain hall
  | report =>
    simp only [State.step, State.report, Option.ite_none_right_eq_some, Option.some.injEq] at h
    obtain ⟨⟨hmain, hall⟩, rfl⟩ := h
    exact .report hmain hall

/-! ### Phases -/

/-- It is past a test of `done` that was set. -/
def Consumer.last : Consumer → Bool
  | testing => false
  | popping last => last
  | counting last => last
  | finished => true

/-- Nobody pushes any more once `done` is set, and a consumer stops only after that, at an empty queue. -/
structure Phases (s : State ι κ) : Prop where
  running : s.done = false ↔ s.main = .joiningProducers
  done : s.done = true → ∀ i, s.producer i = .finished
  last : ∀ j, (s.consumer j).last = true → s.done = true
  drained : ∀ j, s.consumer j = .finished → s.queue = []
  reported : ∀ produced consumed, s.main = .reported produced consumed →
    produced = s.producerCount ∧ consumed = s.consumerCount ∧ ∀ j, s.consumer j = .finished

namespace Phases

theorem initial : Phases (.initial : State ι κ) where
  running := iff_of_true rfl rfl
  done := nofun
  last := nofun
  drained := nofun
  reported := nofun

theorem not_done {i : ι} (h : Phases s) (hi : s.producer i ≠ .finished) : s.done = false := by
  cases hd : s.done with
  | false => rfl
  | true => exact absurd (h.done hd i) hi

theorem not_finished (h : Phases s) (hd : s.done = false) (j : κ) : s.consumer j ≠ .finished := fun hj => by
  have hlast := h.last j (by rw [hj]; rfl)
  rw [hd] at hlast
  cases hlast

/-- A step of a producer. -/
theorem of_producer {i : ι} (h : Phases s) (hi : s.producer i ≠ .finished) (hdone : t.done = s.done)
    (hmain : t.main = s.main) (hconsumer : t.consumer = s.consumer) : Phases t := by
  have hd := h.not_done hi
  have hjoining := h.running.mp hd
  rw [hd] at hdone
  rw [hjoining] at hmain
  refine ⟨iff_of_true hdone hmain, fun hd' => ?_, fun j hj => ?_, fun j hj => ?_, fun _ _ hreported => ?_⟩
  · rw [hdone] at hd'
    cases hd'
  · rw [hconsumer] at hj
    have hd' := h.last j hj
    rw [hd] at hd'
    cases hd'
  · rw [hconsumer] at hj
    exact absurd hj (h.not_finished hd j)
  · rw [hmain] at hreported
    cases hreported

/-- A step of a consumer, from a queue that it leaves empty if it was. -/
theorem of_consumer [DecidableEq κ] {j : κ} (v : Consumer) (h : Phases s) (hj : s.consumer j ≠ .finished)
    (hlast : v.last = true → s.done = true) (hdrained : v = .finished → t.queue = [])
    (hqueue : s.queue = [] → t.queue = []) (hdone : t.done = s.done) (hmain : t.main = s.main)
    (hproducer : t.producer = s.producer) (hconsumer : t.consumer = Function.update s.consumer j v) : Phases t := by
  refine ⟨by rw [hdone, hmain]; exact h.running, by rw [hdone, hproducer]; exact h.done, ?_, ?_, fun _ _ hreported => ?_⟩
  · rw [hconsumer, hdone]
    refine (Function.forall_update_iff _ fun _ (c : Consumer) => c.last = true → s.done = true).mpr ?_
    exact ⟨hlast, fun k _ => h.last k⟩
  · rw [hconsumer]
    refine (Function.forall_update_iff _ fun _ c => c = Consumer.finished → t.queue = []).mpr ?_
    exact ⟨hdrained, fun k _ hk => hqueue (h.drained k hk)⟩
  · rw [hmain] at hreported
    exact absurd ((h.reported _ _ hreported).2.2 j) hj

theorem step [DecidableEq ι] [DecidableEq κ] (h : Phases s) (hm : Moves n s t) : Phases t := by
  cases hm with
  | produce hi => exact h.of_producer (by rw [hi]; exact nofun) rfl rfl rfl
  | leave hi => exact h.of_producer (by rw [hi]; exact nofun) rfl rfl rfl
  | push hi => exact h.of_producer (by rw [hi]; exact nofun) rfl rfl rfl
  | full => exact h
  | test hj => exact h.of_consumer (.popping s.done) (by rw [hj]; exact nofun) id nofun id rfl rfl rfl rfl
  | @empty j last hj hqueue =>
    have hlast := h.last j
    rw [hj] at hlast
    cases last with
    | false => exact h.of_consumer .testing (by rw [hj]; exact nofun) nofun nofun id rfl rfl rfl rfl
    | true =>
      exact h.of_consumer .finished (by rw [hj]; exact nofun) (fun _ => hlast rfl) (fun _ => hqueue) id rfl rfl rfl rfl
  | @pop j last value queue hj hqueue =>
    have hlast := h.last j
    rw [hj] at hlast
    refine h.of_consumer (.counting last) (by rw [hj]; exact nofun) hlast nofun (fun hnil => ?_) rfl rfl rfl rfl
    rw [hqueue] at hnil
    cases hnil
  | @count j last hj =>
    have hlast := h.last j
    rw [hj] at hlast
    exact h.of_consumer (.popping last) (by rw [hj]; exact nofun) hlast nofun id rfl rfl rfl rfl
  | setDone _ hall =>
    exact ⟨iff_of_false nofun nofun, fun _ => hall, fun _ _ => rfl, h.drained, nofun⟩
  | report hmain hall =>
    refine ⟨iff_of_false (fun hd => ?_) nofun, h.done, h.last, h.drained, fun produced consumed heq => ?_⟩
    · have hjoining := h.running.mp hd
      rw [hmain] at hjoining
      cases hjoining
    · cases heq
      exact ⟨rfl, rfl, hall⟩

end Phases

/-! ### Counts -/

/-- The value that a producer has and has not pushed. -/
def Producer.value : Producer → Option Nat
  | pushing _ value => some value
  | _ => none

/-- How many values a producer has taken. -/
def Producer.taken (n : Nat) : Producer → Nat
  | counting i => i
  | pushing i _ => i + 1
  | finished => n

/-- How many values a consumer has popped and not counted. -/
def Consumer.uncounted : Consumer → Nat
  | counting _ => 1
  | _ => 0

/-- Each value handed out was popped, is in the queue, or is with one producer; and both counters are right. -/
structure Counted [Fintype ι] [Fintype κ] (n : Nat) (s : State ι κ) : Prop where
  values : Accounts (List.range' 1 s.producerCount) (Producer.value ∘ s.producer) (s.popped ++ s.queue)
  produced : s.producerCount = ∑ i, (s.producer i).taken n
  consumed : s.consumerCount + ∑ j, (s.consumer j).uncounted = s.popped.length

namespace Counted
variable [Fintype ι] [Fintype κ]

theorem initial : Counted n (.initial : State ι κ) where
  values := .initial
  produced := by simp [State.initial, Producer.taken]
  consumed := by simp [State.initial, Consumer.uncounted]

/-- A step of a consumer that pops nothing. -/
theorem of_consumer [DecidableEq κ] {j : κ} {v : Consumer} {count : Nat} (h : Counted n s)
    (hcount : count + v.uncounted = s.consumerCount + (s.consumer j).uncounted) :
    Counted n { s with consumerCount := count, consumer := Function.update s.consumer j v } := by
  have hsum := sum_update Consumer.uncounted s.consumer j v
  have hconsumed := h.consumed
  refine ⟨h.values, h.produced, ?_⟩
  simp only
  omega

theorem step [DecidableEq ι] [DecidableEq κ] (h : Counted n s) (hm : Moves n s t) : Counted n t := by
  have hproduced := h.produced
  have hconsumed := h.consumed
  cases hm with
  | @produce i k hi _ =>
    have hsum := sum_update (Producer.taken n) s.producer i (.pushing k (s.producerCount + 1))
    rw [hi, Producer.taken, Producer.taken] at hsum
    refine ⟨?_, by simp only; omega, hconsumed⟩
    have hheld : (Producer.value ∘ s.producer) i = none := by rw [Function.comp, hi]; rfl
    have hfresh : 1 + s.producerCount ∉ List.range' 1 s.producerCount := by simp
    have htake := h.values.take hheld hfresh
    rwa [← List.range'_1_concat, Nat.add_comm 1, show some (s.producerCount + 1) = Producer.value (.pushing k _) from rfl,
      ← Function.comp_update] at htake
  | @leave i hi =>
    have hsum := sum_update (Producer.taken n) s.producer i .finished
    rw [hi, Producer.taken, Producer.taken] at hsum
    refine ⟨?_, by simp only; omega, hconsumed⟩
    have hheld : (Producer.value ∘ s.producer) i = none := by rw [Function.comp, hi]; rfl
    have hsame : Function.update (Producer.value ∘ s.producer) i none = Producer.value ∘ s.producer :=
      Function.update_eq_self_iff.mpr hheld.symm
    rw [Function.comp_update, Producer.value, hsame]
    · exact h.values
    · exact nofun
  | @push i k value hi =>
    have hsum := sum_update (Producer.taken n) s.producer i (.counting (k + 1))
    rw [hi, Producer.taken, Producer.taken] at hsum
    refine ⟨?_, by simp only; omega, hconsumed⟩
    have hheld : (Producer.value ∘ s.producer) i = some value := by rw [Function.comp, hi]; rfl
    have hfinish := h.values.finish hheld
    rwa [List.append_assoc, show none = Producer.value (.counting (k + 1)) from rfl, ← Function.comp_update] at hfinish
  | full => exact h
  | test hj => exact h.of_consumer (by rw [hj]; rfl)
  | @empty j last hj _ => exact h.of_consumer (by rw [hj]; cases last <;> rfl)
  | @pop j last value queue hj hqueue =>
    have hsum := sum_update Consumer.uncounted s.consumer j (.counting last)
    rw [hj, show (Consumer.popping last).uncounted = 0 from rfl, Consumer.uncounted] at hsum
    have hvalues := h.values
    rw [hqueue] at hvalues
    refine ⟨by rwa [List.append_assoc], hproduced, ?_⟩
    simp only [List.length_append, List.length_singleton]
    omega
  | count hj => exact h.of_consumer (by rw [hj]; rfl)
  | setDone => exact ⟨h.values, hproduced, hconsumed⟩
  | report => exact ⟨h.values, hproduced, hconsumed⟩

end Counted

/-! ### Work left -/

def Producer.InLoop (n : Nat) : Producer → Prop
  | counting i => i ≤ n
  | pushing i _ => i < n
  | finished => True

theorem Producer.InLoop.taken_le {p : Producer} (h : p.InLoop n) : p.taken n ≤ n := by
  cases p with
  | counting i => exact h
  | pushing i value => exact h
  | finished => exact Nat.le_refl n

theorem inLoop_step [DecidableEq ι] [DecidableEq κ] (h : ∀ i, (s.producer i).InLoop n) (hm : Moves n s t) :
    ∀ i, (t.producer i).InLoop n := by
  cases hm with
  | @produce i k hi hk =>
    have hle := h i
    rw [hi] at hle
    exact (Function.forall_update_iff _ fun _ p => Producer.InLoop n p).mpr ⟨lt_of_le_of_ne hle hk, fun j _ => h j⟩
  | leave => exact (Function.forall_update_iff _ fun _ p => Producer.InLoop n p).mpr ⟨trivial, fun j _ => h j⟩
  | @push i k value hi =>
    have hlt := h i
    rw [hi] at hlt
    exact (Function.forall_update_iff _ fun _ p => Producer.InLoop n p).mpr ⟨hlt, fun j _ => h j⟩
  | _ => exact h

def Producer.work (n : Nat) : Producer → Nat
  | counting i => 4 * (n - i) + 1
  | pushing i _ => 4 * (n - i)
  | finished => 0

def Consumer.work : Consumer → Nat
  | testing => 2
  | popping last => if last then 1 else 3
  | counting last => if last then 2 else 4
  | finished => 0

theorem Consumer.work_le (c : Consumer) : c.work ≤ 4 := by
  rcases c with _ | last | last | _
  · decide
  · cases last <;> decide
  · cases last <;> decide
  · decide

def Main.work : Main → Nat
  | joiningProducers => 2
  | joiningConsumers => 1
  | reported _ _ => 0

/-- What the steps of a run that wastes none of them can still do. A value in the queue is popped and counted. -/
def work [Fintype ι] [Fintype κ] (n : Nat) (s : State ι κ) : Nat :=
  ∑ i, (s.producer i).work n + ∑ j, (s.consumer j).work + 2 * s.queue.length + s.main.work

theorem work_le_of_done [Fintype ι] [Fintype κ] (h : Phases s) (hdone : s.done = true) :
    work n s ≤ 4 * Fintype.card κ + 2 * s.queue.length + 1 := by
  have hproducers : ∑ i, (s.producer i).work n = 0 :=
    Finset.sum_eq_zero fun i _ => congrArg (Producer.work n) (h.done hdone i)
  have hconsumers : ∑ j, (s.consumer j).work ≤ Fintype.card κ * 4 :=
    Finset.sum_le_card_nsmul _ _ _ fun j _ => (s.consumer j).work_le
  have hmain : s.main.work ≤ 1 := by
    cases hm : s.main with
    | joiningProducers =>
      rw [h.running.mpr hm] at hdone
      cases hdone
    | joiningConsumers => exact le_rfl
    | reported => exact Nat.zero_le 1
  rw [work]
  omega

section
variable [Fintype ι] [DecidableEq ι] [Fintype κ] [DecidableEq κ]

/-- Once `done` is set every step is needed. -/
theorem work_lt_of_done (h : Phases s) (hdone : s.done = true) (hm : Moves n s t) :
    t.done = true ∧ work n t < work n s := by
  have hfinished := h.done hdone
  cases hm with
  | @produce i k hi => cases hi.symm.trans (hfinished i)
  | @leave i hi => cases hi.symm.trans (hfinished i)
  | @push i k value hi => cases hi.symm.trans (hfinished i)
  | @full i k value hi => cases hi.symm.trans (hfinished i)
  | @test j hj =>
    have hsum := sum_update Consumer.work s.consumer j (.popping s.done)
    rw [hj, hdone, show (Consumer.testing).work = 2 from rfl, show (Consumer.popping true).work = 1 from rfl] at hsum
    refine ⟨hdone, ?_⟩
    simp only [work, hdone]
    omega
  | @empty j last hj hqueue =>
    have hsum := sum_update Consumer.work s.consumer j (if last then .finished else .testing)
    have hlt : (if last then Consumer.finished else .testing).work < (Consumer.popping last).work := by
      cases last <;> decide
    rw [hj] at hsum
    refine ⟨hdone, ?_⟩
    simp only [work]
    omega
  | @pop j last value queue hj hqueue =>
    have hsum := sum_update Consumer.work s.consumer j (.counting last)
    have hnext : (Consumer.counting last).work = (Consumer.popping last).work + 1 := by cases last <;> rfl
    rw [hj] at hsum
    refine ⟨hdone, ?_⟩
    simp only [work, hqueue, List.length_cons]
    omega
  | @count j last hj =>
    have hsum := sum_update Consumer.work s.consumer j (.popping last)
    have hnext : (Consumer.counting last).work = (Consumer.popping last).work + 1 := by cases last <;> rfl
    rw [hj] at hsum
    refine ⟨hdone, ?_⟩
    simp only [work]
    omega
  | setDone hmain =>
    rw [h.running.mpr hmain] at hdone
    cases hdone
  | report hmain =>
    refine ⟨hdone, ?_⟩
    simp only [work, hmain, Main.work]
    omega

/-- A producer that is not finished can go on. -/
theorem exists_step_producer {i : ι} (h : (s.producer i).InLoop n) (hi : s.producer i ≠ .finished) :
    ∃ a t, s.step n a = some t ∧ work n t < work n s := by
  cases hp : s.producer i with
  | finished => exact absurd hp hi
  | counting k =>
    rw [hp] at h
    by_cases hk : k = n
    · refine ⟨.produce i, _, by rw [State.step, State.produce, hp]; exact if_neg (not_not.mpr hk), ?_⟩
      have hsum := sum_update (Producer.work n) s.producer i .finished
      rw [hp, Producer.work, Producer.work] at hsum
      simp only [work]
      omega
    · refine ⟨.produce i, _, by rw [State.step, State.produce, hp]; exact if_pos hk, ?_⟩
      have hsum := sum_update (Producer.work n) s.producer i (.pushing k (s.producerCount + 1))
      rw [hp, Producer.work, Producer.work] at hsum
      simp only [work]
      omega
  | pushing k value =>
    rw [hp] at h
    refine ⟨.push i true, _, by rw [State.step, State.push, hp]; rfl, ?_⟩
    have hsum := sum_update (Producer.work n) s.producer i (.counting (k + 1))
    rw [hp, Producer.work, Producer.work] at hsum
    have hlt : k < n := h
    simp only [work, Queue.push, List.length_append, List.length_singleton]
    omega

theorem exists_step_consumer {j : κ} (hj : s.consumer j ≠ .finished) : ∃ a t, s.step n a = some t := by
  cases hc : s.consumer j with
  | finished => exact absurd hc hj
  | testing => exact ⟨.test j, _, by rw [State.step, State.test, hc]⟩
  | popping last =>
    cases hqueue : s.queue.pop with
    | none => exact ⟨.pop j, _, by rw [State.step, State.pop, hc]; simp only [hqueue]; rfl⟩
    | some next => exact ⟨.pop j, _, by rw [State.step, State.pop, hc]; simp only [hqueue]; rfl⟩
  | counting last => exact ⟨.count j, _, by rw [State.step, State.count, hc]⟩

/-- As long as `main` has not reported, some step brings the report nearer. -/
theorem exists_step (h : Phases s) (hloop : ∀ i, (s.producer i).InLoop n)
    (hmain : ∀ produced consumed, s.main ≠ .reported produced consumed) :
    ∃ a t, s.step n a = some t ∧ work n t < work n s := by
  cases hm : s.main with
  | reported produced consumed => exact absurd hm (hmain produced consumed)
  | joiningProducers =>
    by_cases hall : ∀ i, s.producer i = .finished
    · refine ⟨.setDone, _, by rw [State.step, State.setDone]; exact if_pos ⟨hm, hall⟩, ?_⟩
      simp only [work, hm, Main.work]
      omega
    · obtain ⟨i, hi⟩ := not_forall.mp hall
      exact exists_step_producer (hloop i) hi
  | joiningConsumers =>
    have hdone : s.done = true := by
      cases hd : s.done with
      | true => rfl
      | false => cases hm.symm.trans (h.running.mp hd)
    suffices henabled : ∃ a t, s.step n a = some t by
      obtain ⟨a, t, hs⟩ := henabled
      exact ⟨a, t, hs, (work_lt_of_done h hdone (moves_of_step hs)).2⟩
    by_cases hall : ∀ j, s.consumer j = .finished
    · exact ⟨.report, _, by rw [State.step, State.report]; exact if_pos ⟨hm, hall⟩⟩
    · obtain ⟨j, hj⟩ := not_forall.mp hall
      exact exists_step_consumer hj

/-! ### Runs -/

structure Inv (n : Nat) (s : State ι κ) : Prop where
  phases : Phases s
  counted : Counted n s
  inLoop : ∀ i, (s.producer i).InLoop n

theorem Inv.step (h : Inv n s) (hm : Moves n s t) : Inv n t :=
  ⟨h.phases.step hm, h.counted.step hm, inLoop_step h.inLoop hm⟩

theorem inv_of_reachable (h : (system ι κ n).Reachable s) : Inv n s := by
  refine h.invariant (I := Inv n) ?_ fun s a t hs hstep => hs.step (moves_of_step hstep)
  rintro s rfl
  exact ⟨.initial, .initial, fun _ => Nat.zero_le _⟩

omit [DecidableEq ι] [DecidableEq κ] in
/-- No producer takes more values than its loop has, and only values that were taken are popped and counted. -/
theorem Inv.counters_le (h : Inv n s) :
    s.consumerCount ≤ s.producerCount ∧ s.producerCount ≤ Fintype.card ι * n := by
  have hpopped : s.popped.length ≤ s.producerCount := by
    have hvalues := h.counted.values
    have hdistinct : s.popped.Nodup := (List.nodup_append.mp hvalues.distinct).1
    have hsub : s.popped ⊆ List.range' 1 s.producerCount := fun v hv =>
      (hvalues.taken v).mpr (.inl (List.mem_append_left _ hv))
    exact (hdistinct.subperm hsub).length_le.trans_eq List.length_range'
  have hconsumed := h.counted.consumed
  refine ⟨by omega, ?_⟩
  rw [h.counted.produced]
  exact Finset.sum_le_card_nsmul _ _ _ fun i _ => (h.inLoop i).taken_le

omit [DecidableEq ι] [DecidableEq κ] in
/-- With less than `2 ^ 31` values in all no counter overflows. -/
theorem Inv.countersFit (h : Inv n s) (hn : Fintype.card ι * n < 2 ^ 31) : s.CountersFit :=
  ⟨h.counters_le.2.trans_lt hn, (h.counters_le.1.trans h.counters_le.2).trans_lt hn⟩

/-- The program is far from that. -/
theorem card_mul_iterations_lt : Fintype.card (Fin producerThreadCount) * iterations < 2 ^ 31 := by
  rw [Fintype.card_fin]
  decide

theorem exists_trace_report (h : Inv n s) :
    ∃ l t, (system ι κ n).Trace s l t ∧ ∃ produced consumed, t.main = .reported produced consumed := by
  refine System.exists_trace (I := Inv n) (work n) (fun s hs hmain => ?_) s h
  obtain ⟨a, t, hstep, hlt⟩ := exists_step hs.phases hs.inLoop fun p c heq => hmain ⟨p, c, heq⟩
  exact ⟨a, t, hstep, hs.step (moves_of_step hstep), hlt⟩

theorem initial_reachable : (system ι κ n).Reachable .initial := .of_init rfl

/-- In every interleaving each value that was handed out is popped once, waits in the queue once, or is still with
    one producer; and no counter overflows, unless there are `2 ^ 31` values or more in all. -/
theorem values_accounted (h : (system ι κ n).Reachable s) :
    Accounts (List.range' 1 s.producerCount) (Producer.value ∘ s.producer) (s.popped ++ s.queue) ∧
      (Fintype.card ι * n < 2 ^ 31 → s.CountersFit) :=
  ⟨(inv_of_reachable h).counted.values, (inv_of_reachable h).countersFit⟩

end

/-- One value is popped, one waits, and one is with its producer. -/
theorem values_accounted_program : ∃ s, program.Reachable s ∧
    (s.popped = [1] ∧ s.queue = [2] ∧ s.producer 2 = .pushing 0 3) ∧
    Accounts (List.range' 1 s.producerCount) (Producer.value ∘ s.producer) (s.popped ++ s.queue) ∧ s.CountersFit := by
  have hinitial : program.Reachable .initial := initial_reachable
  have hpop := hinitial.run [.produce 0, .produce 1, .produce 2, .push 0 true, .push 1 true, .test 0, .pop 0] rfl
  obtain ⟨haccounts, hfit⟩ := values_accounted hpop
  exact ⟨_, hpop, ⟨rfl, rfl, rfl⟩, haccounts, hfit card_mul_iterations_lt⟩

section
variable [Fintype ι] [DecidableEq ι] [Fintype κ] [DecidableEq κ]

/-- What `main` writes: all values were produced, and all were consumed, each by one `pop`; and with less than
    `2 ^ 31` of them it writes them as they are. Without a consumer this fails, since no one drains the queue. -/
theorem report_exact [Nonempty κ] {produced consumed : Nat} (h : (system ι κ n).Reachable s)
    (hmain : s.main = .reported produced consumed) :
    (produced = Fintype.card ι * n ∧ consumed = produced ∧ s.queue = [] ∧ s.popped.Perm (List.range' 1 produced)) ∧
      (Fintype.card ι * n < 2 ^ 31 → s.CountersFit) := by
  have hfit := (inv_of_reachable h).countersFit
  obtain ⟨hphases, hcounted, -⟩ := inv_of_reachable h
  obtain ⟨rfl, rfl, hconsumer⟩ := hphases.reported _ _ hmain
  obtain ⟨j⟩ := ‹Nonempty κ›
  have hqueue := hphases.drained j (hconsumer j)
  have hproducer := hphases.done (hphases.last j (by rw [hconsumer]; rfl))
  have hproduced : s.producerCount = Fintype.card ι * n := by
    rw [hcounted.produced, Finset.sum_congr rfl fun i _ => congrArg (Producer.taken n) (hproducer i)]
    simp [Producer.taken]
  have hpopped : s.consumerCount = s.popped.length := by
    rw [← hcounted.consumed, Finset.sum_congr rfl fun j _ => congrArg Consumer.uncounted (hconsumer j)]
    simp [Consumer.uncounted]
  have hvalues := hcounted.values
  rw [hqueue, List.append_nil] at hvalues
  have hperm : s.popped.Perm (List.range' 1 s.producerCount) := by
    refine (List.perm_ext_iff_of_nodup hvalues.distinct List.nodup_range').mpr fun v => ?_
    rw [hvalues.taken]
    refine ⟨.inl, fun hv => hv.resolve_right ?_⟩
    rintro ⟨i, hi⟩
    rw [Function.comp, hproducer i] at hi
    cases hi
  refine ⟨⟨hproduced, ?_, hqueue, hperm⟩, hfit⟩
  rw [hpopped, hperm.length_eq, List.length_range']

end

theorem report_exact_program : ∃ s, program.Reachable s ∧ s.main = .reported 40000000 40000000 ∧ s.queue = [] ∧
    s.CountersFit := by
  obtain ⟨l, t, hl, produced, consumed, hmain⟩ := exists_trace_report (inv_of_reachable (initial_reachable
    (ι := Fin producerThreadCount) (κ := Fin consumerThreadCount) (n := iterations)))
  have ht := hl.reachable initial_reachable
  obtain ⟨⟨hproduced, hconsumed, hqueue, -⟩, hfit⟩ := report_exact ht hmain
  have heq : produced = 40000000 := hproduced.trans (by rw [Fintype.card_fin]; rfl)
  rw [hconsumed, heq] at hmain
  exact ⟨t, ht, hmain, hqueue, hfit card_mul_iterations_lt⟩

section
variable [Fintype ι] [DecidableEq ι] [Fintype κ] [DecidableEq κ]

/-- The program can always get to its report, and once `done` is set it cannot miss it: no run goes on for more
    steps than it takes to test, pop and count, and one that cannot go on has reported. -/
theorem runs_report (h : (system ι κ n).Reachable s) :
    (∃ l t, (system ι κ n).Trace s l t ∧ ∃ produced consumed, t.main = .reported produced consumed) ∧
      (s.done = true → ∀ l t, (system ι κ n).Trace s l t →
        l.length ≤ 4 * Fintype.card κ + 2 * s.queue.length + 1 ∧
          ((∀ a, t.step n a = none) → ∃ produced consumed, t.main = .reported produced consumed)) := by
  have hinv := inv_of_reachable h
  refine ⟨exists_trace_report hinv, fun hdone l t hl => ⟨?_, fun hstuck => ?_⟩⟩
  · have hlength := hl.length_le (I := fun s => Phases s ∧ s.done = true) (work n) (fun s a t hs hstep => by
      have hm := moves_of_step hstep
      obtain ⟨hdone', hlt⟩ := work_lt_of_done hs.1 hs.2 hm
      exact ⟨⟨hs.1.step hm, hdone'⟩, hlt⟩) ⟨hinv.phases, hdone⟩
    have hwork := work_le_of_done (n := n) hinv.phases hdone
    omega
  · by_contra hreported
    obtain ⟨hphases, -, hloop⟩ := inv_of_reachable (hl.reachable h)
    obtain ⟨a, u, hstep, -⟩ := exists_step hphases hloop fun p c heq => hreported ⟨p, c, heq⟩
    rw [hstuck a] at hstep
    cases hstep

end

theorem runs_report_program : ∃ l t, program.Trace .initial l t ∧
    ∃ produced consumed, t.main = .reported produced consumed :=
  (runs_report initial_reachable).1

end ServiceBridge.LockfreeQueue
