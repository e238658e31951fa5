import ServiceBridge.Library.Mutex
import ServiceBridge.Locking
import ServiceBridge.Theorems.Order
import ServiceBridge.Theorems.WakeUps

/-! The lock makes the sections of `concurrent_queue` atomic: what its single accesses do in any interleaving is what
    whole sections do one after the other; and no thread is left in front of the lock. -/

namespace ServiceBridge.Locking
open Mutex

variable {ι T : Type}

/-! ### What the owner of the lock knows -/

/-- What a thread has seen of the queue since it took the lock. -/
def Pc.Sees (queue : List T) : Pc T → Prop
  | front _ => queue ≠ []
  | pop _ poppedValue => queue.head? = some poppedValue
  | sleeping => queue = []
  | _ => True

theorem Pc.sees_of_not_holds {p : Pc T} (h : p.holds = false) (queue : List T) : p.Sees queue := by
  cases p <;> trivial

/-- The lock is in the hands of whoever is past it, who knows what is in the queue; no access has failed. -/
structure Guarded (s : State ι T) : Prop where
  fault : s.fault = none
  mutex : Guards s.mutex Pc.holds s.pc
  sees : ∀ i, (s.pc i).Sees s.queue

theorem Guarded.initial : Guarded (State.initial : State ι T) where
  fault := rfl
  mutex := fun i => by simp [State.initial, Pc.holds]
  sees := fun _ => trivial

/-- Where the first access leads that does not change the queue. -/
inductive Looks (queue : List T) : Op T → Pc T → Prop
  | empty {caller : Caller} : Looks queue (.empty caller) (.unlocking (.empty caller) queue.isEmpty)
  | missed {caller : Caller} (hnil : queue = []) :
      Looks queue (.pop (.tryPop caller)) (.unlocking (.pop (.tryPop caller)) false)
  | waits (hnil : queue = []) : Looks queue (.pop .waitAndPop) .sleeping
  | found {p : Pop} (hne : queue ≠ []) : Looks queue (.pop p) (.front p)

/-! ### Sections -/

/-- Where a thread is among whole sections before its section has its effect. -/
def Op.before : Op T → List Interleaving.Pc
  | empty .clear => [.clearTest]
  | pop (.tryPop .clear) => [.clearPop]
  | pop .waitAndPop => [.idle, .woken]
  | _ => [.idle]

/-- And after it. -/
def Op.after : Op T → Bool → Interleaving.Pc
  | push _, _ => .notifying
  | empty .clear, false => .clearPop
  | pop (.tryPop .clear), _ => .clearTest
  | _, _ => .idle

/-- A section has its effect where the queue changes, or where nothing was found. -/
def Pc.places : Pc T → List Interleaving.Pc
  | idle => [.idle]
  | locking op => op.before
  | locked op => op.before
  | front p => (Op.pop p : Op T).before
  | pop p _ => (Op.pop p : Op T).before
  | sleeping => [.idle, .woken]
  | asleep => [.asleep]
  | unlocking op result => [op.after result]
  | notifying => [.notifying]

theorem after_mem_next (op : Op T) (result : Bool) : op.after result ∈ (op.next result).places := by
  rcases op with _ | (_ | _) | ((_ | _) | _) <;> cases result <;> exact List.mem_singleton.mpr rfl

theorem asleep_not_mem_before (op : Op T) : Interleaving.Pc.asleep ∉ op.before := by
  rcases op with _ | (_ | _) | ((_ | _) | _) <;> simp [Op.before]

theorem after_ne_asleep (op : Op T) (result : Bool) : op.after result ≠ .asleep := by
  rcases op with _ | (_ | _) | ((_ | _) | _) <;> cases result <;> simp [Op.after]

/-- What the accesses have come to, as whole sections. -/
structure Shows (s : State ι T) (t : Interleaving.State ι T) : Prop where
  guarded : Guarded s
  queue : t.queue.map (·.value) = s.queue
  pushed : t.pushed.map (fun x => (x.producer, x.value)) = s.pushed
  taken : t.removed.map (fun r => (r.consumer, r.item.value, r.discarded)) = s.taken
  places : ∀ i, t.pc i ∈ (s.pc i).places

namespace Shows
variable {s : State ι T} {t : Interleaving.State ι T} {i : ι} {p : Pc T} {q : Interleaving.Pc}

theorem at_one (h : Shows s t) (hi : s.pc i = p) (hp : p.places = [q]) : t.pc i = q := by
  have hmem := h.places i
  rw [hi, hp] at hmem
  exact List.mem_singleton.mp hmem

theorem at_wait (h : Shows s t) (hi : s.pc i = p) (hp : p.places = [.idle, .woken]) :
    t.pc i = .idle ∨ t.pc i = .woken := by
  have hmem := h.places i
  rw [hi, hp] at hmem
  simpa using hmem

theorem queue_nil (h : Shows s t) (hq : s.queue = []) : t.queue = [] :=
  List.map_eq_nil_iff.mp (h.queue.trans hq)

theorem not_asleep (h : Shows s t) (hi : (s.pc i).isAsleep = false) : t.pc i ≠ .asleep := by
  have hat := h.places i
  intro heq
  rw [heq] at hat
  cases hp : s.pc i with
  | asleep =>
    rw [hp] at hi
    cases hi
  | idle | sleeping | notifying => simp [hp, Pc.places] at hat
  | locking op | locked op =>
    rw [hp] at hat
    exact asleep_not_mem_before op hat
  | front p | pop p x =>
    rw [hp] at hat
    exact asleep_not_mem_before (Op.pop p : Op T) hat
  | unlocking op result =>
    rw [hp] at hat
    exact after_ne_asleep op result (List.mem_singleton.mp hat).symm

theorem initial : Shows (State.initial : State ι T) .initial :=
  ⟨.initial, rfl, rfl, rfl, fun _ => List.mem_singleton.mpr rfl⟩

end Shows

variable [DecidableEq ι] {s s' : State ι T} {i : ι} {p : Pc T}

/-! ### Steps -/

/-- How the threads go on in what they have called, where the lock is kept. -/
inductive Goes (s : State ι T) : State ι T → Prop
  | lock {i : ι} {op : Op T} (hi : s.pc i = .locking op) (hfree : s.mutex = none) :
      Goes s { s.goto i (.locked op) with mutex := some i }
  | push {i : ι} {data : T} (hi : s.pc i = .locked (.push data)) : Goes s (s.access i (.push data))
  | look {i : ι} {op : Op T} {p : Pc T} (hi : s.pc i = .locked op) (hlooks : Looks s.queue op p) : Goes s (s.goto i p)
  | front {i : ι} {p : Pop} {x : T} (hi : s.pc i = .front p) (hx : s.queue.head? = some x) :
      Goes s (s.goto i (.pop p x))
  | pop {i : ι} {p : Pop} {x : T} {queue : List T} (hi : s.pc i = .pop p x) (hq : s.queue = x :: queue) :
      Goes s { s.goto i (.unlocking (.pop p) true) with queue := queue, taken := s.taken ++ [(i, x, p.discards)] }
  | sleep {i : ι} (hi : s.pc i = .sleeping) (hq : s.queue = []) : Goes s { s.goto i .asleep with mutex := none }
  | unlock {i : ι} {op : Op T} {result : Bool} (hi : s.pc i = .unlocking op result) :
      Goes s { s.goto i (op.next result) with mutex := none }
  | wake {i j : ι} (hi : s.pc i = .notifying) (hj : s.pc j = .asleep) :
      Goes s ((s.goto i .idle).goto j (.locking (.pop .waitAndPop)))
  | unheard {i : ι} (hi : s.pc i = .notifying) (hno : ∀ j, (s.pc j).isAsleep = false) : Goes s (s.goto i .idle)

/-- What can happen: besides, a thread calls a function, or is woken by nobody. -/
inductive Moves (s : State ι T) : State ι T → Prop
  | goes {s' : State ι T} (h : Goes s s') : Moves s s'
  | call {i : ι} (c : Call T) (hi : s.pc i = .idle) : Moves s (s.goto i (.locking c.first))
  | spurious {i : ι} (hi : s.pc i = .asleep) : Moves s (s.goto i (.locking (.pop .waitAndPop)))

theorem goes_of_access {op : Op T} (hi : s.pc i = .locked op) : Goes s (s.access i op) := by
  rcases op with data | caller | p
  · exact .push hi
  · exact .look hi .empty
  · rcases hq : s.queue with _ | ⟨x, queue⟩
    · cases p with
      | tryPop caller =>
        rw [State.access, hq]
        exact .look hi (.missed hq)
      | waitAndPop =>
        rw [State.access, hq]
        exact .look hi (.waits hq)
    · have hfound : Looks s.queue (.pop p) (.front p) := .found (hq ▸ List.cons_ne_nil _ _)
      cases p with
      | tryPop caller =>
        rw [State.access, hq]
        exact .look hi hfound
      | waitAndPop =>
        rw [State.access, hq]
        exact .look hi hfound

theorem goes_of_goOn (h : Guarded s) (hs : s.goOn i = some s') : Goes s s' := by
  have hsees := h.sees i
  rw [State.goOn] at hs
  split at hs
  · next op hi =>
    obtain ⟨hfree, ⟨⟩⟩ := Option.ite_none_right_eq_some.mp hs
    exact .lock hi hfree
  · next op hi =>
    cases hs
    exact goes_of_access hi
  · next p hi =>
    rw [hi] at hsees
    obtain ⟨x, queue, hq⟩ := List.exists_cons_of_ne_nil hsees
    rw [hq] at hs
    cases hs
    exact .front hi (by rw [hq]; rfl)
  · next p x hi =>
    rw [hi] at hsees
    obtain ⟨queue, hq⟩ := List.head?_eq_some_iff.mp hsees
    rw [hq] at hs
    cases hs
    exact .pop hi hq
  · next hi =>
    rw [hi] at hsees
    cases hs
    exact .sleep hi hsees
  · next op result hi =>
    cases hs
    exact .unlock hi
  · cases hs

theorem goes_of_notify [Fintype ι] {sleeper : Option ι} (hs : s.step (.notify i sleeper) = some s') : Goes s s' := by
  cases sleeper with
  | some j =>
    rw [State.step] at hs
    split at hs
    · next hi hj =>
      cases hs
      exact .wake hi hj
    · cases hs
  | none =>
    rw [State.step] at hs
    split at hs
    · next hi =>
      obtain ⟨hno, ⟨⟩⟩ := Option.ite_none_right_eq_some.mp hs
      exact .unheard hi hno
    · cases hs

theorem moves_of_step [Fintype ι] {a : Act ι T} (h : Guarded s) (hs : s.step a = some s') : Moves s s' := by
  cases a with
  | call i c =>
    rw [State.step] at hs
    split at hs
    · next hi =>
      cases hs
      exact .call c hi
    · cases hs
  | goOn i => exact .goes (goes_of_goOn h hs)
  | notify i sleeper => exact .goes (goes_of_notify hs)
  | spuriousWake i =>
    rw [State.step] at hs
    split at hs
    · next hi =>
      cases hs
      exact .spurious hi
    · cases hs

/-! ### The lock -/

@[simp] theorem holds_next (op : Op T) (result : Bool) : (op.next result).holds = false := by
  rcases op with _ | (_ | _) | ((_ | _) | _) <;> cases result <;> rfl

namespace Guarded

/-- A thread moves that sees what it says it does; another one that sees something would have the lock. -/
theorem sees_goto (h : Guarded s) {queue : List T} (hp : p.Sees queue)
    (hothers : (s.pc i).holds = true ∨ queue = s.queue) : ∀ j, (Function.update s.pc i p j).Sees queue := by
  intro j
  rcases eq_or_ne j i with rfl | hne
  · rwa [Function.update_self]
  · rw [Function.update_of_ne hne]
    rcases hothers with hholds | rfl
    · exact Pc.sees_of_not_holds (h.mutex.outside hholds hne) queue
    · exact h.sees j

theorem goto (h : Guarded s) (hp : p.holds = (s.pc i).holds) (hsees : p.Sees s.queue) : Guarded (s.goto i p) where
  fault := h.fault
  mutex := h.mutex.move hp
  sees := h.sees_goto hsees (.inr rfl)

theorem goes (h : Guarded s) (hg : Goes s s') : Guarded s' := by
  cases hg with
  | lock hi hfree =>
    have hmutex := h.mutex
    rw [hfree] at hmutex
    exact ⟨h.fault, hmutex.acquire rfl, h.sees_goto trivial (.inr rfl)⟩
  | push hi => exact ⟨h.fault, h.mutex.move (by rw [hi]; rfl), h.sees_goto trivial (.inl (by rw [hi]; rfl))⟩
  | look hi hlooks =>
    refine h.goto ?_ ?_
    · rw [hi]
      cases hlooks <;> rfl
    · cases hlooks with
      | empty => trivial
      | missed hnil => trivial
      | waits hnil => exact hnil
      | found hne => exact hne
  | front hi hx => exact h.goto (by rw [hi]; rfl) hx
  | pop hi hq => exact ⟨h.fault, h.mutex.move (by rw [hi]; rfl), h.sees_goto trivial (.inl (by rw [hi]; rfl))⟩
  | sleep hi hq => exact ⟨h.fault, h.mutex.release (by rw [hi]; rfl) rfl, h.sees_goto trivial (.inr rfl)⟩
  | unlock hi =>
    refine ⟨h.fault, h.mutex.release (by rw [hi]; rfl) (holds_next _ _), h.sees_goto ?_ (.inr rfl)⟩
    exact Pc.sees_of_not_holds (holds_next _ _) _
  | @wake i j hi hj =>
    have hidle : Guarded (s.goto i .idle) := h.goto (by rw [hi]; rfl) trivial
    refine hidle.goto ?_ trivial
    have hne : j ≠ i := by
      rintro rfl
      cases hi.symm.trans hj
    have hpc : (s.goto i .idle).pc j = .asleep := (Function.update_of_ne hne _ _).trans hj
    rw [hpc]
    rfl
  | unheard hi _ => exact h.goto (by rw [hi]; rfl) trivial

theorem step (h : Guarded s) (hm : Moves s s') : Guarded s' := by
  cases hm with
  | goes hg => exact h.goes hg
  | call c hi => exact h.goto (by rw [hi]; rfl) trivial
  | spurious hi => exact h.goto (by rw [hi]; rfl) trivial

theorem of_reachable [Fintype ι] (h : (system ι T).Reachable s) : Guarded s := by
  refine h.invariant ?_ fun _ _ _ hguarded hs => hguarded.step (moves_of_step hguarded hs)
  rintro s rfl
  exact .initial

end Guarded

/-! ### Each step is one of sections, or none -/

namespace Shows
variable {t t' : Interleaving.State ι T} {q : Interleaving.Pc}

theorem places_goto (h : Shows s t) (hq : q ∈ p.places) :
    ∀ j, Function.update t.pc i q j ∈ (Function.update s.pc i p j).places := by
  intro j
  rcases eq_or_ne j i with rfl | hne
  · rwa [Function.update_self, Function.update_self]
  · rw [Function.update_of_ne hne, Function.update_of_ne hne]
    exact h.places j

/-- A thread moves on and the queue stays as it is. -/
theorem move (h : Shows s t) (hguarded : Guarded s') (hq : q ∈ p.places) (hpc : s'.pc = (s.goto i p).pc)
    (hqueue : s'.queue = s.queue) (hpushed : s'.pushed = s.pushed) (htaken : s'.taken = s.taken) :
    Shows s' (t.goto i q) where
  guarded := hguarded
  queue := h.queue.trans hqueue.symm
  pushed := h.pushed.trans hpushed.symm
  taken := h.taken.trans htaken.symm
  places := by
    rw [hpc]
    exact h.places_goto hq

/-- Whole sections do not see where in its section a thread is. -/
theorem stay (h : Shows s t) (hguarded : Guarded s') {k : Pc T} (hi : s.pc i = k) (hpc : s'.pc = (s.goto i p).pc)
    (hqueue : s'.queue = s.queue) (hpushed : s'.pushed = s.pushed) (htaken : s'.taken = s.taken)
    (hplaces : k.places ⊆ p.places) : Shows s' t := by
  have hmoved := h.move hguarded (hplaces (hi ▸ h.places i)) hpc hqueue hpushed htaken
  have hself : t.goto i (t.pc i) = t := by
    rw [Interleaving.State.goto, Function.update_eq_self]
  rwa [hself] at hmoved

variable [Fintype ι]

/-- `wait_and_pop` finds nothing, before it sleeps or when it has been woken. -/
theorem sleep (h : Shows s t) (hguarded : Guarded s') (hi : s.pc i = .sleeping) (hnil : s.queue = [])
    (hs' : s' = { s.goto i .asleep with mutex := none }) : ∃ a t', t.step a = some t' ∧ Shows s' t' := by
  subst hs'
  have hshows : Shows _ (t.goto i .asleep) :=
    h.move (i := i) (p := .asleep) hguarded (List.mem_singleton.mpr rfl) rfl rfl rfl rfl
  have hmissed : t.afterPop i .idle .asleep false (ConcurrentQueue.waitAndPop t.queue) = t.goto i .asleep := by
    rw [h.queue_nil hnil, ConcurrentQueue.waitAndPop_nil, ← h.queue_nil hnil]
    rfl
  rcases h.at_wait hi rfl with hat | hat
  · refine ⟨.waitAndPop i, _, ?_, hshows⟩
    rw [Interleaving.State.step, if_pos hat, hmissed]
  · refine ⟨.retest i, _, ?_, hshows⟩
    rw [Interleaving.State.step, if_pos hat, hmissed]

/-- What a section takes is the first element, with the value that `front` has read. -/
theorem pop (h : Shows s t) {p : Pop} {x : T} {queue : List T} (hguarded : Guarded s') (hi : s.pc i = .pop p x)
    (hq : s.queue = x :: queue) (hs' : s' = { s.goto i (.unlocking (.pop p) true) with
      queue := queue, taken := s.taken ++ [(i, x, p.discards)] }) : ∃ a t', t.step a = some t' ∧ Shows s' t' := by
  subst hs'
  obtain ⟨item, rest, hitems, rfl, rfl⟩ := List.map_eq_cons_iff.mp (h.queue.trans hq)
  have hshows : Shows { s.goto i (.unlocking (.pop p) true) with
      queue := rest.map (·.value), taken := s.taken ++ [(i, item.value, p.discards)] }
      { t.goto i ((Op.pop p : Op T).after true) with
        queue := rest, removed := t.removed ++ [⟨item, i, p.discards⟩] } := by
    refine ⟨hguarded, rfl, h.pushed, ?_, h.places_goto (List.mem_singleton.mpr rfl)⟩
    rw [List.map_append, h.taken]
    rfl
  cases p with
  | tryPop caller =>
    have hgot : ∀ got missed discarded,
        t.afterPop i got missed discarded (ConcurrentQueue.tryPop t.queue) = { t.goto i got with
          queue := rest, removed := t.removed ++ [⟨item, i, discarded⟩] } := by
      intro got missed discarded
      rw [hitems]
      rfl
    cases caller with
    | user =>
      refine ⟨.tryPop i, _, ?_, hshows⟩
      rw [Interleaving.State.step, if_pos (h.at_one hi rfl), hgot]
      rfl
    | clear =>
      refine ⟨.clearPop i, _, ?_, hshows⟩
      rw [Interleaving.State.step, if_pos (h.at_one hi rfl), hgot]
      rfl
  | waitAndPop =>
    have hgot : t.afterPop i .idle .asleep false (ConcurrentQueue.waitAndPop t.queue) = { t.goto i .idle with
        queue := rest, removed := t.removed ++ [⟨item, i, false⟩] } := by
      rw [hitems]
      rfl
    rcases h.at_wait hi rfl with hat | hat
    · refine ⟨.waitAndPop i, _, ?_, hshows⟩
      rw [Interleaving.State.step, if_pos hat, hgot]
      rfl
    · refine ⟨.retest i, _, ?_, hshows⟩
      rw [Interleaving.State.step, if_pos hat, hgot]
      rfl

/-- A look at the queue is the end of a section if nothing was found or only `empty` asked. -/
theorem look (h : Shows s t) {op : Op T} (hguarded : Guarded (s.goto i p)) (hi : s.pc i = .locked op)
    (hlooks : Looks s.queue op p) : Shows (s.goto i p) t ∨ ∃ a t', t.step a = some t' ∧ Shows (s.goto i p) t' := by
  cases hlooks with
  | @empty caller =>
    cases caller with
    | user => exact .inl (h.stay hguarded hi rfl rfl rfl rfl (List.Subset.refl _))
    | clear =>
      refine .inr ⟨.clearTest i, _, if_pos (h.at_one hi rfl), h.move hguarded ?_ rfl rfl rfl rfl⟩
      have hempty : ConcurrentQueue.empty t.queue = s.queue.isEmpty := by
        rw [← h.queue, ConcurrentQueue.empty, List.isEmpty_map]
      rw [hempty]
      cases s.queue.isEmpty <;> exact List.mem_singleton.mpr rfl
  | @missed caller hnil =>
    cases caller with
    | user => exact .inl (h.stay hguarded hi rfl rfl rfl rfl (List.Subset.refl _))
    | clear =>
      have hmissed : t.afterPop i .clearTest .clearTest true (ConcurrentQueue.tryPop t.queue) =
          t.goto i .clearTest := by
        rw [h.queue_nil hnil, ConcurrentQueue.tryPop_nil, ← h.queue_nil hnil]
        rfl
      refine .inr ⟨.clearPop i, _, ?_, h.move (q := .clearTest) hguarded (List.mem_singleton.mpr rfl) rfl rfl rfl rfl⟩
      rw [Interleaving.State.step, if_pos (h.at_one hi rfl), hmissed]
  | waits hnil => exact .inl (h.stay hguarded hi rfl rfl rfl rfl (List.Subset.refl _))
  | found hne => exact .inl (h.stay hguarded hi rfl rfl rfl rfl (List.Subset.refl _))

theorem push (h : Shows s t) {data : T} (hguarded : Guarded (s.access i (.push data)))
    (hi : s.pc i = .locked (.push data)) :
    ∃ a t', t.step a = some t' ∧ Shows (s.access i (.push data)) t' := by
  refine ⟨.push i data, _, if_pos (h.at_one hi rfl), hguarded, ?_, ?_, h.taken, ?_⟩
  · rw [Interleaving.State.queue_afterPush, List.map_append, h.queue]
    rfl
  · rw [Interleaving.State.pushed_afterPush, List.map_append, h.pushed]
    rfl
  · exact h.places_goto (List.mem_singleton.mpr rfl)

theorem wake (h : Shows s t) {j : ι} (hguarded : Guarded ((s.goto i .idle).goto j (.locking (.pop .waitAndPop))))
    (hi : s.pc i = .notifying) (hj : s.pc j = .asleep) :
    ∃ a t', t.step a = some t' ∧ Shows ((s.goto i .idle).goto j (.locking (.pop .waitAndPop))) t' := by
  refine ⟨.notify i (some j), _, if_pos ⟨h.at_one hi rfl, h.at_one hj rfl⟩, hguarded, h.queue, h.pushed, h.taken, ?_⟩
  intro k
  show Function.update (Function.update t.pc i .idle) j .woken k ∈
    (Function.update (Function.update s.pc i .idle) j (.locking (.pop .waitAndPop)) k).places
  rcases eq_or_ne k j with rfl | hne
  · rw [Function.update_self, Function.update_self]
    exact List.mem_cons_of_mem _ (List.mem_singleton.mpr rfl)
  · rw [Function.update_of_ne hne, Function.update_of_ne hne]
    exact h.places_goto (List.mem_singleton.mpr rfl) k

theorem goes (h : Shows s t) (hg : Goes s s') : Shows s' t ∨ ∃ a t', t.step a = some t' ∧ Shows s' t' := by
  have hguarded := h.guarded.goes hg
  cases hg with
  | lock hi hfree => exact .inl (h.stay hguarded hi rfl rfl rfl rfl (List.Subset.refl _))
  | push hi => exact .inr (h.push hguarded hi)
  | look hi hlooks => exact h.look hguarded hi hlooks
  | front hi hx => exact .inl (h.stay hguarded hi rfl rfl rfl rfl (List.Subset.refl _))
  | pop hi hq => exact .inr (h.pop hguarded hi hq rfl)
  | sleep hi hq => exact .inr (h.sleep hguarded hi hq rfl)
  | @unlock i op result hi =>
    refine .inl (h.stay hguarded hi rfl rfl rfl rfl ?_)
    exact List.cons_subset.mpr ⟨after_mem_next op result, List.nil_subset _⟩
  | wake hi hj => exact .inr (h.wake hguarded hi hj)
  | @unheard i hi hno =>
    refine .inr ⟨.notify i none, _, if_pos ⟨h.at_one hi rfl, fun j => h.not_asleep (hno j)⟩, ?_⟩
    exact h.move hguarded (List.mem_singleton.mpr rfl) rfl rfl rfl rfl

theorem step (h : Shows s t) (hm : Moves s s') : Shows s' t ∨ ∃ a t', t.step a = some t' ∧ Shows s' t' := by
  have hguarded := h.guarded.step hm
  cases hm with
  | goes hg => exact h.goes hg
  | @call i c hi =>
    cases c with
    | clear =>
      refine .inr ⟨.clear i, _, if_pos (h.at_one hi rfl), ?_⟩
      exact h.move hguarded (List.mem_singleton.mpr rfl) rfl rfl rfl rfl
    | waitAndPop =>
      exact .inl (h.stay hguarded hi rfl rfl rfl rfl (by simp [Pc.places, Op.before, Call.first]))
    | push | empty | tryPop => exact .inl (h.stay hguarded hi rfl rfl rfl rfl (List.Subset.refl _))
  | @spurious i hi =>
    refine .inr ⟨.spuriousWake i, _, if_pos (h.at_one hi rfl), ?_⟩
    exact h.move hguarded (List.mem_cons_of_mem _ (List.mem_singleton.mpr rfl)) rfl rfl rfl rfl

end Shows

variable [Fintype ι]

/-- Each step of a thread is a whole section or none. -/
def sections (ι T : Type) [DecidableEq ι] [Fintype ι] : System.Simulation (system ι T) (Interleaving.system ι T) where
  rel := Shows
  init := by
    rintro s rfl
    exact ⟨.initial, rfl, .initial⟩
  step := fun _ _ _ _ h hs => h.step (moves_of_step h.guarded hs)

/-- In any interleaving of the accesses at most one thread has the lock, and none that has not reads or changes the
    queue; `front` and `pop` never meet an empty queue; and the queue, what was taken from it and where the threads
    are is what some interleaving of whole sections comes to, so that what is taken comes out in the order in which
    it was pushed. -/
theorem sections_atomic (s : State ι T) (h : (system ι T).Reachable s) :
    (∀ i, s.mutex = some i ↔ (s.pc i).holds = true) ∧ s.fault = none ∧
      s.taken.map (·.2.1) ++ s.queue = s.pushed.map (·.2) ∧
        ∃ t, (Interleaving.system ι T).Reachable t ∧ t.queue.map (·.value) = s.queue ∧
          t.pushed.map (fun x => (x.producer, x.value)) = s.pushed ∧
          t.removed.map (fun r => (r.consumer, r.item.value, r.discarded)) = s.taken ∧
          ∀ i, t.pc i ∈ (s.pc i).places := by
  obtain ⟨t, ht, hshows⟩ := (sections ι T).reachable h
  refine ⟨hshows.guarded.mutex, hshows.guarded.fault, ?_, t, ht, hshows.queue, hshows.pushed, hshows.taken,
    hshows.places⟩
  have horder := congrArg (List.map (·.value)) (Interleaving.taken_append_queue ht)
  rw [List.map_append, Interleaving.State.taken, List.map_map] at horder
  rw [← hshows.queue, ← hshows.pushed, ← hshows.taken, List.map_map, List.map_map]
  exact horder

/-- One thread has called `push`, another one `clear`. -/
def pushing : State (Fin 2) Nat := (State.initial.goto 0 (.locking (.push 7))).goto 1 (.locking (.empty .clear))

theorem reachable_pushing : (system (Fin 2) Nat).Reachable pushing :=
  (System.Reachable.of_init rfl).run [.call 0 (.push 7), .call 1 .clear] rfl

theorem sections_atomic_pushing : ∃ s : State (Fin 2) Nat, (system (Fin 2) Nat).Reachable s ∧ s.mutex = some 0 ∧
    s.queue = [7] ∧ (∀ i, s.mutex = some i ↔ (s.pc i).holds = true) ∧ s.fault = none ∧
      s.taken.map (·.2.1) ++ s.queue = s.pushed.map (·.2) ∧
        ∃ t, (Interleaving.system (Fin 2) Nat).Reachable t ∧ t.queue.map (·.value) = s.queue ∧
          t.pushed.map (fun x => (x.producer, x.value)) = s.pushed ∧
          t.removed.map (fun r => (r.consumer, r.item.value, r.discarded)) = s.taken ∧
          ∀ i, t.pc i ∈ (s.pc i).places := by
  have hpushed := reachable_pushing.run [.goOn 0, .goOn 0] rfl
  exact ⟨_, hpushed, rfl, rfl, sections_atomic _ hpushed⟩

end ServiceBridge.Locking
