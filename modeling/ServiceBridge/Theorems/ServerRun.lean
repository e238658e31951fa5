import Mathlib.Algebra.Order.BigOperators.Group.Finset
import ServiceBridge.Library.Tally
import ServiceBridge.Theorems.ServerPool

/-! How `run` comes to its end: a server that is stopped finishes the handlers that have begun, and no others. -/

namespace ServiceBridge.Http

variable {ι : Type} {docRoot : Str} {s s' : Pool ι} {thread : ι → Thread} {k : ι} {i : Nat} {h : Handler} {p : Thread}

/-! ### What is left to do -/

def Handler.work : Handler → Nat
  | reading _ => 4
  | parsed _ => 3
  | replied _ => 2
  | writing _ => 2
  | leaving => 1

/-- How many steps a thread has still to take before it returns, when it begins no other handler. -/
def Thread.work : Thread → Nat
  | idle => 1
  | accepting _ _ => 3
  | started _ => 2
  | handling _ h => h.work + 1
  | returned => 0

theorem Thread.work_le (p : Thread) : p.work ≤ 5 := by
  cases p with
  | handling i h => cases h <;> simp [Thread.work, Handler.work]
  | idle | accepting | started | returned => simp [Thread.work]

/-- The acts of the threads. -/
def PoolAct.isThread : PoolAct ι → Bool
  | change _ => false
  | stop => false
  | _ => true

/-- No thread begins a handler any more. -/
def Pool.Ending (s : Pool ι) : Prop := s.stopped = true ∨ s.OutOfWork

theorem goOn_work (docRoot : Str) (files : Str → File) (c : Connection) (h : Handler) (i : Nat) :
    ((c.goOn docRoot files h).2.elim .idle (.handling i) : Thread).work < (Thread.handling i h).work := by
  cases h with
  | reading data =>
    cases data with
    | none => simp [Connection.goOn, Thread.work, Handler.work]
    | some bytes =>
      rw [Connection.goOn]
      split <;> simp [Thread.work, Handler.work]
  | parsed result =>
    rcases result with _ | _ | _
    · simp [Connection.goOn, Thread.work, Handler.work]
    · simp [Connection.goOn, Thread.work, Handler.work]
    · rw [Connection.goOn]
      split <;> simp [Thread.work, Handler.work]
  | replied | writing | leaving => simp [Connection.goOn, Thread.work, Handler.work]

section
variable [DecidableEq ι]

/-- A handler that goes on has less left to do, and a thread without a handler does not go on. -/
theorem goOn_moves (hs : s.goOn docRoot k = some s') : (s.thread k).isBusy = true ∧ s'.stopped = s.stopped ∧
    ∃ p, s'.thread = Function.update s.thread k p ∧ p.work < (s.thread k).work ∧ p ≠ .returned := by
  rw [Pool.goOn] at hs
  split at hs
  · next hk =>
    cases hs
    rw [hk]
    exact ⟨rfl, rfl, _, rfl, by simp [Thread.work], fun heq => by cases heq⟩
  · next hk =>
    cases hs
    rw [hk]
    exact ⟨rfl, rfl, _, rfl, by simp [Thread.work], fun heq => by cases heq⟩
  · next hk =>
    cases hs
    rw [hk]
    exact ⟨rfl, rfl, _, rfl, by simp [Thread.work], fun heq => by cases heq⟩
  · next i h hk =>
    simp only [Option.bind_eq_bind, Option.bind_eq_some_iff, Option.some.injEq] at hs
    obtain ⟨c, -, rfl⟩ := hs
    rw [hk]
    refine ⟨rfl, rfl, _, rfl, goOn_work docRoot s.files c h i, ?_⟩
    intro heq
    cases hrest : (c.goOn docRoot s.files h).2 <;> rw [hrest] at heq <;> cases heq
  · cases hs

theorem isBusy_update (hk : p.isBusy = false) (hall : ∀ j, (thread j).isBusy = false) :
    ∀ j, (Function.update thread k p j).isBusy = false := by
  intro j
  rcases eq_or_ne j k with rfl | hne
  · rwa [Function.update_self]
  · rw [Function.update_of_ne hne, hall]

theorem Pool.OutOfWork.begin_eq_none (hout : s.OutOfWork) {pending : Pending}
    (hp : pending = .read ∨ pending = .write) : s.begin k i pending h = none := by
  cases hs : s.begin k i pending h with
  | none => rfl
  | some s' =>
    simp only [Pool.begin, Option.bind_eq_bind, Option.bind_eq_some_iff, Option.ite_none_right_eq_some] at hs
    obtain ⟨c, hc, rfl, -⟩ := hs
    obtain ⟨hread, hwrite⟩ := hout.2.1 c (List.mem_of_getElem? hc)
    rcases hp with hp | hp
    · exact absurd hp hread
    · exact absurd hp hwrite

theorem returned_of_update {j : ι} (hthread : s'.thread = Function.update s.thread k p) (hp : p ≠ .returned)
    (hj : s'.thread j = .returned) : s.thread j = .returned := by
  rw [hthread] at hj
  rcases eq_or_ne j k with rfl | hne
  · rw [Function.update_self] at hj
    exact absurd hj hp
  · rwa [Function.update_of_ne hne] at hj

theorem begin_thread {pending : Pending} (hs : s.begin k i pending h = some s') :
    s'.thread = Function.update s.thread k (.handling i h) := by
  simp only [Pool.begin, Option.bind_eq_bind, Option.bind_eq_some_iff, Option.ite_none_right_eq_some,
    Option.some.injEq] at hs
  obtain ⟨c, -, -, rfl⟩ := hs
  rfl

variable [Fintype ι] {a : PoolAct ι}

def Pool.work (s : Pool ι) : Nat := ∑ k, (s.thread k).work

theorem work_update (hthread : s'.thread = Function.update s.thread k p) (hlt : p.work < (s.thread k).work) :
    s'.work + 1 ≤ s.work := by
  have hsum := Tally.sum_update Thread.work s.thread k p
  rw [Pool.work, Pool.work, hthread]
  omega

/-- Any step of the threads lowers what is left to do, and none begins a handler. -/
theorem Pool.Ending.step (hend : s.Ending) (hs : s.step docRoot a = some s') :
    s'.Ending ∧ s'.work + (if a.isThread then 1 else 0) ≤ s.work := by
  cases a with
  | accept k ok major minor status =>
    rw [Pool.step] at hs
    split at hs
    · rw [Option.ite_none_right_eq_some] at hs
      obtain ⟨⟨haccepting, hrunning⟩, -⟩ := hs
      rcases hend with hstopped | ⟨hout, -⟩
      · simp [hstopped] at hrunning
      · simp [hout] at haccepting
    · cases hs
  | read k i data =>
    rw [Pool.step] at hs
    split at hs
    · rw [Option.ite_none_right_eq_some] at hs
      obtain ⟨⟨-, -, hrunning⟩, hs⟩ := hs
      rcases hend with hstopped | hout
      · simp [hstopped] at hrunning
      · rw [hout.begin_eq_none (.inl rfl)] at hs
        cases hs
    · cases hs
  | write k i ok =>
    rw [Pool.step] at hs
    split at hs
    · rw [Option.ite_none_right_eq_some] at hs
      obtain ⟨⟨-, hrunning⟩, hs⟩ := hs
      rcases hend with hstopped | hout
      · simp [hstopped] at hrunning
      · rw [hout.begin_eq_none (.inr rfl)] at hs
        cases hs
    · cases hs
  | goOn k =>
    obtain ⟨hbusy, hstopped, p, hthread, hlt, -⟩ := goOn_moves hs
    refine ⟨?_, work_update hthread hlt⟩
    rcases hend with hend | hout
    · exact .inl (hstopped.trans hend)
    · rw [hout.2.2] at hbusy
      cases hbusy
  | leave k =>
    rw [Pool.step] at hs
    split at hs
    · next hk =>
      rw [Option.ite_none_right_eq_some, Option.some.injEq] at hs
      obtain ⟨-, rfl⟩ := hs
      refine ⟨?_, work_update (k := k) rfl (by rw [hk]; decide)⟩
      exact hend.imp id fun hout => ⟨hout.1, hout.2.1, isBusy_update rfl hout.2.2⟩
    · cases hs
  | change files =>
    cases hs
    exact ⟨hend, Nat.le_refl _⟩
  | stop =>
    cases hs
    exact ⟨.inl rfl, Nat.le_refl _⟩

/-- A thread returns only when no handler begins any more. -/
theorem ending_of_returns {j : ι} (hs : s.step docRoot a = some s') (hj : s'.thread j = .returned) :
    s.thread j = .returned ∨ s.Ending := by
  cases a with
  | accept k ok major minor status =>
    rw [Pool.step] at hs
    split at hs
    · rw [Option.ite_none_right_eq_some, Option.some.injEq] at hs
      obtain ⟨-, rfl⟩ := hs
      have hp : Thread.accepting ok (.new major minor status) ≠ .returned := fun heq => by cases heq
      exact .inl (returned_of_update (k := k) rfl hp hj)
    · cases hs
  | read k i data =>
    rw [Pool.step] at hs
    split at hs
    · rw [Option.ite_none_right_eq_some] at hs
      exact .inl (returned_of_update (begin_thread hs.2) (fun heq => by cases heq) hj)
    · cases hs
  | write k i ok =>
    rw [Pool.step] at hs
    split at hs
    · rw [Option.ite_none_right_eq_some] at hs
      exact .inl (returned_of_update (begin_thread hs.2) (fun heq => by cases heq) hj)
    · cases hs
  | goOn k =>
    obtain ⟨-, -, p, hthread, -, hp⟩ := goOn_moves hs
    exact .inl (returned_of_update hthread hp hj)
  | leave k =>
    rw [Pool.step] at hs
    split at hs
    · rw [Option.ite_none_right_eq_some] at hs
      exact .inr hs.1
    · cases hs
  | change files =>
    cases hs
    exact .inl hj
  | stop =>
    cases hs
    exact .inl hj

/-- A thread that has not returned has something to do at the end. -/
theorem returned_of_stuck (hend : s.Ending)
    (hbound : ∀ k i, (s.thread k).strand = some i → i < s.connections.length)
    (hstuck : ∀ a : PoolAct ι, a.isThread = true → s.step docRoot a = none) (k : ι) : s.thread k = .returned := by
  have hleave := hstuck (.leave k) rfl
  have hgoOn : s.goOn docRoot k = none := hstuck (.goOn k) rfl
  rw [Pool.step] at hleave
  rw [Pool.goOn] at hgoOn
  cases hk : s.thread k with
  | idle =>
    rw [hk] at hleave
    have hsome : (if s.stopped = true ∨ s.OutOfWork then some (s.goto k .returned) else none) =
        some (s.goto k .returned) := if_pos hend
    cases hsome.symm.trans hleave
  | accepting ok next =>
    rw [hk] at hgoOn
    cases ok <;> cases hgoOn
  | started next =>
    rw [hk] at hgoOn
    cases hgoOn
  | handling i h =>
    have hi := hbound k i (by rw [hk]; rfl)
    rw [hk] at hgoOn
    simp only [List.getElem?_eq_getElem hi, Option.bind_eq_bind, Option.bind_some] at hgoOn
    cases hgoOn
  | returned => rfl

end

/-! ### Runs -/

/-- `run` returns once the server is stopped or has nothing left to do, and not before: a thread returns only then,
    and from then on no run has more than five steps of each thread, and one whose threads cannot go on has ended
    with all of them returned. -/
theorem run_returns (docRoot : Str) (ι : Type) [Fintype ι] [DecidableEq ι] (s : Pool ι)
    (h : (Pool.system docRoot ι).Reachable s) :
    ((∃ k, s.thread k = .returned) → s.stopped = true ∨ s.OutOfWork) ∧
      (s.stopped = true ∨ s.OutOfWork → ∀ l t, (Pool.system docRoot ι).Trace s l t →
        l.countP (fun x => x.2.isThread) ≤ 5 * Fintype.card ι ∧
          ((∀ a : PoolAct ι, a.isThread = true → t.step docRoot a = none) → ∀ k, t.thread k = .returned)) := by
  constructor
  · refine h.invariant (I := fun s => (∃ k, s.thread k = .returned) → s.Ending) ?_ ?_
    · rintro s ⟨-, -, -, -, hidle⟩ ⟨k, hk⟩
      rw [hidle] at hk
      cases hk
    · rintro s a t ih hstep ⟨k, hk⟩
      rcases ending_of_returns hstep hk with hk | hend
      · exact ((ih ⟨k, hk⟩).step hstep).1
      · exact (hend.step hstep).1
  · intro hend l t hl
    obtain ⟨hend', hcount⟩ := hl.countP_le (I := Pool.Ending) (A := fun _ => True) Pool.work PoolAct.isThread
      (fun _ _ _ _ hI hstep => hI.step hstep) hend fun _ _ => trivial
    constructor
    · have hwork : s.work ≤ Fintype.card ι * 5 :=
        Finset.sum_le_card_nsmul _ _ _ fun k _ => (s.thread k).work_le
      omega
    · obtain ⟨u, -, hshows⟩ := (poolSimulation docRoot ι).reachable (hl.reachable h)
      exact fun hstuck => returned_of_stuck hend' hshows.handles.bound hstuck

theorem run_returns_two : ∃ s : Pool (Fin 2), s.stopped = true ∧ (s.thread 0).isAccepting = true ∧
    ∀ l t, (Pool.system ['w'] (Fin 2)).Trace s l t → l.countP (fun x => x.2.isThread) ≤ 5 * Fintype.card (Fin 2) ∧
      ((∀ a : PoolAct (Fin 2), a.isThread = true → t.step ['w'] a = none) → ∀ k, t.thread k = .returned) := by
  obtain ⟨s, hs, haccepting, -⟩ := exists_overlap
  have hstop := hs.step (a := .stop) rfl
  exact ⟨{ s with stopped := true }, rfl, haccepting, (run_returns ['w'] (Fin 2) _ hstop).2 (.inl rfl)⟩

end ServiceBridge.Http
