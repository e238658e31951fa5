import Mathlib.Algebra.Order.BigOperators.Group.Finset
import ServiceBridge.Library.Tally
import ServiceBridge.Theorems.Locking

/-! What has been called on a `concurrent_queue` ends: no thread waits for the lock forever, and `clear` does not run
    on, whatever the order of the accesses. -/

namespace ServiceBridge.Locking
open Tally

variable {ι T : Type}

/-- What threads do in what they have called, but for waking up without a notification. -/
def Act.GoesOn : Act ι T → Prop
  | goOn _ => True
  | notify _ _ => True
  | _ => False

/-! ### What is left to do -/

def Op.pending : Op T → Nat
  | push _ => 1
  | _ => 0

/-- The elements that a thread is about to push. -/
def Pc.pending : Pc T → Nat
  | locking op => op.pending
  | locked op => op.pending
  | _ => 0

/-- The steps of a thread past the lock, where `clear` has at most `more` rounds to go from its test on, and `less`
    from there to the next test. -/
def Op.work (more less : Nat) : Op T → Nat
  | push _ => 8
  | empty .user => 2
  | empty .clear => 2 + 8 * more
  | pop (.tryPop .clear) => 7 + 8 * less
  | pop _ => 4

def Pc.work (more less : Nat) : Pc T → Nat
  | idle => 0
  | locking op => op.work more less + 1
  | locked op => op.work more less
  | front p => (Op.pop p : Op T).work more less - 1
  | pop p _ => (Op.pop p : Op T).work more less - 2
  | sleeping => 1
  | asleep => 0
  | unlocking (.push _) _ => 7
  | unlocking (.empty .clear) false => 9 + 8 * less
  | unlocking (.pop (.tryPop .clear)) _ => 4 + 8 * more
  | unlocking _ _ => 1
  | notifying => 6

section
variable {more less more' less' : Nat} {op : Op T} {p : Pc T}

theorem Op.work_mono (hmore : more' ≤ more) (hless : less' ≤ less) : op.work more' less' ≤ op.work more less := by
  rcases op with _ | (_ | _) | ((_ | _) | _) <;> simp only [Op.work] <;> omega

theorem Pc.work_mono (hmore : more' ≤ more) (hless : less' ≤ less) : p.work more' less' ≤ p.work more less := by
  cases p with
  | locking op => exact Nat.add_le_add_right (Op.work_mono hmore hless) 1
  | locked op => exact Op.work_mono hmore hless
  | front p => exact Nat.sub_le_sub_right (Op.work_mono hmore hless) 1
  | pop p x => exact Nat.sub_le_sub_right (Op.work_mono hmore hless) 2
  | unlocking op result =>
    rcases op with _ | (_ | _) | ((_ | _) | _) <;> cases result <;> simp only [Pc.work] <;> omega
  | _ => exact Nat.le_refl _

theorem Pc.work_le (hless : less ≤ more) : p.work more less ≤ 8 * more + 9 := by
  have hop : ∀ op : Op T, op.work more less ≤ 8 * more + 8 := by
    intro op
    rcases op with _ | (_ | _) | ((_ | _) | _) <;> simp only [Op.work] <;> omega
  cases p with
  | locking op => exact Nat.add_le_add_right (hop op) 1
  | locked op => exact Nat.le_succ_of_le (hop op)
  | front p => exact (Nat.sub_le _ _).trans (Nat.le_succ_of_le (hop _))
  | pop p x => exact (Nat.sub_le _ _).trans (Nat.le_succ_of_le (hop _))
  | unlocking op result =>
    rcases op with _ | (_ | _) | ((_ | _) | _) <;> cases result <;> simp only [Pc.work] <;> omega
  | _ =>
    simp only [Pc.work]
    omega

theorem Pc.pending_le (p : Pc T) : p.pending ≤ 1 := by
  cases p with
  | locking op | locked op => rcases op with _ | _ | _ <;> simp [Pc.pending, Op.pending]
  | _ => exact Nat.zero_le 1

theorem Op.pending_next (op : Op T) (result : Bool) : (op.next result).pending = 0 := by
  rcases op with _ | (_ | _) | ((_ | _) | _) <;> cases result <;> rfl

theorem Op.work_next (op : Op T) (result : Bool) :
    (op.next result).work more less + 1 = (Pc.unlocking op result).work more less := by
  rcases op with _ | (_ | _) | ((_ | _) | _) <;> cases result <;> simp [Op.next, Pc.work, Op.work] <;> omega

end

variable [Fintype ι] {s s' : State ι T} {i : ι} {p : Pc T}

/-- What is in the queue or about to be. -/
def State.total (s : State ι T) : Nat := s.queue.length + ∑ i, (s.pc i).pending

/-- What stays there at least once a `clear` that has found something pops. -/
def State.fewer (s : State ι T) : Nat := if s.queue.isEmpty then s.total else s.total - 1

def State.work (s : State ι T) : Nat := ∑ i, (s.pc i).work s.total s.fewer

theorem fewer_le_total (s : State ι T) : s.fewer ≤ s.total := by
  rw [State.fewer]
  split
  · exact Nat.le_refl _
  · exact Nat.sub_le _ _

theorem fewer_of_nil (hq : s.queue = []) : s.fewer = s.total := by
  rw [State.fewer, hq]
  rfl

theorem fewer_of_ne_nil (hq : s.queue ≠ []) : s.fewer + 1 = s.total := by
  have hpos := List.length_pos_iff.mpr hq
  rw [State.fewer, if_neg (by simpa using hq), State.total]
  omega

/-- Where as much is to be pushed or popped as before, or less. -/
theorem fewer_le (htotal : s'.total ≤ s.total) (hq : s.queue ≠ [] → s'.queue = [] → s'.total < s.total) :
    s'.fewer ≤ s.fewer := by
  by_cases hnil : s.queue = []
  · rw [fewer_of_nil hnil]
    exact (fewer_le_total s').trans htotal
  · have hless := fewer_of_ne_nil hnil
    by_cases hnil' : s'.queue = []
    · have hlt := hq hnil hnil'
      rw [fewer_of_nil hnil']
      omega
    · have hless' := fewer_of_ne_nil hnil'
      omega

theorem work_le (s : State ι T) : s.work ≤ Fintype.card ι * (8 * (s.queue.length + Fintype.card ι) + 9) := by
  have hpending : ∑ i, (s.pc i).pending ≤ Fintype.card ι * 1 :=
    Finset.sum_le_card_nsmul _ _ _ fun i _ => (s.pc i).pending_le
  have htotal : s.total ≤ s.queue.length + Fintype.card ι := by
    rw [State.total]
    omega
  refine (Finset.sum_le_card_nsmul _ _ _ fun i _ => Pc.work_le (fewer_le_total s)).trans ?_
  exact Nat.mul_le_mul_left _ (by omega)

variable [DecidableEq ι]

theorem total_goto (hpc : s'.pc = (s.goto i p).pc) :
    s'.total + (s.queue.length + (s.pc i).pending) = s.total + (s'.queue.length + p.pending) := by
  have hsum := sum_update Pc.pending s.pc i p
  rw [State.total, State.total, hpc, State.goto]
  dsimp only
  omega

/-- One thread gets on, and the others have no more to do than before. -/
theorem work_lt (hpc : s'.pc = (s.goto i p).pc) (htotal : s'.total ≤ s.total) (hfewer : s'.fewer ≤ s.fewer)
    (hlt : p.work s'.total s'.fewer < (s.pc i).work s.total s.fewer) : s'.work < s.work := by
  refine Finset.sum_lt_sum (fun j _ => ?_) ⟨i, Finset.mem_univ i, ?_⟩
  · rw [hpc, State.goto]
    dsimp only
    rcases eq_or_ne j i with rfl | hne
    · rw [Function.update_self]
      exact hlt.le
    · rw [Function.update_of_ne hne]
      exact Pc.work_mono htotal hfewer
  · rw [hpc, State.goto]
    dsimp only
    rwa [Function.update_self]

/-- A step that leaves the queue alone. -/
theorem work_lt_of_same (hpc : s'.pc = (s.goto i p).pc) (hqueue : s'.queue = s.queue)
    (hp : p.pending = (s.pc i).pending) (hlt : p.work s.total s.fewer < (s.pc i).work s.total s.fewer) :
    s'.work < s.work := by
  have htotal : s'.total = s.total := by
    have hsum := total_goto hpc
    rw [hqueue, hp] at hsum
    omega
  have hfewer : s'.fewer = s.fewer := by rw [State.fewer, State.fewer, hqueue, htotal]
  exact work_lt hpc htotal.le hfewer.le (by rwa [htotal, hfewer])

theorem work_look {op : Op T} (hi : s.pc i = .locked op) (hlooks : Looks s.queue op p) :
    (s.goto i p).work < s.work := by
  refine work_lt_of_same rfl rfl ?_ ?_
  · rw [hi]
    cases hlooks <;> rfl
  · rw [hi]
    cases hlooks with
    | @empty caller =>
      cases caller with
      | user => exact Nat.one_lt_two
      | clear =>
        cases hq : s.queue with
        | nil => exact Nat.lt_add_right _ Nat.one_lt_two
        | cons x queue =>
          have hless := fewer_of_ne_nil (hq ▸ List.cons_ne_nil x queue)
          simp only [List.isEmpty_cons, Pc.work, Op.work]
          omega
    | @missed caller hnil =>
      cases caller with
      | user => exact (by decide : 1 < 4)
      | clear =>
        simp only [Pc.work, Op.work, fewer_of_nil hnil]
        omega
    | waits hnil => exact (by decide : 1 < 4)
    | @found p hne => rcases p with (_ | _) | _ <;> simp only [Pc.work, Op.work] <;> omega

theorem work_push {data : T} (hi : s.pc i = .locked (.push data)) : (s.access i (.push data)).work < s.work := by
  have hpc : (s.access i (.push data)).pc = (s.goto i (.unlocking (.push data) true)).pc := rfl
  have htotal := total_goto hpc
  have hqueue : (s.access i (.push data)).queue = s.queue ++ [data] := rfl
  rw [hi, hqueue, List.length_append] at htotal
  simp only [Pc.pending, Op.pending, List.length_singleton] at htotal
  have hsame : (s.access i (.push data)).total = s.total := by omega
  refine work_lt hpc hsame.le (fewer_le hsame.le fun _ hnil => ?_) ?_
  · rw [hqueue] at hnil
    simp at hnil
  · rw [hi]
    exact Nat.lt_succ_self 7

theorem work_pop {p : Pop} {x : T} {queue : List T} (hi : s.pc i = .pop p x) (hq : s.queue = x :: queue)
    (hpc : s'.pc = (s.goto i (.unlocking (.pop p) true)).pc) (hqueue : s'.queue = queue) : s'.work < s.work := by
  have htotal := total_goto hpc
  rw [hi, hq, hqueue] at htotal
  simp only [Pc.pending, List.length_cons] at htotal
  have hless := fewer_of_ne_nil (hq ▸ List.cons_ne_nil x queue)
  have hlt : s'.total < s.total := by omega
  refine work_lt hpc hlt.le (fewer_le hlt.le fun _ _ => hlt) ?_
  rw [hi]
  rcases p with (_ | _) | _ <;> simp only [Pc.work, Op.work] <;> omega

/-- A notification is worth more than the look at the queue of the thread that it wakes. -/
theorem work_wake {j : ι} (hi : s.pc i = .notifying) (hj : s.pc j = .asleep) :
    ((s.goto i .idle).goto j (.locking (.pop .waitAndPop))).work < s.work := by
  have hne : j ≠ i := by
    rintro rfl
    cases hi.symm.trans hj
  have hpc : (s.goto i .idle).pc j = .asleep := (Function.update_of_ne hne _ _).trans hj
  have hidle := total_goto (Eq.refl (s.goto i .idle).pc)
  have hwoken := total_goto (Eq.refl ((s.goto i .idle).goto j (.locking (.pop .waitAndPop))).pc)
  have hqueue : ((s.goto i .idle).goto j (.locking (.pop .waitAndPop))).queue = s.queue := rfl
  have hqueue' : (s.goto i .idle).queue = s.queue := rfl
  rw [hi, hqueue'] at hidle
  rw [hpc, hqueue, hqueue'] at hwoken
  simp only [Pc.pending, Op.pending] at hidle hwoken
  have htotal : ((s.goto i .idle).goto j (.locking (.pop .waitAndPop))).total = s.total := by omega
  have hfewer : ((s.goto i .idle).goto j (.locking (.pop .waitAndPop))).fewer = s.fewer := by
    rw [State.fewer, State.fewer, hqueue, htotal]
  have hfirst := sum_update (Pc.work s.total s.fewer) s.pc i .idle
  have hsecond := sum_update (Pc.work s.total s.fewer) (s.goto i .idle).pc j (.locking (.pop .waitAndPop))
  rw [hi] at hfirst
  rw [hpc] at hsecond
  rw [State.work, State.work, htotal, hfewer]
  simp only [Pc.work, Op.work, State.goto] at hfirst hsecond ⊢
  omega

/-- Whatever a thread does on its way, less is left to do. -/
theorem work_goes (hg : Goes s s') : s'.work < s.work := by
  cases hg with
  | lock hi hfree => exact work_lt_of_same rfl rfl (by rw [hi]; rfl) (by rw [hi]; exact Nat.lt_succ_self _)
  | push hi => exact work_push hi
  | look hi hlooks => exact work_look hi hlooks
  | @front i p x hi hx =>
    refine work_lt_of_same rfl rfl (by rw [hi]; rfl) ?_
    rw [hi]
    rcases p with (_ | _) | _ <;> simp only [Pc.work, Op.work] <;> omega
  | pop hi hq => exact work_pop hi hq rfl rfl
  | sleep hi hq => exact work_lt_of_same rfl rfl (by rw [hi]; rfl) (by rw [hi]; exact Nat.one_pos)
  | @unlock i op result hi =>
    refine work_lt_of_same rfl rfl (by rw [hi, Op.pending_next]; rfl) ?_
    rw [hi, ← Op.work_next]
    exact Nat.lt_succ_self _
  | wake hi hj => exact work_wake hi hj
  | unheard hi hno => exact work_lt_of_same rfl rfl (by rw [hi]; rfl) (by rw [hi]; exact Nat.succ_pos 5)

/-! ### Where nothing goes on -/

/-- Nobody has the lock then, or is in front of it. -/
theorem at_rest_of_stuck (h : Guarded s) (hstuck : ∀ a : Act ι T, a.GoesOn → s.step a = none) :
    s.mutex = none ∧ ∀ i, s.pc i = .idle ∨ s.pc i = .asleep := by
  have hgoOn : ∀ i, s.goOn i = none := fun i => hstuck (.goOn i) trivial
  have hfree : s.mutex = none := by
    cases hmutex : s.mutex with
    | none => rfl
    | some i =>
      have hholds := (h.mutex i).mp hmutex
      have hnone := hgoOn i
      rw [State.goOn] at hnone
      cases hi : s.pc i with
      | idle | locking op | asleep | notifying => simp [hi, Pc.holds] at hholds
      | locked op | sleeping | unlocking op result => simp [hi] at hnone
      | front p =>
        rw [hi] at hnone
        dsimp only at hnone
        split at hnone <;> cases hnone
      | pop p x =>
        rw [hi] at hnone
        dsimp only at hnone
        split at hnone <;> cases hnone
  refine ⟨hfree, fun i => ?_⟩
  have hnone := hgoOn i
  have hout : (s.pc i).holds = false := by
    cases hi : (s.pc i).holds with
    | false => rfl
    | true => cases hfree.symm.trans ((h.mutex i).mpr hi)
  cases hi : s.pc i with
  | idle => exact .inl rfl
  | asleep => exact .inr rfl
  | locking op => simp [State.goOn, hi, hfree] at hnone
  | notifying =>
    by_cases hno : ∀ j, (s.pc j).isAsleep = false
    · have hnotify := hstuck (.notify i none) trivial
      simp [State.step, hi, hno] at hnotify
    · push Not at hno
      obtain ⟨j, hj⟩ := hno
      have hasleep : s.pc j = .asleep := by
        cases hp : s.pc j <;> simp [hp, Pc.isAsleep] at hj ⊢
      have hnotify := hstuck (.notify i (some j)) trivial
      simp [State.step, hi, hasleep] at hnotify
  | _ => simp [hi, Pc.holds] at hout

/-- Nothing is left for those that sleep: the last notification has found nobody asleep, or the queue empty since. -/
theorem empty_of_asleep (h : (system ι T).Reachable s) (hrest : ∀ i, s.pc i = .idle ∨ s.pc i = .asleep)
    (hi : s.pc i = .asleep) : s.queue = [] := by
  obtain ⟨t, ht, hshows⟩ := (sections ι T).reachable h
  have hplaces : ∀ j, t.pc j = .idle ∨ t.pc j = .asleep := fun j =>
    (hrest j).imp (fun hj => hshows.at_one hj rfl) fun hj => hshows.at_one hj rfl
  have hnone : ∀ k, k ≠ .idle → k ≠ .asleep → t.count k = 0 := by
    intro k hidle hasleep
    refine tally_eq_zero_iff.mpr fun j => ?_
    rcases hplaces j with hj | hj
    · rw [hj]
      exact hidle.symm
    · rw [hj]
      exact hasleep.symm
  have hle := Interleaving.awaited ht (tally_pos_iff.mpr ⟨i, hshows.at_one hi rfl⟩)
  rw [hnone .notifying (by decide) (by decide), hnone .woken (by decide) (by decide)] at hle
  rw [← hshows.queue, List.length_eq_zero_iff.mp (Nat.le_zero.mp hle)]
  rfl

/-- From any state on, if no function is called any more and nobody is woken by nothing, the threads go on for a
    bounded number of steps, however they take turns; and where they cannot, the lock is free and each of them has
    returned, or sleeps in `wait_and_pop` with the queue empty. -/
theorem calls_end (s t : State ι T) (l : List (State ι T × Act ι T)) (h : (system ι T).Reachable s)
    (hl : (system ι T).Trace s l t) (hgo : ∀ x ∈ l, x.2.GoesOn) :
    l.length ≤ Fintype.card ι * (8 * (s.queue.length + Fintype.card ι) + 9) ∧
      ((∀ a : Act ι T, a.GoesOn → t.step a = none) →
        t.mutex = none ∧ ∀ i, t.pc i = .idle ∨ (t.pc i = .asleep ∧ t.queue = [])) := by
  constructor
  · have hlength := hl.length_le_of (I := Guarded) State.work (fun s a u ha hguarded hs => by
      have hg : Goes s u := by
        cases a with
        | goOn i => exact goes_of_goOn hguarded hs
        | notify i sleeper => exact goes_of_notify hs
        | call i c => exact ha.elim
        | spuriousWake i => exact ha.elim
      exact ⟨hguarded.goes hg, work_goes hg⟩) (Guarded.of_reachable h) hgo
    have hle := work_le s
    omega
  · intro hstuck
    have ht := hl.reachable h
    obtain ⟨hfree, hrest⟩ := at_rest_of_stuck (Guarded.of_reachable ht) hstuck
    exact ⟨hfree, fun i => (hrest i).imp_right fun hi => ⟨hi, empty_of_asleep ht hrest hi⟩⟩

theorem calls_end_pushing : ∃ (t : State (Fin 2) Nat) (l : List (State (Fin 2) Nat × Act (Fin 2) Nat)),
    (system (Fin 2) Nat).Trace pushing l t ∧ t.mutex = some 1 ∧ t.queue = [7] ∧
      l.length ≤ Fintype.card (Fin 2) * (8 * (pushing.queue.length + Fintype.card (Fin 2)) + 9) ∧
        ((∀ a : Act (Fin 2) Nat, a.GoesOn → t.step a = none) →
          t.mutex = none ∧ ∀ i, t.pc i = .idle ∨ (t.pc i = .asleep ∧ t.queue = [])) := by
  have hlock := System.Trace.nil.snoc (M := system (Fin 2) Nat) (s := pushing) (a := .goOn 0) rfl
  have hpushed := hlock.snoc (a := .goOn 0) rfl
  have hunlock := hpushed.snoc (a := .goOn 0) rfl
  have hl := hunlock.snoc (a := .goOn 1) rfl
  exact ⟨_, _, hl, rfl, rfl, calls_end _ _ _ reachable_pushing hl (by simp [Act.GoesOn])⟩

end ServiceBridge.Locking
