import ServiceBridge.Theorems.Order

/-! A call of `clear` among other threads. Its test and its pop are two critical sections, between which the
    others may push and pop; when its last test finds the queue empty, what was queued at first has been removed. -/

namespace ServiceBridge.Interleaving

variable {ι T : Type} {s t u : State ι T} {a : Act ι T} {i j : ι}

/-! ### What a call does -/

/-- How often the body of `i`'s call can still run while nothing is pushed: once for each element, and once if it
    has been entered. -/
def bodiesLeft (i : ι) (s : State ι T) : Nat := max s.queue.length (if s.pc i = .clearPop then 1 else 0)

theorem bodiesLeft_of_ne (h : s.pc i ≠ .clearPop) : bodiesLeft i s = s.queue.length := by
  rw [bodiesLeft, if_neg h, Nat.max_zero]

theorem length_le_bodiesLeft : s.queue.length ≤ bodiesLeft i s := Nat.le_max_left _ _

variable [DecidableEq ι]

theorem bodiesLeft_goto {p : Pc} (hp : p ≠ .clearPop) : bodiesLeft i (s.goto i p) = s.queue.length :=
  bodiesLeft_of_ne (ne_of_eq_of_ne State.pc_goto hp)

/-- Whether a step is a run of the loop body in `i`'s call. -/
def Act.isBody (i : ι) : Act ι T → Bool
  | .clearPop j => j = i
  | _ => false

@[simp] theorem isBody_self : (.clearPop i : Act ι T).isBody i = true := decide_eq_true rfl

/-- How often the loop body of `i`'s call has run. -/
def bodyRuns (i : ι) (l : List (State ι T × Act ι T)) : Nat := l.countP fun x => x.2.isBody i

def NoPush (l : List (State ι T × Act ι T)) : Prop := ∀ x ∈ l, ∀ j data, x.2 ≠ .push j data

theorem isBody_of_ne (h : a ≠ .clearPop i) : a.isBody i = false := by
  cases a with
  | clearPop j =>
    refine decide_eq_false ?_
    rintro rfl
    exact h rfl
  | _ => rfl

theorem bodyRuns_concat (l : List (State ι T × Act ι T)) :
    bodyRuns i (l ++ [(t, a)]) = bodyRuns i l + if a.isBody i then 1 else 0 := by
  rw [bodyRuns, List.countP_append, List.countP_singleton]
  rfl

/-- `i` waits for nothing: unless its call has returned, it can go on with its next critical section. -/
def Unblocked [Fintype ι] (i : ι) (t : State ι T) : Prop :=
  t.pc i ≠ .asleep ∧ (t.pc i = .idle ∨ (∃ u, t.step (.clearTest i) = some u) ∨ ∃ u, t.step (.clearPop i) = some u)

/-- Between `s` and `t` the element has been removed, and it is removed nowhere else; if by `i`, in `clear`. -/
def RemovedOnce (i : ι) (s t : State ι T) (item : Item ι T) : Prop :=
  ∃ k r, s.removed.length ≤ k ∧ t.removed[k]? = some r ∧ r.item = item ∧ (r.consumer = i → r.discarded = true) ∧
    ∀ k' r', t.removed[k']? = some r' → r'.item = item → k' = k

/-- What holds after any part `l` of a call that `i` began at `s`. -/
structure Clearing (i : ι) (s : State ι T) (l : List (State ι T × Act ι T)) (t : State ι T) : Prop where
  place : t.pc i = .clearTest ∨ t.pc i = .clearPop ∨ t.pc i = .idle ∧ t.queue = []
  pushed : s.pushed <+: t.pushed
  removed : ∃ new, t.removed = s.removed ++ new ∧ ∀ r ∈ new, r.consumer = i → r.discarded = true
  bodies : NoPush l → bodyRuns i l + bodiesLeft i t ≤ s.queue.length

/-! ### The steps during a call -/

/-- What a step can do while `i` is in `clear`: the two critical sections of `i`, or what others do. -/
inductive ClearEffect (i : ι) (s : State ι T) : Act ι T → State ι T → Prop
  | returns (hi : s.pc i = .clearTest) (hq : s.queue = []) : ClearEffect i s (.clearTest i) (s.goto i .idle)
  | enters (hi : s.pc i = .clearTest) (hq : s.queue ≠ []) : ClearEffect i s (.clearTest i) (s.goto i .clearPop)
  | missed (hi : s.pc i = .clearPop) (hq : s.queue = []) : ClearEffect i s (.clearPop i) (s.goto i .clearTest)
  | popped {item : Item ι T} {queue : List (Item ι T)} (hi : s.pc i = .clearPop) (hq : s.queue = item :: queue) :
      ClearEffect i s (.clearPop i)
        { s.goto i .clearTest with queue := queue, removed := s.removed ++ [⟨item, i, true⟩] }
  | other {a : Act ι T} {t : State ι T} (hact : a ≠ .clearPop i) (hpc : t.pc i = s.pc i)
      (hpushed : s.pushed <+: t.pushed)
      (hremoved : ∃ new, t.removed = s.removed ++ new ∧ ∀ r ∈ new, r.consumer ≠ i)
      (hqueue : (∀ k data, a ≠ .push k data) → t.queue.length ≤ s.queue.length) : ClearEffect i s a t

theorem ClearEffect.of_goto {p : Pc} (hact : a ≠ .clearPop i) (hne : i ≠ j) : ClearEffect i s a (s.goto j p) :=
  .other hact (State.pc_goto_of_ne hne) List.prefix_rfl ⟨[], (List.append_nil _).symm, List.forall_mem_nil _⟩
    fun _ => Nat.le_refl _

theorem ClearEffect.of_afterPop {got missed : Pc} {discarded : Bool}
    {pop : List (Item ι T) → Except Fault (Option (Item ι T) × List (Item ι T))}
    (nil : pop [] = .ok (none, [])) (cons : ∀ item queue, pop (item :: queue) = .ok (some item, queue))
    (hact : a ≠ .clearPop i) (hne : i ≠ j) : ClearEffect i s a (s.afterPop j got missed discarded (pop s.queue)) := by
  cases hq : s.queue with
  | nil =>
    rw [nil, State.afterPop, ← hq]
    exact .of_goto hact hne
  | cons item queue =>
    rw [cons]
    refine .other hact (State.pc_goto_of_ne hne) List.prefix_rfl ⟨_, rfl, ?_⟩ fun _ => ?_
    · exact List.forall_mem_singleton.mpr hne.symm
    · rw [hq]
      exact Nat.le_succ _

theorem ClearEffect.of_clearTest (hj : s.pc j = .clearTest) : ClearEffect i s (.clearTest j)
    (s.goto j (if ConcurrentQueue.empty s.queue then .idle else .clearPop)) := by
  rcases eq_or_ne i j with rfl | hne
  · cases hq : s.queue with
    | nil => exact .returns hj hq
    | cons item queue => exact .enters hj (by rw [hq]; exact List.cons_ne_nil _ _)
  · exact .of_goto nofun hne

theorem ClearEffect.of_clearPop (hj : s.pc j = .clearPop) : ClearEffect i s (.clearPop j)
    (s.afterPop j .clearTest .clearTest true (ConcurrentQueue.tryPop s.queue)) := by
  rcases eq_or_ne i j with rfl | hne
  · cases hq : s.queue with
    | nil =>
      rw [ConcurrentQueue.tryPop_nil, State.afterPop, ← hq]
      exact .missed hj hq
    | cons item queue =>
      rw [ConcurrentQueue.tryPop_cons]
      exact .popped hj hq
  · refine .of_afterPop ConcurrentQueue.tryPop_nil ConcurrentQueue.tryPop_cons ?_ hne
    rintro ⟨⟩
    exact hne rfl

namespace ClearEffect

theorem place (h : ClearEffect i s a t) (hi : s.pc i = .clearTest ∨ s.pc i = .clearPop) :
    t.pc i = .clearTest ∨ t.pc i = .clearPop ∨ t.pc i = .idle ∧ t.queue = [] := by
  cases h with
  | returns _ hq => exact .inr (.inr ⟨State.pc_goto, hq⟩)
  | enters => exact .inr (.inl State.pc_goto)
  | missed => exact .inl State.pc_goto
  | popped => exact .inl State.pc_goto
  | other _ hpc =>
    rw [hpc]
    exact hi.imp_right .inl

theorem pushed (h : ClearEffect i s a t) : s.pushed <+: t.pushed := by
  cases h with
  | other _ _ hpushed => exact hpushed
  | _ => exact List.prefix_rfl

theorem removed (h : ClearEffect i s a t) :
    ∃ new, t.removed = s.removed ++ new ∧ ∀ r ∈ new, r.consumer = i → r.discarded = true := by
  cases h with
  | popped => exact ⟨_, rfl, List.forall_mem_singleton.mpr fun _ => rfl⟩
  | other _ _ _ hremoved =>
    obtain ⟨new, hnew, hothers⟩ := hremoved
    exact ⟨new, hnew, fun r hr hi => absurd hi (hothers r hr)⟩
  | _ => exact ⟨[], (List.append_nil _).symm, List.forall_mem_nil _⟩

/-- Each run of the body uses one up; the other threads can only use up more. -/
theorem bodies (h : ClearEffect i s a t) (hno : ∀ k data, a ≠ .push k data) :
    (if a.isBody i then 1 else 0) + bodiesLeft i t ≤ bodiesLeft i s := by
  cases h with
  | returns =>
    rw [bodiesLeft_goto (p := .idle) nofun]
    exact (Nat.zero_add _).trans_le length_le_bodiesLeft
  | enters hi hq =>
    have hpos := List.length_pos_iff.mpr hq
    have now : bodiesLeft i s = s.queue.length := bodiesLeft_of_ne (ne_of_eq_of_ne hi nofun)
    rw [now, bodiesLeft, State.pc_goto, State.queue_goto, if_pos rfl, Nat.max_eq_left hpos]
    exact (Nat.zero_add _).le
  | missed hi hq =>
    rw [bodiesLeft_goto (p := .clearTest) nofun, bodiesLeft, hi, hq, isBody_self]
    exact Nat.le_refl 1
  | @popped item queue hi hq =>
    have here : (s.goto i .clearTest).pc i ≠ .clearPop := ne_of_eq_of_ne State.pc_goto nofun
    have hlen : queue.length + 1 = s.queue.length := by rw [hq, List.length_cons]
    rw [isBody_self, if_pos rfl, Nat.add_comm, bodiesLeft_of_ne]
    · exact hlen.trans_le length_le_bodiesLeft
    · exact here
  | other hact hpc _ _ hqueue =>
    rw [isBody_of_ne hact, bodiesLeft, bodiesLeft, hpc]
    exact (Nat.zero_add _).trans_le (max_le_max_right _ (hqueue hno))

end ClearEffect

variable [Fintype ι]

theorem clearEffect_of_step (hi : s.pc i = .clearTest ∨ s.pc i = .clearPop) (h : s.step a = some t) :
    ClearEffect i s a t := by
  have apart : ∀ {k p}, s.pc k = p → p ≠ .clearTest → p ≠ .clearPop → i ≠ k := by
    rintro k p hk htest hpop rfl
    rcases hi with hi | hi
    · exact htest (hk.symm.trans hi)
    · exact hpop (hk.symm.trans hi)
  cases a with
  | push k data =>
    obtain ⟨hk, ⟨⟩⟩ := Option.ite_none_right_eq_some.mp h
    refine .other nofun (State.pc_goto_of_ne (apart hk nofun nofun)) (List.prefix_append _ _)
      ⟨[], (List.append_nil _).symm, List.forall_mem_nil _⟩ fun hno => absurd rfl (hno k data)
  | notify k sleeper =>
    cases sleeper with
    | none =>
      obtain ⟨⟨hk, -⟩, ⟨⟩⟩ := Option.ite_none_right_eq_some.mp h
      exact .of_goto nofun (apart hk nofun nofun)
    | some m =>
      obtain ⟨⟨hk, hm⟩, ⟨⟩⟩ := Option.ite_none_right_eq_some.mp h
      have still : ((s.goto k .idle).goto m .woken).pc i = s.pc i :=
        (State.pc_goto_of_ne (apart hm nofun nofun)).trans (State.pc_goto_of_ne (apart hk nofun nofun))
      exact .other nofun still List.prefix_rfl ⟨[], (List.append_nil _).symm, List.forall_mem_nil _⟩
        fun _ => Nat.le_refl _
  | empty k =>
    obtain ⟨hk, ⟨⟩⟩ := Option.ite_none_right_eq_some.mp h
    exact .of_goto nofun (apart hk nofun nofun)
  | tryPop k =>
    obtain ⟨hk, ⟨⟩⟩ := Option.ite_none_right_eq_some.mp h
    exact .of_afterPop ConcurrentQueue.tryPop_nil ConcurrentQueue.tryPop_cons nofun (apart hk nofun nofun)
  | waitAndPop k =>
    obtain ⟨hk, ⟨⟩⟩ := Option.ite_none_right_eq_some.mp h
    exact .of_afterPop ConcurrentQueue.waitAndPop_nil ConcurrentQueue.waitAndPop_cons nofun (apart hk nofun nofun)
  | spuriousWake k =>
    obtain ⟨hk, ⟨⟩⟩ := Option.ite_none_right_eq_some.mp h
    exact .of_goto nofun (apart hk nofun nofun)
  | retest k =>
    obtain ⟨hk, ⟨⟩⟩ := Option.ite_none_right_eq_some.mp h
    exact .of_afterPop ConcurrentQueue.waitAndPop_nil ConcurrentQueue.waitAndPop_cons nofun (apart hk nofun nofun)
  | clear k =>
    obtain ⟨hk, ⟨⟩⟩ := Option.ite_none_right_eq_some.mp h
    exact .of_goto nofun (apart hk nofun nofun)
  | clearTest k =>
    obtain ⟨hk, ⟨⟩⟩ := Option.ite_none_right_eq_some.mp h
    exact .of_clearTest hk
  | clearPop k =>
    obtain ⟨hk, ⟨⟩⟩ := Option.ite_none_right_eq_some.mp h
    exact .of_clearPop hk

/-! ### The call -/

namespace Clearing
variable {l : List (State ι T × Act ι T)}

theorem start (call : s.step (.clear i) = some t) : Clearing i s [] t := by
  obtain ⟨-, ⟨⟩⟩ := Option.ite_none_right_eq_some.mp call
  refine ⟨.inl State.pc_goto, List.prefix_rfl, ⟨[], (List.append_nil _).symm, List.forall_mem_nil _⟩, fun _ => ?_⟩
  rw [bodiesLeft_goto (p := .clearTest) nofun]
  exact (Nat.zero_add _).le

theorem step (h : Clearing i s l t) (ongoing : t.pc i ≠ .idle) (hs : t.step a = some u) :
    Clearing i s (l ++ [(t, a)]) u := by
  have inCall : t.pc i = .clearTest ∨ t.pc i = .clearPop := by
    rcases h.place with htest | hpop | ⟨hidle, -⟩
    · exact .inl htest
    · exact .inr hpop
    · exact absurd hidle ongoing
  have effect := clearEffect_of_step inCall hs
  obtain ⟨new, hnew, hmine⟩ := h.removed
  obtain ⟨more, hmore, hthen⟩ := effect.removed
  refine ⟨effect.place inCall, h.pushed.trans effect.pushed, ⟨new ++ more, ?_, ?_⟩, fun hno => ?_⟩
  · rw [hmore, hnew, List.append_assoc]
  · exact List.forall_mem_append.mpr ⟨hmine, hthen⟩
  · obtain ⟨before, last⟩ := List.forall_mem_append.mp hno
    have past := h.bodies before
    have now := effect.bodies (last _ List.mem_cons_self)
    rw [bodyRuns_concat, Nat.add_assoc]
    exact (Nat.add_le_add_left now _).trans past

theorem unblocked (h : Clearing i s l t) : Unblocked i t := by
  rcases h.place with htest | hpop | ⟨hidle, -⟩
  · exact ⟨fun hi => absurd (htest.symm.trans hi) nofun, .inr (.inl ⟨_, if_pos htest⟩)⟩
  · exact ⟨fun hi => absurd (hpop.symm.trans hi) nofun, .inr (.inr ⟨_, if_pos hpop⟩)⟩
  · exact ⟨fun hi => absurd (hidle.symm.trans hi) nofun, .inl hidle⟩

theorem of_run {s₁ : State ι T} (call : s.step (.clear i) = some s₁) (run : (system ι T).Trace s₁ l t)
    (ongoing : ∀ x ∈ l, x.1.pc i ≠ .idle) : System.Always (Unblocked i) l t ∧ Clearing i s l t := by
  induction run with
  | nil => exact ⟨⟨List.forall_mem_nil _, (start call).unblocked⟩, start call⟩
  | snoc _ hstep ih =>
    obtain ⟨before, last⟩ := List.forall_mem_append.mp ongoing
    obtain ⟨⟨past, now⟩, hl⟩ := ih before
    have next := hl.step (last _ List.mem_cons_self) hstep
    exact ⟨⟨List.forall_mem_append.mpr ⟨past, List.forall_mem_singleton.mpr now⟩, next.unblocked⟩, next⟩

/-- When the call has returned, what was queued at its start is the first part of what has been removed since. -/
theorem removedOnce (h : Clearing i s l t) (hs : (system ι T).Reachable s) (ht : (system ι T).Reachable t)
    (returned : t.queue = []) {item : Item ι T} (hitem : item ∈ s.queue) : RemovedOnce i s t item := by
  obtain ⟨new, hnew, hmine⟩ := h.removed
  have htaken : t.taken = s.taken ++ new.map (·.item) := by
    rw [State.taken, hnew, List.map_append]
    rfl
  have since : s.queue <+: new.map (·.item) := by
    have hall := taken_append_queue ht
    rw [returned, List.append_nil, htaken] at hall
    have hpushed := h.pushed
    rw [← hall, ← taken_append_queue hs] at hpushed
    exact (List.prefix_append_right_inj _).mp hpushed
  obtain ⟨r, hr, rfl⟩ := List.mem_map.mp (since.subset hitem)
  obtain ⟨m, hm⟩ := List.mem_iff_getElem?.mp hr
  have hget : t.removed[s.removed.length + m]? = some r := by
    rw [hnew, List.getElem?_append_right (Nat.le_add_right _ _), Nat.add_sub_cancel_left, hm]
  exact ⟨_, r, Nat.le_add_right _ _, hget, rfl, hmine r hr, fun k r' hk heq => removed_unique ht hk hget heq⟩

end Clearing

/-- A call of `clear`, whatever the other threads do meanwhile: it never waits; when it returns, each element that
    was queued at its start has been removed once; and without pushes its body runs at most once for each of
    these, and it leaves the queue empty. -/
theorem clear_removes {s s₁ t : State ι T} {i : ι} {l : List (State ι T × Act ι T)} (h : (system ι T).Reachable s)
    (call : s.step (.clear i) = some s₁) (run : (system ι T).Trace s₁ l t)
    (ongoing : ∀ x ∈ l, x.1.pc i ≠ .idle) :
    System.Always (Unblocked i) l t ∧
    (t.pc i = .idle → ∀ item ∈ s.queue, RemovedOnce i s t item) ∧
    (NoPush l → bodyRuns i l ≤ s.queue.length ∧ (t.pc i = .idle → t.queue = [])) := by
  obtain ⟨unblocked, clearing⟩ := Clearing.of_run call run ongoing
  have ht : (system ι T).Reachable t := run.reachable (h.step (a := .clear i) call)
  have returned : t.pc i = .idle → t.queue = [] := by
    intro hi
    rcases clearing.place with htest | hpop | ⟨-, hq⟩
    · exact absurd (htest.symm.trans hi) nofun
    · exact absurd (hpop.symm.trans hi) nofun
    · exact hq
  refine ⟨unblocked, fun hi item hitem => ?_, fun hno => ⟨?_, returned⟩⟩
  · exact clearing.removedOnce h ht (returned hi) hitem
  · exact (Nat.le_add_right _ _).trans (clearing.bodies hno)

theorem clear_removes_two : ∃ (s t : State (Fin 2) Nat) (l : List (State (Fin 2) Nat × Act (Fin 2) Nat)),
    s.queue.map (·.value) = [7, 8] ∧ t.removed.map (·.consumer) = [1, 0] ∧
    (∀ item ∈ s.queue, RemovedOnce 0 s t item) ∧ bodyRuns 0 l ≤ 2 ∧ t.queue = [] := by
  have start := System.Trace.nil (M := system (Fin 2) Nat) (s := State.initial)
  have pushed := (((start.snoc (a := .push 0 7) rfl).snoc (a := .notify 0 none) rfl).snoc
    (a := .push 0 8) rfl).snoc (a := .notify 0 none) rfl
  obtain ⟨-, removed, noPush⟩ := clear_removes (i := 0) (.of_trace rfl pushed) rfl
    (.snoc (a := .clearTest 0) (.snoc (a := .clearPop 0) (.snoc (a := .tryPop 1) (.snoc (a := .clearTest 0)
      .nil rfl) rfl) rfl) rfl) (by decide)
  obtain ⟨bodies, empty⟩ := noPush (by simp [NoPush])
  exact ⟨_, _, _, rfl, rfl, removed rfl, bodies, empty rfl⟩

end ServiceBridge.Interleaving
