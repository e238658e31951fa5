import ServiceBridge.Pipeline
import ServiceBridge.Theorems.Numbering

/-! What the workers of the pipeline can do in a step, and when one of them is left asleep: between its test of
    the queue and its `wait_and_pop`, another one can take the last element. -/

namespace ServiceBridge.Pipeline
open Interleaving (Item)

variable {ι : Type} {s s' : State ι} {a : Act ι} {i : ι}

/-! ### The steps -/

/-- From `q` to `q'` nothing leaves the queue. -/
structure Grows (q q' : Interleaving.State ι Payload) : Prop where
  taken : q'.taken = q.taken
  queue : q.queue <+: q'.queue

/-- The thread `i` is about to look at the queue in `wait_and_pop`. -/
def Looks (s : State ι) (a : Act ι) (i : ι) : Prop :=
  a = .enter i ∧ s.pc i = .tested ∨ a = .retest i ∧ s.pc i = .popping

theorem Grows.ne_nil {q q' : Interleaving.State ι Payload} (h : Grows q q') (hne : q.queue ≠ []) : q'.queue ≠ [] :=
  fun hnil => hne (List.prefix_nil.mp (hnil ▸ h.queue))

section
variable [DecidableEq ι] [Fintype ι]

inductive Effect (s : State ι) : Act ι → State ι → Prop
  | feed {i : ι} {data : Payload} {input : Interleaving.State ι Payload} (hi : s.pc i = .idle)
      (hs : s.input.step (.push i data) = some input) (grows : Grows s.input input) :
      Effect s (.feed i data) { s with input := input }
  | feedNotify {i : ι} {sleeper : Option ι} {input : Interleaving.State ι Payload}
      (hs : s.input.step (.notify i sleeper) = some input) (grows : Grows s.input input) :
      Effect s (.feedNotify i sleeper) { s with input := input }
  | test {i : ι} {p : Pc ι} {input : Interleaving.State ι Payload} (hi : s.pc i = .idle)
      (hs : s.input.step (.empty i) = some input) (grows : Grows s.input input)
      (hp : p = .idle ∨ p = .tested ∧ s.input.queue ≠ []) : Effect s (.test i) { s.goto i p with input := input }
  | missed {a : Act ι} {i : ι} {b : Interleaving.Act ι Payload} {input : Interleaving.State ι Payload}
      (hi : Looks s a i) (hs : s.input.step b = some input) (grows : Grows s.input input)
      (hq : s.input.queue = []) (asleep : input.pc i = .asleep) (empty : input.queue = []) :
      Effect s a { s.goto i .popping with input := input }
  | got {a : Act ι} {i : ι} {b : Interleaving.Act ι Payload} {input : Interleaving.State ι Payload}
      {inVal : Item ι Payload} {queue : List (Item ι Payload)} (hi : Looks s a i)
      (hs : s.input.step b = some input) (hq : s.input.queue = inVal :: queue)
      (htaken : input.taken = s.input.taken ++ [inVal]) :
      Effect s a { s.goto i (.popped inVal) with input := input }
  | spuriousWake {i : ι} {input : Interleaving.State ι Payload} (hs : s.input.step (.spuriousWake i) = some input)
      (grows : Grows s.input input) : Effect s (.spuriousWake i) { s with input := input }
  | push {i : ι} {inVal : Item ι Payload} {outVal : Payload} {output : Interleaving.State ι Payload}
      (hi : s.pc i = .popped inVal) (hmult : multArr inVal.value 2 dataLen = some outVal)
      (hpushed : output.pushed.map (·.value) = s.output.pushed.map (·.value) ++ [outVal]) :
      Effect s (.push i)
        { s.goto i .pushed with output := output, completed := s.completed ++ [(i, inVal)] }
  | outOfBounds {i : ι} {inVal : Item ι Payload} (hi : s.pc i = .popped inVal)
      (hmult : multArr inVal.value 2 dataLen = none) : Effect s (.push i) { s with outOfBounds := true }
  | pushNotify {i : ι} {sleeper : Option ι} {output : Interleaving.State ι Payload} (hi : s.pc i = .pushed)
      (hpushed : output.pushed = s.output.pushed) :
      Effect s (.pushNotify i sleeper) { s.goto i .idle with output := output }
  | collect {i : ι} {output : Interleaving.State ι Payload} (hi : s.pc i = .idle)
      (hpushed : output.pushed = s.output.pushed) : Effect s (.collect i) { s with output := output }

theorem pushed_of_notify {q q' : Interleaving.State ι Payload} {sleeper : Option ι}
    (hs : q.step (.notify i sleeper) = some q') : q'.pushed = q.pushed ∧ Grows q q' := by
  cases sleeper with
  | none =>
    obtain ⟨-, ⟨⟩⟩ := Option.ite_none_right_eq_some.mp hs
    exact ⟨rfl, rfl, List.prefix_rfl⟩
  | some j =>
    obtain ⟨-, ⟨⟩⟩ := Option.ite_none_right_eq_some.mp hs
    exact ⟨rfl, rfl, List.prefix_rfl⟩

/-- A look at the queue in `wait_and_pop`. -/
theorem effect_of_look {b : Interleaving.Act ι Payload} {input : Interleaving.State ι Payload} (hi : Looks s a i)
    (hs : s.input.step b = some input)
    (hinput : input = s.input.afterPop i .idle .asleep false (ConcurrentQueue.waitAndPop s.input.queue)) :
    Effect s a { s.goto i (State.looked s.input.queue) with input := input } := by
  cases hq : s.input.queue with
  | nil =>
    rw [hq] at hinput
    subst hinput
    refine .missed hi hs ⟨rfl, ?_⟩ hq Interleaving.State.pc_goto rfl
    rw [hq]
    exact List.nil_prefix
  | cons inVal queue =>
    rw [hq] at hinput
    subst hinput
    exact .got hi hs hq (by rw [Interleaving.State.taken]; exact List.map_append)

theorem effect_of_push (h : s.step (.push i) = some s') : Effect s (.push i) s' := by
  unfold State.step at h
  cases hi : s.pc i with
  | popped inVal =>
    simp only [hi] at h
    cases hmult : multArr inVal.value 2 dataLen with
    | none =>
      simp only [hmult, Option.some.injEq] at h
      exact h ▸ .outOfBounds hi hmult
    | some outVal =>
      simp only [hmult] at h
      obtain ⟨output, hs, rfl⟩ := Option.map_eq_some_iff.mp h
      obtain ⟨-, ⟨⟩⟩ := Option.ite_none_right_eq_some.mp hs
      exact .push hi hmult List.map_append
  | idle => simp only [hi, reduceCtorEq] at h
  | tested => simp only [hi, reduceCtorEq] at h
  | popping => simp only [hi, reduceCtorEq] at h
  | pushed => simp only [hi, reduceCtorEq] at h

theorem effect_of_step (h : s.step a = some s') : Effect s a s' := by
  cases a with
  | feed i data =>
    obtain ⟨hi, h⟩ := Option.ite_none_right_eq_some.mp h
    obtain ⟨input, hs, rfl⟩ := Option.map_eq_some_iff.mp h
    obtain ⟨-, ⟨⟩⟩ := Option.ite_none_right_eq_some.mp hs
    exact .feed hi hs ⟨rfl, List.prefix_append _ _⟩
  | feedNotify i sleeper =>
    obtain ⟨input, hs, rfl⟩ := Option.map_eq_some_iff.mp h
    exact .feedNotify hs (pushed_of_notify hs).2
  | test i =>
    obtain ⟨hi, h⟩ := Option.ite_none_right_eq_some.mp h
    obtain ⟨input, hs, rfl⟩ := Option.map_eq_some_iff.mp h
    obtain ⟨-, ⟨⟩⟩ := Option.ite_none_right_eq_some.mp hs
    refine .test hi hs ⟨rfl, List.prefix_rfl⟩ ?_
    cases hq : s.input.queue with
    | nil => exact Or.inl rfl
    | cons inVal queue => exact Or.inr ⟨rfl, List.cons_ne_nil _ _⟩
  | enter i =>
    obtain ⟨hi, h⟩ := Option.ite_none_right_eq_some.mp h
    obtain ⟨input, hs, rfl⟩ := Option.map_eq_some_iff.mp h
    obtain ⟨-, hinput⟩ := Option.ite_none_right_eq_some.mp hs
    exact effect_of_look (Or.inl ⟨rfl, hi⟩) hs (Option.some.inj hinput).symm
  | spuriousWake i =>
    obtain ⟨input, hs, rfl⟩ := Option.map_eq_some_iff.mp h
    obtain ⟨-, ⟨⟩⟩ := Option.ite_none_right_eq_some.mp hs
    exact .spuriousWake hs ⟨rfl, List.prefix_rfl⟩
  | retest i =>
    obtain ⟨hi, h⟩ := Option.ite_none_right_eq_some.mp h
    obtain ⟨input, hs, rfl⟩ := Option.map_eq_some_iff.mp h
    obtain ⟨-, hinput⟩ := Option.ite_none_right_eq_some.mp hs
    exact effect_of_look (Or.inr ⟨rfl, hi⟩) hs (Option.some.inj hinput).symm
  | push i => exact effect_of_push h
  | pushNotify i sleeper =>
    obtain ⟨hi, h⟩ := Option.ite_none_right_eq_some.mp h
    obtain ⟨output, hs, rfl⟩ := Option.map_eq_some_iff.mp h
    exact .pushNotify hi (pushed_of_notify hs).1
  | collect i =>
    obtain ⟨hi, h⟩ := Option.ite_none_right_eq_some.mp h
    obtain ⟨output, hs, rfl⟩ := Option.map_eq_some_iff.mp h
    obtain ⟨-, ⟨⟩⟩ := Option.ite_none_right_eq_some.mp hs
    refine .collect hi ?_
    cases s.output.queue <;> rfl

theorem reachable_step {q q' : Interleaving.State ι Payload} {b : Interleaving.Act ι Payload}
    (h : (Interleaving.system ι Payload).Reachable q) (hs : q.step b = some q') :
    (Interleaving.system ι Payload).Reachable q' := h.step (a := b) hs

theorem reachable_input (h : (Interleaving.system ι Payload).Reachable s.input) (hs : s.step a = some s') :
    (Interleaving.system ι Payload).Reachable s'.input := by
  cases effect_of_step hs with
  | feed _ hin _ => exact reachable_step h hin
  | feedNotify hin _ => exact reachable_step h hin
  | test _ hin _ _ => exact reachable_step h hin
  | missed _ hin _ _ _ _ => exact reachable_step h hin
  | got _ hin _ _ => exact reachable_step h hin
  | spuriousWake hin _ => exact reachable_step h hin
  | push _ _ _ => exact h
  | outOfBounds _ _ => exact h
  | pushNotify _ _ => exact h
  | collect _ _ => exact h

end

/-! ### Sleeping workers -/

/-- No thread that has passed the test of `process_one` sleeps in `wait_and_pop` on an empty queue. -/
def NoSleeper (s : State ι) : Prop :=
  ∀ i, ¬ (s.pc i = .popping ∧ s.input.pc i = .asleep ∧ s.input.queue = [])

def NonePopping (s : State ι) : Prop := ∀ i, s.pc i ≠ .popping

/-- A thread that enters `wait_and_pop` finds more inputs pushed than popped. -/
def EntersInTime (s : State ι) (a : Act ι) : Prop :=
  ∀ i, a = .enter i → s.input.removed.length < s.input.pushed.length

theorem NonePopping.goto [DecidableEq ι] {p : Pc ι} (h : NonePopping s) (hp : p ≠ .popping) :
    NonePopping (s.goto i p) := by
  intro j
  rcases eq_or_ne j i with rfl | hne
  · rw [State.pc_goto]
    exact hp
  · rw [State.pc_goto_of_ne hne]
    exact h j

/-- What holds of the only worker `w` among threads that otherwise feed and collect. -/
structure Alone (w : ι) (s : State ι) : Prop where
  others : ∀ i ≠ w, s.pc i = .idle
  ready : s.pc w = .tested → s.input.queue ≠ []
  awake : s.pc w ≠ .popping

theorem Alone.eq {w : ι} (h : Alone w s) (hi : s.pc i ≠ .idle) : i = w := by_contra fun hne => hi (h.others i hne)

theorem Alone.goto [DecidableEq ι] {w : ι} {p : Pc ι} (h : Alone w s) (hpc : s'.pc = (s.goto w p).pc)
    (ready : p = .tested → s'.input.queue ≠ []) (awake : p ≠ .popping) : Alone w s' := by
  refine ⟨fun i hne => ?_, fun hp => ?_, fun hp => ?_⟩
  · rw [hpc, State.pc_goto_of_ne hne]
    exact h.others i hne
  · rw [hpc, State.pc_goto] at hp
    exact ready hp
  · rw [hpc, State.pc_goto] at hp
    exact awake hp

variable [DecidableEq ι] [Fintype ι]

theorem removed_lt_pushed_iff (h : (Interleaving.system ι Payload).Reachable s.input) :
    s.input.removed.length < s.input.pushed.length ↔ s.input.queue ≠ [] := by
  have hlen := congrArg List.length (Interleaving.taken_append_queue h)
  rw [List.length_append, Interleaving.State.taken, List.length_map] at hlen
  rw [← List.length_pos_iff]
  omega

theorem nonePopping_step (h : (Interleaving.system ι Payload).Reachable s.input) (hs : s.step a = some s')
    (hnone : NonePopping s) : NonePopping s' ↔ EntersInTime s a := by
  have enters : ∀ {i}, Looks s a i → (EntersInTime s a ↔ s.input.queue ≠ []) := by
    intro i hi
    rcases hi with ⟨rfl, -⟩ | ⟨-, hi⟩
    · rw [← removed_lt_pushed_iff h]
      exact ⟨fun hlt => hlt i rfl, fun hlt _ _ => hlt⟩
    · exact absurd hi (hnone i)
  cases effect_of_step hs with
  | feed _ _ _ => exact iff_of_true hnone nofun
  | feedNotify _ _ => exact iff_of_true hnone nofun
  | test _ _ _ hp =>
    refine iff_of_true (hnone.goto ?_) nofun
    rcases hp with rfl | ⟨rfl, -⟩ <;> exact nofun
  | missed hi _ _ hq _ _ =>
    rw [enters hi]
    exact iff_of_false (fun hn => hn _ State.pc_goto) fun hne => hne hq
  | got hi _ hq _ =>
    rw [enters hi, hq]
    exact iff_of_true (hnone.goto nofun) (List.cons_ne_nil _ _)
  | spuriousWake _ _ => exact iff_of_true hnone nofun
  | push _ _ _ => exact iff_of_true (hnone.goto nofun) nofun
  | outOfBounds _ _ => exact iff_of_true hnone nofun
  | pushNotify _ _ => exact iff_of_true (hnone.goto nofun) nofun
  | collect _ _ => exact iff_of_true hnone nofun

variable {l : List (State ι × Act ι)}

theorem reachable_input_of_trace (start : (system ι).init s) (run : (system ι).Trace s l s') :
    System.Always (fun s => (Interleaving.system ι Payload).Reachable s.input) l s' := by
  obtain ⟨workers, rfl⟩ := start
  exact run.always (A := fun _ => True) (fun _ _ _ _ h hs => reachable_input h hs) (.of_init rfl) fun _ _ => trivial

/-- Under any interleaving, no worker ever sleeps on an empty queue exactly if each one that enters
    `wait_and_pop` finds more inputs pushed than popped. -/
theorem no_sleeper_iff (start : (system ι).init s) (run : (system ι).Trace s l s') :
    System.Always NoSleeper l s' ↔ ∀ x ∈ l, EntersInTime x.1 x.2 := by
  have reachable := reachable_input_of_trace start run
  constructor
  · rintro always ⟨t, a⟩ hx i rfl
    obtain ⟨u, hs, hu⟩ : ∃ u, t.step (.enter i) = some u ∧ NoSleeper u := run.next always _ hx
    rw [removed_lt_pushed_iff (reachable.1 _ hx)]
    intro hq
    cases effect_of_step hs with
    | @missed _ j _ _ hi _ _ _ asleep empty => exact hu j ⟨State.pc_goto, asleep, empty⟩
    | got _ _ hq' _ =>
      rw [hq] at hq'
      cases hq'
  · intro hall
    obtain ⟨workers, rfl⟩ := start
    have fresh : (Interleaving.system ι Payload).Reachable (State.initial workers).input := .of_init rfl
    have none : System.Always NonePopping l s' ↔ ∀ x ∈ l, EntersInTime x.1 x.2 :=
      run.always_iff (I := fun _ s => (Interleaving.system ι Payload).Reachable s.input) fresh
        (fun _ _ _ _ h hs => reachable_input h hs) (fun _ => nofun)
        fun _ _ _ _ _ h hnone hs => nonePopping_step h hs hnone
    obtain ⟨before, last⟩ := none.mpr hall
    exact ⟨fun x hx i hi => before x hx i hi.1, fun i hi => last i hi.1⟩

/-- Five ones. -/
def ones : Payload := ⟨[1, 1, 1, 1, 1], 5, rfl⟩

def idle (factor : ℚ) : State (Fin 3) := .initial fun _ => ⟨factor⟩

theorem init_idle (factor : ℚ) : (system (Fin 3)).init (idle factor) := ⟨_, rfl⟩

/-- Two workers test and enter at once, and there is an input for each of them. -/
theorem no_sleeper_iff_two : ∃ l s', (system (Fin 3)).Trace (idle 2) l s' ∧
    l.map Prod.snd = [.feed 2 ones, .feedNotify 2 none, .feed 2 ones, .feedNotify 2 none, .test 0, .test 1,
      .enter 0, .enter 1, .push 1, .push 0] ∧
    s'.completed.map (fun c => (c.1, c.2.stamp)) = [(1, 1), (0, 0)] ∧ System.Always NoSleeper l s' := by
  have fed := ((((System.Trace.nil (M := system (Fin 3)) (s := idle 2)).snoc (a := .feed 2 ones) rfl).snoc
    (a := .feedNotify 2 none) rfl).snoc (a := .feed 2 ones) rfl).snoc (a := .feedNotify 2 none) rfl
  have entered := (((fed.snoc (a := .test 0) rfl).snoc (a := .test 1) rfl).snoc (a := .enter 0) rfl).snoc
    (a := .enter 1) rfl
  have run := (entered.snoc (a := .push 1) rfl).snoc (a := .push 0) rfl
  refine ⟨_, _, run, rfl, rfl, (no_sleeper_iff (init_idle 2) run).mpr ?_⟩
  rintro x hx i ha
  simp only [List.nil_append, List.mem_append, List.mem_singleton] at hx
  rcases hx with ((((((((rfl | rfl) | rfl) | rfl) | rfl) | rfl) | rfl) | rfl) | rfl) | rfl
  iterate 6 cases ha
  · decide
  · decide
  iterate 2 cases ha

/-- Both workers see the one input; the second to enter sleeps. -/
theorem second_worker_sleeps : ∃ l s', (system (Fin 3)).init (idle 2) ∧ (system (Fin 3)).Trace (idle 2) l s' ∧
    l.map Prod.snd = [.feed 2 ones, .feedNotify 2 none, .test 0, .test 1, .enter 0, .enter 1] ∧
    ¬ System.Always NoSleeper l s' := by
  have tested := ((((System.Trace.nil (M := system (Fin 3)) (s := idle 2)).snoc (a := .feed 2 ones) rfl).snoc
    (a := .feedNotify 2 none) rfl).snoc (a := .test 0) rfl).snoc (a := .test 1) rfl
  have run := (tested.snoc (a := .enter 0) rfl).snoc (a := .enter 1) rfl
  exact ⟨_, _, init_idle 2, run, rfl, fun always => always.2 1 ⟨rfl, rfl, rfl⟩⟩

theorem Alone.step {w : ι} (only : ∀ i, a = .test i → i = w) (h : Alone w s) (hs : s.step a = some s') :
    Alone w s' := by
  cases effect_of_step hs with
  | feed _ _ grows => exact ⟨h.others, fun hw => grows.ne_nil (h.ready hw), h.awake⟩
  | feedNotify _ grows => exact ⟨h.others, fun hw => grows.ne_nil (h.ready hw), h.awake⟩
  | spuriousWake _ grows => exact ⟨h.others, fun hw => grows.ne_nil (h.ready hw), h.awake⟩
  | outOfBounds _ _ => exact ⟨h.others, h.ready, h.awake⟩
  | collect _ _ => exact ⟨h.others, h.ready, h.awake⟩
  | test _ _ grows hp =>
    obtain rfl := only _ rfl
    rcases hp with rfl | ⟨rfl, hne⟩
    · exact h.goto rfl nofun nofun
    · exact h.goto rfl (fun _ => grows.ne_nil hne) nofun
  | missed hi _ _ hq _ _ =>
    rcases hi with ⟨-, hi⟩ | ⟨-, hi⟩
    · obtain rfl := h.eq (by rw [hi]; exact nofun)
      exact absurd hq (h.ready hi)
    · obtain rfl := h.eq (by rw [hi]; exact nofun)
      exact absurd hi h.awake
  | got hi _ _ _ =>
    obtain rfl := h.eq (show s.pc _ ≠ .idle by rcases hi with ⟨-, hi⟩ | ⟨-, hi⟩ <;> rw [hi] <;> exact nofun)
    exact h.goto rfl nofun nofun
  | push hi _ _ =>
    obtain rfl := h.eq (by rw [hi]; exact nofun)
    exact h.goto rfl nofun nofun
  | pushNotify hi _ =>
    obtain rfl := h.eq (by rw [hi]; exact nofun)
    exact h.goto rfl nofun nofun

/-- A worker that is the only one never sleeps, whatever is pushed to its queue and taken off the other. -/
theorem alone_never_sleeps {w : ι} (start : (system ι).init s) (run : (system ι).Trace s l s')
    (only : ∀ x ∈ l, ∀ i, x.2 = .test i → i = w) : System.Always NoSleeper l s' := by
  obtain ⟨workers, rfl⟩ := start
  have awake : ∀ {t : State ι}, Alone w t → NoSleeper t := by
    rintro t ht i ⟨hi, -⟩
    obtain rfl := ht.eq (by rw [hi]; exact nofun)
    exact ht.awake hi
  have alone : System.Always (Alone w) l s' :=
    run.always (A := fun a => ∀ i, a = .test i → i = w) (fun _ _ _ only h hs => h.step only hs)
      ⟨fun _ _ => rfl, nofun, nofun⟩ only
  exact ⟨fun x hx => awake (alone.1 x hx), awake alone.2⟩

end ServiceBridge.Pipeline
