import ServiceBridge.Library.Custody
import ServiceBridge.Numbering
import ServiceBridge.Theorems.Order

/-! Whether the numbers that concurrent calls of `req_pop_msg` give agree with the order of the queue. Between
    its pop and its numbering a thread can be passed by another one. -/

namespace ServiceBridge.Interleaving

variable {ι T : Type} [DecidableEq ι] [Fintype ι] {s : State ι T} {item : Item ι T} {k : Nat}

theorem stamp_of_getElem? (h : (system ι T).Reachable s) (hk : s.pushed[k]? = some item) : item.stamp = k := by
  have hstamp := congrArg (·[k]?) (stamps_of_reachable h)
  obtain ⟨hlt, -⟩ := List.getElem?_eq_some_iff.mp hk
  simp only [List.getElem?_map, hk, Option.map_some, List.getElem?_range hlt, Option.some.injEq] at hstamp
  exact hstamp

theorem getElem?_stamp (h : (system ι T).Reachable s) (hitem : item ∈ s.pushed) :
    s.pushed[item.stamp]? = some item := by
  obtain ⟨k, hk⟩ := List.mem_iff_getElem?.mp hitem
  rw [stamp_of_getElem? h hk, hk]

theorem eq_of_stamp (h : (system ι T).Reachable s) {item' : Item ι T} (hitem : item ∈ s.pushed)
    (hitem' : item' ∈ s.pushed) (heq : item.stamp = item'.stamp) : item = item' := by
  have hget := getElem?_stamp h hitem
  rw [heq, getElem?_stamp h hitem'] at hget
  exact (Option.some.inj hget).symm

theorem mem_pushed_of_taken (h : (system ι T).Reachable s) (hitem : item ∈ s.taken) : item ∈ s.pushed := by
  rw [← taken_append_queue h]
  exact List.mem_append_left _ hitem

theorem exists_taken_of_lt (h : (system ι T).Reachable s) (hitem : item ∈ s.taken) (hk : k < item.stamp) :
    ∃ item' ∈ s.taken, item'.stamp = k := by
  have hget := getElem?_stamp h (mem_pushed_of_taken h hitem)
  have order := taken_append_queue h
  obtain ⟨j, hj⟩ := List.mem_iff_getElem?.mp hitem
  obtain ⟨hjlt, -⟩ := List.getElem?_eq_some_iff.mp hj
  have hjstamp : item.stamp = j := by
    refine stamp_of_getElem? h ?_
    rw [← order, List.getElem?_append_left hjlt, hj]
  have hklt : k < s.taken.length := by omega
  refine ⟨s.taken[k], List.getElem_mem hklt, stamp_of_getElem? h ?_⟩
  rw [← order, List.getElem?_append_left hklt, List.getElem?_eq_getElem hklt]

theorem not_mem_taken (h : (system ι T).Reachable s) {queue : List (Item ι T)} (hq : s.queue = item :: queue) :
    item ∉ s.taken := by
  intro hitem
  have distinct := stamps_nodup h
  rw [hq] at distinct
  have hdisj := (List.nodup_append.mp (List.Nodup.of_map _ distinct)).2.2
  exact hdisj item hitem item List.mem_cons_self rfl

end ServiceBridge.Interleaving

namespace ServiceBridge.Numbering
open Interleaving (Item stamp_of_getElem? getElem?_stamp eq_of_stamp mem_pushed_of_taken exists_taken_of_lt
  not_mem_taken)

variable {ι : Type} [DecidableEq ι] [Fintype ι] {s s' : State ι} {a : Act ι} {i : ι} {item : Item ι XferType}

/-! ### The steps -/

/-- What a step can do. Each step of the queue is one of `Q_req`'s own. -/
inductive Effect (s : State ι) : Act ι → State ι → Prop
  | push {i : ι} {data : XferType} {qReq : Interleaving.State ι XferType}
      (hs : s.qReq.step (.push i data) = some qReq) (htaken : qReq.taken = s.qReq.taken)
      (hpushed : s.qReq.pushed <+: qReq.pushed) : Effect s (.push i data) { s with qReq := qReq }
  | notify {i : ι} {qReq : Interleaving.State ι XferType} (hs : s.qReq.step (.notify i none) = some qReq)
      (htaken : qReq.taken = s.qReq.taken) (hpushed : qReq.pushed = s.qReq.pushed) :
      Effect s (.notify i) { s with qReq := qReq }
  | missed {i : ι} {qReq : Interleaving.State ι XferType} (hs : s.qReq.step (.tryPop i) = some qReq)
      (hi : s.held i = none) (htaken : qReq.taken = s.qReq.taken) (hpushed : qReq.pushed = s.qReq.pushed) :
      Effect s (.tryPop i) { s with qReq := qReq }
  | got {i : ι} {qReq : Interleaving.State ι XferType} {item : Item ι XferType}
      {queue : List (Item ι XferType)} (hs : s.qReq.step (.tryPop i) = some qReq) (hi : s.held i = none)
      (hq : s.qReq.queue = item :: queue) (htaken : qReq.taken = s.qReq.taken ++ [item])
      (hpushed : qReq.pushed = s.qReq.pushed) :
      Effect s (.tryPop i) { s with qReq := qReq, held := Function.update s.held i (some item) }
  | number {i : ι} {item : Item ι XferType} (hi : s.held i = some item) :
      Effect s (.number i) (s.numbered i item)

theorem step_number (hi : s.held i = some item) : s.step (.number i) = some (s.numbered i item) := by
  simp only [State.step, hi]

theorem effect_of_step (h : s.step a = some s') : Effect s a s' := by
  cases a with
  | push i data =>
    obtain ⟨-, h⟩ := Option.ite_none_right_eq_some.mp h
    obtain ⟨qReq, hs, rfl⟩ := Option.map_eq_some_iff.mp h
    obtain ⟨-, ⟨⟩⟩ := Option.ite_none_right_eq_some.mp hs
    exact .push hs rfl (List.prefix_append _ _)
  | notify i =>
    obtain ⟨qReq, hs, rfl⟩ := Option.map_eq_some_iff.mp h
    obtain ⟨-, ⟨⟩⟩ := Option.ite_none_right_eq_some.mp hs
    exact .notify hs rfl rfl
  | tryPop i =>
    obtain ⟨hi, h⟩ := Option.ite_none_right_eq_some.mp h
    obtain ⟨qReq, hs, rfl⟩ := Option.map_eq_some_iff.mp h
    obtain ⟨-, heq⟩ := Option.ite_none_right_eq_some.mp hs
    cases hq : s.qReq.queue with
    | nil =>
      rw [hq] at heq
      cases heq
      have same : Function.update s.held i (State.popped ([] : List (Item ι XferType))) = s.held := by
        rw [Function.update_eq_self_iff, hi]
        rfl
      rw [same]
      exact .missed hs hi rfl rfl
    | cons item queue =>
      rw [hq] at heq
      cases heq
      exact .got hs hi hq (by rw [Interleaving.State.taken]; exact List.map_append) rfl
  | number i =>
    cases hi : s.held i with
    | none => simp only [State.step, hi, reduceCtorEq] at h
    | some item =>
      obtain ⟨⟩ := (step_number hi).symm.trans h
      exact .number hi

/-! ### One thread at a time

When no other thread comes between, the two steps are `req_pop_msg` as it runs alone. -/

def State.service (s : State ι) (q : ServiceQueue XferType) : ServiceQueue XferType :=
  { q with qReq := s.qReq.queue.map (·.value), seqReq := s.seqReq }

theorem reqPopMsg_of_cons {queue : List (Item ι XferType)} (q : ServiceQueue XferType) (hi : s.held i = none)
    (idle : s.qReq.pc i = .idle) (hq : s.qReq.queue = item :: queue) : ∃ t u msg,
    s.step (.tryPop i) = some t ∧ t.step (.number i) = some u ∧
      (s.service q).reqPopMsg = .ok (msg, u.service q) ∧ u.messages = s.messages ++ [(msg, item)] := by
  have hpop : s.qReq.step (.tryPop i) = some (s.qReq.afterPop i .idle .idle false (.ok (some item, queue))) := by
    rw [Interleaving.State.step, if_pos idle, hq]
    rfl
  have hservice : s.service q = { q with qReq := item.value :: queue.map (·.value), seqReq := s.seqReq } := by
    rw [State.service, hq]
    rfl
  have hfirst : s.step (.tryPop i) = some { s with
      qReq := s.qReq.afterPop i .idle .idle false (.ok (some item, queue))
      held := Function.update s.held i (some item) } := by
    rw [State.step, if_pos hi, hpop, hq]
    rfl
  refine ⟨_, _, _, hfirst, step_number (Function.update_self i (some item) s.held), ?_, rfl⟩
  rw [hservice]
  rfl

theorem reqPopMsg_of_nil (q : ServiceQueue XferType) (hi : s.held i = none) (idle : s.qReq.pc i = .idle)
    (hq : s.qReq.queue = []) : ∃ t, s.step (.tryPop i) = some t ∧ t.held i = none ∧
      (s.service q).reqPopMsg = .ok (SrvMsg.new .request .empty badIndex 0, t.service q) := by
  have hpop : s.qReq.step (.tryPop i) = some (s.qReq.afterPop i .idle .idle false (.ok (none, []))) := by
    rw [Interleaving.State.step, if_pos idle, hq]
    rfl
  have hservice : s.service q = { q with qReq := [], seqReq := s.seqReq } := by
    rw [State.service, hq]
    rfl
  refine ⟨_, by rw [State.step, if_pos hi, hpop, hq]; rfl, Function.update_self .., by rw [hservice]; rfl⟩

/-! ### What holds whatever the schedule -/

/-- The requests removed from the queue are held by one thread each, or made into messages; the messages are
    numbered from zero, modulo `2 ^ 64`. -/
structure Inv (s : State ι) : Prop where
  reachable : (Interleaving.system ι XferType).Reachable s.qReq
  counter : s.seqReq = s.messages.length % Str.sizeRange
  numbers : s.messages.map (·.1.sequence) = (List.range s.messages.length).map (· % Str.sizeRange)
  taken : ∀ item, item ∈ s.qReq.taken ↔ (∃ m ∈ s.messages, m.2 = item) ∨ ∃ i, s.held i = some item
  unnumbered : ∀ i item, s.held i = some item → ∀ m ∈ s.messages, m.2 ≠ item
  owner : ∀ i j item, s.held i = some item → s.held j = some item → i = j

namespace Inv

theorem initial : Inv (State.initial : State ι) where
  reachable := .of_init rfl
  counter := rfl
  numbers := rfl
  taken := by simp [State.initial, Interleaving.State.initial, Interleaving.State.taken]
  unnumbered := by simp [State.initial]
  owner := by simp [State.initial]

theorem holds (h : Inv s) : Custody.Holds s.qReq.taken s.held (s.messages.map (·.2)) where
  taken := by
    intro item
    rw [List.mem_map]
    exact h.taken item
  unfinished := by
    intro i item hi hitem
    obtain ⟨m, hm, rfl⟩ := List.mem_map.mp hitem
    exact h.unnumbered i m.2 hi m hm rfl
  owner := h.owner

theorem of_holds (reachable : (Interleaving.system ι XferType).Reachable s.qReq)
    (counter : s.seqReq = s.messages.length % Str.sizeRange)
    (numbers : s.messages.map (·.1.sequence) = (List.range s.messages.length).map (· % Str.sizeRange))
    (holds : Custody.Holds s.qReq.taken s.held (s.messages.map (·.2))) : Inv s where
  reachable := reachable
  counter := counter
  numbers := numbers
  taken := by
    intro item
    rw [holds.taken, List.mem_map]
  unnumbered := by
    rintro i item hi m hm rfl
    exact holds.unfinished i m.2 hi (List.mem_map_of_mem hm)
  owner := holds.owner

theorem queue (h : Inv s) {b : Interleaving.Act ι XferType} {qReq : Interleaving.State ι XferType}
    (hs : s.qReq.step b = some qReq) (htaken : qReq.taken = s.qReq.taken) : Inv { s with qReq := qReq } :=
  of_holds (h.reachable.step hs) h.counter h.numbers (htaken ▸ h.holds)

theorem got (h : Inv s) {qReq : Interleaving.State ι XferType} {queue : List (Item ι XferType)}
    (hs : s.qReq.step (.tryPop i) = some qReq) (hi : s.held i = none) (hq : s.qReq.queue = item :: queue)
    (htaken : qReq.taken = s.qReq.taken ++ [item]) :
    Inv { s with qReq := qReq, held := Function.update s.held i (some item) } := by
  have took := h.holds.take hi (not_mem_taken h.reachable hq)
  rw [← htaken] at took
  exact of_holds (h.reachable.step (a := .tryPop i) hs) h.counter h.numbers took

theorem number (h : Inv s) (hi : s.held i = some item) : Inv (s.numbered i item) := by
  have finished := h.holds.finish hi
  refine of_holds h.reachable ?_ ?_ ?_
  · rw [State.numbered, increment, h.counter, List.length_append, List.length_singleton, Nat.mod_add_mod]
  · rw [State.numbered, List.map_append, h.numbers, List.length_append, List.length_singleton, List.range_succ,
      List.map_append, List.map_singleton, List.map_singleton, ← h.counter]
    rfl
  · rw [State.numbered, List.map_append]
    exact finished

theorem step (h : Inv s) (hs : s.step a = some s') : Inv s' := by
  cases effect_of_step hs with
  | push hqs htaken _ => exact h.queue hqs htaken
  | notify hqs htaken _ => exact h.queue hqs htaken
  | missed hqs _ htaken _ => exact h.queue hqs htaken
  | got hqs hi hq htaken _ => exact h.got hqs hi hq htaken
  | number hi => exact h.number hi

theorem mem_pushed (h : Inv s) (hitem : (∃ m ∈ s.messages, m.2 = item) ∨ ∃ i, s.held i = some item) :
    item ∈ s.qReq.pushed :=
  mem_pushed_of_taken h.reachable ((h.taken item).mpr hitem)

end Inv

/-! ### Numbers and the order of the queue -/

/-- Each message is the one made from the request that was pushed in the place of its number. -/
def Agree (s : State ι) : Prop := ∀ m ∈ s.messages, s.qReq.pushed[m.1.sequence]? = some m.2

/-- Where the step numbers a request, no thread holds an older one, and the counter has not come round. -/
def NumbersOldest (s : State ι) (a : Act ι) : Prop :=
  ∀ i item, a = .number i → s.held i = some item → s.messages.length < Str.sizeRange ∧
    ∀ j item', s.held j = some item' → item.stamp ≤ item'.stamp

theorem Inv.exists_message_iff (h : Inv s) (hagree : Agree s) (k : Nat) :
    (∃ m ∈ s.messages, m.2.stamp = k) ↔ ∃ t < s.messages.length, t % Str.sizeRange = k := by
  have hsame : ∀ m ∈ s.messages, m.2.stamp = m.1.sequence := fun m hm =>
    stamp_of_getElem? h.reachable (hagree m hm)
  have hmem : k ∈ s.messages.map (·.1.sequence) ↔ k ∈ (List.range s.messages.length).map (· % Str.sizeRange) := by
    rw [h.numbers]
  simp only [List.mem_map, List.mem_range] at hmem
  rw [← hmem]
  constructor
  · rintro ⟨m, hm, rfl⟩
    exact ⟨m, hm, (hsame m hm).symm⟩
  · rintro ⟨m, hm, rfl⟩
    exact ⟨m, hm, hsame m hm⟩

/-- No held request has the stamp of a message. -/
theorem Inv.held_apart (h : Inv s) (hagree : Agree s) (hi : s.held i = some item) :
    ¬ ∃ t < s.messages.length, t % Str.sizeRange = item.stamp := by
  intro ht
  obtain ⟨m, hm, hstamp⟩ := (h.exists_message_iff hagree _).mpr ht
  exact h.unnumbered i item hi m hm (eq_of_stamp h.reachable (h.mem_pushed (Or.inl ⟨m, hm, rfl⟩))
    (h.mem_pushed (Or.inr ⟨i, hi⟩)) hstamp)

theorem Inv.oldest_iff (h : Inv s) (hagree : Agree s) (hi : s.held i = some item) :
    item.stamp = s.messages.length % Str.sizeRange ↔ s.messages.length < Str.sizeRange ∧
      ∀ j item', s.held j = some item' → item.stamp ≤ item'.stamp := by
  have range : 0 < Str.sizeRange := by decide
  constructor
  · intro hnext
    have hlt : s.messages.length < Str.sizeRange := by
      refine Nat.lt_of_not_le fun hle => h.held_apart hagree hi ⟨item.stamp, ?_, ?_⟩
      · rw [hnext]
        exact Nat.lt_of_lt_of_le (Nat.mod_lt _ range) hle
      · rw [hnext, Nat.mod_mod]
    refine ⟨hlt, fun j item' hj => Nat.le_of_not_lt fun hold => h.held_apart hagree hj ⟨item'.stamp, ?_, ?_⟩⟩
    · rw [hnext, Nat.mod_eq_of_lt hlt] at hold
      exact hold
    · rw [hnext, Nat.mod_eq_of_lt hlt] at hold
      exact Nat.mod_eq_of_lt (Nat.lt_trans hold hlt)
  · rintro ⟨hlt, holdest⟩
    rw [Nat.mod_eq_of_lt hlt]
    have hge : s.messages.length ≤ item.stamp := by
      refine Nat.le_of_not_lt fun hless => h.held_apart hagree hi ⟨item.stamp, hless, ?_⟩
      exact Nat.mod_eq_of_lt (Nat.lt_trans hless hlt)
    refine Nat.le_antisymm (Nat.le_of_not_lt fun hmore => ?_) hge
    -- The request in the place of the next number was removed, too, so a thread holds it.
    obtain ⟨item', htaken, hstamp⟩ := exists_taken_of_lt h.reachable ((h.taken item).mpr (Or.inr ⟨i, hi⟩)) hmore
    rcases (h.taken item').mp htaken with ⟨m, hm, rfl⟩ | ⟨j, hj⟩
    · obtain ⟨t, ht, heq⟩ := (h.exists_message_iff hagree _).mp ⟨m, hm, hstamp⟩
      rw [Nat.mod_eq_of_lt (Nat.lt_trans ht hlt)] at heq
      omega
    · have := holdest j item' hj
      omega

omit [DecidableEq ι] [Fintype ι] in
theorem Agree.of_prefix {qReq : Interleaving.State ι XferType} (h : Agree s)
    (hpushed : s.qReq.pushed <+: qReq.pushed) : ∀ m ∈ s.messages, qReq.pushed[m.1.sequence]? = some m.2 := by
  intro m hm
  obtain ⟨more, hmore⟩ := hpushed
  obtain ⟨hlt, -⟩ := List.getElem?_eq_some_iff.mp (h m hm)
  rw [← hmore, List.getElem?_append_left hlt]
  exact h m hm

/-- A step keeps the agreement exactly when it numbers no request out of order. -/
theorem agree_step (h : Inv s) (hagree : Agree s) (hs : s.step a = some s') :
    Agree s' ↔ NumbersOldest s a := by
  cases effect_of_step hs with
  | push _ _ hpushed => exact ⟨fun _ _ _ ha => (by cases ha), fun _ => hagree.of_prefix hpushed⟩
  | notify _ _ hpushed =>
    exact ⟨fun _ _ _ ha => (by cases ha), fun _ => hagree.of_prefix (by rw [hpushed])⟩
  | missed _ _ _ hpushed =>
    exact ⟨fun _ _ _ ha => (by cases ha), fun _ => hagree.of_prefix (by rw [hpushed])⟩
  | got _ _ _ _ hpushed =>
    exact ⟨fun _ _ _ ha => (by cases ha), fun _ => hagree.of_prefix (by rw [hpushed])⟩
  | @number i item hi =>
    have place := getElem?_stamp h.reachable (h.mem_pushed (Or.inr ⟨i, hi⟩))
    have key := h.oldest_iff hagree hi
    constructor
    · rintro hagree' j item' ⟨⟩ hj
      obtain rfl := Option.some.inj (hi.symm.trans hj)
      have last := hagree' _ (List.mem_append_right _ (List.mem_singleton_self _))
      refine key.mp ?_
      rw [← h.counter]
      exact stamp_of_getElem? h.reachable last
    · intro hc
      refine List.forall_mem_append.mpr ⟨hagree, List.forall_mem_singleton.mpr ?_⟩
      have next : item.stamp = s.seqReq := (key.mpr (hc i item rfl hi)).trans h.counter.symm
      rw [next] at place
      exact place

/-- Under any interleaving, the numbers agree with the order of the queue exactly if each request is numbered
    while no thread holds an older one. -/
theorem agree_iff {l : List (State ι × Act ι)} (start : (system ι).init s) (run : (system ι).Trace s l s') :
    System.Always Agree l s' ↔ ∀ x ∈ l, NumbersOldest x.1 x.2 := by
  obtain rfl := start
  exact run.always_iff (I := fun _ t => Inv t) .initial (fun _ _ _ _ ht hs => ht.step hs)
    (fun m hm => absurd hm List.not_mem_nil) fun _ _ _ _ _ ht hagree hs => agree_step ht hagree hs

/-- Two consumers hold a request each, and number in the order in which they popped. -/
theorem agree_iff_in_order : ∃ l s', (system (Fin 2)).Trace .initial l s' ∧
    l.map Prod.snd = [.push 0 [], .notify 0, .push 0 [], .notify 0, .tryPop 0, .tryPop 1, .number 0, .number 1] ∧
    s'.messages.map (fun m => (m.1.sequence, m.2.stamp)) = [(0, 0), (1, 1)] ∧ System.Always Agree l s' := by
  have pushed := ((((System.Trace.nil (M := system (Fin 2)) (s := State.initial)).snoc
    (a := .push 0 []) rfl).snoc (a := .notify 0) rfl).snoc (a := .push 0 []) rfl).snoc (a := .notify 0) rfl
  have run := (((pushed.snoc (a := .tryPop 0) rfl).snoc (a := .tryPop 1) rfl).snoc
    (a := .number 0) rfl).snoc (a := .number 1) rfl
  refine ⟨_, _, run, rfl, rfl, (agree_iff rfl run).mpr ?_⟩
  rintro x hx i item ha hi
  simp only [List.nil_append, List.mem_append, List.mem_singleton] at hx
  rcases hx with ((((((rfl | rfl) | rfl) | rfl) | rfl) | rfl) | rfl) | rfl
  iterate 6 cases ha
  · cases ha
    obtain rfl := Option.some.inj hi
    exact ⟨by decide, fun j item' hj => Nat.zero_le _⟩
  · cases ha
    obtain rfl := Option.some.inj hi
    -- the first consumer holds nothing any more
    refine ⟨by decide, Fin.forall_fin_two.mpr ⟨fun item' hj => ?_, fun item' hj => ?_⟩⟩
    · cases show none = some item' from hj
    · obtain rfl := Option.some.inj hj
      exact Nat.le_refl _

/-- The thread that popped first numbers last: the first request becomes message one. -/
theorem numbering_passed : ∃ l s', (system (Fin 2)).Trace .initial l s' ∧
    l.map Prod.snd = [.push 0 [], .notify 0, .push 0 [], .notify 0, .tryPop 0, .tryPop 1, .number 1, .number 0] ∧
    s'.messages.map (fun m => (m.1.sequence, m.2.stamp)) = [(0, 1), (1, 0)] ∧ ¬ Agree s' := by
  have pushed := ((((System.Trace.nil (M := system (Fin 2)) (s := State.initial)).snoc
    (a := .push 0 []) rfl).snoc (a := .notify 0) rfl).snoc (a := .push 0 []) rfl).snoc (a := .notify 0) rfl
  have run := (((pushed.snoc (a := .tryPop 0) rfl).snoc (a := .tryPop 1) rfl).snoc
    (a := .number 1) rfl).snoc (a := .number 0) rfl
  refine ⟨_, _, run, rfl, rfl, fun hagree => ?_⟩
  have first := hagree _ List.mem_cons_self
  have hstamp := congrArg (Option.map Item.stamp) first
  cases hstamp

end ServiceBridge.Numbering
