import Mathlib.Logic.Function.Basic
import ServiceBridge.Library.Transition
import ServiceBridge.Queue

/-! What a `ServiceQueue` hands out over any sequence of pushes and pops: the payloads of its messages, which
    their constructor drops, and their numbers, for which both directions use one counter. -/

namespace ServiceBridge
open System

/-! ### Calls on a service queue -/

namespace ServiceQueue
variable {T : Type}

def lane (q : ServiceQueue T) : MsgType → List T
  | .request => q.qReq
  | .response => q.qRsp

def setLane (q : ServiceQueue T) (d : MsgType) (queue : List T) : ServiceQueue T :=
  match d with
  | .request => { q with qReq := queue }
  | .response => { q with qRsp := queue }

def popMsg (q : ServiceQueue XferType) : MsgType → Except Fault (SrvMsg × ServiceQueue XferType)
  | .request => q.reqPopMsg
  | .response => q.rspPopMsg

/-- `q` after a pop in direction `d` left `queue`: it is `seq_req` that counts, whatever the direction. -/
def popped (q : ServiceQueue T) (d : MsgType) (queue : List T) : ServiceQueue T :=
  { q.setLane d queue with seqReq := increment q.seqReq }

section
variable {q : ServiceQueue T} {d d' : MsgType} {queue : List T}

@[simp] theorem lane_setLane : (q.setLane d queue).lane d = queue := by cases d <;> rfl

theorem lane_setLane_of_ne (h : d' ≠ d) : (q.setLane d queue).lane d' = q.lane d' := by
  cases d <;> cases d' <;> first | rfl | exact absurd rfl h

@[simp] theorem seqReq_setLane : (q.setLane d queue).seqReq = q.seqReq := by cases d <;> rfl

@[simp] theorem seqRsp_setLane : (q.setLane d queue).seqRsp = q.seqRsp := by cases d <;> rfl

@[simp] theorem lane_popped : (q.popped d queue).lane d = queue := by cases d <;> rfl

theorem lane_popped_of_ne (h : d' ≠ d) : (q.popped d queue).lane d' = q.lane d' := by
  cases d <;> cases d' <;> first | rfl | exact absurd rfl h

end

theorem popMsg_nil {q : ServiceQueue XferType} {d : MsgType} (h : q.lane d = []) :
    q.popMsg d = .ok (SrvMsg.new d .empty badIndex 0, q) := by
  obtain ⟨topicName, queueSize, seqReq, seqRsp, qReq, qRsp⟩ := q
  cases d with
  | request => obtain rfl : qReq = [] := h; rfl
  | response => obtain rfl : qRsp = [] := h; rfl

theorem popMsg_cons {q : ServiceQueue XferType} {d : MsgType} {data : XferType} {queue : List XferType}
    (h : q.lane d = data :: queue) :
    q.popMsg d = .ok (SrvMsg.new d .valid q.seqReq data.length, q.popped d queue) := by
  obtain ⟨topicName, queueSize, seqReq, seqRsp, qReq, qRsp⟩ := q
  cases d with
  | request => obtain rfl : qReq = data :: queue := h; rfl
  | response => obtain rfl : qRsp = data :: queue := h; rfl

end ServiceQueue

/-- A pop: the object before it, the message it returned, and the object after it. -/
structure Pop where
  before : ServiceQueue XferType
  msg : SrvMsg
  after : ServiceQueue XferType

/-- A service queue with what was pushed to, and popped from, each direction so far. -/
structure History where
  queue : ServiceQueue XferType
  pushed : MsgType → List XferType
  pops : MsgType → List Pop

namespace History

def new (tpcName : Str) (qLen : Nat) : History where
  queue := ServiceQueue.new tpcName qLen
  pushed := fun _ => []
  pops := fun _ => []

inductive Call where
  | push (d : MsgType) (data : XferType)
  | pop (d : MsgType)

def recordPush (h : History) (d : MsgType) (data : XferType) : History :=
  { h with
    queue := h.queue.setLane d (ConcurrentQueue.push (h.queue.lane d) data)
    pushed := Function.update h.pushed d (h.pushed d ++ [data]) }

def recordPop (h : History) (d : MsgType) (msg : SrvMsg) (after : ServiceQueue XferType) : History :=
  { h with
    queue := after
    pops := Function.update h.pops d (h.pops d ++ [⟨h.queue, msg, after⟩]) }

def step (h : History) : Call → Option History
  | .push d data => some (h.recordPush d data)
  | .pop d =>
    match h.queue.popMsg d with
    | .error _ => none
    | .ok (msg, after) => some (h.recordPop d msg after)

section
variable {h : History} {d d' : MsgType} {data : XferType} {msg : SrvMsg} {after : ServiceQueue XferType}

@[simp] theorem pushed_recordPush : (h.recordPush d data).pushed d = h.pushed d ++ [data] :=
  Function.update_self ..

theorem pushed_recordPush_of_ne (hne : d' ≠ d) : (h.recordPush d data).pushed d' = h.pushed d' :=
  Function.update_of_ne hne ..

@[simp] theorem pops_recordPush : (h.recordPush d data).pops = h.pops := rfl

@[simp] theorem pops_recordPop : (h.recordPop d msg after).pops d = h.pops d ++ [⟨h.queue, msg, after⟩] :=
  Function.update_self ..

theorem pops_recordPop_of_ne (hne : d' ≠ d) : (h.recordPop d msg after).pops d' = h.pops d' :=
  Function.update_of_ne hne ..

@[simp] theorem pushed_recordPop : (h.recordPop d msg after).pushed = h.pushed := rfl

@[simp] theorem queue_recordPop : (h.recordPop d msg after).queue = after := rfl

@[simp] theorem lane_recordPush :
    (h.recordPush d data).queue.lane d = ConcurrentQueue.push (h.queue.lane d) data :=
  ServiceQueue.lane_setLane

theorem lane_recordPush_of_ne (hne : d' ≠ d) : (h.recordPush d data).queue.lane d' = h.queue.lane d' :=
  ServiceQueue.lane_setLane_of_ne hne

end

def calls : System History Call where
  init := fun h => ∃ tpcName qLen, h = new tpcName qLen
  step := step

variable {h h' : History} {c : Call} {d : MsgType}

theorem step_pop_nil (hq : h.queue.lane d = []) :
    h.step (.pop d) = some (h.recordPop d (SrvMsg.new d .empty badIndex 0) h.queue) := by
  rw [step, ServiceQueue.popMsg_nil hq]

theorem step_pop_cons {data : XferType} {queue : List XferType} (hq : h.queue.lane d = data :: queue) :
    h.step (.pop d) = some
      (h.recordPop d (SrvMsg.new d .valid h.queue.seqReq data.length) (h.queue.popped d queue)) := by
  rw [step, ServiceQueue.popMsg_cons hq]

theorem step_cases (hs : h.step c = some h') :
    (∃ d data, c = .push d data ∧ h' = h.recordPush d data) ∨
    (∃ d, c = .pop d ∧ h.queue.lane d = [] ∧
      h' = h.recordPop d (SrvMsg.new d .empty badIndex 0) h.queue) ∨
    ∃ d data queue, c = .pop d ∧ h.queue.lane d = data :: queue ∧
      h' = h.recordPop d (SrvMsg.new d .valid h.queue.seqReq data.length) (h.queue.popped d queue) := by
  cases c with
  | push d data => exact Or.inl ⟨d, data, rfl, (Option.some.inj hs).symm⟩
  | pop d =>
    cases hq : h.queue.lane d with
    | nil =>
      have heq := hs.symm.trans (step_pop_nil hq)
      exact Or.inr (Or.inl ⟨d, rfl, hq, Option.some.inj heq⟩)
    | cons data queue =>
      have heq := hs.symm.trans (step_pop_cons hq)
      exact Or.inr (Or.inr ⟨d, data, queue, rfl, hq, Option.some.inj heq⟩)

end History

def validMsgs (pops : List Pop) : List SrvMsg := (pops.map (·.msg)).filter (·.status = .valid)

theorem validMsgs_valid {pops : List Pop} {p : Pop} (h : p.msg.status = .valid) :
    validMsgs (pops ++ [p]) = validMsgs pops ++ [p.msg] := by
  simp [validMsgs, h]

theorem validMsgs_other {pops : List Pop} {p : Pop} (h : p.msg.status ≠ .valid) :
    validMsgs (pops ++ [p]) = validMsgs pops := by
  simp [validMsgs, h]

/-! ### Payloads -/

def Pop.removed (p : Pop) (d : MsgType) : List XferType :=
  (p.before.lane d).take ((p.before.lane d).length - (p.after.lane d).length)

/-- In one direction, each `VALID` message holds what its pop removed, each message has the size of its data,
    and the data of the `VALID` messages, with what is still queued, are what was pushed. -/
structure Conserved (d : MsgType) (pushed : List XferType) (pops : List Pop) (queued : List XferType) :
    Prop where
  whole : ∀ p ∈ pops, p.msg.status = .valid → p.removed d = [p.msg.data]
  size : ∀ p ∈ pops, p.msg.payloadSize = sizeofDouble * p.msg.data.length
  kept : (validMsgs pops).map (·.data) ++ queued = pushed

def PayloadsConserved (h : History) : Prop := ∀ d, Conserved d (h.pushed d) (h.pops d) (h.queue.lane d)

def PopsNoElement (h : History) (c : History.Call) : Prop :=
  ∀ d, c = .pop d → ∀ data ∈ (h.queue.lane d).head?, data = []

namespace Conserved
variable {d : MsgType} {pushed queued : List XferType} {pops : List Pop} {q after : ServiceQueue XferType}

theorem push (h : Conserved d pushed pops queued) (data : XferType) :
    Conserved d (pushed ++ [data]) pops (ConcurrentQueue.push queued data) where
  whole := h.whole
  size := h.size
  kept := by rw [ConcurrentQueue.push, ← List.append_assoc, h.kept]

theorem popEmpty {seq : Nat} (h : Conserved d pushed pops queued) :
    Conserved d pushed (pops ++ [⟨q, SrvMsg.new d .empty seq 0, after⟩]) queued where
  whole := List.forall_mem_append.mpr ⟨h.whole, List.forall_mem_singleton.mpr fun hv => (by cases hv)⟩
  size := List.forall_mem_append.mpr ⟨h.size, List.forall_mem_singleton.mpr rfl⟩
  kept := by
    rw [validMsgs_other (by exact StatusType.noConfusion)]
    exact h.kept

/-- The constructor of the message keeps a payload only if it has no element. -/
theorem popValid_iff (seq : Nat) {data : XferType} {queue : List XferType}
    (h : Conserved d pushed pops (data :: queue)) (hq : q.lane d = data :: queue) (ha : after.lane d = queue) :
    Conserved d pushed (pops ++ [⟨q, SrvMsg.new d .valid seq data.length, after⟩]) queue ↔ data = [] := by
  have hremoved : Pop.removed ⟨q, SrvMsg.new d .valid seq data.length, after⟩ d = [data] := by
    rw [Pop.removed, hq, ha, List.length_cons, Nat.add_sub_cancel_left]
    rfl
  constructor
  · intro h'
    have hwhole := h'.whole _ (List.mem_append_right _ (List.mem_singleton_self _)) rfl
    rw [hremoved] at hwhole
    exact (List.cons.inj hwhole).1
  · rintro rfl
    refine ⟨?_, ?_, ?_⟩
    · exact List.forall_mem_append.mpr ⟨h.whole, List.forall_mem_singleton.mpr fun _ => hremoved⟩
    · exact List.forall_mem_append.mpr ⟨h.size, List.forall_mem_singleton.mpr rfl⟩
    · rw [validMsgs_valid rfl, List.map_append, List.append_assoc]
      exact h.kept

end Conserved

theorem payloadsConserved_new (tpcName : Str) (qLen : Nat) : PayloadsConserved (History.new tpcName qLen) := by
  intro d
  refine ⟨by simp [History.new], by simp [History.new], ?_⟩
  cases d <;> rfl

/-- A call keeps the payloads exactly when it pops none that has an element. -/
theorem payloadsConserved_step {h h' : History} {c : History.Call} (hp : PayloadsConserved h)
    (hs : h.step c = some h') : PayloadsConserved h' ↔ PopsNoElement h c := by
  rcases History.step_cases hs with ⟨d, data, rfl, rfl⟩ | ⟨d, rfl, hq, rfl⟩ | ⟨d, data, queue, rfl, hq, rfl⟩
  · refine ⟨fun _ d' hd' => (by cases hd'), fun _ d' => ?_⟩
    rcases eq_or_ne d' d with rfl | hne
    · simpa using (hp d').push data
    · simpa [History.pushed_recordPush_of_ne hne, History.lane_recordPush_of_ne hne] using hp d'
  · constructor
    · rintro - d' hd'
      cases hd'
      simp [hq]
    · intro _ d'
      rcases eq_or_ne d' d with rfl | hne
      · simpa using (hp d').popEmpty
      · simpa [History.pops_recordPop_of_ne hne] using hp d'
  · have hd := hp d
    rw [hq] at hd
    have last := hd.popValid_iff h.queue.seqReq hq h.queue.lane_popped
    constructor
    · rintro h' d' hd' data' hdata'
      cases hd'
      rw [hq] at hdata'
      cases hdata'
      exact last.mp (by simpa using h' d)
    · intro hc d'
      rcases eq_or_ne d' d with rfl | hne
      · simpa using last.mpr (hc d' rfl data (by rw [hq]; rfl))
      · simpa [History.pops_recordPop_of_ne hne, ServiceQueue.lane_popped_of_ne hne] using hp d'

/-- Over a run from a new service queue, the payloads are conserved exactly if no payload with an element is
    ever popped. -/
theorem payloads_conserved_iff {h h' : History} {l : List (History × History.Call)}
    (start : History.calls.init h) (run : History.calls.Trace h l h') :
    Always PayloadsConserved l h' ↔ ∀ x ∈ l, PopsNoElement x.1 x.2 := by
  obtain ⟨tpcName, qLen, rfl⟩ := start
  exact run.always_iff (I := fun _ _ => True) trivial (fun _ _ _ _ _ _ => trivial)
    (payloadsConserved_new tpcName qLen) fun _ _ _ _ _ _ hp hs => payloadsConserved_step hp hs

theorem payloads_conserved_iff_empty : ∃ l h', History.calls.Trace (History.new [] 0) l h' ∧
    l.map Prod.snd = [.push .request [], .pop .request] ∧ Always PayloadsConserved l h' := by
  have run := ((Trace.nil (M := History.calls) (s := History.new [] 0)).snoc
    (a := .push .request []) rfl).snoc (a := .pop .request) rfl
  refine ⟨_, _, run, rfl, (payloads_conserved_iff ⟨[], 0, rfl⟩ run).mpr ?_⟩
  rintro x hx d hd data hdata
  rcases List.mem_append.mp hx with hx | hx <;> obtain rfl := List.mem_singleton.mp hx
  · cases hd
  · cases hd
    exact (Option.some.inj hdata).symm

theorem payload_lost : ∃ l h', History.calls.Trace (History.new [] 0) l h' ∧
    l.map Prod.snd = [.push .request [1], .pop .request] ∧ ¬ PayloadsConserved h' := by
  have first := (Trace.nil (M := History.calls) (s := History.new [] 0)).snoc (a := .push .request [1]) rfl
  have hp := (payloadsConserved_step (payloadsConserved_new [] 0)
    (show (History.new [] 0).step (.push .request [1]) = some _ from rfl)).mpr fun d hd => (by cases hd)
  refine ⟨_, _, first.snoc (a := .pop .request) rfl, rfl, fun h => ?_⟩
  have hnil := (payloadsConserved_step hp rfl).mp h .request rfl [1] rfl
  cases hnil

/-! ### Numbers -/

/-- In each direction the `VALID` messages are numbered from zero, the two counters are their numbers, and an
    `EMPTY` pop changes nothing. -/
structure Numbered (h : History) : Prop where
  consecutive : ∀ d, (validMsgs (h.pops d)).map (·.sequence) = List.range (validMsgs (h.pops d)).length
  seqReq : h.queue.seqReq = (validMsgs (h.pops .request)).length
  seqRsp : h.queue.seqRsp = (validMsgs (h.pops .response)).length
  empty : ∀ d, ∀ p ∈ h.pops d, p.msg.status = .empty → p.after = p.before

def PopsNoResponse (h : History) (c : History.Call) : Prop := c = .pop .response → h.queue.qRsp = []

theorem numbered_new (tpcName : Str) (qLen : Nat) : Numbered (History.new tpcName qLen) :=
  ⟨fun _ => rfl, rfl, rfl, fun _ _ hp => absurd hp List.not_mem_nil⟩

theorem length_validMsgs_step {h h' : History} {c : History.Call} (hs : h.step c = some h') (d : MsgType) :
    (validMsgs (h'.pops d)).length ≤ (validMsgs (h.pops d)).length + 1 := by
  have record : ∀ e msg after, (validMsgs ((h.recordPop e msg after).pops d)).length ≤
      (validMsgs (h.pops d)).length + 1 := by
    intro e msg after
    rcases eq_or_ne d e with rfl | hne
    · rw [History.pops_recordPop]
      by_cases hv : msg.status = .valid
      · exact Nat.le_of_eq (by rw [validMsgs_valid hv, List.length_append, List.length_singleton])
      · rw [validMsgs_other hv]
        exact Nat.le_succ _
    · rw [History.pops_recordPop_of_ne hne]
      exact Nat.le_succ _
  rcases History.step_cases hs with ⟨e, data, rfl, rfl⟩ | ⟨e, rfl, hq, rfl⟩ | ⟨e, data, queue, rfl, hq, rfl⟩
  · exact Nat.le_succ _
  · exact record e _ _
  · exact record e _ _

namespace Numbered
variable {h : History} {d : MsgType}

theorem push (hn : Numbered h) (data : XferType) : Numbered (h.recordPush d data) where
  consecutive := hn.consecutive
  seqReq := by simpa [History.recordPush] using hn.seqReq
  seqRsp := by simpa [History.recordPush] using hn.seqRsp
  empty := hn.empty

theorem popEmpty (hn : Numbered h) (seq : Nat) :
    Numbered (h.recordPop d (SrvMsg.new d .empty seq 0) h.queue) := by
  have same : ∀ d', validMsgs ((h.recordPop d (SrvMsg.new d .empty seq 0) h.queue).pops d') =
      validMsgs (h.pops d') := by
    intro d'
    rcases eq_or_ne d' d with rfl | hne
    · rw [History.pops_recordPop]
      exact validMsgs_other (by exact StatusType.noConfusion)
    · rw [History.pops_recordPop_of_ne hne]
  refine ⟨fun d' => ?_, ?_, ?_, fun d' => ?_⟩
  · rw [same]
    exact hn.consecutive d'
  · rw [same]
    exact hn.seqReq
  · rw [same]
    exact hn.seqRsp
  · rcases eq_or_ne d' d with rfl | hne
    · rw [History.pops_recordPop]
      exact List.forall_mem_append.mpr ⟨hn.empty d', List.forall_mem_singleton.mpr fun _ => rfl⟩
    · rw [History.pops_recordPop_of_ne hne]
      exact hn.empty d'

theorem popRequest (hn : Numbered h) {N : Nat} {queue : List XferType}
    (hlt : (validMsgs (h.pops .request)).length + 1 < Str.sizeRange) :
    Numbered (h.recordPop .request (SrvMsg.new .request .valid h.queue.seqReq N)
      (h.queue.popped .request queue)) := by
  have hseq := hn.seqReq
  refine ⟨fun d => ?_, ?_, hn.seqRsp, fun d => ?_⟩
  · cases d with
    | request =>
      rw [History.pops_recordPop, validMsgs_valid rfl, List.map_append, hn.consecutive, List.length_append,
        List.length_singleton, List.range_succ, ← hseq]
      rfl
    | response => exact hn.consecutive .response
  · show increment h.queue.seqReq = _
    rw [History.pops_recordPop, validMsgs_valid rfl, List.length_append, List.length_singleton, hseq, increment,
      Nat.mod_eq_of_lt hlt]
  · cases d with
    | request =>
      rw [History.pops_recordPop]
      exact List.forall_mem_append.mpr ⟨hn.empty .request, List.forall_mem_singleton.mpr fun he => (by cases he)⟩
    | response => exact hn.empty .response

theorem not_popResponse (hn : Numbered h) {N : Nat} {queue : List XferType}
    (hlt : (validMsgs (h.pops .request)).length + 1 < Str.sizeRange) :
    ¬ Numbered (h.recordPop .response (SrvMsg.new .response .valid h.queue.seqReq N)
      (h.queue.popped .response queue)) := by
  intro hn'
  have after : increment h.queue.seqReq = (validMsgs (h.pops .request)).length := hn'.seqReq
  rw [hn.seqReq, increment, Nat.mod_eq_of_lt hlt] at after
  omega

end Numbered

/-- While the counter has numbers left, a call keeps the numbering exactly when it pops no response. -/
theorem numbered_step {h h' : History} {c : History.Call}
    (hlt : (validMsgs (h.pops .request)).length + 1 < Str.sizeRange) (hn : Numbered h)
    (hs : h.step c = some h') : Numbered h' ↔ PopsNoResponse h c := by
  rcases History.step_cases hs with ⟨d, data, rfl, rfl⟩ | ⟨d, rfl, hq, rfl⟩ | ⟨d, data, queue, rfl, hq, rfl⟩
  · exact ⟨fun _ hd => (by cases hd), fun _ => hn.push data⟩
  · refine ⟨fun _ hd => ?_, fun _ => hn.popEmpty badIndex⟩
    cases hd
    exact hq
  · cases d with
    | request => exact ⟨fun _ hd => (by cases hd), fun _ => hn.popRequest hlt⟩
    | response =>
      refine ⟨fun hn' => absurd hn' (hn.not_popResponse hlt), fun hc => ?_⟩
      have hnil : h.queue.lane .response = [] := hc rfl
      rw [hnil] at hq
      cases hq

/-- Over fewer than `2 ^ 64 - 1` calls on a new service queue, requests and responses are numbered
    independently exactly if no response is ever popped. -/
theorem numbered_iff {h h' : History} {l : List (History × History.Call)} (start : History.calls.init h)
    (run : History.calls.Trace h l h') (short : l.length < Str.sizeRange - 1) :
    Always Numbered l h' ↔ ∀ x ∈ l, PopsNoResponse x.1 x.2 := by
  obtain ⟨tpcName, qLen, rfl⟩ := start
  refine run.always_iff (I := fun n t => (validMsgs (t.pops .request)).length ≤ n)
    (by exact Nat.le_refl 0)
    (fun n t c u hn hs => Nat.le_trans (length_validMsgs_step hs .request) (Nat.succ_le_succ hn))
    (numbered_new tpcName qLen) fun n t c u hlen hn hp hs => numbered_step ?_ hp hs
  omega

/-- Two requests, and the answer of an empty response queue. -/
theorem numbered_iff_requests : ∃ l h', History.calls.Trace (History.new [] 0) l h' ∧
    l.map Prod.snd = [.push .request [1], .push .request [2], .pop .request, .pop .response, .pop .request] ∧
    (h'.pops .request).map (·.msg.sequence) = [0, 1] ∧ (h'.pops .response).map (·.msg.status) = [.empty] ∧
    Always Numbered l h' := by
  have push := ((Trace.nil (M := History.calls) (s := History.new [] 0)).snoc
    (a := .push .request [1]) rfl).snoc (a := .push .request [2]) rfl
  have run := ((push.snoc (a := .pop .request) rfl).snoc (a := .pop .response) rfl).snoc (a := .pop .request) rfl
  refine ⟨_, _, run, rfl, rfl, rfl, (numbered_iff ⟨[], 0, rfl⟩ run (by decide)).mpr ?_⟩
  rintro x hx hd
  simp only [List.nil_append, List.mem_append, List.mem_singleton] at hx
  rcases hx with (((rfl | rfl) | rfl) | rfl) | rfl
  · cases hd
  · cases hd
  · cases hd
  · rfl
  · cases hd

/-- After one response the next request is the first one, and has number one. -/
theorem response_takes_number : ∃ l h', History.calls.Trace (History.new [] 0) l h' ∧
    l.map Prod.snd = [.push .response [], .push .request [], .pop .response, .pop .request] ∧
    (validMsgs (h'.pops .request)).map (·.sequence) = [1] ∧ ¬ Numbered h' := by
  have run := ((((Trace.nil (M := History.calls) (s := History.new [] 0)).snoc
    (a := .push .response []) rfl).snoc (a := .push .request []) rfl).snoc (a := .pop .response) rfl).snoc
    (a := .pop .request) rfl
  refine ⟨_, _, run, rfl, rfl, fun hn => ?_⟩
  have first := hn.consecutive .request
  cases first

end ServiceBridge
