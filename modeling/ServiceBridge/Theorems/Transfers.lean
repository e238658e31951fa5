import ServiceBridge.Theorems.Accepting

/-! A `Connection` in use: whether `is_closed` agrees with the status, and whether the counters agree with the
    bytes that went over the socket. -/

namespace ServiceBridge
open Command

/-! ### What the calls do -/

theorem isClosed_exec (c : Connection) : isClosed.exec c =
    (.ok (decide (c.netError = .eof)), if c.netError = .eof then { c with status := .closed } else c) := by
  unfold isClosed
  simp only [exec_bind, exec_get, andThen_ok]
  by_cases h : c.netError = .eof
  · simp only [h, decide_true, if_true]
    rfl
  · simp only [h, decide_false, if_false]
    rfl

section
variable {x : Exchange} {nBytes : Nat} {t : Transfer}

/-- The object and the buffer after a `read_some`. -/
def Exchange.read (x : Exchange) (t : Transfer) : Exchange :=
  ⟨{ x.connection with
      socket := (x.connection.socket.readSome x.buffer t).1
      bytesRcvd := (x.connection.bytesRcvd + x.connection.socket.taking x.buffer t) % Str.sizeRange
      netError := t.ec },
    (x.connection.socket.readSome x.buffer t).2⟩

theorem tryReadBytes_closed (h : x.connection.socket.isOpen = false) :
    (tryReadBytes nBytes t).exec x = (.error .badDescriptor, x) := by
  have havailable : x.connection.socket.available = .error .badDescriptor := by rw [Socket.available, h]; rfl
  unfold tryReadBytes
  simp only [exec_bind, exec_get, andThen_ok, exec_liftM, havailable, andThen_error]

/-- `try_read_bytes` reads if enough has arrived, and returns false in any case. -/
theorem tryReadBytes_open (h : x.connection.socket.isOpen = true) : (tryReadBytes nBytes t).exec x =
    (.ok false, if nBytes ≤ x.connection.socket.arrived.length then x.read t else x) := by
  unfold tryReadBytes
  simp only [exec_bind, exec_get, andThen_ok, exec_liftM, Socket.available_open h]
  by_cases hn : nBytes ≤ x.connection.socket.arrived.length
  · rw [if_pos hn, if_pos hn]
    rfl
  · rw [if_neg hn, if_neg hn]
    rfl

theorem write_exec : (write t).exec x = (.ok ⟨⟩, { x with connection := { x.connection with
    socket := (x.connection.socket.writeSome x.buffer t).1
    netError := (x.connection.socket.writeSome x.buffer t).2 } }) := rfl

end

/-! ### Runs -/

inductive Traffic where
  /-- Bytes from the peer reach the socket. -/
  | arrive (bytes : Buffer)
  | tryReadBytes (nBytes : Nat) (outBuffer : Buffer) (t : Transfer)
  | write (inBuffer : Buffer) (t : Transfer)

inductive ConnectionAct where
  /-- A call of `accept` on some acceptor. -/
  | accept (acceptor : Acceptor) (client : Except ErrorCode PUnit)
  | isClosed
  | traffic (act : Traffic)

/-- A call of `is_closed`: what it returned, and whether it had to be true because no `accept` had succeeded
    since the start, a failed `accept` or an earlier answer. -/
structure Answer where
  returned : Except ErrorCode Bool
  due : Bool

structure ReadCall where
  before : Exchange
  returned : Except ErrorCode Bool
  after : Exchange

/-- A connection in use: whether `is_closed` is due to be true of it, and the last call if it was one of
    `is_closed` or `try_read_bytes`. -/
structure Session where
  connection : Connection
  due : Bool
  answer : Option Answer
  readCall : Option ReadCall

namespace Session

def afterRead (s : Session) (before : Exchange) : Except ErrorCode Bool × Exchange → Session
  | (returned, after) => ⟨after.connection, s.due, none, some ⟨before, returned, after⟩⟩

def transfer (s : Session) : Traffic → Session
  | .arrive bytes =>
    let socket := { s.connection.socket with arrived := s.connection.socket.arrived ++ bytes }
    ⟨{ s.connection with socket := socket }, s.due, none, none⟩
  | .tryReadBytes nBytes outBuffer t =>
    s.afterRead ⟨s.connection, outBuffer⟩ ((tryReadBytes nBytes t).exec ⟨s.connection, outBuffer⟩)
  | .write inBuffer t => ⟨((write t).exec ⟨s.connection, inBuffer⟩).2.connection, s.due, none, none⟩

def afterAccept (s : Session) : Except ErrorCode Bool × Accepting → Session
  | (.ok accepted, x) => ⟨x.connection, !accepted, none, none⟩
  | (.error _, x) => ⟨x.connection, s.due, none, none⟩

def afterIsClosed (s : Session) : Except ErrorCode Bool × Connection → Session
  | (.ok closed, connection) => ⟨connection, s.due || closed, some ⟨.ok closed, s.due⟩, none⟩
  | (.error e, connection) => ⟨connection, s.due, some ⟨.error e, s.due⟩, none⟩

def step (s : Session) : ConnectionAct → Session
  | .accept acceptor client => s.afterAccept ((accept client).exec ⟨s.connection, acceptor⟩)
  | .isClosed => s.afterIsClosed (isClosed.exec s.connection)
  | .traffic act => s.transfer act

/-- Connections from their constructor on. -/
def system : System Session ConnectionAct where
  init s := ∃ ip port, s = ⟨.new ip port, true, none, none⟩
  step s a := some (s.step a)

/-- Connections that have just been accepted, from which nothing is asked but to transfer bytes. -/
def traffic : System Session Traffic where
  init s := s.connection.status = .open ∧ s.connection.socket.isOpen = true ∧ s.connection.socket.taken = [] ∧
    s.connection.socket.accepted = [] ∧ s.connection.bytesRcvd = 0 ∧ s.connection.bytesSent = 0 ∧ s.readCall = none
  step s a := some (s.transfer a)

/-! ### is_closed and the status -/

/-- If the last call was one of `is_closed`, it returned whether the status is `closed` now, and true where
    that was due. -/
def Agrees (s : Session) : Prop :=
  ∀ a ∈ s.answer, a.returned = .ok (decide (s.connection.status = .closed)) ∧ (a.due = true → a.returned = .ok true)

variable {s t : Session}

theorem step_isClosed (s : Session) : s.step .isClosed =
    ⟨if s.connection.netError = .eof then { s.connection with status := .closed } else s.connection,
      s.due || decide (s.connection.netError = .eof),
      some ⟨.ok (decide (s.connection.netError = .eof)), s.due⟩, none⟩ :=
  congrArg s.afterIsClosed (isClosed_exec s.connection)

theorem read_closed {nBytes : Nat} {outBuffer : Buffer} {t : Transfer} (h : s.connection.socket.isOpen = false) :
    s.transfer (.tryReadBytes nBytes outBuffer t) =
      s.afterRead ⟨s.connection, outBuffer⟩ (.error .badDescriptor, ⟨s.connection, outBuffer⟩) :=
  congrArg (s.afterRead ⟨s.connection, outBuffer⟩) (tryReadBytes_closed h)

theorem read_open {nBytes : Nat} {outBuffer : Buffer} {t : Transfer} (h : s.connection.socket.isOpen = true) :
    s.transfer (.tryReadBytes nBytes outBuffer t) = s.afterRead ⟨s.connection, outBuffer⟩ (.ok false,
      if nBytes ≤ s.connection.socket.arrived.length then Exchange.read ⟨s.connection, outBuffer⟩ t
      else ⟨s.connection, outBuffer⟩) :=
  congrArg (s.afterRead ⟨s.connection, outBuffer⟩) (tryReadBytes_open h)

theorem write_open {inBuffer : Buffer} {t : Transfer} (h : s.connection.socket.isOpen = true) :
    s.transfer (.write inBuffer t) =
      let accepted := s.connection.socket.accepted ++ inBuffer.take t.count
      ⟨{ s.connection with socket := { s.connection.socket with accepted := accepted }, netError := t.ec }, s.due,
        none, none⟩ := by
  rw [transfer, write_exec, Socket.writeSome_open h]

theorem status_transfer (s : Session) (act : Traffic) :
    (s.transfer act).connection.status = s.connection.status := by
  cases act with
  | arrive bytes => rfl
  | write inBuffer t => rfl
  | tryReadBytes nBytes outBuffer t =>
    cases h : s.connection.socket.isOpen with
    | false => rw [read_closed h, afterRead]
    | true =>
      rw [read_open h]
      by_cases hn : nBytes ≤ s.connection.socket.arrived.length
      · rw [if_pos hn]
        rfl
      · rw [if_neg hn]
        rfl

theorem due_transfer (s : Session) (act : Traffic) :
    (s.transfer act).due = s.due ∧ (s.transfer act).answer = none := by
  cases act with
  | arrive bytes => exact ⟨rfl, rfl⟩
  | write inBuffer t => exact ⟨rfl, rfl⟩
  | tryReadBytes nBytes outBuffer t => exact ⟨rfl, rfl⟩

/-- Where `is_closed` is due to be true, the status is `closed`. -/
def DueClosed (s : Session) : Prop := s.due = true → s.connection.status = .closed

theorem DueClosed.accept (h : DueClosed s) (acceptor : Acceptor) (client : Except ErrorCode PUnit) :
    DueClosed (s.afterAccept ((accept client).exec ⟨s.connection, acceptor⟩)) := by
  by_cases ha : acceptor = .closed
  · rw [ha, accept_exec_closed]
    cases client with
    | ok _ => exact fun hdue => Bool.noConfusion hdue
    | error e => exact fun _ => rfl
  · rw [accept_exec_open ha]
    exact h

theorem DueClosed.step (h : DueClosed s) (a : ConnectionAct) : DueClosed (s.step a) := by
  cases a with
  | accept acceptor client => exact h.accept acceptor client
  | isClosed =>
    rw [step_isClosed]
    by_cases heof : s.connection.netError = .eof
    · rw [if_pos heof]
      exact fun _ => rfl
    · rw [if_neg heof, decide_eq_false heof, Bool.or_false]
      exact h
  | traffic act =>
    intro hdue
    rw [Session.step, status_transfer]
    exact h ((due_transfer s act).1 ▸ hdue)

theorem agrees_isClosed_iff (h : DueClosed s) :
    (s.step .isClosed).Agrees ↔ s.connection.netError = .eof ∨ s.connection.status ≠ .closed := by
  rw [step_isClosed]
  by_cases heof : s.connection.netError = .eof
  · rw [if_pos heof, decide_eq_true heof]
    exact iff_of_true (fun a ha => Option.some.inj ha ▸ ⟨rfl, fun _ => rfl⟩) (Or.inl heof)
  · rw [if_neg heof, decide_eq_false heof, or_iff_right heof]
    constructor
    · intro hagrees hclosed
      have answer := (hagrees _ rfl).1
      rw [decide_eq_true hclosed] at answer
      cases answer
    · intro hopen a ha
      rw [← Option.some.inj ha, decide_eq_false hopen]
      exact ⟨rfl, fun hdue => absurd (h hdue) hopen⟩

theorem answer_afterAccept (s : Session) (r : Except ErrorCode Bool × Accepting) :
    (s.afterAccept r).answer = none := by
  rcases r with ⟨_ | accepted, x⟩ <;> rfl

theorem agrees_step_iff (h : DueClosed s) (a : ConnectionAct) : (s.step a).Agrees ↔
    (a = .isClosed → s.connection.netError = .eof ∨ s.connection.status ≠ .closed) := by
  have quiet : ∀ {u : Session}, u.answer = none → u.Agrees := by
    intro u hnone b hb
    rw [hnone] at hb
    cases hb
  cases a with
  | accept acceptor client => exact iff_of_true (quiet (answer_afterAccept s _)) nofun
  | traffic act => exact iff_of_true (quiet (due_transfer s act).2) nofun
  | isClosed =>
    rw [agrees_isClosed_iff h]
    exact ⟨fun hc _ => hc, fun hc => hc rfl⟩

/-- In a run of calls, `is_closed` agrees with the status throughout exactly if each of its calls comes when the
    last error is the end of the file or the status is not `closed`. -/
theorem is_closed_agrees_iff {l : List (Session × ConnectionAct)} (start : system.init s)
    (run : system.Trace s l t) : System.Always Agrees l t ↔
      ∀ x ∈ l, x.2 = .isClosed → x.1.connection.netError = .eof ∨ x.1.connection.status ≠ .closed := by
  obtain ⟨ip, port, rfl⟩ := start
  refine run.always_iff (I := fun _ => DueClosed) (P := Agrees)
    (C := fun s a => a = .isClosed → s.connection.netError = .eof ∨ s.connection.status ≠ .closed)
    (fun _ => rfl) ?_ (fun _ ha => nomatch ha) ?_
  · rintro _ s a _ h ⟨⟩
    exact h.step a
  · rintro _ s a _ _ h - ⟨⟩
    exact agrees_step_iff h a

def new : Session := ⟨.new [] [], true, none, none⟩

theorem init_new : system.init new := ⟨[], [], rfl⟩

/-- It is not closed when it is accepted, and it is from the read on that ends with the end of the file. -/
theorem is_closed_agrees_iff_eof : ∃ l t, system.Trace new l t ∧
    l.map Prod.snd = [.accept .closed (.ok ⟨⟩), .isClosed, .traffic (.arrive [7]),
      .traffic (.tryReadBytes 1 [0] ⟨1, .success⟩), .traffic (.tryReadBytes 0 [0] ⟨0, .eof⟩), .isClosed, .isClosed] ∧
    t.connection.socket.taken = [7] ∧ t.connection.status = .closed ∧ t.answer = some ⟨.ok true, true⟩ ∧
    System.Always Agrees l t := by
  have opened := ((System.Trace.nil (M := system) (s := new)).snoc (a := .accept .closed (.ok ⟨⟩)) rfl).snoc
    (a := .isClosed) rfl
  have read := ((opened.snoc (a := .traffic (.arrive [7])) rfl).snoc
    (a := .traffic (.tryReadBytes 1 [0] ⟨1, .success⟩)) rfl).snoc
    (a := .traffic (.tryReadBytes 0 [0] ⟨0, .eof⟩)) rfl
  have run := (read.snoc (a := .isClosed) rfl).snoc (a := .isClosed) rfl
  refine ⟨_, _, run, rfl, rfl, rfl, rfl, (is_closed_agrees_iff init_new run).mpr ?_⟩
  rintro x hx hcall
  simp only [List.nil_append, List.mem_append, List.mem_singleton] at hx
  rcases hx with (((((rfl | rfl) | rfl) | rfl) | rfl) | rfl) | rfl
  · cases hcall
  · exact Or.inr StatusType.noConfusion
  iterate 3 cases hcall
  · exact Or.inl rfl
  · exact Or.inl rfl

theorem new_connection_not_closed : ∃ l t, system.init new ∧ system.Trace new l t ∧
    t.connection.status = .closed ∧ t.answer = some ⟨.ok false, true⟩ ∧ ¬ System.Always Agrees l t := by
  have run := (System.Trace.nil (M := system) (s := new)).snoc (a := .isClosed) rfl
  refine ⟨_, _, init_new, run, rfl, rfl, fun always => ?_⟩
  cases (always.2 _ rfl).2 rfl

end Session

/-! ### The bytes and the counters -/

section
variable {s : Socket} {buffer : Buffer} {t : Transfer}

theorem taking_eq_zero_iff : s.taking buffer t = 0 ↔ t.count = 0 ∨ s.arrived = [] ∨ buffer = [] := by
  rw [Socket.taking, Nat.min_eq_zero_iff, Nat.min_eq_zero_iff, List.length_eq_zero_iff, List.length_eq_zero_iff]

theorem readSome_nothing (h : s.taking buffer t = 0) : s.readSome buffer t = (s, buffer) := by
  unfold Socket.readSome
  simp only [h, List.drop_zero, List.take_zero, List.append_nil, List.nil_append]

theorem length_taken_readSome : (s.readSome buffer t).1.taken.length = s.taken.length + s.taking buffer t := by
  have hle : s.taking buffer t ≤ s.arrived.length :=
    Nat.le_trans (Nat.min_le_right _ _) (Nat.min_le_left _ _)
  unfold Socket.readSome
  simp only [List.length_append, List.length_take, Nat.min_eq_left hle]

end

/-- The call took bytes off the socket. -/
def ReadCall.Took (r : ReadCall) : Prop := r.before.connection.socket.taken ≠ r.after.connection.socket.taken

/-- The call returned true exactly if it took bytes off the socket, and else changed neither the stream nor the
    buffer nor the counter. -/
structure ReadCall.Honest (r : ReadCall) : Prop where
  took : r.Took → r.returned = .ok true
  refused : ¬ r.Took → r.returned = .ok false ∧ r.after.connection.socket = r.before.connection.socket ∧
    r.after.buffer = r.before.buffer ∧ r.after.connection.bytesRcvd = r.before.connection.bytesRcvd

namespace Session

structure Accounted (s : Session) : Prop where
  rcvd : s.connection.bytesRcvd = s.connection.socket.taken.length
  sent : s.connection.bytesSent = s.connection.socket.accepted.length
  reads : ∀ r ∈ s.readCall, r.Honest

/-- No byte passes: too few have arrived for the read, or it takes none; none of the buffer is sent. -/
def PassesNothing (s : Session) : Traffic → Prop
  | .arrive _ => True
  | .tryReadBytes nBytes outBuffer t => nBytes ≤ s.connection.socket.arrived.length →
      t.count = 0 ∨ s.connection.socket.arrived = [] ∨ outBuffer = []
  | .write inBuffer t => t.count = 0 ∨ inBuffer = []

/-- What a run of transfers keeps: the socket is open, and the counter is within its type. -/
structure Open (s : Session) : Prop where
  isOpen : s.connection.socket.isOpen = true
  counter : s.connection.bytesRcvd < Str.sizeRange

theorem Open.transfer (h : Open s) (act : Traffic) : Open (s.transfer act) := by
  cases act with
  | arrive bytes => exact ⟨h.isOpen, h.counter⟩
  | write inBuffer t =>
    rw [write_open h.isOpen]
    exact ⟨h.isOpen, h.counter⟩
  | tryReadBytes nBytes outBuffer t =>
    rw [read_open h.isOpen]
    by_cases hn : nBytes ≤ s.connection.socket.arrived.length
    · rw [if_pos hn]
      exact ⟨h.isOpen, Nat.mod_lt _ (Nat.two_pow_pos 64)⟩
    · rw [if_neg hn]
      exact ⟨h.isOpen, h.counter⟩

theorem Accounted.read_iff {nBytes : Nat} {outBuffer : Buffer} {t : Transfer} (hs : Accounted s) (h : Open s) :
    (s.transfer (.tryReadBytes nBytes outBuffer t)).Accounted ↔
      s.PassesNothing (.tryReadBytes nBytes outBuffer t) := by
  rw [PassesNothing, read_open h.isOpen, ← taking_eq_zero_iff]
  have same : ∀ x : Exchange, x.connection.socket = s.connection.socket →
      x.connection.bytesRcvd = s.connection.bytesRcvd → x.connection.bytesSent = s.connection.bytesSent →
      x.buffer = outBuffer → (s.afterRead ⟨s.connection, outBuffer⟩ (.ok false, x)).Accounted := by
    intro x socket rcvd sent buffer
    refine ⟨?_, ?_, fun r hr => ?_⟩
    · exact rcvd.trans (hs.rcvd.trans (by rw [← socket]; rfl))
    · exact sent.trans (hs.sent.trans (by rw [← socket]; rfl))
    · obtain rfl := Option.some.inj hr
      exact ⟨fun took => absurd (congrArg Socket.taken socket.symm) took, fun _ => ⟨rfl, socket, buffer, rcvd⟩⟩
  by_cases hn : nBytes ≤ s.connection.socket.arrived.length
  · rw [if_pos hn, forall_prop_of_true hn]
    by_cases hnone : s.connection.socket.taking outBuffer t = 0
    · have counter : (s.connection.bytesRcvd + s.connection.socket.taking outBuffer t) % Str.sizeRange =
          s.connection.bytesRcvd := by
        rw [hnone, Nat.add_zero, Nat.mod_eq_of_lt h.counter]
      have nothing := readSome_nothing hnone
      exact iff_of_true (same _ (congrArg Prod.fst nothing) counter rfl (congrArg Prod.snd nothing)) hnone
    · refine iff_of_false (fun hu => ?_) hnone
      have took := (hu.reads _ rfl).took fun heq => hnone ?_
      · cases took
      · have hlen := @length_taken_readSome s.connection.socket outBuffer t
        rw [← show s.connection.socket.taken = (s.connection.socket.readSome outBuffer t).1.taken from heq] at hlen
        omega
  · rw [if_neg hn]
    exact iff_of_true (same _ rfl rfl rfl rfl) fun hle => absurd hle hn

theorem Accounted.write_iff {inBuffer : Buffer} {t : Transfer} (hs : Accounted s) (h : Open s) :
    (s.transfer (.write inBuffer t)).Accounted ↔ s.PassesNothing (.write inBuffer t) := by
  have passes : s.PassesNothing (.write inBuffer t) ↔ (inBuffer.take t.count).length = 0 := by
    rw [PassesNothing, List.length_eq_zero_iff, List.take_eq_nil_iff]
  rw [passes, write_open h.isOpen]
  constructor
  · intro hu
    have sent : s.connection.bytesSent = (s.connection.socket.accepted ++ inBuffer.take t.count).length := hu.sent
    rw [hs.sent, List.length_append] at sent
    omega
  · intro hnone
    refine ⟨hs.rcvd, ?_, fun r hr => nomatch hr⟩
    rw [List.length_append, hnone]
    exact hs.sent

/-- In a run of transfers, the counters and the results of the reads are right throughout exactly if no byte
    is ever read or sent. -/
theorem accounted_iff {l : List (Session × Traffic)} (start : traffic.init s) (run : traffic.Trace s l t) :
    System.Always Accounted l t ↔ ∀ x ∈ l, x.1.PassesNothing x.2 := by
  obtain ⟨-, isOpen, taken, accepted, rcvd, sent, quiet⟩ := start
  have counter : s.connection.bytesRcvd < Str.sizeRange := by
    rw [rcvd]
    exact Nat.two_pow_pos 64
  have accounted : s.Accounted := by
    refine ⟨?_, ?_, fun r hr => ?_⟩
    · rw [rcvd, taken]
      rfl
    · rw [sent, accepted]
      rfl
    · rw [quiet] at hr
      cases hr
  refine run.always_iff (I := fun _ => Open) (C := PassesNothing) ⟨isOpen, counter⟩ ?_ accounted ?_
  · rintro _ s act _ h ⟨⟩
    exact h.transfer act
  · rintro _ s act _ - h hs ⟨⟩
    cases act with
    | arrive bytes => exact iff_of_true ⟨hs.rcvd, hs.sent, fun r hr => nomatch hr⟩ trivial
    | tryReadBytes nBytes outBuffer t => exact hs.read_iff h
    | write inBuffer t => exact hs.write_iff h

def justAccepted : Session := new.step (.accept .closed (.ok ⟨⟩))

theorem init_justAccepted : traffic.init justAccepted := ⟨rfl, rfl, rfl, rfl, rfl, rfl, rfl⟩

theorem accounted_iff_short : ∃ l t, traffic.Trace justAccepted l t ∧ t.connection.socket.arrived = [7] ∧
    System.Always Accounted l t := by
  have run := ((System.Trace.nil (M := traffic) (s := justAccepted)).snoc (a := .arrive [7]) rfl).snoc
    (a := .tryReadBytes 2 [0, 0] ⟨1, .success⟩) rfl
  refine ⟨_, _, run, rfl, (accounted_iff init_justAccepted run).mpr ?_⟩
  rw [List.forall_mem_append, List.nil_append, List.forall_mem_singleton, List.forall_mem_singleton]
  exact ⟨trivial, fun hle => absurd hle (by decide)⟩

/-- The byte is in the buffer and counted, and the call returns false. -/
theorem read_returns_false : ∃ l t r, traffic.init justAccepted ∧ traffic.Trace justAccepted l t ∧
    t.readCall = some r ∧ r.returned = .ok false ∧ r.after.buffer = [7] ∧ t.connection.bytesRcvd = 1 ∧
    ¬ System.Always Accounted l t := by
  have run := ((System.Trace.nil (M := traffic) (s := justAccepted)).snoc (a := .arrive [7]) rfl).snoc
    (a := .tryReadBytes 1 [0] ⟨1, .success⟩) rfl
  refine ⟨_, _, _, init_justAccepted, run, rfl, rfl, rfl, rfl, fun always => ?_⟩
  cases (always.2.reads _ rfl).took fun heq => List.cons_ne_nil 7 [] heq.symm

end Session

end ServiceBridge
