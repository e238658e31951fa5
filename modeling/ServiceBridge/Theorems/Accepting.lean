import Mathlib.Logic.Function.Basic
import ServiceBridge.Connection
import ServiceBridge.Library.Transition

/-! `Connection::accept` on an acceptor that several connections share. Each call sets the acceptor up from the
    start, outside of the `try` block, so only the first one gets as far as its client. -/

namespace ServiceBridge
open Command

/-! ### What accept does -/

section
variable {x : Accepting}

theorem setAcceptor_exec {f : Acceptor → Except ErrorCode Acceptor} :
    (setAcceptor f).exec x = match f x.acceptor with
    | .ok acceptor => (.ok ⟨⟩, { x with acceptor := acceptor })
    | .error e => (.error e, x) := by
  unfold setAcceptor
  simp only [exec_bind, exec_get, exec_liftM, andThen_ok]
  cases f x.acceptor <;> rfl

theorem setStatus_exec {status : StatusType} : (setStatus status).exec x =
    (.ok ⟨⟩, { x with connection := { x.connection with status := status } }) := rfl

theorem accept_exec_closed (c : Connection) (client : Except ErrorCode PUnit) :
    (accept client).exec ⟨c, .closed⟩ = match client with
      | .ok _ => (.ok true, ⟨{ c with status := .open, socket := ⟨true, [], [], []⟩ }, .listening ⟨c.ip, c.port⟩⟩)
      | .error _ => (.ok false, ⟨{ c with status := .closed }, .listening ⟨c.ip, c.port⟩⟩) := by
  unfold accept
  simp only [exec_bind, exec_get, andThen_ok, setAcceptor_exec, Acceptor.open, Acceptor.setOption, Acceptor.bind,
    Acceptor.listen, setStatus_exec, exec_tryCatch]
  cases client <;> rfl

/-- On an acceptor that is not closed, `accept` throws and changes nothing. -/
theorem accept_exec_open {a : Acceptor} (h : a ≠ .closed) (c : Connection) (client : Except ErrorCode PUnit) :
    (accept client).exec ⟨c, a⟩ = (.error .alreadyOpen, ⟨c, a⟩) := by
  have hopen : Acceptor.open a = .error .alreadyOpen := by
    cases a with
    | closed => exact absurd rfl h
    | opened => rfl
    | bound endpoint => rfl
    | listening endpoint => rfl
  unfold accept
  simp only [exec_bind, exec_get, andThen_ok, setAcceptor_exec, hopen, andThen_error]

/-- On a closed acceptor, `accept` ends in one of the two ways it means to, and leaves the acceptor open. -/
theorem accept_closed (c : Connection) (client : Except ErrorCode PUnit) :
    ∃ returned x, (accept client).exec ⟨c, .closed⟩ = (returned, x) ∧ x.acceptor ≠ .closed ∧
      ((returned, x.connection.status) = (.ok true, .open) ∨
        (returned, x.connection.status) = (.ok false, .closed)) := by
  rw [accept_exec_closed]
  cases client with
  | ok _ => exact ⟨_, _, rfl, Acceptor.noConfusion, Or.inl rfl⟩
  | error e => exact ⟨_, _, rfl, Acceptor.noConfusion, Or.inr rfl⟩

end

/-! ### One acceptor for several connections -/

variable {ι : Type} [DecidableEq ι]

/-- Connections that share an acceptor, and how the last call ended: with what, and with which status. -/
structure Clients (ι : Type) where
  acceptor : Acceptor
  connections : ι → Connection
  ended : Option (Except ErrorCode Bool × StatusType)

/-- A call of `accept` by the connection `i`. -/
structure AcceptCall (ι : Type) where
  i : ι
  client : Except ErrorCode PUnit

namespace Clients

def step (s : Clients ι) (call : AcceptCall ι) : Option (Clients ι) :=
  let (returned, x) := (accept call.client).exec ⟨s.connections call.i, s.acceptor⟩
  some ⟨x.acceptor, Function.update s.connections call.i x.connection, some (returned, x.connection.status)⟩

def system (ι : Type) [DecidableEq ι] : System (Clients ι) (AcceptCall ι) where
  init s := s.acceptor = .closed ∧ (∀ i, ∃ ip port, s.connections i = .new ip port) ∧ s.ended = none
  step := step

/-- The last call ended in one of the two ways, and no connection waits. -/
structure EndsWell (s : Clients ι) : Prop where
  ended : ∀ e ∈ s.ended, e = (.ok true, .open) ∨ e = (.ok false, .closed)
  settled : ∀ i, (s.connections i).status ≠ .waiting

theorem step_closed {s t : Clients ι} {call : AcceptCall ι} (hs : s.step call = some t) (h : s.acceptor = .closed) :
    t.acceptor ≠ .closed ∧ (s.EndsWell → t.EndsWell) := by
  obtain ⟨returned, x, hexec, hacceptor, hend⟩ := accept_closed (s.connections call.i) call.client
  have settled : s.EndsWell → ∀ i, (Function.update s.connections call.i x.connection i).status ≠ .waiting := by
    intro hw i
    by_cases hi : i = call.i
    · rw [hi, Function.update_self]
      rcases hend with hend | hend
      · rw [(Prod.mk.inj hend).2]
        exact StatusType.noConfusion
      · rw [(Prod.mk.inj hend).2]
        exact StatusType.noConfusion
    · rw [Function.update_of_ne hi]
      exact hw.settled i
  unfold step at hs
  rw [h, hexec] at hs
  cases hs
  exact ⟨hacceptor, fun hw => ⟨fun e he => Option.some.inj he ▸ hend, settled hw⟩⟩

theorem step_open {s t : Clients ι} {call : AcceptCall ι} (hs : s.step call = some t) (h : s.acceptor ≠ .closed) :
    t.acceptor = s.acceptor ∧ ¬ t.EndsWell := by
  unfold step at hs
  rw [accept_exec_open h] at hs
  cases hs
  refine ⟨rfl, fun hw => ?_⟩
  rcases hw.ended _ rfl with he | he
  · cases (Prod.mk.inj he).1
  · cases (Prod.mk.inj he).1

variable {s t : Clients ι} {l : List (Clients ι × AcceptCall ι)}

theorem acceptor_closed_iff (run : (system ι).Trace s l t) (h : s.acceptor = .closed) :
    t.acceptor = .closed ↔ l = [] := by
  induction run with
  | nil => exact iff_of_true h rfl
  | @snoc l t u call _ hs ih =>
    refine iff_of_false ?_ (by simp)
    by_cases ht : t.acceptor = .closed
    · exact (step_closed hs ht).1
    · rw [(step_open hs ht).1]
      exact ht

/-- In a run of calls of `accept` on an acceptor that is closed at first, all of them end in one of the two
    ways exactly if there is at most one. -/
theorem ends_well_iff (start : (system ι).init s) (run : (system ι).Trace s l t) :
    System.Always EndsWell l t ↔ l.length ≤ 1 := by
  obtain ⟨closed, new, quiet⟩ := start
  have well : s.EndsWell := by
    refine ⟨fun e he => ?_, fun i => ?_⟩
    · rw [quiet] at he
      cases he
    · obtain ⟨ip, port, hi⟩ := new i
      rw [hi]
      exact StatusType.noConfusion
  have steps : System.Always EndsWell l t ↔ ∀ x ∈ l, x.1.acceptor = .closed := by
    refine run.always_iff (I := fun _ _ => True) (C := fun s _ => s.acceptor = .closed) trivial
      (fun _ _ _ _ _ _ => trivial) well fun _ t call u _ _ ht hs => ?_
    by_cases h : t.acceptor = .closed
    · exact iff_of_true ((step_closed hs h).2 ht) h
    · exact iff_of_false (step_open hs h).2 h
  rw [steps]
  cases run with
  | nil => simp
  | @snoc l t u call before hs =>
    rw [List.forall_mem_append, List.forall_mem_singleton, acceptor_closed_iff before closed, List.length_append,
      List.length_singleton]
    constructor
    · rintro ⟨-, rfl⟩
      exact Nat.le_refl _
    · intro hlen
      obtain rfl : l = [] := List.length_eq_zero_iff.mp (by omega)
      exact ⟨List.forall_mem_nil _, rfl⟩

def initially (ι : Type) : Clients ι := ⟨.closed, fun _ => .new [] [], none⟩

theorem init_initially : (system ι).init (initially ι) := ⟨rfl, fun _ => ⟨[], [], rfl⟩, rfl⟩

theorem ends_well_iff_one : ∃ l t, (system (Fin 2)).Trace (initially (Fin 2)) l t ∧
    t.ended = some (.ok true, .open) ∧ System.Always EndsWell l t := by
  have run := (System.Trace.nil (M := system (Fin 2)) (s := initially (Fin 2))).snoc (a := ⟨0, .ok ⟨⟩⟩) rfl
  exact ⟨_, _, run, rfl, (ends_well_iff init_initially run).mpr (Nat.le_refl _)⟩

/-- The second client is never accepted: `open` throws. -/
theorem second_accept_throws : ∃ l t, (system (Fin 2)).init (initially (Fin 2)) ∧
    (system (Fin 2)).Trace (initially (Fin 2)) l t ∧ t.ended = some (.error .alreadyOpen, .closed) ∧
    ¬ System.Always EndsWell l t := by
  have run := ((System.Trace.nil (M := system (Fin 2)) (s := initially (Fin 2))).snoc (a := ⟨0, .ok ⟨⟩⟩) rfl).snoc
    (a := ⟨1, .ok ⟨⟩⟩) rfl
  refine ⟨_, _, init_initially, run, rfl, fun always => ?_⟩
  rcases always.2.ended _ rfl with he | he
  · cases (Prod.mk.inj he).1
  · cases (Prod.mk.inj he).1

end Clients

end ServiceBridge
