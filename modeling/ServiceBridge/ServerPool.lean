import Mathlib.Data.Fintype.Basic
import ServiceBridge.HttpServer

/-! `server::run` of `full_server/`: threads that run the handlers of one `io_service`, each handler in several
    steps. What a step does to its own connection no other thread sees, until an operation has been started. -/

namespace ServiceBridge.Http

/-- What is left of a handler of a connection. -/
inductive Handler where
  | reading (data : Option Str)
  /-- `parse` has returned. -/
  | parsed (result : Option Bool)
  /-- The reply is there, made from these files. -/
  | replied (files : Str → File)
  | writing (ok : Bool)
  /-- It has started the next operation, if any. -/
  | leaving

/-- Where a thread of the pool is. -/
inductive Thread where
  | idle
  /-- In `handle_accept`, before `start`; `next` is the connection that it is going to construct. -/
  | accepting (ok : Bool) (next : Connection)
  | started (next : Connection)
  | handling (i : Nat) (h : Handler)
  /-- `io_service::run` has returned. -/
  | returned

/-- One more step of a handler: the connection after it, and what is left then. -/
def Connection.goOn (docRoot : Str) (files : Str → File) (c : Connection) : Handler → Connection × Option Handler
  | .reading none => (c, some .leaving)
  | .reading (some bytes) =>
    let c := { c with received := c.received ++ bytes }
    match parse c.parsing bytes with
    | .error what => ({ c with pending := .undefined what }, some .leaving)
    | .ok (result, _, parsing) => ({ c with parsing := parsing }, some (.parsed result))
  | .parsed (some true) =>
    match handleRequest docRoot files c.parsing.req c.reply with
    | .error fault => ({ c with pending := .fault fault }, some .leaving)
    | .ok reply => ({ c with reply := reply }, some (.replied files))
  | .parsed (some false) => ({ c with reply := .stockReply .badRequest }, some (.replied files))
  | .parsed none => (c.awaitRead, some .leaving)
  | .replied files => (c.beginWrite files c.reply, some .leaving)
  | .writing ok => ({ c with shutDown := c.shutDown || ok }, some .leaving)
  | .leaving => (c, none)

/-- The server and its threads. `accepting` says that an accept is under way, and a connection is `pending` what
    is under way for it: an operation is no longer under way when its handler begins. -/
structure Pool (ι : Type) where
  files : Str → File
  connections : List Connection
  newConnection : Connection
  accepting : Bool
  stopped : Bool
  thread : ι → Thread

/-- A thread begins a handler, goes on with it, or returns; the files change; or `stop` is called. -/
inductive PoolAct (ι : Type) where
  | accept (k : ι) (ok : Bool) (major minor : Int) (status : StatusType)
  | read (k : ι) (i : Nat) (data : Option Str)
  | write (k : ι) (i : Nat) (ok : Bool)
  | goOn (k : ι)
  | leave (k : ι)
  | change (files : Str → File)
  | stop

namespace Thread

/-- The connection in whose strand a thread is. -/
def strand : Thread → Option Nat
  | handling i _ => some i
  | _ => none

def isAccepting : Thread → Bool
  | accepting _ _ => true
  | started _ => true
  | _ => false

def isBusy (d : Thread) : Bool := d.isAccepting || d.strand.isSome

end Thread

namespace Pool

variable {ι : Type}

/-- No thread is in the strand of a connection. -/
def Free (s : Pool ι) (i : Nat) : Prop := ∀ k, (s.thread k).strand ≠ some i

instance [Fintype ι] (s : Pool ι) (i : Nat) : Decidable (s.Free i) :=
  inferInstanceAs (Decidable (∀ k, (s.thread k).strand ≠ some i))

/-- Nothing is under way, and no handler will start anything. -/
def OutOfWork (s : Pool ι) : Prop :=
  s.accepting = false ∧ (∀ c ∈ s.connections, c.pending ≠ .read ∧ c.pending ≠ .write) ∧
    ∀ k, (s.thread k).isBusy = false

instance [Fintype ι] (s : Pool ι) : Decidable s.OutOfWork :=
  inferInstanceAs (Decidable (s.accepting = false ∧ (∀ c ∈ s.connections, c.pending ≠ .read ∧ c.pending ≠ .write) ∧
    ∀ k, (s.thread k).isBusy = false))

variable [DecidableEq ι]

def goto (s : Pool ι) (k : ι) (d : Thread) : Pool ι := { s with thread := Function.update s.thread k d }

/-- The next step of the handler that a thread is in. -/
def goOn (docRoot : Str) (s : Pool ι) (k : ι) : Option (Pool ι) :=
  match s.thread k with
  | .accepting true next =>
    some ({ s with connections := s.connections ++ [s.newConnection.start] }.goto k (.started next))
  | .accepting false _ => some (s.goto k .idle)
  | .started next => some ({ s with newConnection := next, accepting := true }.goto k .idle)
  | .handling i h => do
    let c ← s.connections[i]?
    let (c, rest) := c.goOn docRoot s.files h
    some ({ s with connections := s.connections.set i c }.goto k (rest.elim .idle (.handling i)))
  | _ => none

/-- A handler of the connection `i` begins: the operation that it is for is over. -/
def begin (s : Pool ι) (k : ι) (i : Nat) (pending : Pending) (h : Handler) : Option (Pool ι) := do
  let c ← s.connections[i]?
  if c.pending = pending then
    some ({ s with connections := s.connections.set i { c with pending := .nothing } }.goto k (.handling i h))
  else none

def step [Fintype ι] (docRoot : Str) (s : Pool ι) : PoolAct ι → Option (Pool ι)
  | .accept k ok major minor status =>
    match s.thread k with
    | .idle =>
      if s.accepting ∧ !s.stopped then
        some ({ s with accepting := false }.goto k (.accepting ok (.new major minor status)))
      else none
    | _ => none
  | .read k i data =>
    match s.thread k with
    | .idle => if s.Free i ∧ Server.arrives data ∧ !s.stopped then s.begin k i .read (.reading data) else none
    | _ => none
  | .write k i ok =>
    match s.thread k with
    | .idle => if s.Free i ∧ !s.stopped then s.begin k i .write (.writing ok) else none
    | _ => none
  | .goOn k => s.goOn docRoot k
  | .leave k =>
    match s.thread k with
    | .idle => if s.stopped ∨ s.OutOfWork then some (s.goto k .returned) else none
    | _ => none
  | .change files => some { s with files := files }
  | .stop => some { s with stopped := true }

/-- `run` has created the threads. -/
def Initial (s : Pool ι) : Prop :=
  s.connections = [] ∧ (∃ major minor status, s.newConnection = .new major minor status) ∧ s.accepting = true ∧
    s.stopped = false ∧ ∀ k, s.thread k = .idle

def system (docRoot : Str) (ι : Type) [Fintype ι] [DecidableEq ι] : System (Pool ι) (PoolAct ι) where
  init := Initial
  step := step docRoot

end Pool

end ServiceBridge.Http
