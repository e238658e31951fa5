import ServiceBridge.Library.Transition
import ServiceBridge.RequestHandler

/-! `connection` and `server` of `full_server/`, and the threads of its pool. The handlers of a connection run one
    after another in its strand, and no two connections share what a handler changes: a step is one handler. -/

namespace ServiceBridge.Http

/-! ### Connections -/

/-- What a connection waits for. One that waits for nothing is destroyed, which closes its socket. -/
inductive Pending where
  | read
  | write
  | nothing
  /-- A handler did what is undefined, or did not return. -/
  | undefined (what : Undefined)
  | fault (fault : Fault)
  deriving DecidableEq, Repr

/-- A `connection`, with all that its reads got, and the replies that it began to write, each with the files as
    they were then. -/
structure Connection where
  parsing : Parsing
  reply : Reply
  pending : Pending
  shutDown : Bool
  received : Str
  written : List ((Str → File) × Reply)

namespace Connection

/-- The version of the request and the status of the reply are not initialized. -/
def new (major minor : Int) (status : StatusType) : Connection where
  parsing := .fresh major minor
  reply := ⟨status, [], []⟩
  pending := .nothing
  shutDown := false
  received := []
  written := []

def bufferSize : Nat := 8192

/-- `async_read_some` -/
def awaitRead (c : Connection) : Connection := { c with pending := .read }

/-- `async_write` of the reply -/
def beginWrite (c : Connection) (files : Str → File) (reply : Reply) : Connection :=
  { c with reply := reply, pending := .write, written := c.written ++ [(files, reply)] }

def start (c : Connection) : Connection := c.awaitRead

/-- `handle_read`; there are no bytes when it gets an error. -/
def handleRead (docRoot : Str) (files : Str → File) (c : Connection) : Option Str → Connection
  | none => { c with pending := .nothing }
  | some bytes =>
    let c := { c with received := c.received ++ bytes }
    match parse c.parsing bytes with
    | .error what => { c with pending := .undefined what }
    | .ok (some true, _, parsing) =>
      match handleRequest docRoot files parsing.req c.reply with
      | .error fault => { c with parsing := parsing, pending := .fault fault }
      | .ok reply => { c with parsing := parsing }.beginWrite files reply
    | .ok (some false, _, parsing) => { c with parsing := parsing }.beginWrite files (.stockReply .badRequest)
    | .ok (none, _, parsing) => { c with parsing := parsing }.awaitRead

/-- `handle_write`, with or without an error. -/
def handleWrite (c : Connection) (ok : Bool) : Connection :=
  { c with pending := .nothing, shutDown := c.shutDown || ok }

end Connection

/-! ### The server -/

/-- A `server` and the files that it can open. The connections are those that it has started. -/
structure Server where
  files : Str → File
  connections : List Connection
  newConnection : Connection
  accepting : Bool
  stopped : Bool

/-- What happens next: a handler runs, the files change, or `stop` is called. -/
inductive Act where
  /-- `handle_accept`, with the connection that it constructs. -/
  | accept (ok : Bool) (major minor : Int) (status : StatusType)
  | read (i : Nat) (data : Option Str)
  | write (i : Nat) (ok : Bool)
  | change (files : Str → File)
  | stop

namespace Server

def handleAccept (s : Server) (ok : Bool) (next : Connection) : Server :=
  if ok then { s with connections := s.connections ++ [s.newConnection.start], newConnection := next }
  else { s with accepting := false }

/-- A read gets at least one byte, and no more than there is room for, or an error. -/
def arrives : Option Str → Bool
  | none => true
  | some bytes => bytes ≠ [] ∧ bytes.length ≤ Connection.bufferSize

def step (docRoot : Str) (s : Server) : Act → Option Server
  | .accept ok major minor status =>
    if s.accepting ∧ !s.stopped then some (s.handleAccept ok (.new major minor status)) else none
  | .read i data => do
    let c ← s.connections[i]?
    if c.pending = .read ∧ arrives data ∧ !s.stopped then
      some { s with connections := s.connections.set i (c.handleRead docRoot s.files data) }
    else none
  | .write i ok => do
    let c ← s.connections[i]?
    if c.pending = .write ∧ !s.stopped then
      some { s with connections := s.connections.set i (c.handleWrite ok) }
    else none
  | .change files => some { s with files := files }
  | .stop => some { s with stopped := true }

/-- The server as its constructor leaves it. -/
def Initial (s : Server) : Prop :=
  s.connections = [] ∧ (∃ major minor status, s.newConnection = .new major minor status) ∧ s.accepting = true ∧
    s.stopped = false

def system (docRoot : Str) : System Server Act where
  init := Initial
  step := step docRoot

end Server

end ServiceBridge.Http
