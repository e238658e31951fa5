import ServiceBridge.Library.Transition
import ServiceBridge.Text

/-! `example/client_blk.cpp`, which sends a line and reads as many bytes, and the thread of `example/server_blk.cpp`
    that serves it. A write waits for room and a read for bytes: in each direction the stream between them holds
    only so many. -/

namespace ServiceBridge.Echo

def maxLength : Nat := 1024

/-- The bytes of `request` that the client sends, when `text` is what `cin` has: `getline` stores no more than fit,
    and `strlen` stops at a NUL. -/
def request (text : Str) : Str := Str.cStr ((text.takeWhile (· != '\n')).take (maxLength - 1))

/-- Where `main` of the client is: in `write`, with what is left; in `read`, with what it has; or past both, when
    the socket is closed. -/
inductive Client where
  | writing (rest : Str)
  | reading (got : Str)
  | replied (reply : Str)
  | threw
  deriving DecidableEq, Repr

def Client.closed : Client → Bool
  | replied _ => true
  | threw => true
  | _ => false

/-- Where the thread is in `session`: in `read_some`; in `write`, with what is left; after the end of the stream. -/
inductive Session where
  | reading
  | writing (rest : Str)
  | finished
  | threw
  deriving DecidableEq, Repr

structure State where
  requestLength : Nat
  client : Client
  toServer : Str
  session : Session
  toClient : Str
  deriving DecidableEq, Repr

inductive Act where
  /-- One byte goes into the stream, or `write` returns. -/
  | clientWrite
  /-- One byte is read, or `read` returns. -/
  | clientRead
  /-- `read_some` gets `n` bytes, or the end of the stream. -/
  | sessionRead (n : Nat)
  | sessionWrite
  /-- An operation of the client, or of the session, ends with an error. -/
  | clientError
  | sessionError

/-- Nothing went wrong with the stream. -/
def Act.Ok : Act → Prop
  | clientError => False
  | sessionError => False
  | _ => True

namespace State

def initial (request : Str) : State where
  requestLength := request.length
  client := .writing request
  toServer := []
  session := .reading
  toClient := []

def clientWrite (out : Nat) (s : State) : Option State :=
  match s.client with
  | .writing [] => some { s with client := .reading [] }
  | .writing (c :: rest) =>
    if s.toServer.length < out then some { s with client := .writing rest, toServer := s.toServer ++ [c] } else none
  | _ => none

def clientRead (s : State) : Option State :=
  match s.client with
  | .reading got =>
    if got.length = s.requestLength then some { s with client := .replied got }
    else
      match s.toClient with
      | [] => none
      | c :: toClient => some { s with client := .reading (got ++ [c]), toClient := toClient }
  | _ => none

def sessionRead (s : State) (n : Nat) : Option State :=
  if s.session = .reading then
    if s.toServer = [] then
      if s.client.closed then some { s with session := .finished } else none
    else if 0 < n ∧ n ≤ maxLength ∧ n ≤ s.toServer.length then
      some { s with session := .writing (s.toServer.take n), toServer := s.toServer.drop n }
    else none
  else none

def sessionWrite (back : Nat) (s : State) : Option State :=
  match s.session with
  | .writing [] => some { s with session := .reading }
  | .writing (c :: rest) =>
    if s.toClient.length < back then some { s with session := .writing rest, toClient := s.toClient ++ [c] } else none
  | _ => none

def clientError (s : State) : Option State :=
  if s.client.closed then none else some { s with client := .threw }

def sessionError (s : State) : Option State :=
  if s.session = .finished ∨ s.session = .threw then none else some { s with session := .threw }

/-- `out` and `back` are what the stream holds in each direction. -/
def step (out back : Nat) (s : State) : Act → Option State
  | .clientWrite => s.clientWrite out
  | .clientRead => s.clientRead
  | .sessionRead n => s.sessionRead n
  | .sessionWrite => s.sessionWrite back
  | .clientError => s.clientError
  | .sessionError => s.sessionError

def system (out back : Nat) (text : Str) : System State Act where
  init := fun s => s = initial (request text)
  step := step out back

end State

end ServiceBridge.Echo
