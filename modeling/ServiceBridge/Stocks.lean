import Mathlib.Logic.Function.Basic
import ServiceBridge.Framing

/-! `ex_serialization/client.cpp` and `ex_serialization/server.cpp`: a server that sends its stocks to whoever
    connects, and clients that try the endpoints of its host one after the other and read the stocks. -/

namespace ServiceBridge.Stocks
open Framing

variable {ι ε T : Type}

/-- Where a client is: at an endpoint, with those that it tries after it; in `async_read`; or at its end. -/
inductive Phase (ε T : Type) where
  | connecting (endpoint : ε) (rest : List ε)
  | reading
  | printed (stocks : T)
  | failed (ec : ErrorCode)

/-- A `client`, the endpoints where it could not connect, and the connection that it has then: the server may not
    have accepted it yet. -/
structure Client (ε T : Type) where
  phase : Phase ε T
  tried : List (ε × ErrorCode)
  connected : Bool
  accepted : Bool
  link : Link T

namespace Client

/-- The constructor, which connects to the first endpoint. -/
def new (endpoint : ε) (rest : List ε) : Client ε T where
  phase := .connecting endpoint rest
  tried := []
  connected := false
  accepted := false
  link := .initial

def handleConnect (c : Client ε T) (endpoint : ε) (rest : List ε) : Option ErrorCode → Client ε T
  | none => { c with phase := .reading, connected := true }
  | some ec =>
    let c := { c with tried := c.tried ++ [(endpoint, ec)] }
    match rest with
    | next :: rest => { c with phase := .connecting next rest }
    | [] => { c with phase := .failed ec }

def handleRead (c : Client ε T) : Result T → Client ε T
  | .ok stocks => { c with phase := .printed stocks }
  | .error ec => { c with phase := .failed ec }

/-- A byte or an error for the read of a client, and `handle_read` if the read is over with that. -/
def receives (A : Archives T) (c : Client ε T) (a : Framing.Act T) : Option (Client ε T) :=
  match c.phase with
  | .reading => do
    let link ← c.link.step A a
    let c := { c with link := link }
    match link.read with
    | [] => some c
    | result :: _ => some (c.handleRead result)
  | _ => none

end Client

/-- The server and its clients. -/
structure State (ι ε T : Type) where
  accepting : Bool
  client : ι → Client ε T

inductive Act (ι : Type) where
  /-- `handle_connect` of a client. Without an error, it has reached the server. -/
  | connect (i : ι) (e : Option ErrorCode)
  /-- `handle_accept` of the server: with the connection of a client, or with an error. -/
  | accept (i : ι)
  | acceptError
  | send (i : ι)
  | arrive (i : ι)
  | lose (i : ι) (code : Nat)

/-- Nothing goes wrong, except where clients try to connect. -/
def Act.Ok : Act ι → Prop
  | acceptError => False
  | lose _ _ => False
  | _ => True

namespace State
variable [DecidableEq ι]

def put (s : State ι ε T) (i : ι) (c : Client ε T) : State ι ε T := { s with client := Function.update s.client i c }

def step (A : Archives T) (stocks : T) (s : State ι ε T) : Act ι → Option (State ι ε T)
  | .connect i e =>
    match (s.client i).phase with
    | .connecting endpoint rest => some (s.put i ((s.client i).handleConnect endpoint rest e))
    | _ => none
  | .accept i =>
    let c := s.client i
    if s.accepting ∧ c.connected ∧ !c.accepted then do
      let link ← c.link.step A (.write stocks)
      some (s.put i { c with accepted := true, link := link })
    else none
  | .acceptError => if s.accepting then some { s with accepting := false } else none
  | .send i => do
    let link ← (s.client i).link.step A .send
    some (s.put i { s.client i with link := link })
  | .arrive i => do
    let c ← (s.client i).receives A .arrive
    some (s.put i c)
  | .lose i code => do
    let c ← (s.client i).receives A (.lose code)
    some (s.put i c)

/-- The server accepts, and every client has just been constructed. -/
def Initial (endpoints : ι → List ε) (s : State ι ε T) : Prop :=
  s.accepting = true ∧ ∀ i, ∃ endpoint rest, endpoints i = endpoint :: rest ∧ s.client i = .new endpoint rest

end State

/-- The clients with the endpoints that `resolve` gives each of them. -/
def system [DecidableEq ι] (A : Archives T) (stocks : T) (endpoints : ι → List ε) : System (State ι ε T) (Act ι) where
  init := State.Initial endpoints
  step := State.step A stocks

end ServiceBridge.Stocks
