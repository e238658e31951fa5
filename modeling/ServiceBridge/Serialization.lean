import Mathlib.Logic.Function.Basic
import ServiceBridge.Library.Transition
import ServiceBridge.Connection

/-! `Connection` of `test/srl_struct.hpp`, which sends and receives objects as text archives, and two such
    connections with a reliable stream each way between them. -/

namespace ServiceBridge.Serialization

/-- What a call may throw: `archive_exception`, asio's `system_error`, and the other `std::exception`s. -/
inductive Thrown where
  | archive
  | system (ec : ErrorCode)
  | other
  deriving DecidableEq, Repr

/-! ### Text archives -/

/-- The text archives of the serialization library, for objects of type `T`; `A` is an input archive. To
    construct one takes a preamble off the text, and to load an object takes its text. -/
structure TextArchives (T A : Type) where
  preamble : Buffer
  save : T → Buffer
  /-- `text_iarchive archive( buffer )` -/
  construct : Buffer → Except Thrown A
  /-- `archive >> target`: the archive after it, and the target, which an exception may leave half loaded. -/
  load : A → T → Except Thrown A × T
  /-- How much text an archive has not read. -/
  unread : A → Nat
  construct_reads {buffer : Buffer} {archive : A} : construct buffer = .ok archive → unread archive < buffer.length
  construct_throws {buffer : Buffer} {e : Thrown} : construct buffer = .error e → e = .archive
  load_reads {archive rest : A} {target : T} : (load archive target).1 = .ok rest → unread rest < unread archive

/-! ### Datagrams -/

/-- A `Datagram`, on a platform with 64-bit `size_t`. -/
structure Datagram where
  seq : Nat
  data : List Float

/-- The constructor, for the value of `Datagram::N` before it. -/
def Datagram.new (n : Nat) : Datagram := ⟨(n + 1) % Str.sizeRange, []⟩

/-! ### The connection -/

structure Connection where
  socket : Socket
  inboundData : Buffer
  outboundData : Buffer
  deriving DecidableEq, Repr

/-- A constructed `Connection` whose socket has been connected. -/
def Connection.connected : Connection := ⟨⟨true, [], [], []⟩, [], []⟩

/-- What a call that reads works on. -/
structure Reading (τ : Type) where
  connection : Connection
  target : τ

/-- `b_asio::write( socket_ , outbound_data_ )`: sends all of it, or throws after a part. -/
def send (failure : Option Transfer) : Command Thrown Connection PUnit := do
  let c ← get
  let (socket, ec) := c.socket.writeSome c.outboundData (failure.getD ⟨c.outboundData.length, .success⟩)
  set { c with socket := socket }
  Command.require (failure = none ∧ ec = .success) (.system ec)

/-- `b_asio::read( socket_ , inbound_data_ )`: fills the buffer, or throws when the stream ends before. It
    returns when enough has arrived, so the state is the one at its end. -/
def receive {τ : Type} : Command Thrown (Reading τ) PUnit := do
  let x ← get
  let c := x.connection
  let n := c.inboundData.length
  let (socket, inboundData) := c.socket.readSome c.inboundData ⟨n, .success⟩
  set { x with connection := { c with socket := socket, inboundData := inboundData } }
  Command.require (n ≤ c.socket.arrived.length) (.system .eof)

def available {τ : Type} : Command Thrown (Reading τ) Nat := do
  let x ← get
  liftM (x.connection.socket.available.mapError Thrown.system)

namespace TextArchives

variable {T A : Type} (L : TextArchives T A)

def writeOneObject (obj : T) (failure : Option Transfer) : Command Thrown Connection Bool := do
  try
    modify fun c => { c with outboundData := L.preamble ++ L.save obj }
    send failure
    return true
  catch _ =>
    return false

/-- `archive >> target`, when the target is that of the call. -/
def loadTarget (archive : A) : Command Thrown (Reading T) PUnit := do
  let x ← get
  let (outcome, target) := L.load archive x.target
  set { x with target := target }
  let _ ← liftM outcome

/-- `size` is `sizeof( T )`. -/
def readOneObject (size : Nat) : Command Thrown (Reading T) Bool := do
  try
    let n ← available
    if size ≤ n then
      receive
      let x ← get
      let archive ← liftM (L.construct x.connection.inboundData)
      L.loadTarget archive
      return true
    else
      return false
  catch _ =>
    return false

/-- The loop of `read_all_objects`: the objects it loads, and the exception that ends it. -/
def loadAll (archive : A) (temp : T) : List T × Thrown :=
  match _h : L.load archive temp with
  | (.error e, _) => ([], e)
  | (.ok rest, obj) =>
    let (objs, e) := loadAll rest obj
    (obj :: objs, e)
termination_by L.unread archive
decreasing_by exact L.load_reads (congrArg Prod.fst _h)

/-- `temp` is the object that `T temp;` constructs. -/
def readAllObjects (size : Nat) (temp : T) : Command Thrown (Reading (List T)) Bool := do
  let n ← available
  if size ≤ n then
    receive
    let x ← get
    let archive ← liftM (L.construct x.connection.inboundData)
    let (objs, e) := L.loadAll archive temp
    set { x with target := x.target ++ objs }
    Command.require (e = .archive) e
    return decide (0 < objs.length)
  else
    return false

end TextArchives

/-! ### Two connections -/

inductive Side where
  | left
  | right
  deriving DecidableEq, Repr

def Side.other : Side → Side
  | left => right
  | right => left

/-- The connections at both ends, and the calls of `write_one_object` at each with what they returned. -/
structure Link (T : Type) where
  ends : Side → Connection
  written : Side → List (T × Except Thrown Bool)

inductive LinkAct (T : Type) where
  | write (side : Side) (obj : T) (failure : Option Transfer)
  /-- The next bytes from the other side, at most so many, reach the socket. -/
  | arrive (side : Side) (count : Nat)
  | readOne (side : Side) (target : T)
  | readAll (side : Side) (temp : T) (target : List T)

namespace Link

variable {T A : Type} (L : TextArchives T A) (size : Nat) (l : Link T)

def connected : Link T := ⟨fun _ => .connected, fun _ => []⟩

/-- The link when the connection of one side has changed. -/
def put (side : Side) (c : Connection) : Link T := { l with ends := Function.update l.ends side c }

def write (side : Side) (obj : T) (r : Except Thrown Bool × Connection) : Link T :=
  { l.put side r.2 with written := Function.update l.written side (l.written side ++ [(obj, r.1)]) }

/-- What `side` is sent and has not received. -/
def onTheWay (side : Side) : Buffer :=
  (l.ends side.other).socket.accepted.drop
    ((l.ends side).socket.taken ++ (l.ends side).socket.arrived).length

def arrive (side : Side) (count : Nat) : Link T :=
  let c := l.ends side
  l.put side { c with socket := { c.socket with arrived := c.socket.arrived ++ (l.onTheWay side).take count } }

/-- A call that reads goes on when its buffer can be filled. -/
def Ready (side : Side) : Prop := (l.ends side).inboundData.length ≤ (l.ends side).socket.arrived.length

instance (side : Side) : Decidable (l.Ready side) := inferInstanceAs (Decidable (_ ≤ _))

def step : LinkAct T → Option (Link T)
  | .write side obj failure => some (l.write side obj ((L.writeOneObject obj failure).exec (l.ends side)))
  | .arrive side count => some (l.arrive side count)
  | .readOne side target =>
    if l.Ready side then
      some (l.put side ((L.readOneObject size).exec ⟨l.ends side, target⟩).2.connection)
    else
      none
  | .readAll side temp target =>
    if l.Ready side then
      some (l.put side ((L.readAllObjects size temp).exec ⟨l.ends side, target⟩).2.connection)
    else
      none

/-- Two connections from when they are connected. -/
def system : System (Link T) (LinkAct T) where
  init l := l = connected
  step := step L size

end Link

end ServiceBridge.Serialization
