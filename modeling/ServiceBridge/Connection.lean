import ServiceBridge.Library.Command
import ServiceBridge.Queue

/-! `Connection` of `src/Connection.hpp` and `src/Connection.cpp`. What the network does in a call is an
    argument of the call. The unfinished statements `b_asio::read()` and `b_asio::write()` do nothing. -/

namespace ServiceBridge

/-- A `boost::system::error_code`, which is also what asio throws. -/
inductive ErrorCode where
  | success
  | eof
  | alreadyOpen
  | badDescriptor
  | invalidArgument
  | other (code : Nat)
  deriving DecidableEq, Repr

/-- What an address and a port resolve to. -/
structure Endpoint where
  ip : Str
  port : Str
  deriving DecidableEq, Repr

/-! ### The acceptor -/

/-- A `tcp::acceptor`. -/
inductive Acceptor where
  | closed
  | opened
  | bound (endpoint : Endpoint)
  | listening (endpoint : Endpoint)
  deriving DecidableEq, Repr

def Acceptor.open : Acceptor → Except ErrorCode Acceptor
  | closed => .ok opened
  | _ => .error .alreadyOpen

namespace Acceptor

/-- `set_option( reuse_address( true ) )` -/
def setOption : Acceptor → Except ErrorCode Acceptor
  | closed => .error .badDescriptor
  | acceptor => .ok acceptor

def bind (endpoint : Endpoint) : Acceptor → Except ErrorCode Acceptor
  | closed => .error .badDescriptor
  | opened => .ok (bound endpoint)
  | _ => .error .invalidArgument

def listen : Acceptor → Except ErrorCode Acceptor
  | closed => .error .badDescriptor
  | opened => .error .invalidArgument
  | bound endpoint => .ok (listening endpoint)
  | listening endpoint => .ok (listening endpoint)

end Acceptor

/-! ### The socket -/

abbrev Buffer := List UInt8

/-- A `tcp::socket`: the bytes that have arrived and were not read, all that were read, and all that it
    accepted for sending. -/
structure Socket where
  isOpen : Bool
  arrived : Buffer
  taken : Buffer
  accepted : Buffer
  deriving DecidableEq, Repr

/-- What the network does in a `read_some` or a `write_some`: how many bytes it transfers, if there are as
    many, and what it reports. -/
structure Transfer where
  count : Nat
  ec : ErrorCode
  deriving DecidableEq, Repr

namespace Socket

def available (s : Socket) : Except ErrorCode Nat :=
  if s.isOpen then .ok s.arrived.length else .error .badDescriptor

/-- The number of bytes that a `read_some` into `buffer` takes. -/
def taking (s : Socket) (buffer : Buffer) (t : Transfer) : Nat := min t.count (min s.arrived.length buffer.length)

def readSome (s : Socket) (buffer : Buffer) (t : Transfer) : Socket × Buffer :=
  let n := s.taking buffer t
  ({ s with arrived := s.arrived.drop n, taken := s.taken ++ s.arrived.take n }, s.arrived.take n ++ buffer.drop n)

/-- The number of bytes of `buffer` that a `write_some` sends, and what it reports. -/
def writeSome (s : Socket) (buffer : Buffer) (t : Transfer) : Socket × ErrorCode :=
  if s.isOpen then ({ s with accepted := s.accepted ++ buffer.take t.count }, t.ec) else (s, .badDescriptor)

section
variable {s : Socket} {buffer : Buffer} {t : Transfer}

theorem available_open (h : s.isOpen = true) : s.available = .ok s.arrived.length := if_pos h

theorem writeSome_open (h : s.isOpen = true) :
    s.writeSome buffer t = ({ s with accepted := s.accepted ++ buffer.take t.count }, t.ec) := if_pos h

end

end Socket

/-! ### Connection -/

structure Connection where
  status : StatusType
  bytesRcvd : Nat
  bytesSent : Nat
  netError : ErrorCode
  ip : Str
  port : Str
  socket : Socket
  deriving DecidableEq, Repr

/-- The constructor; `ip` and `port` are left for the user to set. -/
def Connection.new (ip port : Str) : Connection where
  status := .closed
  bytesRcvd := 0
  bytesSent := 0
  netError := .success
  ip := ip
  port := port
  socket := ⟨false, [], [], []⟩

/-- What a call of `accept` works on. -/
structure Accepting where
  connection : Connection
  acceptor : Acceptor
  deriving DecidableEq, Repr

def setAcceptor (f : Acceptor → Except ErrorCode Acceptor) : Command ErrorCode Accepting PUnit := do
  let x ← get
  let acceptor ← liftM (f x.acceptor)
  set { x with acceptor := acceptor }

def setStatus (status : StatusType) : Command ErrorCode Accepting PUnit :=
  modify fun x => { x with connection := { x.connection with status := status } }

/-- `acceptor_.accept( socket )`, which ends with a client or throws. -/
def acceptClient (client : Except ErrorCode PUnit) : Command ErrorCode Accepting PUnit := do
  let _ ← liftM client
  modify fun x => { x with connection := { x.connection with socket := ⟨true, [], [], []⟩ } }

/-- The endpoint that `accept` resolves is taken to be that of the query. -/
def accept (client : Except ErrorCode PUnit) : Command ErrorCode Accepting Bool := do
  let x ← get
  let endpoint : Endpoint := ⟨x.connection.ip, x.connection.port⟩
  setAcceptor Acceptor.open
  setAcceptor Acceptor.setOption
  setAcceptor (Acceptor.bind endpoint)
  setAcceptor Acceptor.listen
  setStatus .waiting
  try
    acceptClient client
    setStatus .open
    return true
  catch _ =>
    setStatus .closed
    return false

def isClosed : Command ErrorCode Connection Bool := do
  let c ← get
  let reachedEOF : Bool := c.netError = .eof
  if reachedEOF then
    set { c with status := .closed }
  return reachedEOF

/-- What a call of `try_read_bytes` or `write` works on: the object and the buffer that is passed to it. -/
structure Exchange where
  connection : Connection
  buffer : Buffer
  deriving DecidableEq, Repr

def tryReadBytes (nBytes : Nat) (t : Transfer) : Command ErrorCode Exchange Bool := do
  let x ← get
  let c := x.connection
  let available ← liftM c.socket.available
  if nBytes ≤ available then
    let (socket, outBuffer) := c.socket.readSome x.buffer t
    let bytesRcvd := (c.bytesRcvd + c.socket.taking x.buffer t) % Str.sizeRange
    set (Exchange.mk { c with socket := socket, bytesRcvd := bytesRcvd, netError := t.ec } outBuffer)
  return false

def write (t : Transfer) : Command ErrorCode Exchange PUnit := do
  let x ← get
  let (socket, netError) := x.connection.socket.writeSome x.buffer t
  set { x with connection := { x.connection with socket := socket, netError := netError } }

end ServiceBridge
