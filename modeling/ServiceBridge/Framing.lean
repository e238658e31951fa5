import ServiceBridge.Library.Incremental
import ServiceBridge.Library.Transition
import ServiceBridge.Connection
import ServiceBridge.Hex

/-! `connection` of `ex_serialization/connection.hpp`: messages with a header of eight characters that says how long
    they are. Two of them are the ends of a stream: one writes a message when the one before it is written, the
    other reads the next one when it has got one. -/

namespace ServiceBridge.Framing

/-- The text archives of the serialization library; `none` is an exception. -/
structure Archives (T : Type) where
  save : T → Str
  load : Str → Option T

/-- How a handler can fail to return: it uses the first element of an empty vector, or `resize` throws. -/
inductive Broken where
  | undefined
  | lengthError
  deriving DecidableEq, Repr

/-- What the handler of a read is called with. -/
abbrev Result (T : Type) := Except ErrorCode T

def headerLength : Nat := 8

/-- The greatest size of a `std::vector<char>`. -/
def maxSize : Nat := 9223372036854775807

variable {T : Type} (A : Archives T)

/-! ### Writing -/

/-- The header and the data that `async_write` sends. -/
def outbound (t : T) : Except ErrorCode Str :=
  let outboundData := A.save t
  let outboundHeader := Str.writeHex headerLength outboundData.length
  if outboundHeader.length ≠ headerLength then .error .invalidArgument else .ok (outboundHeader ++ outboundData)

/-! ### Reading -/

/-- What has come of the header, or of the data, of which the size is known. -/
inductive Inbound where
  | header (got : Str)
  | data (size : Nat) (got : Str)
  deriving DecidableEq, Repr

abbrev Received (T : Type) := Except Broken (Option (Result T) × Inbound)

/-- `handle_read_header` without an error. When it reports one, the next message is read. -/
def handleReadHeader (header : Str) : Received T :=
  match header.readHexSize with
  | none => .ok (some (.error .invalidArgument), .header [])
  | some size =>
    if size > maxSize then .error .lengthError
    -- nothing is left to read, and `handle_read_data` takes the address of the first byte
    else if size = 0 then .error .undefined
    else .ok (none, .data size [])

/-- `handle_read_data` without an error. -/
def handleReadData (data : Str) : Result T :=
  match A.load data with
  | none => .error .invalidArgument
  | some t => .ok t

/-- One more byte. A read of `n` bytes takes no more than `n`, however they come. -/
def receive : Inbound → Char → Received T
  | .header got, c =>
    let header := got ++ [c]
    if header.length < headerLength then .ok (none, .header header) else handleReadHeader header
  | .data size got, c =>
    let data := got ++ [c]
    if data.length < size then .ok (none, .data size data) else .ok (some (handleReadData A data), .header [])

/-! ### Both ends -/

/-- The stream and its ends: what was written and what `async_write` refused, what of the message has not been
    sent, the bytes on their way and those that have arrived, what was read, and how the stream was lost. -/
structure Link (T : Type) where
  written : List T
  refused : List T
  unsent : Str
  wire : Str
  arrived : Str
  inbound : Inbound
  read : List (Result T)
  broken : Option Broken
  lost : Option ErrorCode

inductive Act (T : Type) where
  | write (t : T)
  | send
  | arrive
  | lose (code : Nat)

namespace Link

def initial : Link T := ⟨[], [], [], [], [], .header [], [], none, none⟩

def write (s : Link T) (t : T) : Link T :=
  match outbound A t with
  | .error _ => { s with refused := s.refused ++ [t] }
  | .ok buffers => { s with written := s.written ++ [t], unsent := buffers }

/-- A byte arrives. -/
def take (s : Link T) (c : Char) (wire : Str) : Link T :=
  let s := { s with wire := wire, arrived := s.arrived ++ [c] }
  match receive A s.inbound c with
  | .error broken => { s with broken := some broken }
  | .ok (result, inbound) => { s with inbound := inbound, read := s.read ++ result.toList }

/-- The read that is under way ends with an error. -/
def lose (s : Link T) (ec : ErrorCode) : Link T := { s with read := s.read ++ [.error ec], lost := some ec }

def step (s : Link T) : Act T → Option (Link T)
  | .write t => if s.unsent = [] then some (s.write A t) else none
  | .send =>
    match s.unsent with
    | [] => none
    | c :: unsent => some { s with unsent := unsent, wire := s.wire ++ [c] }
  | .arrive =>
    match s.wire with
    | [] => none
    | c :: wire => if s.broken = none ∧ s.lost = none then some (s.take A c wire) else none
  | .lose code => if s.broken = none ∧ s.lost = none then some (s.lose (.other code)) else none

def system : System (Link T) (Act T) where
  init := fun s => s = initial
  step := step A

end Link

end ServiceBridge.Framing
