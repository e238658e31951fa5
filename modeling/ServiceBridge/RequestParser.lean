import ServiceBridge.Library.Incremental
import ServiceBridge.Text

/-! `header`, `request` and `request_parser` of `full_server/`: a parser for the head of an HTTP request that
    takes one character after another and stands between any two. -/

namespace ServiceBridge.Http

/-- What the parser could do that has no defined outcome: `back()` of an empty vector, and a result that an
    `int` cannot hold. -/
inductive Undefined where
  | back
  | overflow
  deriving DecidableEq, Repr

/-- `boost::tribool`; `none` is `indeterminate`. -/
abbrev Tribool := Option Bool

structure Header where
  name : Str
  value : Str
  deriving DecidableEq, Repr

structure Request where
  method : Str
  uri : Str
  httpVersionMajor : Int
  httpVersionMinor : Int
  headers : List Header
  deriving DecidableEq, Repr

/-! ### Characters -/

/-- A `char` as an `int`: it is signed, the bytes from 128 on are negative. -/
def toInt (c : Char) : Int := if c.toNat < 128 then c.toNat else (c.toNat % 128 : Nat) - 128

def isChar (c : Int) : Bool := 0 ≤ c ∧ c ≤ 127

def isCtl (c : Int) : Bool := (0 ≤ c ∧ c ≤ 31) ∨ c = 127

def isTspecial (c : Int) : Bool :=
  ['(', ')', '<', '>', '@', ',', ';', ':', '\x5c', '\x22', '/', '[', ']', '?', '=', '\x7b', '\x7d', ' ', '\t'].any
    fun t => toInt t = c

def isDigit (c : Int) : Bool := toInt '0' ≤ c ∧ c ≤ toInt '9'

/-! ### Operations on a request -/

/-- The result of an operation on `int`s. -/
def int (n : Int) : Except Undefined Int :=
  if -Str.intMax - 1 ≤ n ∧ n ≤ Str.intMax then .ok n else .error .overflow

/-- `n * 10 + input - '0'` -/
def pushDigit (n : Int) (input : Char) : Except Undefined Int := do
  let tens ← int (n * 10)
  let sum ← int (tens + toInt input)
  int (sum - toInt '0')

namespace Request

def pushMethod (req : Request) (input : Char) : Request := { req with method := req.method ++ [input] }

def pushUri (req : Request) (input : Char) : Request := { req with uri := req.uri ++ [input] }

def pushMajor (req : Request) (input : Char) : Except Undefined Request := do
  return { req with httpVersionMajor := ← pushDigit req.httpVersionMajor input }

def pushMinor (req : Request) (input : Char) : Except Undefined Request := do
  return { req with httpVersionMinor := ← pushDigit req.httpVersionMinor input }

/-- Change `headers.back()`. -/
def modifyBack (req : Request) (f : Header → Header) : Except Undefined Request :=
  match req.headers.getLast? with
  | none => .error .back
  | some h => .ok { req with headers := req.headers.dropLast ++ [f h] }

def pushHeader (req : Request) : Request := { req with headers := req.headers ++ [⟨[], []⟩] }

def pushName (req : Request) (input : Char) : Except Undefined Request :=
  req.modifyBack fun h => { h with name := h.name ++ [input] }

def pushValue (req : Request) (input : Char) : Except Undefined Request :=
  req.modifyBack fun h => { h with value := h.value ++ [input] }

end Request

/-! ### The parser -/

inductive ParserState where
  | methodStart
  | method
  | uriStart
  | uri
  | httpVersionH
  | httpVersionT1
  | httpVersionT2
  | httpVersionP
  | httpVersionSlash
  | httpVersionMajorStart
  | httpVersionMajor
  | httpVersionMinorStart
  | httpVersionMinor
  | expectingNewline1
  | headerLineStart
  | headerLws
  | headerName
  | spaceBeforeHeaderValue
  | headerValue
  | expectingNewline2
  | expectingNewline3
  deriving DecidableEq, Repr

/-- The `state_` of a `request_parser`, and the request that it fills. -/
structure Parsing where
  state : ParserState
  req : Request
  deriving DecidableEq, Repr

abbrev Consumed := Except Undefined (Tribool × Parsing)

/-- `return false` -/
def reject (p : Parsing) : Consumed := .ok (some false, p)

/-- `state_ = state; return indeterminate` -/
def goOn (state : ParserState) (req : Request) : Consumed := .ok (none, ⟨state, req⟩)

def consume : Parsing → Char → Consumed
  | ⟨.methodStart, req⟩, input =>
    if !isChar (toInt input) || isCtl (toInt input) || isTspecial (toInt input) then reject ⟨.methodStart, req⟩
    else goOn .method (req.pushMethod input)
  | ⟨.method, req⟩, input =>
    if input = ' ' then goOn .uri req
    else if !isChar (toInt input) || isCtl (toInt input) || isTspecial (toInt input) then reject ⟨.method, req⟩
    else goOn .method (req.pushMethod input)
  | ⟨.uriStart, req⟩, input =>
    if isCtl (toInt input) then reject ⟨.uriStart, req⟩
    else goOn .uri (req.pushUri input)
  | ⟨.uri, req⟩, input =>
    if input = ' ' then goOn .httpVersionH req
    else if isCtl (toInt input) then reject ⟨.uri, req⟩
    else goOn .uri (req.pushUri input)
  | ⟨.httpVersionH, req⟩, input =>
    if input = 'H' then goOn .httpVersionT1 req else reject ⟨.httpVersionH, req⟩
  | ⟨.httpVersionT1, req⟩, input =>
    if input = 'T' then goOn .httpVersionT2 req else reject ⟨.httpVersionT1, req⟩
  | ⟨.httpVersionT2, req⟩, input =>
    if input = 'T' then goOn .httpVersionP req else reject ⟨.httpVersionT2, req⟩
  | ⟨.httpVersionP, req⟩, input =>
    if input = 'P' then goOn .httpVersionSlash req else reject ⟨.httpVersionP, req⟩
  | ⟨.httpVersionSlash, req⟩, input =>
    if input = '/' then goOn .httpVersionMajorStart { req with httpVersionMajor := 0, httpVersionMinor := 0 }
    else reject ⟨.httpVersionSlash, req⟩
  | ⟨.httpVersionMajorStart, req⟩, input =>
    if isDigit (toInt input) then do goOn .httpVersionMajor (← req.pushMajor input)
    else reject ⟨.httpVersionMajorStart, req⟩
  | ⟨.httpVersionMajor, req⟩, input =>
    if input = '.' then goOn .httpVersionMinorStart req
    else if isDigit (toInt input) then do goOn .httpVersionMajor (← req.pushMajor input)
    else reject ⟨.httpVersionMajor, req⟩
  | ⟨.httpVersionMinorStart, req⟩, input =>
    if isDigit (toInt input) then do goOn .httpVersionMinor (← req.pushMinor input)
    else reject ⟨.httpVersionMinorStart, req⟩
  | ⟨.httpVersionMinor, req⟩, input =>
    if input = '\r' then goOn .expectingNewline1 req
    else if isDigit (toInt input) then do goOn .httpVersionMinor (← req.pushMinor input)
    else reject ⟨.httpVersionMinor, req⟩
  | ⟨.expectingNewline1, req⟩, input =>
    if input = '\n' then goOn .headerLineStart req else reject ⟨.expectingNewline1, req⟩
  | ⟨.headerLineStart, req⟩, input =>
    if input = '\r' then goOn .expectingNewline3 req
    else if req.headers ≠ [] ∧ (input = ' ' ∨ input = '\t') then goOn .headerLws req
    else if !isChar (toInt input) || isCtl (toInt input) || isTspecial (toInt input) then
      reject ⟨.headerLineStart, req⟩
    else do goOn .headerName (← req.pushHeader.pushName input)
  | ⟨.headerLws, req⟩, input =>
    if input = '\r' then goOn .expectingNewline2 req
    else if input = ' ' ∨ input = '\t' then goOn .headerLws req
    else if isCtl (toInt input) then reject ⟨.headerLws, req⟩
    else do goOn .headerValue (← req.pushValue input)
  | ⟨.headerName, req⟩, input =>
    if input = ':' then goOn .spaceBeforeHeaderValue req
    else if !isChar (toInt input) || isCtl (toInt input) || isTspecial (toInt input) then reject ⟨.headerName, req⟩
    else do goOn .headerName (← req.pushName input)
  | ⟨.spaceBeforeHeaderValue, req⟩, input =>
    if input = ' ' then goOn .headerValue req else reject ⟨.spaceBeforeHeaderValue, req⟩
  | ⟨.headerValue, req⟩, input =>
    if input = '\r' then goOn .expectingNewline2 req
    else if isCtl (toInt input) then reject ⟨.headerValue, req⟩
    else do goOn .headerValue (← req.pushValue input)
  | ⟨.expectingNewline2, req⟩, input =>
    if input = '\n' then goOn .headerLineStart req else reject ⟨.expectingNewline2, req⟩
  | ⟨.expectingNewline3, req⟩, input => .ok (some (decide (input = '\n')), ⟨.expectingNewline3, req⟩)

/-- `parse`: the characters up to the first verdict, and the rest of them. -/
def parse (p : Parsing) (text : Str) : Except Undefined (Tribool × Str × Parsing) := Incremental.feed consume p text

/-- A constructed parser and a request that has just been constructed; its version is not initialized. -/
def Parsing.fresh (major minor : Int) : Parsing := ⟨.methodStart, ⟨[], [], major, minor, []⟩⟩

end ServiceBridge.Http
