import ServiceBridge.RequestParser

/-! What the head of a request looks like: a request line, the lines of the headers, and an empty line. The
    value of a header may go on in further lines that start with blanks. -/

namespace ServiceBridge.Http

def isToken (c : Char) : Bool := isChar (toInt c) && !isCtl (toInt c) && !isTspecial (toInt c)

def isText (c : Char) : Bool := !isCtl (toInt c)

def isBlank (c : Char) : Bool := c = ' ' ∨ c = '\t'

def crlf : Str := ['\r', '\n']

/-- The greatest number that a version can have: with it the sum in `n * 10 + input - '0'` is still an `int`. -/
def versionMax : Nat := Str.intMax.toNat - '0'.toNat

/-! ### Words -/

structure Token where
  chars : Str
  ne_nil : chars ≠ []
  token : ∀ c ∈ chars, isToken c = true

/-- The path of a request line, which may be empty. -/
structure Target where
  chars : Str
  text : ∀ c ∈ chars, isText c = true ∧ c ≠ ' '

structure Numeral where
  digits : Str
  ne_nil : digits ≠ []
  digit : ∀ c ∈ digits, isDigit (toInt c) = true
  fits : Nat.ofDigitChars 10 digits 0 ≤ versionMax

def Numeral.value (n : Numeral) : Int := (Nat.ofDigitChars 10 n.digits 0 : Nat)

structure Blanks where
  chars : Str
  ne_nil : chars ≠ []
  blank : ∀ c ∈ chars, isBlank c = true

/-- A piece of a value: what the first line has of it. -/
structure Piece where
  chars : Str
  text : ∀ c ∈ chars, isText c = true

/-- A piece of a value in a further line, after the blanks there. -/
structure Tail extends Piece where
  start : chars.head? ≠ some ' '

/-! ### Lines -/

/-- The lines of a header, without the end of the last one. Further lines are joined with nothing between. -/
inductive Field : Header → Str → Prop
  | line (name : Token) (value : Piece) : Field ⟨name.chars, value.chars⟩ (name.chars ++ [':', ' '] ++ value.chars)
  | fold {h : Header} {text : Str} (field : Field h text) (blanks : Blanks) (more : Tail) :
      Field ⟨h.name, h.value ++ more.chars⟩ (text ++ crlf ++ blanks.chars ++ more.chars)

inductive Fields : List Header → Str → Prop
  | nil : Fields [] []
  | snoc {hs : List Header} {h : Header} {text line : Str} :
      Fields hs text → Field h line → Fields (hs ++ [h]) (text ++ line ++ crlf)

/-- A request line up to the version. -/
inductive LineStart : Str → Str → Str → Prop
  | mk (method : Token) (uri : Target) :
      LineStart method.chars uri.chars (method.chars ++ [' '] ++ uri.chars ++ [' '] ++ ['H', 'T', 'T', 'P', '/'])

inductive RequestLine : Request → Str → Prop
  | mk {method uri start : Str} (h : LineStart method uri start) (major minor : Numeral) :
      RequestLine ⟨method, uri, major.value, minor.value, []⟩
        (start ++ major.digits ++ ['.'] ++ minor.digits ++ crlf)

inductive RequestText : Request → Str → Prop
  | mk {req : Request} {line fields : Str} {headers : List Header} (hline : RequestLine req line)
      (hfields : Fields headers fields) : RequestText { req with headers := headers } (line ++ fields ++ crlf)

/-- A text that can go on to a request. -/
def Unfinished (text : Str) : Prop := ∃ req more, more ≠ [] ∧ RequestText req (text ++ more)

/-- A text that ends in a version which does not fit into an `int`, or is close to that. -/
inductive Overflowing : Str → Prop
  | major {method uri start digits : Str} (h : LineStart method uri start)
      (hdigit : ∀ c ∈ digits, isDigit (toInt c) = true) (hbig : versionMax < Nat.ofDigitChars 10 digits 0) :
      Overflowing (start ++ digits)
  | minor {method uri start digits : Str} (h : LineStart method uri start) (major : Numeral)
      (hdigit : ∀ c ∈ digits, isDigit (toInt c) = true) (hbig : versionMax < Nat.ofDigitChars 10 digits 0) :
      Overflowing (start ++ major.digits ++ ['.'] ++ digits)

/-! ### Writing a request -/

def Header.WellFormed (h : Header) : Prop :=
  (h.name ≠ [] ∧ ∀ c ∈ h.name, isToken c = true) ∧ ∀ c ∈ h.value, isText c = true

def InRange (version : Int) : Prop := 0 ≤ version ∧ version ≤ versionMax

structure Request.WellFormed (req : Request) : Prop where
  method : req.method ≠ [] ∧ ∀ c ∈ req.method, isToken c = true
  uri : ∀ c ∈ req.uri, isText c = true ∧ c ≠ ' '
  major : InRange req.httpVersionMajor
  minor : InRange req.httpVersionMinor
  headers : ∀ h ∈ req.headers, h.WellFormed

def Header.print (h : Header) : Str := h.name ++ [':', ' '] ++ h.value ++ crlf

/-- A request in one line for each header. -/
def Request.print (req : Request) : Str :=
  req.method ++ [' '] ++ req.uri ++ [' '] ++ ['H', 'T', 'T', 'P', '/'] ++ Str.toString req.httpVersionMajor.toNat ++
    ['.'] ++ Str.toString req.httpVersionMinor.toNat ++ crlf ++ (req.headers.map Header.print).flatten ++ crlf

end ServiceBridge.Http
