import ServiceBridge.Text

/-! Hexadecimal numbers as the streams of the standard library read and write them. -/

namespace ServiceBridge.Str

def isxdigit (c : Char) : Bool := c.isDigit || ('a' ≤ c ∧ c ≤ 'f') || ('A' ≤ c ∧ c ≤ 'F')

def xdigitValue (c : Char) : Nat :=
  if c.isDigit then c.toNat - '0'.toNat
  else if 'a' ≤ c then c.toNat - 'a'.toNat + 10
  else c.toNat - 'A'.toNat + 10

def ofXDigits (digits : Str) : Nat := digits.foldl (fun n c => 16 * n + xdigitValue c) 0

/-- Without the `0x` that it may start with. -/
def dropBase : Str → Str
  | '0' :: 'x' :: rest => rest
  | '0' :: 'X' :: rest => rest
  | s => s

/-- What `is >> std::hex >> value` finds in the text of `is`: white space, an optional sign, an optional `0x`
    and at least one digit. The value and whether the sign is `-`; what comes after the digits is not read. -/
def readHex (s : Str) : Option (Bool × Nat) :=
  let signed := readSign (s.dropWhile isspace)
  let digits := (dropBase signed.2).takeWhile isxdigit
  if digits = [] then none else some (signed.1, ofXDigits digits)

/-- `is >> std::hex >> value` for an `int`. -/
def readHexInt (s : Str) : Option Int := do
  let (minus, n) ← readHex s
  let value : Int := if minus then -n else n
  if -intMax - 1 ≤ value ∧ value ≤ intMax then some value else none

/-- `is >> std::hex >> value` for a `size_t`, whose negative values wrap around. -/
def readHexSize (s : Str) : Option Nat := do
  let (minus, n) ← readHex s
  if n < sizeRange then some (if minus then (sizeRange - n) % sizeRange else n) else none

/-- `os << std::setw( width ) << std::hex << n` -/
def writeHex (width n : Nat) : Str :=
  List.replicate (width - (Nat.toDigits 16 n).length) ' ' ++ Nat.toDigits 16 n

end ServiceBridge.Str
