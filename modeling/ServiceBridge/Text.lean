import Mathlib.Algebra.Group.Nat.Defs
import Mathlib.Tactic.Common

/-! The parts of `std::string`, `std::stoull` and `std::getline` that the repository calls. -/

namespace ServiceBridge

/-- A `std::string`: the byte `b` is the character with code `b`. No string is so long that its positions
    leave `long int`, so positions are plain numbers and `npos` is `none`. -/
abbrev Str := List Char

/-- Why a call does not return normally: an exception of a conversion or of `substr`; what is undefined, a
    division by zero and a `front` or `pop` of an empty `std::queue`; or a loop that never ends. -/
inductive Fault where
  | invalidArgument
  | outOfRange
  | divisionByZero
  | emptyQueue
  | diverges
  deriving DecidableEq, Repr

namespace Str

def find (s needle : Str) (pos : Nat) : Option Nat :=
  (List.range' pos (s.length + 1 - pos)).find? fun i => needle.isPrefixOf (s.drop i)

def findFirstNotOf (s chars : Str) : Option Nat :=
  s.findIdx? fun c => !chars.contains c

def findLastNotOf (s chars : Str) : Option Nat :=
  (s.reverse.findIdx? fun c => !chars.contains c).map fun k => s.length - 1 - k

def substr (s : Str) (pos count : Nat) : Except Fault Str :=
  if pos ≤ s.length then .ok ((s.drop pos).take count) else .error .outOfRange

/-- `std::isspace` in the "C" locale. -/
def isspace (c : Char) : Bool := [' ', '\n', '\r', '\t', '\x0c', '\x0b'].contains c

/-- `ULLONG_MAX + 1`, the number of values of `size_t`. -/
def sizeRange : Nat := 2 ^ 64

/-- `INT_MAX` -/
def intMax : Int := 2147483647

/-- An optional sign: whether it is `-`, and the text after it. -/
def readSign : Str → Bool × Str
  | '+' :: rest => (false, rest)
  | '-' :: rest => (true, rest)
  | s => (false, s)

/-- `std::stoull( s )`: skips white space, takes an optional sign and the digits after it, ignores the rest.
    A value after `-` is negated in the arithmetic of `unsigned long long`. -/
def stoull (s : Str) : Except Fault Nat :=
  let signed := readSign (s.dropWhile isspace)
  let digits := signed.2.takeWhile Char.isDigit
  let value := Nat.ofDigitChars 10 digits 0
  if digits = [] then .error .invalidArgument
  else if sizeRange ≤ value then .error .outOfRange
  else .ok (if signed.1 then (sizeRange - value) % sizeRange else value)

def toString (n : Nat) : Str := Nat.toDigits 10 n

/-- The characters up to the first NUL, which are all that a function of C sees of a `c_str()`. -/
def cStr (s : Str) : Str := s.takeWhile (· != '\x00')

/-- `std::getline( in , line )`: the next line and what follows its newline, `none` at the end of the file. -/
def getline : Str → Option (Str × Str)
  | [] => none
  | s => some (s.takeWhile (· != '\n'), (s.dropWhile (· != '\n')).tail)

end Str

end ServiceBridge
