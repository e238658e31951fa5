import Mathlib.Data.Finset.Sort
import Mathlib.Data.List.Lex
import Mathlib.Data.Char
import ServiceBridge.Library.Loop
import ServiceBridge.Text

/-! `helpers/helper.hpp` and `helpers/helper.cpp`, without their debug output. -/

namespace ServiceBridge

def whitespace : Str := [' ', '\n', '\r', '\t', '\x0c', '\x0b']

def ltrim (s : Str) : Except Fault Str :=
  match s.findFirstNotOf whitespace with
  | none => .ok []
  | some start => s.substr start s.length

def rtrim (s : Str) : Except Fault Str :=
  match s.findLastNotOf whitespace with
  | none => .ok []
  | some last => s.substr 0 (last + 1)

def trim (s : Str) : Except Fault Str := do
  rtrim (← ltrim s)

/-! ### split_CSV_line -/

structure Scan where
  last : Int
  scanVec : List Str
  deriving DecidableEq, Repr

/-- One test of the loop condition and, unless `find` answers `npos`, one pass. -/
def scanPass (line delimiter : Str) (s : Scan) : Except Fault (Option Scan) :=
  match line.find delimiter (s.last + 1).toNat with
  | none => .ok none
  | some curr => do
    let token ← line.substr (s.last + 1).toNat (curr - s.last - 1).toNat
    return some { last := curr, scanVec := s.scanVec ++ [token] }

def scanRest (line : Str) (s : Scan) : Except Fault (List Str) := do
  let len : Int := line.length
  if s.last + 1 < len - 1 then
    let token ← line.substr (s.last + 1).toNat (len - 1).toNat
    return s.scanVec ++ [token]
  else
    return s.scanVec

def stripItems (scanVec : List Str) : Except Fault (List Str) :=
  scanVec.foldlM (fun rtrnVec item => do
    let token ← trim item
    return if token.length ≠ 0 then rtrnVec ++ [token] else rtrnVec) []

/-- `split_CSV_line( line , delimiter , stripWS )`. The body never reads `stripWS`. -/
def splitCSVLine (line delimiter : Str) (_stripWS : Bool) : Except Fault (List Str) := do
  let s ← Loop.run .diverges (scanPass line delimiter) (line.length + 2) ⟨-1, []⟩
  stripItems (← scanRest line s)

/-! ### Files, containers, printing -/

inductive File where
  | missing
  /-- `stat` succeeds, but the stream does not open. -/
  | unreadable
  | readable (content : Str)
  deriving DecidableEq, Repr

def fileExists (files : Str → File) (fName : Str) : Bool := files fName != .missing

structure Reading where
  fin : Str
  rtnVec : List Str
  deriving DecidableEq, Repr

def readPass (r : Reading) : Except Fault (Option Reading) :=
  match Str.getline r.fin with
  | none => .ok none
  | some (line, fin) => .ok (some ⟨fin, r.rtnVec ++ [line]⟩)

/-- The stream that `ifstream fin( path )` opens; on one that failed to open, every `getline` fails. -/
def openStream (files : Str → File) (path : Str) : Str :=
  match files path with
  | .readable content => content
  | _ => []

def readlines (files : Str → File) (path : Str) : Except Fault (List Str × List Str) := do
  if fileExists files path then
    let fin := openStream files path
    let r ← Loop.run .diverges readPass (fin.length + 1) ⟨fin, []⟩
    return (r.rtnVec, [])
  else
    return ([], ["readlines: Could not open the file ".toList ++ path ++ "\n".toList])

def containerHas {α : Type} [DecidableEq α] (container : Finset α) (element : α) : Bool :=
  element ∈ container

/-- The elements of a `std::set` in the order of its iteration. -/
def convertSetToVector (s : Finset Str) : List Str := s.sort (· ≤ ·)

def showVector (vec : List Str) : Str :=
  "[ ".toList ++ ", ".toList.intercalate vec ++ " ]".toList

end ServiceBridge
