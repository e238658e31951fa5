import Mathlib.Tactic.Common
import ServiceBridge.Library.Walk
import ServiceBridge.Helper

/-! The files that paths name. Directories may have links as entries, so they form a graph. -/

namespace ServiceBridge

/-- The entries of every directory, `.` and `..` among them, and what opening a file or a directory gives. -/
structure FileSystem (ν : Type*) where
  root : ν
  workingDirectory : ν
  look : ν → Str → Option ν
  content : ν → File

namespace FileSystem

variable {ν : Type*} (fs : FileSystem ν)

def names (path : Str) : List Str := (path.splitOn '/').filter (· ≠ [])

/-- A slash at the end stands for one that `.` follows. -/
def entries (path : Str) : List Str := names path ++ if path.getLast? = some '/' then [['.']] else []

def start (path : Str) : ν := if path.head? = some '/' then fs.root else fs.workingDirectory

/-- The directory to which paths are appended that start with a slash. -/
def directory (path : Str) : Option ν := Walk.follow fs.look (fs.start (path ++ ['/'])) (names path)

def file (path : Str) : File :=
  if path = [] then .missing else (Walk.follow fs.look (fs.start path) (entries path)).elim .missing fs.content

end FileSystem

end ServiceBridge
