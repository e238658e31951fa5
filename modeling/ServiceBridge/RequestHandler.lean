import ServiceBridge.Library.Loop
import ServiceBridge.Helper
import ServiceBridge.Hex
import ServiceBridge.Reply

/-! `request_handler` of `full_server/`. -/

namespace ServiceBridge

def Str.findLastOf (s chars : Str) : Option Nat :=
  (s.reverse.findIdx? fun c => chars.contains c).map fun k => s.length - 1 - k

/-- `static_cast<char>( value )` -/
def Str.charOf (value : Int) : Char := Char.ofNat (value % 256).toNat

namespace Http

/-- `url_decode`; `none` is `return false`. -/
def urlDecode : Str → Option Str
  | [] => some []
  | '%' :: a :: b :: rest => do
    let value ← Str.readHexInt [a, b]
    return Str.charOf value :: (← urlDecode rest)
  | '%' :: _ => none
  | '+' :: rest => do return ' ' :: (← urlDecode rest)
  | c :: rest => do return c :: (← urlDecode rest)

/-! ### The file -/

/-- A binary stream that is read in blocks, and the content of the reply. -/
structure Copying where
  is : Str
  content : Str
  deriving DecidableEq, Repr

/-- `is.read( buf , 512 ).gcount() > 0`, and the pass after it. -/
def copyPass (s : Copying) : Except Fault (Option Copying) :=
  let buf := s.is.take 512
  if buf.length > 0 then .ok (some ⟨s.is.drop 512, s.content ++ buf⟩) else .ok none

/-- The stream that `ifstream is( path )` opens; `none` is `!is`. The bytes of a directory cannot be read, its
    stream is one without bytes. -/
def openFile (files : Str → File) (path : Str) : Option Str :=
  match files path with
  | .readable content => some content
  | _ => none

/-! ### The request -/

def extensionOf (requestPath : Str) : Except Fault Str :=
  match requestPath.findLastOf ['.'], requestPath.findLastOf ['/'] with
  | some lastDotPos, some lastSlashPos =>
    if lastDotPos > lastSlashPos then requestPath.substr (lastDotPos + 1) requestPath.length else .ok []
  -- without a slash `last_slash_pos` is the greatest number
  | _, _ => .ok []

/-- The reply as it is after the call; it was `rep` before. -/
def handleRequest (docRoot : Str) (files : Str → File) (req : Request) (rep : Reply) : Except Fault Reply :=
  match urlDecode req.uri with
  | none => .ok (.stockReply .badRequest)
  | some requestPath =>
    if requestPath = [] ∨ requestPath.head? ≠ some '/' ∨ (requestPath.find ['.', '.'] 0).isSome then
      .ok (.stockReply .badRequest)
    else do
      let requestPath :=
        if requestPath.getLast? = some '/' then requestPath ++ "index.html".toList else requestPath
      let extension ← extensionOf requestPath
      match openFile files (docRoot ++ requestPath).cStr with
      | none => return .stockReply .notFound
      | some is =>
        let s ← Loop.run .diverges copyPass (is.length + 1) ⟨is, rep.content⟩
        return { status := .ok, content := s.content, headers := Reply.describe s.content (extensionToType extension) }

end Http

end ServiceBridge
