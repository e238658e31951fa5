import ServiceBridge.Library.Delimit
import ServiceBridge.Theorems.RequestHandler

/-! The bytes of a reply end by themselves: from the bytes and whatever follows them a client can tell the status,
    the headers and the content. -/

namespace ServiceBridge.Http
open Delimit

variable {rep : Reply} {status : StatusType} {ext : Str}

/-! ### Status lines -/

namespace StatusType

def all : List StatusType :=
  [ok, created, accepted, noContent, multipleChoices, movedPermanently, movedTemporarily, notModified, badRequest,
    unauthorized, forbidden, notFound, internalServerError, notImplemented, badGateway, serviceUnavailable]

def line (status : StatusType) : Str := status.toBuffer.takeWhile (· != '\r')

theorem toBuffer_eq (status : StatusType) : status.toBuffer = status.line ++ '\r' :: ['\n'] := by
  cases status <;> rfl

/-- The three digits of a status line. -/
def code (line : Str) : Str := (line.drop "HTTP/1.0 ".length).take 3

theorem find_code (status : StatusType) : all.find? (fun s => code s.line = code status.line) = some status := by
  cases status <;> rfl

theorem line_injective : Function.Injective line := fun s t h =>
  Option.some.inj ((find_code s).symm.trans (h ▸ find_code t))

theorem cr_not_mem_line (status : StatusType) : '\r' ∉ status.line := fun h => by
  simpa using List.mem_takeWhile_imp h

theorem toBuffer_endsItself : EndsItself (fun _ => True) toBuffer := by
  have h := (EndsItself.word '\r' ['\n']).comap line_injective
  have heq : (fun s : StatusType => s.line ++ '\r' :: ['\n']) = toBuffer := funext fun s => (toBuffer_eq s).symm
  rw [heq] at h
  exact h.mono fun s _ => cr_not_mem_line s

end StatusType

/-! ### Headers -/

structure Header.Clean (h : Header) : Prop where
  colon : ':' ∉ h.name
  name : '\r' ∉ h.name
  value : '\r' ∉ h.value

def Header.bytes (h : Header) : Str := h.name ++ ':' :: [' '] ++ (h.value ++ '\r' :: ['\n'])

theorem Header.bytes_endsItself : EndsItself Header.Clean Header.bytes := by
  have h := (EndsItself.word ':' [' ']).pair (Q := fun _ value => '\r' ∉ value) (f := fun _ value => _) fun _ _ =>
    EndsItself.word '\r' ['\n']
  have hinj : Function.Injective fun h : Header => (h.name, h.value) := fun h h' heq => by
    cases h
    cases h'
    simpa using heq
  exact (h.comap hinj).mono fun h hh => ⟨hh.colon, hh.value⟩

theorem Header.bytes_ne_crlf (h : Header) (hh : h.Clean) (rest rest' : Str) : h.bytes ++ rest ≠ Reply.crlf ++ rest' := by
  intro heq
  have hname := hh.name
  rw [bytes] at heq
  cases hn : h.name with
  | nil =>
    rw [hn] at heq
    exact absurd (List.cons.inj heq).1 (by decide)
  | cons c name =>
    rw [hn] at heq hname
    exact hname ((List.cons.inj heq).1 ▸ List.mem_cons_self)

/-! ### Replies -/

namespace Reply

def bytes (rep : Reply) : Str := rep.toBuffers.flatten

/-- What a client can rely on. -/
structure Readable (rep : Reply) : Prop where
  clean : ∀ h ∈ rep.headers, h.Clean
  length : rep.headers.head? = some ⟨"Content-Length".toList, Str.toString rep.content.length⟩

theorem bytes_eq (rep : Reply) :
    rep.bytes = rep.status.toBuffer ++ (rep.headers.flatMap Header.bytes ++ crlf ++ rep.content) := by
  have hheaders : (rep.headers.flatMap fun h => [h.name, nameValueSeparator, h.value, crlf]).flatten =
      rep.headers.flatMap Header.bytes := by
    induction rep.headers with
    | nil => rfl
    | cons h hs ih =>
      rw [List.flatMap_cons, List.flatten_append, ih, List.flatMap_cons]
      simp [Header.bytes, nameValueSeparator, crlf]
  rw [bytes, toBuffers, List.flatten_append, List.flatten_append, hheaders]
  simp

theorem toString_injective : Function.Injective Str.toString := fun n m h => by
  rw [← Nat.ofDigitChars_ten_toDigits (n := n), ← Nat.ofDigitChars_ten_toDigits (n := m)]
  exact congrArg (Nat.ofDigitChars 10 · 0) h

theorem bytes_endsItself : EndsItself Readable bytes := by
  have hheaders := Header.bytes_endsItself.list crlf fun h rest rest' hh => h.bytes_ne_crlf hh rest rest'
  have hbody := hheaders.pair
    (Q := fun hs (content : Str) => hs.head? = some ⟨"Content-Length".toList, Str.toString content.length⟩)
    (f := fun _ content => content) fun hs _ => by
      intro x y rest rest' hx hy heq
      rw [hx, Option.some.injEq, Header.mk.injEq] at hy
      exact List.append_inj heq (toString_injective hy.2)
  have hreply := StatusType.toBuffer_endsItself.pair (f := fun _ (p : List Header × Str) => _) fun _ _ => hbody
  have hinj : Function.Injective fun rep : Reply => (rep.status, rep.headers, rep.content) := fun rep rep' heq => by
    cases rep
    cases rep'
    simpa using heq
  have hbytes := (hreply.comap hinj).mono (Q := Readable) fun rep hrep => ⟨trivial, hrep.clean, hrep.length⟩
  simp only [← bytes_eq] at hbytes
  exact hbytes

theorem describe_clean (content : Str) {mimeType : Str} (h : '\r' ∉ mimeType) :
    ∀ h ∈ describe content mimeType, h.Clean := by
  have hlength : ':' ∉ "Content-Length".toList ∧ '\r' ∉ "Content-Length".toList := by decide
  have htype : ':' ∉ "Content-Type".toList ∧ '\r' ∉ "Content-Type".toList := by decide
  rw [describe, List.forall_mem_cons, List.forall_mem_singleton]
  refine ⟨⟨hlength.1, hlength.2, fun hmem => ?_⟩, ⟨htype.1, htype.2, h⟩⟩
  exact absurd (Nat.isDigit_of_mem_toDigits (by decide) (by decide) hmem) (by decide)

theorem stockReply_readable (status : StatusType) : Readable (.stockReply status) :=
  ⟨describe_clean _ (by decide), rfl⟩

end Reply

theorem cr_not_mem_type (ext : Str) : '\r' ∉ extensionToType ext := by
  rw [extensionToType]
  cases h : mappings.find? fun m => m.extension = ext with
  | none => exact (by decide : '\r' ∉ "text/plain".toList)
  | some m =>
    have hall : ∀ m ∈ mappings, '\r' ∉ m.mimeType := by decide
    exact hall m (List.mem_of_find?_eq_some h)

/-- The replies that the server can send. -/
inductive Sent : Reply → Prop
  | stock (status : StatusType) : Sent (.stockReply status)
  | answer {docRoot : Str} {files : Str → File} {req : Request} {rep : Reply} (status : StatusType)
      (headers : List Header) (h : handleRequest docRoot files req ⟨status, headers, []⟩ = .ok rep) : Sent rep

theorem Sent.readable (h : Sent rep) : rep.Readable := by
  cases h with
  | stock status => exact Reply.stockReply_readable status
  | answer status headers h =>
    cases handleRequest_eq_ok_iff.mp h with
    | refused => exact Reply.stockReply_readable _
    | missing => exact Reply.stockReply_readable _
    | served => exact ⟨Reply.describe_clean _ (cr_not_mem_type _), rfl⟩

/-- Of two replies with anything after them, the same bytes mean the same status, headers and content, and the
    same bytes after them. -/
theorem bytes_tell_reply {rep rep' : Reply} (h : Sent rep) (h' : Sent rep') (rest rest' : Str)
    (heq : rep.bytes ++ rest = rep'.bytes ++ rest') : rep = rep' ∧ rest = rest' :=
  Reply.bytes_endsItself rep rep' rest rest' h.readable h'.readable heq

/-- The reply to a request for a page that has an empty line in it. -/
def emptyLineReply (uri : Str) : Except Fault Reply :=
  handleRequest ['w'] (fun _ => .readable "a\r\n\r\nb".toList) ⟨"GET".toList, uri, 1, 0, []⟩ ⟨.ok, [], []⟩

def emptyLineBytes : Str :=
  "HTTP/1.0 200 OK\r\nContent-Length: 6\r\nContent-Type: text/html\r\n\r\na\r\n\r\nb".toList

/-- It is served under two names; and with another reply after it, it is still the one that a client gets. -/
theorem bytes_tell_reply_page : ∃ rep rep', emptyLineReply "/p.html".toList = .ok rep ∧
    emptyLineReply "/%70.html".toList = .ok rep' ∧ rep.bytes = emptyLineBytes ∧ (rep = rep' ∧ ([] : Str) = []) ∧
    ∀ other, Sent other → ∀ rest, other.bytes ++ rest = emptyLineBytes ++ (Reply.stockReply .notFound).bytes →
      other = rep ∧ rest = (Reply.stockReply .notFound).bytes := by
  obtain ⟨rep, hrep, hbytes⟩ : ∃ rep, emptyLineReply "/p.html".toList = .ok rep ∧ rep.bytes = emptyLineBytes :=
    ⟨_, rfl, rfl⟩
  obtain ⟨rep', hrep', hbytes'⟩ : ∃ rep, emptyLineReply "/%70.html".toList = .ok rep ∧ rep.bytes = emptyLineBytes :=
    ⟨_, rfl, rfl⟩
  have hsent : Sent rep := .answer .ok [] hrep
  refine ⟨rep, rep', hrep, hrep', hbytes, ?_, fun other hother rest heq => ?_⟩
  · exact bytes_tell_reply hsent (.answer .ok [] hrep') [] [] (by rw [hbytes, hbytes'])
  · exact bytes_tell_reply hother hsent rest _ (by rw [hbytes, heq])

end ServiceBridge.Http
