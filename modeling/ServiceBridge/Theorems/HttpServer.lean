import ServiceBridge.HttpServer
import ServiceBridge.Theorems.RequestPrint
import ServiceBridge.Theorems.RequestHandler

/-! What the connections of the server do in any run, with any number of them, however the bytes of a request are
    split and whatever else happens between two of its reads. -/

namespace ServiceBridge.Http
open Incremental

variable {docRoot text : Str} {p : Parsing} {c : Connection} {s t : Server} {l : List (Server × Act)} {i : Nat}

/-! ### Verdicts on a text -/

/-- The texts that are no request, and do not lead to one. -/
structure Rejected (text : Str) : Prop where
  unfinished : ¬Unfinished text
  request : ∀ req head rest, text = head ++ rest → ¬RequestText req head
  version : ∀ front rest, text = front ++ rest → ¬Overflowing front

theorem parse_rejects_iff (major minor : Int) (text : Str) :
    (∃ rest p, parse (.fresh major minor) text = .ok (some false, rest, p)) ↔ Rejected text := by
  constructor
  · rintro ⟨rest, p, h⟩
    refine ⟨fun hun => ?_, fun req head rest' htext hreq => ?_, fun front rest' htext hover => ?_⟩
    · obtain ⟨rest', p', h'⟩ := hun.exists_parse major minor
      cases h.symm.trans h'
    · rw [htext, hreq.parse_append major minor rest'] at h
      cases h
    · rw [htext, hover.parse_append major minor rest'] at h
      cases h
  · intro h
    cases hparse : parse (.fresh major minor) text with
    | error e =>
      obtain ⟨-, front, rest, htext, hover⟩ := overflowing_of_parse hparse
      exact absurd hover (h.version front rest htext)
    | ok r =>
      rcases r with ⟨_ | _ | _, rest, p⟩
      · exact absurd (unfinished_of_parse hparse) h.unfinished
      · exact ⟨rest, p, rfl⟩
      · obtain ⟨-, head, htext, hreq⟩ := requestText_of_parse hparse
        exact absurd hreq (h.request _ head rest htext)

/-- A read of the run `l` by which the connection `i` got the last of `text`: what it had before could still go on to
    a request, and the server had `files`. -/
def ReadAmong (l : List (Server × Act)) (i : Nat) (text : Str) (files : Str → File) : Prop :=
  ∃ u c bytes, (u, Act.read i (some bytes)) ∈ l ∧ u.connections[i]? = some c ∧ Unfinished c.received ∧
    c.received ++ bytes = text ∧ u.files = files

/-- What the bytes that a connection has received in the run `l` call for: the replies that it has begun to write,
    about the files that were there at the read that called for them, and what it waits for. -/
inductive Outcome (docRoot : Str) (l : List (Server × Act)) (i : Nat) (text : Str) :
    List ((Str → File) × Reply) → Pending → Prop
  | waiting {pending : Pending} (h : Unfinished text) (hpending : pending = .read ∨ pending = .nothing) :
      Outcome docRoot l i text [] pending
  | answered {req : Request} {head rest : Str} {files : Str → File} {rep : Reply} {pending : Pending}
      (htext : text = head ++ rest) (hreq : RequestText req head) (hfiles : ReadAmong l i text files)
      (hrep : Answers docRoot files req.uri rep) (hpending : pending = .write ∨ pending = .nothing) :
      Outcome docRoot l i text [(files, rep)] pending
  | refused {files : Str → File} {pending : Pending} (h : Rejected text) (hfiles : ReadAmong l i text files)
      (hpending : pending = .write ∨ pending = .nothing) :
      Outcome docRoot l i text [(files, .stockReply .badRequest)] pending
  | undefined {front rest : Str} (htext : text = front ++ rest) (h : Overflowing front) :
      Outcome docRoot l i text [] (.undefined .overflow)

theorem Outcome.snoc {written : List ((Str → File) × Reply)} {pending : Pending}
    (h : Outcome docRoot l i text written pending) (x : Server × Act) :
    Outcome docRoot (l ++ [x]) i text written pending := by
  have hread : ∀ files, ReadAmong l i text files → ReadAmong (l ++ [x]) i text files := by
    rintro files ⟨u, c, bytes, hmem, hu⟩
    exact ⟨u, c, bytes, List.mem_append_left _ hmem, hu⟩
  cases h with
  | waiting h hpending => exact .waiting h hpending
  | answered htext hreq hfiles hrep hpending => exact .answered htext hreq (hread _ hfiles) hrep hpending
  | refused h hfiles hpending => exact .refused h (hread _ hfiles) hpending
  | undefined htext h => exact .undefined htext h

/-! ### Steps -/

/-- As long as a connection reads, its parser is where a fresh one is after all the bytes. -/
structure Reading (c : Connection) : Prop where
  quiet : ∃ major minor, Quiet consume (.fresh major minor) c.received c.parsing
  content : c.reply.content = []
  written : c.written = []

structure Sound (docRoot : Str) (l : List (Server × Act)) (i : Nat) (c : Connection) : Prop where
  outcome : Outcome docRoot l i c.received c.written c.pending
  reading : c.pending = .read → Reading c

theorem Reading.unfinished (h : Reading c) : Unfinished c.received := by
  obtain ⟨major, minor, hquiet⟩ := h.quiet
  exact (reached_of_quiet hquiet).unfinished

theorem Reading.parse_eq (h : Reading c) (bytes : Str) :
    ∃ major minor, parse c.parsing bytes = parse (.fresh major minor) (c.received ++ bytes) := by
  obtain ⟨major, minor, hquiet⟩ := h.quiet
  exact ⟨major, minor, (feed_of_quiet hquiet bytes).symm⟩

theorem Sound.snoc (h : Sound docRoot l i c) (x : Server × Act) : Sound docRoot (l ++ [x]) i c :=
  ⟨h.outcome.snoc x, h.reading⟩

/-- The replies that a read calls for are about the files that the server has then. -/
theorem Reading.sound_handleRead (h : Reading c) (hc : s.connections[i]? = some c) (data : Option Str) :
    Sound docRoot (l ++ [(s, .read i data)]) i (c.handleRead docRoot s.files data) := by
  cases data with
  | none =>
    refine ⟨?_, nofun⟩
    show Outcome docRoot _ i c.received c.written .nothing
    rw [h.written]
    exact .waiting h.unfinished (.inr rfl)
  | some bytes =>
    have hfiles : ReadAmong (l ++ [(s, .read i (some bytes))]) i (c.received ++ bytes) s.files :=
      ⟨s, c, bytes, List.mem_append_right _ (List.mem_singleton_self _), hc, h.unfinished, rfl, rfl⟩
    obtain ⟨major, minor, heq⟩ := h.parse_eq bytes
    cases hparse : parse c.parsing bytes with
    | error e =>
      rw [heq] at hparse
      obtain ⟨rfl, front, rest, htext, hover⟩ := overflowing_of_parse hparse
      simp only [Connection.handleRead, heq, hparse]
      refine ⟨?_, nofun⟩
      rw [h.written]
      exact .undefined htext hover
    | ok r =>
      rw [heq] at hparse
      rcases r with ⟨_ | _ | _, rest, p⟩
      · simp only [Connection.handleRead, heq, hparse, Connection.awaitRead]
        have hwaits := unfinished_of_parse hparse
        refine ⟨?_, fun _ => ⟨⟨major, minor, (feed_eq_none_iff.mp hparse).2⟩, h.content, h.written⟩⟩
        rw [h.written]
        exact .waiting hwaits (.inl rfl)
      · simp only [Connection.handleRead, heq, hparse, Connection.beginWrite]
        refine ⟨?_, nofun⟩
        rw [h.written]
        exact .refused ((parse_rejects_iff ..).mp ⟨rest, p, hparse⟩) hfiles (.inl rfl)
      · obtain ⟨-, head, htext, hreq⟩ := requestText_of_parse hparse
        obtain ⟨rep, hrep, hanswer⟩ := exists_answer docRoot s.files p.req c.reply.status c.reply.headers
        rw [← h.content] at hrep
        simp only [Connection.handleRead, heq, hparse, hrep, Connection.beginWrite]
        refine ⟨?_, nofun⟩
        rw [h.written]
        exact .answered htext hreq hfiles hanswer (.inl rfl)

theorem sound_handleWrite (h : Sound docRoot l i c) (hpending : c.pending = .write) (ok : Bool) :
    Sound docRoot l i (c.handleWrite ok) := by
  have houtcome := h.outcome
  rw [hpending] at houtcome
  refine ⟨?_, nofun⟩
  show Outcome docRoot l i c.received c.written .nothing
  generalize c.written = written at houtcome ⊢
  cases houtcome with
  | waiting _ hp => rcases hp with h | h <;> cases h
  | answered htext hreq hfiles hrep => exact .answered htext hreq hfiles hrep (.inr rfl)
  | refused h hfiles => exact .refused h hfiles (.inr rfl)

theorem sound_start (major minor : Int) (status : StatusType) :
    Sound docRoot l i (Connection.new major minor status).start := by
  have hreading : Reading (Connection.new major minor status).start := ⟨⟨major, minor, .nil⟩, rfl, rfl⟩
  exact ⟨.waiting hreading.unfinished (.inl rfl), fun _ => hreading⟩

/-! ### Runs -/

def AllSound (docRoot : Str) (l : List (Server × Act)) (s : Server) : Prop :=
  (∀ i c, s.connections[i]? = some c → Sound docRoot l i c) ∧
    ∃ major minor status, s.newConnection = .new major minor status

theorem AllSound.initial (h : (Server.system docRoot).init s) : AllSound docRoot [] s := by
  obtain ⟨hnil, hnew, -⟩ := h
  refine ⟨fun i c hc => ?_, hnew⟩
  rw [hnil] at hc
  cases hc

/-- One connection is sound after a step, and the others are as they were. -/
theorem AllSound.set (h : AllSound docRoot l s) (x : Server × Act) {i : Nat} (hc : Sound docRoot (l ++ [x]) i c) :
    ∀ j d, (s.connections.set i c)[j]? = some d → Sound docRoot (l ++ [x]) j d := by
  intro j d hd
  rw [List.getElem?_set] at hd
  split at hd
  · next heq =>
    subst heq
    split at hd
    · cases hd
      exact hc
    · cases hd
  · exact (h.1 j d hd).snoc x

theorem allSound_step (a : Act) (h : AllSound docRoot l s) (hs : s.step docRoot a = some t) :
    AllSound docRoot (l ++ [(s, a)]) t := by
  have hall : ∀ i c, s.connections[i]? = some c → Sound docRoot (l ++ [(s, a)]) i c := fun i c hc => (h.1 i c hc).snoc _
  cases a with
  | accept ok major minor status =>
    simp only [Server.step, Option.ite_none_right_eq_some, Option.some.injEq] at hs
    obtain ⟨-, rfl⟩ := hs
    cases ok with
    | false => exact ⟨hall, h.2⟩
    | true =>
      obtain ⟨i, j, status', heq⟩ := h.2
      refine ⟨fun k c hc => ?_, major, minor, status, rfl⟩
      simp only [Server.handleAccept, if_true, List.getElem?_append, List.getElem?_singleton] at hc
      split_ifs at hc with hlt hzero
      · exact hall k c hc
      · cases hc
        rw [heq]
        exact sound_start i j status'
  | read i data =>
    simp only [Server.step, Option.bind_eq_bind, Option.bind_eq_some_iff, Option.ite_none_right_eq_some,
      Option.some.injEq] at hs
    obtain ⟨c, hc, ⟨hpending, -⟩, rfl⟩ := hs
    exact ⟨h.set _ (((h.1 i c hc).reading hpending).sound_handleRead hc data), h.2⟩
  | write i ok =>
    simp only [Server.step, Option.bind_eq_bind, Option.bind_eq_some_iff, Option.ite_none_right_eq_some,
      Option.some.injEq] at hs
    obtain ⟨c, hc, ⟨hpending, -⟩, rfl⟩ := hs
    exact ⟨h.set _ (sound_handleWrite (hall i c hc) hpending ok), h.2⟩
  | change files =>
    cases hs
    exact ⟨hall, h.2⟩
  | stop =>
    cases hs
    exact ⟨hall, h.2⟩

/-- A server that accepts no more, or never did, with `n` connections. -/
def Closed (n : Nat) (s : Server) : Prop := s.accepting = false ∧ s.connections.length = n

/-- What the first `n` connections take part in. -/
def Act.concerns (n : Nat) : Act → Bool
  | accept _ _ _ _ => false
  | read i _ => i < n
  | write i _ => i < n
  | _ => true

theorem Closed.concerns {n : Nat} {a : Act} (h : Closed n s) (hs : s.step docRoot a = some t) :
    a.concerns n = true := by
  obtain ⟨haccepting, hlen⟩ := h
  cases a with
  | accept ok major minor status =>
    rw [Server.step, haccepting] at hs
    cases hs
  | read i data | write i ok =>
    simp only [Server.step, Option.bind_eq_bind, Option.bind_eq_some_iff] at hs
    obtain ⟨c, hc, -⟩ := hs
    obtain ⟨hlt, -⟩ := List.getElem?_eq_some_iff.mp hc
    exact decide_eq_true (hlen ▸ hlt)
  | change | stop => rfl

/-- Of two servers the second one accepts no more, and it is like the first one as far as that one's first `n`
    connections go, which are all that it has. -/
structure Spared (n : Nat) (s t : Server) : Prop where
  files : t.files = s.files
  connections : t.connections = s.connections.take n
  length : n ≤ s.connections.length
  accepting : t.accepting = false
  stopped : t.stopped = s.stopped

namespace Spared
variable {n : Nat} {s' t' : Server} {a : Act}

theorem getElem?_eq (h : Spared n s t) (hi : i < n) : t.connections[i]? = s.connections[i]? := by
  rw [h.connections, List.getElem?_take_of_lt hi]

theorem connections_set (h : Spared n s t) (i : Nat) (c : Connection) :
    t.connections.set i c = (s.connections.set i c).take n := by
  rw [List.take_set, h.connections]

theorem length_set (h : Spared n s t) (i : Nat) (c : Connection) : n ≤ (s.connections.set i c).length :=
  h.length.trans_eq List.length_set.symm

/-- What happens to the first server alone is not seen in the second one. -/
theorem dropped (h : Spared n s t) (ha : a.concerns n = false) (hs : s.step docRoot a = some s') : Spared n s' t := by
  cases a with
  | accept ok major minor status =>
    simp only [Server.step, Option.ite_none_right_eq_some, Option.some.injEq] at hs
    obtain ⟨-, rfl⟩ := hs
    cases ok with
    | false => exact ⟨h.files, h.connections, h.length, h.accepting, h.stopped⟩
    | true =>
      refine ⟨h.files, ?_, ?_, h.accepting, h.stopped⟩
      · show t.connections = (s.connections ++ [s.newConnection.start]).take n
        rw [List.take_append_of_le_length h.length, h.connections]
      · show n ≤ (s.connections ++ [s.newConnection.start]).length
        rw [List.length_append]
        exact h.length.trans (Nat.le_add_right _ _)
  | read i data | write i ok =>
    simp only [Server.step, Option.bind_eq_bind, Option.bind_eq_some_iff, Option.ite_none_right_eq_some,
      Option.some.injEq] at hs
    obtain ⟨c, -, -, rfl⟩ := hs
    have hge : n ≤ i := Nat.le_of_not_lt (of_decide_eq_false ha)
    refine ⟨h.files, ?_, h.length_set i _, h.accepting, h.stopped⟩
    rw [List.take_set_of_le hge, h.connections]
  | change files => cases ha
  | stop => cases ha

variable (docRoot) in
/-- What concerns the second server happens in both, or in none. -/
theorem kept (h : Spared n s t) (ha : a.concerns n = true) : (∃ s', s.step docRoot a = some s' ∧ ∃ t',
    t.step docRoot a = some t' ∧ Spared n s' t') ∨ s.step docRoot a = none ∧ t.step docRoot a = none := by
  cases a with
  | accept ok major minor status => cases ha
  | read i data | write i ok =>
    simp only [Server.step, h.getElem?_eq (of_decide_eq_true ha), h.files, h.stopped, Option.bind_eq_bind]
    cases hc : s.connections[i]? with
    | none => exact .inr ⟨rfl, rfl⟩
    | some c =>
      simp only [Option.bind_some]
      split
      · exact .inl ⟨_, rfl, _, rfl, rfl, h.connections_set i _, h.length_set i _, h.accepting, rfl⟩
      · exact .inr ⟨rfl, rfl⟩
  | change files => exact .inl ⟨_, rfl, _, rfl, rfl, h.connections, h.length, h.accepting, h.stopped⟩
  | stop => exact .inl ⟨_, rfl, _, rfl, h.files, h.connections, h.length, h.accepting, rfl⟩

theorem follow (h : Spared n s t) (ha : a.concerns n = true) (hs : s.step docRoot a = some s') :
    ∃ t', t.step docRoot a = some t' ∧ Spared n s' t' := by
  rcases h.kept docRoot ha with ⟨s₁, hs₁, hfollow⟩ | ⟨hnone, -⟩
  · cases hs.symm.trans hs₁
    exact hfollow
  · cases hs.symm.trans hnone

theorem closed (h : Spared n s t) : Closed n t := by
  refine ⟨h.accepting, ?_⟩
  rw [h.connections, List.length_take]
  exact Nat.min_eq_left h.length

end Spared

end ServiceBridge.Http
