import ServiceBridge.Theorems.Confinement
import ServiceBridge.Theorems.HttpServer

/-! What the clients of a server see in any run says nothing of what is not below the document root. -/

namespace ServiceBridge.Http

variable {docRoot : Str} {files files' : Str → File} {c c' : Connection} {s s' t : Server} {a a' : Act}

/-- The files of two file systems that agree below the document root. -/
inductive Alike (docRoot : Str) : (Str → File) → (Str → File) → Prop
  | mk {ν : Type} {fs fs' : FileSystem ν} (h : fs.AgreeBelow fs' docRoot) : Alike docRoot fs.file fs'.file

theorem Alike.handleRequest_eq (h : Alike docRoot files files') (hnul : '\x00' ∉ docRoot) {rep : Reply}
    (hrep : rep.content = []) (req : Request) :
    handleRequest docRoot files' req rep = handleRequest docRoot files req rep := by
  obtain ⟨status, headers, content⟩ := rep
  subst hrep
  obtain ⟨h⟩ := h
  exact (handleRequest_congr (file_eq_of_inner hnul h) req status headers).symm

/-! ### Connections -/

/-- A connection without the files that its replies are about: all that its client, and the server, can know. -/
def Connection.blind (c : Connection) : Connection :=
  { c with written := c.written.map fun w => (fun _ => .missing, w.2) }

theorem pending_of_blind (h : c'.blind = c.blind) : c'.pending = c.pending := by
  have hpending := congrArg Connection.pending h
  exact hpending

/-- What a handler does to a connection depends on the files through the reply alone. -/
theorem blind_handleRead (hblind : c'.blind = c.blind)
    (h : ∀ req, handleRequest docRoot files' req c.reply = handleRequest docRoot files req c.reply)
    (data : Option Str) : (c'.handleRead docRoot files' data).blind = (c.handleRead docRoot files data).blind := by
  obtain ⟨parsing, reply, pending, shutDown, received, written⟩ := c
  obtain ⟨parsing', reply', pending', shutDown', received', written'⟩ := c'
  simp only [Connection.blind, Connection.mk.injEq] at hblind
  obtain ⟨rfl, rfl, rfl, rfl, rfl, hwritten⟩ := hblind
  cases data with
  | none => simp only [Connection.handleRead, Connection.blind, hwritten]
  | some bytes =>
    cases hparse : parse parsing' bytes with
    | error e => simp only [Connection.handleRead, hparse, Connection.blind, hwritten]
    | ok r =>
      rcases r with ⟨_ | _ | _, rest, p⟩
      · simp only [Connection.handleRead, hparse, Connection.awaitRead, Connection.blind, hwritten]
      · simp only [Connection.handleRead, hparse, Connection.beginWrite, Connection.blind, List.map_append, hwritten,
          List.map_singleton]
      · cases hrep : handleRequest docRoot files p.req reply' with
        | error e => simp only [Connection.handleRead, hparse, h, hrep, Connection.blind, hwritten]
        | ok rep =>
          simp only [Connection.handleRead, hparse, h, hrep, Connection.beginWrite, Connection.blind, List.map_append,
            hwritten, List.map_singleton]

theorem blind_handleWrite (hblind : c'.blind = c.blind) (ok : Bool) :
    (c'.handleWrite ok).blind = (c.handleWrite ok).blind :=
  congrArg (fun c => c.handleWrite ok) hblind

/-! ### The server -/

/-- The same handlers run, with the same bytes, and wherever the files change they agree again below the root. -/
inductive ActAlike (docRoot : Str) : Act → Act → Prop
  | same (a : Act) (h : ∀ files, a ≠ .change files) : ActAlike docRoot a a
  | change {files files' : Str → File} (h : Alike docRoot files files') :
      ActAlike docRoot (.change files) (.change files')

/-- Two servers that a client cannot tell apart, now or later. -/
structure Twins (docRoot : Str) (s s' : Server) : Prop where
  sound : ∃ l, AllSound docRoot l s
  files : Alike docRoot s.files s'.files
  connections : s'.connections.map Connection.blind = s.connections.map Connection.blind
  newConnection : s'.newConnection = s.newConnection
  accepting : s'.accepting = s.accepting
  stopped : s'.stopped = s.stopped

theorem Twins.exists_connection (h : Twins docRoot s s') {i : Nat} (hc : s.connections[i]? = some c) :
    ∃ c', s'.connections[i]? = some c' ∧ c'.blind = c.blind := by
  have hi := congrArg (·[i]?) h.connections
  simp only [List.getElem?_map, hc, Option.map_some, Option.map_eq_some_iff] at hi
  exact hi

theorem Twins.map_set (h : Twins docRoot s s') (i : Nat) (hblind : c'.blind = c.blind) :
    (s'.connections.set i c').map Connection.blind = (s.connections.set i c).map Connection.blind := by
  rw [List.map_set, List.map_set, h.connections, hblind]

theorem Twins.step (h : Twins docRoot s s') (hnul : '\x00' ∉ docRoot) (ha : ActAlike docRoot a a')
    (hs : s.step docRoot a = some t) : ∃ t', s'.step docRoot a' = some t' ∧ Twins docRoot t t' := by
  obtain ⟨l, hall⟩ := h.sound
  have hsound : ∃ l, AllSound docRoot l t := ⟨_, allSound_step a hall hs⟩
  cases ha with
  | change hfiles =>
    cases hs
    exact ⟨_, rfl, hsound, hfiles, h.connections, h.newConnection, h.accepting, h.stopped⟩
  | same a hno =>
    cases a with
    | accept ok major minor status =>
      simp only [Server.step, Option.ite_none_right_eq_some, Option.some.injEq] at hs
      obtain ⟨hmay, rfl⟩ := hs
      rw [← h.accepting, ← h.stopped] at hmay
      refine ⟨_, if_pos hmay, ?_⟩
      cases ok with
      | false => exact ⟨hsound, h.files, h.connections, h.newConnection, rfl, h.stopped⟩
      | true =>
        refine ⟨hsound, h.files, ?_, rfl, h.accepting, h.stopped⟩
        show List.map _ (s'.connections ++ [s'.newConnection.start]) = _
        rw [List.map_append, h.connections, h.newConnection]
        exact List.map_append.symm
    | read i data =>
      simp only [Server.step, Option.bind_eq_bind, Option.bind_eq_some_iff, Option.ite_none_right_eq_some,
        Option.some.injEq] at hs
      obtain ⟨c, hc, ⟨hpending, hmay⟩, rfl⟩ := hs
      obtain ⟨c', hc', hblind⟩ := h.exists_connection hc
      have hreading := (hall.1 i c hc).reading hpending
      have hread := blind_handleRead hblind (h.files.handleRequest_eq hnul hreading.content) data
      rw [← pending_of_blind hblind] at hpending
      rw [← h.stopped] at hmay
      refine ⟨{ s' with connections := s'.connections.set i (c'.handleRead docRoot s'.files data) }, ?_, hsound,
        h.files, h.map_set i hread, h.newConnection, h.accepting, h.stopped⟩
      simp only [Server.step, hc', Option.bind_eq_bind, Option.bind_some]
      exact if_pos ⟨hpending, hmay⟩
    | write i ok =>
      simp only [Server.step, Option.bind_eq_bind, Option.bind_eq_some_iff, Option.ite_none_right_eq_some,
        Option.some.injEq] at hs
      obtain ⟨c, hc, ⟨hpending, hmay⟩, rfl⟩ := hs
      obtain ⟨c', hc', hblind⟩ := h.exists_connection hc
      rw [← pending_of_blind hblind] at hpending
      rw [← h.stopped] at hmay
      have hwrite := blind_handleWrite hblind ok
      refine ⟨{ s' with connections := s'.connections.set i (c'.handleWrite ok) }, ?_, hsound, h.files,
        h.map_set i hwrite, h.newConnection, h.accepting, h.stopped⟩
      simp only [Server.step, hc', Option.bind_eq_bind, Option.bind_some]
      exact if_pos ⟨hpending, hmay⟩
    | change files => exact absurd rfl (hno files)
    | stop =>
      cases hs
      exact ⟨_, rfl, hsound, h.files, h.connections, h.newConnection, h.accepting, rfl⟩

/-- Whatever the clients send and whenever the files change, what is not below the document root makes no
    difference to what they get: a run among one set of files is one among any that agrees with it there, with
    the same replies on the same connections. -/
theorem runs_confined {docRoot : Str} {files' : Str → File} {s t : Server} {l : List (Server × Act)} {as : List Act}
    (hnul : '\x00' ∉ docRoot) (hs : (Server.system docRoot).init s) (hfiles : Alike docRoot s.files files')
    (hl : (Server.system docRoot).Trace s l t) (has : List.Forall₂ (ActAlike docRoot) (l.map Prod.snd) as) :
    ∃ l' t', (Server.system docRoot).Trace { s with files := files' } l' t' ∧ l'.map Prod.snd = as ∧
      t'.connections.map Connection.blind = t.connections.map Connection.blind := by
  have htwins : Twins docRoot s { s with files := files' } := ⟨⟨[], .initial hs⟩, hfiles, rfl, rfl, rfl, rfl⟩
  obtain ⟨l', t', hl', hacts, htwins⟩ :=
    hl.lockstep (R := Twins docRoot) (fun _ _ _ _ _ h ha hstep => h.step hnul ha hstep) htwins has
  exact ⟨l', t', hl', hacts, htwins.connections⟩

/-- The server before it has accepted a connection, with one secret beside its root. -/
def secretServer (secret : Str) : Server := ⟨(oneSecret secret).file, [], .new 0 0 .ok, true, false⟩

def askSecret : List Act := [.accept true 0 0 .ok, .read 0 (some "GET /../b HTTP/1.0\r\n\r\n".toList)]

theorem runs_confined_secret : ∃ t, (Server.system ['w']).Reachable t ∧ t.connections ≠ [] ∧ ∃ l' t',
    (Server.system ['w']).Trace (secretServer ['z']) l' t' ∧ l'.map Prod.snd = askSecret ∧
      t'.connections.map Connection.blind = t.connections.map Connection.blind := by
  have hinit : (Server.system ['w']).init (secretServer ['y']) := ⟨rfl, ⟨0, 0, .ok, rfl⟩, rfl, rfl⟩
  have haccept := (System.Trace.nil (M := Server.system ['w']) (s := secretServer ['y'])).snoc
    (a := .accept true 0 0 .ok) rfl
  have hread := haccept.snoc (a := .read 0 (some "GET /../b HTTP/1.0\r\n\r\n".toList)) rfl
  have hsame : List.Forall₂ (ActAlike ['w']) askSecret askSecret :=
    .cons (.same _ nofun) (.cons (.same _ nofun) .nil)
  refine ⟨_, .of_trace hinit hread, List.cons_ne_nil _ _, ?_⟩
  exact runs_confined (by decide) hinit (.mk (oneSecret_agreeBelow ['y'] ['z'])) hread hsame

end ServiceBridge.Http
