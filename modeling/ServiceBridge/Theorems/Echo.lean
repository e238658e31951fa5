import Mathlib.Data.List.Basic
import ServiceBridge.Echo

/-! The client gets its request back, and the two wait for each other forever only if the request is too long for the
    stream between them. -/

namespace ServiceBridge.Echo
open State

variable {out back : Nat} {text sent : Str} {s t : State} {a : Act}

/-! ### What a step does -/

inductive Moves (out back : Nat) (s : State) : Act → State → Prop
  | write {c : Char} {rest : Str} (hclient : s.client = .writing (c :: rest)) (hroom : s.toServer.length < out) :
      Moves out back s .clientWrite { s with client := .writing rest, toServer := s.toServer ++ [c] }
  | written (hclient : s.client = .writing []) : Moves out back s .clientWrite { s with client := .reading [] }
  | read {got toClient : Str} {c : Char} (hclient : s.client = .reading got) (hwire : s.toClient = c :: toClient) :
      Moves out back s .clientRead { s with client := .reading (got ++ [c]), toClient := toClient }
  | reply {got : Str} (hclient : s.client = .reading got) (hlen : got.length = s.requestLength) :
      Moves out back s .clientRead { s with client := .replied got }
  | take {n : Nat} (hsession : s.session = .reading) (hpos : 0 < n) (hle : n ≤ s.toServer.length) :
      Moves out back s (.sessionRead n)
        { s with session := .writing (s.toServer.take n), toServer := s.toServer.drop n }
  | eof {n : Nat} (hsession : s.session = .reading) (hclosed : s.client.closed = true) :
      Moves out back s (.sessionRead n) { s with session := .finished }
  | echo {c : Char} {rest : Str} (hsession : s.session = .writing (c :: rest)) (hroom : s.toClient.length < back) :
      Moves out back s .sessionWrite { s with session := .writing rest, toClient := s.toClient ++ [c] }
  | echoed (hsession : s.session = .writing []) : Moves out back s .sessionWrite { s with session := .reading }
  | clientError (hopen : s.client.closed = false) : Moves out back s .clientError { s with client := .threw }
  | sessionError (hfinished : s.session ≠ .finished) (hthrew : s.session ≠ .threw) :
      Moves out back s .sessionError { s with session := .threw }

theorem moves_of_step (h : s.step out back a = some t) : Moves out back s a t := by
  cases a with
  | clientWrite =>
    simp only [step, clientWrite] at h
    split at h
    · next hclient =>
      cases h
      exact .written hclient
    · next c rest hclient =>
      rw [Option.ite_none_right_eq_some, Option.some.injEq] at h
      obtain ⟨hroom, rfl⟩ := h
      exact .write hclient hroom
    · cases h
  | clientRead =>
    simp only [step, clientRead] at h
    split at h
    · next got hclient =>
      split_ifs at h with hlen
      · cases h
        exact .reply hclient hlen
      · split at h
        · cases h
        · next c toClient hwire =>
          cases h
          exact .read hclient hwire
    · cases h
  | sessionRead n =>
    simp only [step, sessionRead] at h
    split_ifs at h with hsession hnil hclosed hn
    · cases h
      exact .eof hsession hclosed
    · cases h
      exact .take hsession hn.1 hn.2.2
  | sessionWrite =>
    simp only [step, sessionWrite] at h
    split at h
    · next hsession =>
      cases h
      exact .echoed hsession
    · next c rest hsession =>
      rw [Option.ite_none_right_eq_some, Option.some.injEq] at h
      obtain ⟨hroom, rfl⟩ := h
      exact .echo hsession hroom
    · cases h
  | clientError =>
    simp only [step, State.clientError] at h
    split_ifs at h with hclosed
    cases h
    exact .clientError (Bool.eq_false_iff.mpr hclosed)
  | sessionError =>
    simp only [step, State.sessionError] at h
    split_ifs at h with hended
    cases h
    rw [not_or] at hended
    exact .sessionError hended.1 hended.2

/-! ### Where the bytes are -/

def Client.rest : Client → Str
  | writing rest => rest
  | _ => []

def Client.got : Client → Str
  | reading got => got
  | replied reply => reply
  | _ => []

def Session.held : Session → Str
  | writing rest => rest
  | _ => []

/-- Unless an end has failed each byte of the request is in one place, in its order; what reaches the client is
    always a beginning of the request. -/
structure Inv (sent : Str) (s : State) : Prop where
  length : s.requestLength = sent.length
  whole : s.client ≠ .threw → s.session ≠ .threw →
    s.client.got ++ s.toClient ++ s.session.held ++ s.toServer ++ s.client.rest = sent
  back : s.client ≠ .threw → s.client.got ++ s.toClient <+: sent
  replied : ∀ reply, s.client = .replied reply → reply.length = sent.length
  finished : s.session = .finished → s.client.closed = true

theorem inv_initial : Inv sent (initial sent) where
  length := rfl
  whole := fun _ _ => rfl
  back := fun _ => List.nil_prefix
  replied := nofun
  finished := nofun

theorem inv_step (h : Inv sent s) (hm : Moves out back s a t) : Inv sent t := by
  obtain ⟨hlength, hwhole, hback, hreplied, hfinished⟩ := h
  cases hm with
  | write hclient hroom =>
    rw [hclient] at hwhole hback hfinished
    refine ⟨hlength, fun _ hs => ?_, fun _ => hback nofun, nofun, hfinished⟩
    rw [← hwhole nofun hs]
    simp [Client.rest, Client.got]
  | written hclient =>
    rw [hclient] at hwhole hback hfinished
    exact ⟨hlength, fun _ hs => hwhole nofun hs, fun _ => hback nofun, nofun, hfinished⟩
  | read hclient hwire =>
    rw [hclient, hwire] at hwhole hback
    rw [hclient] at hfinished
    refine ⟨hlength, fun _ hs => ?_, fun _ => ?_, nofun, hfinished⟩
    · rw [← hwhole nofun hs]
      simp [Client.rest, Client.got]
    · have hgot := hback nofun
      rwa [Client.got, List.append_cons] at hgot
  | reply hclient hlen =>
    rw [hclient] at hwhole hback
    refine ⟨hlength, fun _ hs => hwhole nofun hs, fun _ => hback nofun, fun reply heq => ?_, fun _ => rfl⟩
    cases heq
    exact hlen.trans hlength
  | take hsession hpos hle =>
    rw [hsession] at hwhole
    refine ⟨hlength, fun hc _ => ?_, hback, hreplied, nofun⟩
    rw [← hwhole hc nofun]
    simp [Session.held]
  | eof hsession hclosed =>
    rw [hsession] at hwhole
    exact ⟨hlength, fun hc _ => hwhole hc nofun, hback, hreplied, fun _ => hclosed⟩
  | @echo c rest hsession hroom =>
    rw [hsession] at hwhole
    have hmoved : s.client ≠ .threw →
        s.client.got ++ (s.toClient ++ [c]) ++ rest ++ s.toServer ++ s.client.rest = sent := fun hc => by
      rw [← hwhole hc nofun]
      simp [Session.held]
    refine ⟨hlength, fun hc _ => hmoved hc, fun hc => ?_, hreplied, nofun⟩
    have hwhole := hmoved hc
    rw [List.append_assoc _ s.toServer, List.append_assoc _ rest] at hwhole
    exact ⟨_, hwhole⟩
  | echoed hsession =>
    rw [hsession] at hwhole
    exact ⟨hlength, fun hc _ => hwhole hc nofun, hback, hreplied, nofun⟩
  | clientError hopen =>
    exact ⟨hlength, fun hc => absurd rfl hc, fun hc => absurd rfl hc, nofun, fun _ => rfl⟩
  | sessionError => exact ⟨hlength, fun _ hs => absurd rfl hs, hback, hreplied, nofun⟩

theorem inv_of_reachable (h : (system out back text).Reachable s) : Inv (request text) s := by
  refine h.invariant (I := Inv (request text)) ?_ fun s a t hs hstep => inv_step hs (moves_of_step hstep)
  rintro s rfl
  exact inv_initial

/-! ### How long it can take -/

def Client.phase : Client → Nat
  | writing _ => 2
  | reading _ => 1
  | _ => 0

def Session.phase : Session → Nat
  | writing _ => 2
  | reading => 1
  | _ => 0

def work (s : State) : Nat :=
  5 * s.client.rest.length + 4 * s.toServer.length + 2 * s.session.held.length + s.toClient.length + s.client.phase +
    s.session.phase

theorem work_lt (h : Moves out back s a t) : work t < work s := by
  cases h with
  | write hclient =>
    simp only [work, hclient, Client.rest, Client.phase, List.length_append, List.length_cons, List.length_nil]
    omega
  | written hclient =>
    simp only [work, hclient, Client.rest, Client.phase]
    omega
  | read hclient hwire =>
    simp only [work, hclient, hwire, Client.rest, Client.phase, List.length_cons]
    omega
  | reply hclient =>
    simp only [work, hclient, Client.rest, Client.phase]
    omega
  | take hsession hpos hle =>
    simp only [work, hsession, Session.held, Session.phase, List.length_take, List.length_drop, List.length_nil]
    omega
  | eof hsession =>
    simp only [work, hsession, Session.held, Session.phase]
    omega
  | echo hsession =>
    simp only [work, hsession, Session.held, Session.phase, List.length_append, List.length_cons, List.length_nil]
    omega
  | echoed hsession =>
    simp only [work, hsession, Session.held, Session.phase]
    omega
  | clientError hopen =>
    have hphase : 0 < s.client.phase := by
      cases hclient : s.client with
      | writing => exact Nat.zero_lt_two
      | reading => exact Nat.zero_lt_one
      | replied => cases hclient ▸ hopen
      | threw => cases hclient ▸ hopen
    have hrest : (Client.threw).rest = [] := rfl
    have hnone : (Client.threw).phase = 0 := rfl
    simp only [work, hrest, hnone, List.length_nil]
    omega
  | sessionError hfinished hthrew =>
    have hphase : 0 < s.session.phase := by
      cases hsession : s.session with
      | writing => exact Nat.zero_lt_two
      | reading => exact Nat.zero_lt_one
      | finished => exact absurd hsession hfinished
      | threw => exact absurd hsession hthrew
    have hheld : (Session.threw).held = [] := rfl
    have hnone : (Session.threw).phase = 0 := rfl
    simp only [work, hheld, hnone, List.length_nil]
    omega

theorem length_request_lt (text : Str) : (request text).length < maxLength := by
  have hcut := (List.takeWhile_prefix (· != '\x00') (l := (text.takeWhile (· != '\n')).take (maxLength - 1))).length_le
  have htake := List.length_take_le (maxLength - 1) (text.takeWhile (· != '\n'))
  have hmax : maxLength = 1024 := rfl
  rw [request, Str.cStr]
  omega

/-- Whatever happens, errors of the stream among it, a reply is the request and fits into its buffer, and it is over
    after a few steps for each byte. -/
theorem reply_is_request {l : List (State × Act)} (hl : (system out back text).Trace (initial (request text)) l t) :
    l.length ≤ 5 * (request text).length + 3 ∧
      ∀ reply, t.client = .replied reply → reply = request text ∧ reply.length < maxLength := by
  constructor
  · have hlength := hl.length_le (I := fun _ => True) work (fun _ _ _ _ hs => ⟨trivial, work_lt (moves_of_step hs)⟩)
      trivial
    have hwork : work (initial (request text)) = 5 * (request text).length + 3 := rfl
    omega
  · intro reply hreply
    have hinv := inv_of_reachable (.of_trace rfl hl)
    have hprefix := hinv.back (by rw [hreply]; exact nofun)
    rw [hreply] at hprefix
    have heq := ((List.prefix_append reply _).trans hprefix).eq_of_length (hinv.replied reply hreply)
    exact ⟨heq, heq ▸ length_request_lt text⟩

theorem reply_is_request_a : ∃ l t, (system 1 1 ['a']).Trace (initial (request ['a'])) l t ∧ t.client = .replied ['a'] ∧
    l.length ≤ 5 * (request ['a']).length + 3 ∧
      ∀ reply, t.client = .replied reply → reply = request ['a'] ∧ reply.length < maxLength := by
  have htake := ((System.Trace.nil (M := system 1 1 ['a']) (s := initial (request ['a']))).snoc (a := .clientWrite)
    rfl).snoc (a := .sessionRead 1) rfl
  have hreply := (((htake.snoc (a := .sessionWrite) rfl).snoc (a := .clientWrite) rfl).snoc (a := .clientRead)
    rfl).snoc (a := .clientRead) rfl
  exact ⟨_, _, hreply, rfl, reply_is_request hreply⟩

/-! ### Whether it gets there -/

/-- No operation can go on, unless with an error. -/
def Stuck (out back : Nat) (s : State) : Prop := ∀ a : Act, a.Ok → s.step out back a = none

structure Healthy (sent : Str) (s : State) : Prop extends Inv sent s where
  client : s.client ≠ .threw
  session : s.session ≠ .threw

theorem healthy_step (ha : a.Ok) (h : Healthy sent s) (hm : Moves out back s a t) : Healthy sent t := by
  refine ⟨inv_step h.toInv hm, ?_, ?_⟩
  all_goals
    cases hm with
    | clientError => exact ha.elim
    | sessionError => exact ha.elim
    | _ => first | exact h.client | exact h.session | exact nofun

theorem Healthy.bytes (h : Healthy sent s) : s.client.got.length + s.toClient.length + s.session.held.length +
    s.toServer.length + s.client.rest.length = sent.length := by
  rw [← h.whole h.client h.session]
  simp only [List.length_append]

theorem take_one (hsession : s.session = .reading) (hserver : s.toServer ≠ []) :
    s.step out back (.sessionRead 1) ≠ none := by
  have hpos := List.length_pos_of_ne_nil hserver
  rw [step, sessionRead, if_pos hsession, if_neg hserver, if_pos ⟨Nat.one_pos, by decide, hpos⟩]
  exact nofun

/-- The session of an exchange that is stuck holds a byte for which there is no room, or has nothing to read. -/
theorem session_of_stuck (h : Stuck out back s) (hthrew : s.session ≠ .threw) :
    (s.session = .reading ∧ s.toServer = [] ∧ s.client.closed = false) ∨
      (s.session.held ≠ [] ∧ back ≤ s.toClient.length) ∨ s.session = .finished := by
  cases hsession : s.session with
  | threw => exact absurd hsession hthrew
  | finished => exact .inr (.inr rfl)
  | reading =>
    by_cases hserver : s.toServer = []
    · refine .inl ⟨rfl, hserver, ?_⟩
      have heof := h (.sessionRead 1) trivial
      rw [step, sessionRead, if_pos hsession, if_pos hserver] at heof
      split_ifs at heof with hclosed
      exact Bool.eq_false_iff.mpr hclosed
    · exact absurd (h (.sessionRead 1) trivial) (take_one hsession hserver)
  | writing rest =>
    have hwrite := h .sessionWrite trivial
    rw [step, sessionWrite, hsession] at hwrite
    cases rest with
    | nil => cases hwrite
    | cons c rest =>
      simp only [ite_eq_right_iff, reduceCtorEq, imp_false, Nat.not_lt] at hwrite
      exact .inr (.inl ⟨List.cons_ne_nil c rest, hwrite⟩)

theorem completes_of_le (hout : 0 < out) (hback : 0 < back) (h : Healthy sent s) (hstuck : Stuck out back s)
    (hlen : sent.length ≤ out + back + 1) : s.client = .replied sent ∧ s.session = .finished := by
  have hbytes := h.bytes
  have hsession := session_of_stuck hstuck h.session
  cases hclient : s.client with
  | threw => exact absurd hclient h.client
  | writing rest =>
    have hwrite := hstuck .clientWrite trivial
    rw [step, clientWrite, hclient] at hwrite
    cases rest with
    | nil => cases hwrite
    | cons c rest =>
      simp only [ite_eq_right_iff, reduceCtorEq, imp_false, Nat.not_lt] at hwrite
      rw [hclient] at hbytes
      simp only [Client.rest, List.length_cons] at hbytes
      rcases hsession with ⟨-, hnil, -⟩ | ⟨hheld, hfull⟩ | hfinished
      · rw [hnil, List.length_nil] at hwrite
        omega
      · have hpos := List.length_pos_of_ne_nil hheld
        omega
      · cases hclient ▸ h.finished hfinished
  | reading got =>
    have hread := hstuck .clientRead trivial
    rw [step, clientRead, hclient] at hread
    simp only at hread
    split_ifs at hread with hall
    have hwire : s.toClient = [] := by
      cases hwire : s.toClient with
      | nil => rfl
      | cons => simp [hwire] at hread
    rw [hclient, hwire] at hbytes
    rw [h.length] at hall
    simp only [Client.got, Client.rest, List.length_nil] at hbytes
    rcases hsession with ⟨hreading, hnil, -⟩ | ⟨-, hfull⟩ | hfinished
    · rw [hreading, hnil] at hbytes
      simp only [Session.held, List.length_nil] at hbytes
      omega
    · rw [hwire, List.length_nil] at hfull
      omega
    · cases hclient ▸ h.finished hfinished
  | replied reply =>
    have hreply := h.replied reply hclient
    have hprefix := h.back h.client
    rw [hclient] at hbytes hprefix
    simp only [Client.got] at hbytes hprefix
    have heq := ((List.prefix_append reply _).trans hprefix).eq_of_length hreply
    refine ⟨by rw [heq], ?_⟩
    rcases hsession with ⟨-, -, hopen⟩ | ⟨hheld, -⟩ | hfinished
    · cases hclient ▸ hopen
    · have hpos := List.length_pos_of_ne_nil hheld
      omega
    · exact hfinished

/-! ### How the two can wait for each other -/

section
variable {n : Nat} {rest p q : Str} {c : Char}

/-- One byte goes all the way to where the client will find it. -/
theorem leads_byte (hout : 0 < out) (hroom : p.length < back) :
    (system out back text).Leads Act.Ok ⟨n, .writing (c :: rest), [], .reading, p⟩
      ⟨n, .writing rest, [], .reading, p ++ [c]⟩ := by
  have hwrite : (system out back text).Leads Act.Ok ⟨n, .writing (c :: rest), [], .reading, p⟩
      ⟨n, .writing rest, [c], .reading, p⟩ :=
    .snoc .refl (a := Act.clientWrite) trivial (if_pos hout)
  have hread := hwrite.snoc (a := Act.sessionRead 1) trivial rfl
  have hecho := hread.snoc (a := Act.sessionWrite) trivial (if_pos hroom)
  exact hecho.snoc (a := Act.sessionWrite) trivial rfl

theorem leads_bytes (hout : 0 < out) (hroom : p.length + q.length ≤ back) :
    (system out back text).Leads Act.Ok ⟨n, .writing (q ++ rest), [], .reading, p⟩
      ⟨n, .writing rest, [], .reading, p ++ q⟩ := by
  induction q generalizing p with
  | nil =>
    rw [List.append_nil]
    exact .refl
  | cons d q ih =>
    rw [List.length_cons] at hroom
    rw [List.append_cons p d q]
    exact (leads_byte hout (by omega)).trans (ih (by rw [List.length_append, List.length_singleton]; omega))

/-- The client writes while the session waits for room. -/
theorem leads_fill {w : Str} {session : Session} (hroom : p.length + q.length ≤ out) :
    (system out back text).Leads Act.Ok ⟨n, .writing (q ++ rest), p, session, w⟩
      ⟨n, .writing rest, p ++ q, session, w⟩ := by
  induction q generalizing p with
  | nil =>
    rw [List.append_nil]
    exact .refl
  | cons d q ih =>
    rw [List.length_cons] at hroom
    rw [List.append_cons p d q]
    have hwrite : (system out back text).Leads Act.Ok ⟨n, .writing (d :: (q ++ rest)), p, session, w⟩
        ⟨n, .writing (q ++ rest), p ++ [d], session, w⟩ :=
      .snoc .refl (a := Act.clientWrite) trivial (if_pos (show p.length < out by omega))
    exact hwrite.trans (ih (by rw [List.length_append, List.length_singleton]; omega))

end

theorem exists_cons_of_length {l : Str} {n : Nat} (h : n < l.length) :
    ∃ front c rest, l = front ++ c :: rest ∧ front.length = n := by
  refine ⟨l.take n, l[n], l.drop (n + 1), ?_, List.length_take_of_le (Nat.le_of_lt h)⟩
  rw [← List.drop_eq_getElem_cons h, List.take_append_drop]

/-- Both directions are full, the session holds a byte, and the client has another one. -/
theorem exists_stuck (hout : 0 < out) (hlen : out + back + 1 < (request text).length) :
    ∃ t rest, (system out back text).Leads Act.Ok (initial (request text)) t ∧ Stuck out back t ∧
      t.client = .writing rest := by
  obtain ⟨p, c, more, hsent, hp⟩ := exists_cons_of_length (n := back) (l := request text) (by omega)
  rw [hsent, List.length_append, List.length_cons] at hlen
  obtain ⟨q, d, rest, rfl, hq⟩ := exists_cons_of_length (n := out) (l := more) (by omega)
  have hback : (system out back text).Leads Act.Ok (initial (request text))
      ⟨(request text).length, .writing (c :: (q ++ d :: rest)), [], .reading, p⟩ := by
    have h : (system out back text).Leads Act.Ok
        ⟨(request text).length, .writing (p ++ c :: (q ++ d :: rest)), [], .reading, []⟩
        ⟨(request text).length, .writing (c :: (q ++ d :: rest)), [], .reading, p⟩ :=
      leads_bytes hout (show 0 + p.length ≤ back by omega)
    rwa [← hsent] at h
  have hwrite := hback.snoc (a := Act.clientWrite) trivial (if_pos hout)
  have hread := hwrite.snoc (a := Act.sessionRead 1) trivial rfl
  have hfull := hread.trans (leads_fill (show 0 + q.length ≤ out by omega))
  refine ⟨_, d :: rest, hfull, fun a ha => ?_, rfl⟩
  cases a with
  | clientWrite => exact if_neg (show ¬q.length < out by omega)
  | clientRead => rfl
  | sessionRead k => rfl
  | sessionWrite => exact if_neg (show ¬p.length < back by omega)
  | clientError => exact ha.elim
  | sessionError => exact ha.elim

/-- Every run without errors that cannot go on is one in which the client has got its request back and the session
    has seen the end of the stream, if and only if the request is at most one byte longer than what the stream holds
    in both directions together. -/
theorem exchange_completes_iff (hout : 0 < out) (hback : 0 < back) (text : Str) :
    (∀ t, (system out back text).Leads Act.Ok (initial (request text)) t → Stuck out back t →
      t.client = .replied (request text) ∧ t.session = .finished) ↔ (request text).length ≤ out + back + 1 := by
  constructor
  · intro h
    by_contra hlen
    obtain ⟨t, rest, hleads, hstuck, hclient⟩ := exists_stuck hout (Nat.lt_of_not_le hlen)
    cases hclient.symm.trans (h t hleads hstuck).1
  · rintro hlen t ⟨l, hl, hok⟩ hstuck
    have hhealthy := hl.always (I := Healthy (request text)) (A := Act.Ok)
      (fun s a t ha hs hstep => healthy_step ha hs (moves_of_step hstep)) ⟨inv_initial, nofun, nofun⟩ hok
    exact completes_of_le hout hback hhealthy.2 hstuck hlen

theorem exchange_completes_iff_four :
    ¬∀ t, (system 1 1 "four\n".toList).Leads Act.Ok (initial (request "four\n".toList)) t → Stuck 1 1 t →
      t.client = .replied (request "four\n".toList) ∧ t.session = .finished := fun h =>
  absurd ((exchange_completes_iff Nat.one_pos Nat.one_pos _).mp h) (by decide)

end ServiceBridge.Echo
