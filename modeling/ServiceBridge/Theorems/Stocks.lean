import Mathlib.Algebra.Order.BigOperators.Group.Finset
import ServiceBridge.Library.Tally
import ServiceBridge.Stocks
import ServiceBridge.Theorems.Framing

/-! What the clients of the stock server print, and that they get there. -/

namespace ServiceBridge.Stocks
open Framing

variable {ι ε T : Type} {A : Archives T} {stocks : T} {endpoints : List ε} {c d : Client ε T} {i : ι}

/-! ### The stream of a client -/

theorem read_of_step {s t : Link T} {a : Framing.Act T} (h : s.step A a = some t) :
    ∃ result : Option (Result T), t.read = s.read ++ result.toList := by
  cases a with
  | write m =>
    rw [Link.step, Option.ite_none_right_eq_some, Option.some.injEq] at h
    obtain ⟨-, rfl⟩ := h
    refine ⟨none, ?_⟩
    rw [Link.write]
    split <;> exact (List.append_nil _).symm
  | send =>
    rw [Link.step] at h
    split at h
    · cases h
    · cases h
      exact ⟨none, (List.append_nil _).symm⟩
  | arrive =>
    rw [Link.step] at h
    split at h
    · cases h
    · next b wire _ =>
      rw [Option.ite_none_right_eq_some, Option.some.injEq] at h
      obtain ⟨-, rfl⟩ := h
      rw [Link.take]
      split
      · exact ⟨none, (List.append_nil _).symm⟩
      · next result _ _ => exact ⟨result, rfl⟩
  | lose code =>
    rw [Link.step, Option.ite_none_right_eq_some, Option.some.injEq] at h
    obtain ⟨-, rfl⟩ := h
    exact ⟨some (.error (.other code)), rfl⟩

/-- Only a write adds to what was written. -/
theorem written_of_step {s t : Link T} {a : Framing.Act T} (ha : ∀ m, a ≠ .write m) (h : s.step A a = some t) :
    t.written = s.written ∧ (s.unsent = [] → t.unsent = []) := by
  cases a with
  | write m => exact absurd rfl (ha m)
  | send =>
    rw [Link.step] at h
    split at h
    · cases h
    · next hunsent =>
      cases h
      exact ⟨rfl, fun hnil => absurd (hunsent.symm.trans hnil) (List.cons_ne_nil _ _)⟩
  | arrive =>
    rw [Link.step] at h
    split at h
    · cases h
    · rw [Option.ite_none_right_eq_some, Option.some.injEq] at h
      obtain ⟨-, rfl⟩ := h
      rw [Link.take]
      split <;> exact ⟨rfl, id⟩
  | lose code =>
    rw [Link.step, Option.ite_none_right_eq_some, Option.some.injEq] at h
    obtain ⟨-, rfl⟩ := h
    exact ⟨rfl, id⟩

theorem reachable_step {s t : Link T} {a : Framing.Act T} (h : (Link.system A).Reachable s)
    (hs : s.step A a = some t) : (Link.system A).Reachable t := h.step (a := a) hs

/-! ### One client -/

/-- What the read of a client has come to. -/
inductive Reads : Phase ε T → List (Result T) → Prop
  | reading : Reads .reading []
  | printed {t : T} : Reads (.printed t) [.ok t]
  | failed {ec : ErrorCode} : Reads (.failed ec) [.error ec]

/-- What a client gets while it reads. -/
def Incoming (a : Framing.Act T) : Prop := a = .arrive ∨ ∃ code, a = .lose code

theorem Incoming.ne_write {a : Framing.Act T} (h : Incoming a) (m : T) : a ≠ .write m := by
  rcases h with rfl | ⟨code, rfl⟩
  · nofun
  · nofun

/-- What can happen to a client and its connection. -/
inductive ClientMoves (A : Archives T) (stocks : T) (c : Client ε T) : Client ε T → Prop
  | connect {endpoint : ε} {rest : List ε} {e : Option ErrorCode} (hphase : c.phase = .connecting endpoint rest) :
      ClientMoves A stocks c (c.handleConnect endpoint rest e)
  | accept {link : Link T} (hconnected : c.connected = true) (hnew : c.accepted = false)
      (hlink : c.link.step A (.write stocks) = some link) :
      ClientMoves A stocks c { c with accepted := true, link := link }
  | send {link : Link T} (hlink : c.link.step A .send = some link) : ClientMoves A stocks c { c with link := link }
  | receive {a : Framing.Act T} {link : Link T} {phase : Phase ε T} (hphase : c.phase = .reading)
      (ha : Incoming a) (hlink : c.link.step A a = some link) (hreads : c.link.read = [] → Reads phase link.read) :
      ClientMoves A stocks c { c with link := link, phase := phase }

theorem moves_of_receives {a : Framing.Act T} (ha : Incoming a) (h : c.receives A a = some d) :
    ClientMoves A stocks c d := by
  rw [Client.receives] at h
  split at h
  · next hphase =>
    simp only [Option.bind_eq_bind, Option.bind_eq_some_iff] at h
    obtain ⟨link, hlink, h⟩ := h
    have hreads : c.link.read = [] → link.read.length ≤ 1 := by
      intro hnil
      obtain ⟨result, hread⟩ := read_of_step hlink
      rw [hread, hnil, List.nil_append]
      cases result <;> simp
    split at h
    · next hread =>
      cases h
      have hmoves : ClientMoves A stocks c { c with link := link, phase := .reading } := by
        refine .receive hphase ha hlink fun _ => ?_
        rw [hread]
        exact .reading
      rwa [← hphase] at hmoves
    · next result rest hread =>
      cases h
      rw [hread, List.length_cons] at hreads
      have hrest : c.link.read = [] → rest = [] := fun hnil => List.length_eq_zero_iff.mp (by
        have := hreads hnil
        omega)
      cases result with
      | ok t => exact .receive hphase ha hlink fun hnil => by rw [hread, hrest hnil]; exact .printed
      | error ec => exact .receive hphase ha hlink fun hnil => by rw [hread, hrest hnil]; exact .failed
  · cases h

/-- How far a client has got: it has tried the endpoints in their order, and reads where it could connect. -/
inductive Progress (endpoints : List ε) (c : Client ε T) : Prop
  | connecting {endpoint : ε} {rest : List ε} (hphase : c.phase = .connecting endpoint rest)
      (htried : c.tried.map Prod.fst ++ endpoint :: rest = endpoints) (hno : c.connected = false)
  | refused {endpoint : ε} {ec : ErrorCode} {front : List (ε × ErrorCode)} (hphase : c.phase = .failed ec)
      (htried : c.tried = front ++ [(endpoint, ec)]) (hall : c.tried.map Prod.fst = endpoints)
      (hno : c.connected = false)
  | connected {endpoint : ε} {rest : List ε} (htried : c.tried.map Prod.fst ++ endpoint :: rest = endpoints)
      (hconnected : c.connected = true) (hreads : Reads c.phase c.link.read)

structure Known (A : Archives T) (stocks : T) (endpoints : List ε) (c : Client ε T) : Prop where
  progress : Progress endpoints c
  reachable : (Link.system A).Reachable c.link
  idle : c.accepted = false → c.link.written = [] ∧ c.link.unsent = []
  fresh : c.connected = false → c.accepted = false ∧ c.link.read = []
  sent : c.accepted = true → Fits A stocks ∧ c.link.written = [stocks] ∨ ¬Fits A stocks ∧ c.link.written = []

theorem Reads.read_nil (h : Reads (.reading : Phase ε T) c.link.read) : c.link.read = [] := by
  generalize c.link.read = read at h
  cases h
  rfl

namespace Known

theorem new (A : Archives T) (stocks : T) (endpoint : ε) (rest : List ε) :
    Known A stocks (endpoint :: rest) (.new endpoint rest) where
  progress := .connecting rfl rfl rfl
  reachable := .of_init rfl
  idle := fun _ => ⟨rfl, rfl⟩
  fresh := fun _ => ⟨rfl, rfl⟩
  sent := nofun

theorem connect (h : Known A stocks endpoints c) {endpoint : ε} {rest : List ε}
    (hphase : c.phase = .connecting endpoint rest) (e : Option ErrorCode) :
    Known A stocks endpoints (c.handleConnect endpoint rest e) := by
  cases h.progress with
  | connecting hphase' htried hno =>
    cases hphase.symm.trans hphase'
    cases e with
    | none =>
      refine ⟨.connected htried rfl ?_, h.reachable, h.idle, nofun, h.sent⟩
      show Reads .reading c.link.read
      rw [(h.fresh hno).2]
      exact .reading
    | some ec =>
      cases rest with
      | nil =>
        refine ⟨.refused rfl rfl ?_ hno, h.reachable, h.idle, h.fresh, h.sent⟩
        show (c.tried ++ [(endpoint, ec)]).map Prod.fst = endpoints
        rw [List.map_append]
        exact htried
      | cons next rest =>
        refine ⟨.connecting rfl ?_ hno, h.reachable, h.idle, h.fresh, h.sent⟩
        show (c.tried ++ [(endpoint, ec)]).map Prod.fst ++ next :: rest = endpoints
        rw [List.map_append, List.append_assoc]
        exact htried
  | refused hphase' => cases hphase.symm.trans hphase'
  | connected _ _ hreads =>
    rw [hphase] at hreads
    cases hreads

theorem accept (h : Known A stocks endpoints c) (hconnected : c.connected = true) (hnew : c.accepted = false)
    {link : Link T} (hlink : c.link.step A (.write stocks) = some link) :
    Known A stocks endpoints { c with accepted := true, link := link } := by
  have hreachable := reachable_step h.reachable hlink
  obtain ⟨hwritten, hunsent⟩ := h.idle hnew
  rw [Link.step, if_pos hunsent, Option.some.injEq] at hlink
  subst hlink
  have hread : (c.link.write A stocks).read = c.link.read := by
    rw [Link.write]
    split <;> rfl
  refine ⟨?_, hreachable, (fun hnew => by cases hnew), fun hno => ?_, fun _ => ?_⟩
  · cases h.progress with
    | connecting _ _ hno => cases hconnected.symm.trans hno
    | refused _ _ _ hno => cases hconnected.symm.trans hno
    | connected htried _ hreads => exact .connected htried hconnected (hread.symm ▸ hreads)
  · cases hconnected.symm.trans hno
  · by_cases hfits : Fits A stocks
    · refine .inl ⟨hfits, ?_⟩
      simp only [Link.write, outbound_of_fits hfits, hwritten, List.nil_append]
    · refine .inr ⟨hfits, ?_⟩
      simp only [Link.write, outbound_of_not_fits hfits, hwritten]

theorem step (h : Known A stocks endpoints c) (hm : ClientMoves A stocks c d) : Known A stocks endpoints d := by
  cases hm with
  | connect hphase => exact h.connect hphase _
  | accept hconnected hnew hlink => exact h.accept hconnected hnew hlink
  | @send link hlink =>
    have hreachable := reachable_step h.reachable hlink
    obtain ⟨hwritten, hunsent⟩ := written_of_step (fun m heq => by cases heq) hlink
    have hread : link.read = c.link.read := by
      rw [Link.step] at hlink
      split at hlink
      · cases hlink
      · cases hlink
        rfl
    refine ⟨?_, hreachable, fun hnew => ?_, fun hno => ?_, fun haccepted => ?_⟩
    · cases h.progress with
      | connecting hphase htried hno => exact .connecting hphase htried hno
      | refused hphase htried hall hno => exact .refused hphase htried hall hno
      | connected htried hconnected hreads => exact .connected htried hconnected (hread.symm ▸ hreads)
    · exact ⟨hwritten.trans (h.idle hnew).1, hunsent (h.idle hnew).2⟩
    · exact ⟨(h.fresh hno).1, hread.trans (h.fresh hno).2⟩
    · rw [hwritten]
      exact h.sent haccepted
  | @receive a link phase hphase ha hlink hreads =>
    have hreachable := reachable_step h.reachable hlink
    obtain ⟨hwritten, hunsent⟩ := written_of_step ha.ne_write hlink
    cases h.progress with
    | connecting hphase' => cases hphase.symm.trans hphase'
    | refused hphase' => cases hphase.symm.trans hphase'
    | connected htried hconnected hreads' =>
      rw [hphase] at hreads'
      refine ⟨.connected htried hconnected (hreads hreads'.read_nil), hreachable, fun hnew => ?_, fun hno => ?_,
        fun haccepted => ?_⟩
      · exact ⟨hwritten.trans (h.idle hnew).1, hunsent (h.idle hnew).2⟩
      · cases hconnected.symm.trans hno
      · rw [hwritten]
        exact h.sent haccepted

end Known

/-! ### All clients -/

section
variable [DecidableEq ι] {s t : State ι ε T} {a : Act ι} {offered : ι → List ε}

/-- The steps: of one client, or the last of `handle_accept`. -/
inductive Moves (A : Archives T) (stocks : T) (s : State ι ε T) : State ι ε T → Prop
  | client {i : ι} {c : Client ε T} (hc : ClientMoves A stocks (s.client i) c) : Moves A stocks s (s.put i c)
  | closed (haccepting : s.accepting = true) : Moves A stocks s { s with accepting := false }

theorem moves_of_step (hs : s.step A stocks a = some t) : Moves A stocks s t := by
  cases a with
  | connect i e =>
    rw [State.step] at hs
    split at hs
    · next hphase =>
      cases hs
      exact .client (.connect hphase)
    · cases hs
  | accept i =>
    simp only [State.step, Option.ite_none_right_eq_some, Option.bind_eq_bind, Option.bind_eq_some_iff,
      Option.some.injEq, Bool.not_eq_true'] at hs
    obtain ⟨⟨-, hconnected, hnew⟩, link, hlink, rfl⟩ := hs
    exact .client (.accept hconnected hnew hlink)
  | acceptError =>
    rw [State.step, Option.ite_none_right_eq_some, Option.some.injEq] at hs
    obtain ⟨haccepting, rfl⟩ := hs
    exact .closed haccepting
  | send i =>
    simp only [State.step, Option.bind_eq_bind, Option.bind_eq_some_iff, Option.some.injEq] at hs
    obtain ⟨link, hlink, rfl⟩ := hs
    exact .client (.send hlink)
  | arrive i =>
    simp only [State.step, Option.bind_eq_bind, Option.bind_eq_some_iff, Option.some.injEq] at hs
    obtain ⟨c, hc, rfl⟩ := hs
    exact .client (moves_of_receives (.inl rfl) hc)
  | lose i code =>
    simp only [State.step, Option.bind_eq_bind, Option.bind_eq_some_iff, Option.some.injEq] at hs
    obtain ⟨c, hc, rfl⟩ := hs
    exact .client (moves_of_receives (.inr ⟨code, rfl⟩) hc)

theorem forall_put {P : ι → Client ε T → Prop} (hall : ∀ j, P j (s.client j)) (hc : P i c) :
    ∀ j, P j ((s.put i c).client j) := by
  intro j
  show P j (Function.update s.client i c j)
  rcases eq_or_ne j i with rfl | hne
  · rwa [Function.update_self]
  · rw [Function.update_of_ne hne]
    exact hall j

theorem known_step (hall : ∀ i, Known A stocks (offered i) (s.client i)) (hm : Moves A stocks s t) :
    ∀ i, Known A stocks (offered i) (t.client i) := by
  cases hm with
  | client hc => exact forall_put (P := fun i c => Known A stocks (offered i) c) hall ((hall _).step hc)
  | closed => exact hall

theorem known_of_reachable (h : (system A stocks offered).Reachable s) (i : ι) :
    Known A stocks (offered i) (s.client i) := by
  refine h.invariant (I := fun s => ∀ i, Known A stocks (offered i) (s.client i)) ?_
    (fun _ _ _ hall hstep => known_step hall (moves_of_step hstep)) i
  rintro s ⟨-, hnew⟩ i
  obtain ⟨endpoint, rest, heq, hc⟩ := hnew i
  rw [heq, hc]
  exact .new A stocks endpoint rest

end

/-! ### What a client prints -/

/-- What a client has come to, by the endpoints that it has tried, the bytes that have come and how the stream was
    lost: it reads at the first endpoint that lets it connect, and prints when the whole message has come. -/
inductive Fate (A : Archives T) (stocks : T) (endpoints : List ε) :
    List (ε × ErrorCode) → Str → Option ErrorCode → Phase ε T → Prop
  | connecting {tried : List (ε × ErrorCode)} {endpoint : ε} {rest : List ε}
      (htried : tried.map Prod.fst ++ endpoint :: rest = endpoints) :
      Fate A stocks endpoints tried [] none (.connecting endpoint rest)
  | refused {front : List (ε × ErrorCode)} {endpoint : ε} {ec : ErrorCode}
      (hall : (front ++ [(endpoint, ec)]).map Prod.fst = endpoints) :
      Fate A stocks endpoints (front ++ [(endpoint, ec)]) [] none (.failed ec)
  | reading {tried : List (ε × ErrorCode)} {endpoint : ε} {rest : List ε} {arrived : Str}
      (htried : tried.map Prod.fst ++ endpoint :: rest = endpoints) (hpart : arrived <+: frame A stocks)
      (hless : arrived ≠ frame A stocks) : Fate A stocks endpoints tried arrived none .reading
  | lost {tried : List (ε × ErrorCode)} {endpoint : ε} {rest : List ε} {arrived : Str} {ec : ErrorCode}
      (htried : tried.map Prod.fst ++ endpoint :: rest = endpoints) (hpart : arrived <+: frame A stocks)
      (hless : arrived ≠ frame A stocks) : Fate A stocks endpoints tried arrived (some ec) (.failed ec)
  | printed {tried : List (ε × ErrorCode)} {endpoint : ε} {rest : List ε}
      (htried : tried.map Prod.fst ++ endpoint :: rest = endpoints) (hfits : Fits A stocks) :
      Fate A stocks endpoints tried (frame A stocks) none (.printed stocks)

/-- As long as the stream is not lost. -/
theorem Fate.cases_of_whole_stream {tried : List (ε × ErrorCode)} {arrived : Str} {phase : Phase ε T}
    (h : Fate A stocks endpoints tried arrived none phase) :
    (∃ endpoint rest, phase = .connecting endpoint rest) ∨ (phase = .reading ∧ arrived ≠ frame A stocks) ∨
      phase = .printed stocks ∨ (tried.map Prod.fst = endpoints ∧ ∃ ec, phase = .failed ec) := by
  cases h with
  | connecting => exact .inl ⟨_, _, rfl⟩
  | refused hall => exact .inr (.inr (.inr ⟨hall, _, rfl⟩))
  | reading _ _ hless => exact .inr (.inl ⟨rfl, hless⟩)
  | printed => exact .inr (.inr (.inl rfl))

theorem Known.written (h : Known A stocks endpoints c) :
    Fits A stocks ∧ c.link.written = [stocks] ∨ c.link.written = [] := by
  cases haccepted : c.accepted with
  | false => exact .inr (h.idle haccepted).1
  | true => exact (h.sent haccepted).imp_right And.right

theorem frame_ne_nil (hne : ∀ t, A.save t ≠ []) (t : T) : frame A t ≠ [] :=
  List.append_ne_nil_of_right_ne_nil _ (hne t)

section
variable (hload : ∀ t, A.load (A.save t) = some t) (hne : ∀ t, A.save t ≠ [])
include hload hne

/-- Nothing comes before the server has accepted. -/
theorem Known.empty (h : Known A stocks endpoints c) (hnew : c.accepted = false) :
    c.link.arrived = [] ∧ c.link.wire = [] := by
  have hstream := (Intact.of_reachable hload hne h.reachable).stream
  rw [(h.idle hnew).1, List.flatMap_nil, eq_comm, List.append_eq_nil_iff, List.append_eq_nil_iff] at hstream
  exact hstream.1

/-- A client has read the stocks if the whole message has come, and else nothing. -/
theorem Known.part (h : Known A stocks endpoints c) :
    ∃ front, c.link.read = front.map .ok ++ c.link.lost.toList.map .error ∧
      (front = [] ∧ c.link.arrived <+: frame A stocks ∧ c.link.arrived ≠ frame A stocks ∨
        front = [stocks] ∧ Fits A stocks ∧ c.link.arrived = frame A stocks) := by
  obtain ⟨hall, -, hstream, -, results, hresults, hread⟩ := Intact.of_reachable hload hne h.reachable
  rw [List.append_assoc] at hstream
  obtain ⟨front, hfront, rfl, hwhole⟩ := answers_arrived hload hne hall hstream hresults
  refine ⟨front, hread, ?_⟩
  rcases h.written with ⟨hfits, hwritten⟩ | hwritten
  · rw [hwritten, List.flatMap_singleton] at hstream
    have hpart : c.link.arrived <+: frame A stocks := ⟨_, hstream.symm⟩
    have hiff := hwhole [stocks] (hwritten ▸ List.prefix_rfl)
    rw [List.flatMap_singleton] at hiff
    rw [hwritten, List.prefix_cons_iff] at hfront
    rcases hfront with rfl | ⟨rest, rfl, hrest⟩
    · refine .inl ⟨rfl, hpart, fun heq => ?_⟩
      exact List.cons_ne_nil _ _ (List.prefix_nil.mp (hiff.mp (heq ▸ List.prefix_rfl)))
    · obtain rfl := List.prefix_nil.mp hrest
      exact .inr ⟨rfl, hfits, hpart.eq_of_length_le (hiff.mpr List.prefix_rfl).length_le⟩
  · rw [hwritten] at hfront hstream
    obtain rfl := List.prefix_nil.mp hfront
    obtain ⟨hnil, -⟩ := List.append_eq_nil_iff.mp hstream.symm
    exact .inl ⟨rfl, hnil ▸ List.nil_prefix, hnil ▸ (frame_ne_nil hne stocks).symm⟩

theorem fate_of_known (h : Known A stocks endpoints c) :
    Fate A stocks endpoints c.tried c.link.arrived c.link.lost c.phase := by
  obtain ⟨front, hread, hpart⟩ := h.part hload hne
  have hunread : c.link.read = [] → c.link.lost = none := by
    intro hnil
    rw [hread, List.append_eq_nil_iff, List.map_eq_nil_iff, List.map_eq_nil_iff, Option.toList_eq_nil_iff] at hnil
    exact hnil.2
  cases h.progress with
  | connecting hphase htried hno =>
    obtain ⟨hnew, hnil⟩ := h.fresh hno
    rw [hphase, (h.empty hload hne hnew).1, hunread hnil]
    exact .connecting htried
  | refused hphase htried hall hno =>
    obtain ⟨hnew, hnil⟩ := h.fresh hno
    rw [hphase, (h.empty hload hne hnew).1, hunread hnil, htried]
    exact .refused (htried ▸ hall)
  | connected htried _ hreads =>
    rw [hread] at hreads
    generalize c.phase = phase at hreads
    generalize c.link.lost = lost at hreads
    rcases hpart with ⟨rfl, hpart, hless⟩ | ⟨rfl, hfits, hwhole⟩
    · cases lost with
      | none =>
        cases hreads
        exact .reading htried hpart hless
      | some ec =>
        cases hreads
        exact .lost htried hpart hless
    · cases lost with
      | none =>
        cases hreads
        rw [hwhole]
        exact .printed htried hfits
      | some ec => cases hreads

end

/-- In every run a client tries its endpoints in their order, each once, and reads where it can connect first; it
    prints the stocks of the server when the whole message has come, and nothing else, and otherwise reports the
    error of the last endpoint or of its stream. -/
theorem clients_fate [DecidableEq ι] (hload : ∀ t, A.load (A.save t) = some t) (hne : ∀ t, A.save t ≠ [])
    {offered : ι → List ε} (s : State ι ε T) (h : (system A stocks offered).Reachable s) (i : ι) :
    Fate A stocks (offered i) (s.client i).tried (s.client i).link.arrived (s.client i).link.lost (s.client i).phase :=
  fate_of_known hload hne (known_of_reachable h i)

/-- Two clients with two endpoints each. -/
def constructed : State (Fin 2) Nat Bool := ⟨true, fun _ => .new 1 [2]⟩

theorem init_constructed : (system letters true fun _ => [1, 2]).init constructed :=
  ⟨rfl, fun _ => ⟨1, [2], rfl, rfl⟩⟩

theorem clients_fate_second : ∃ s : State (Fin 2) Nat Bool, (system letters true fun _ => [1, 2]).Reachable s ∧
    (s.client 1).tried = [(1, .other 111)] ∧ (s.client 1).phase = .reading ∧ (s.client 1).link.arrived = [' '] ∧
      ∀ i, Fate letters true [1, 2] (s.client i).tried (s.client i).link.arrived (s.client i).link.lost
        (s.client i).phase := by
  have hrefused := (System.Reachable.of_init init_constructed).run [.connect 1 (some (.other 111))] rfl
  have harrive := hrefused.run [.connect 1 none, .accept 1, .send 1, .arrive 1] rfl
  exact ⟨_, harrive, rfl, rfl, rfl, clients_fate (by decide) (by decide) _ harrive⟩

/-! ### Whether it ends -/

def Phase.work : Phase ε T → Nat
  | connecting _ rest => rest.length + 2
  | reading => 1
  | _ => 0

/-- What is left to do for a client: a byte is sent and arrives. -/
def Client.work (A : Archives T) (stocks : T) (c : Client ε T) : Nat :=
  c.phase.work + if c.accepted then 2 * c.link.unsent.length + c.link.wire.length else 2 * (frame A stocks).length + 1

theorem work_handleConnect {endpoint : ε} {rest : List ε} (hphase : c.phase = .connecting endpoint rest)
    (e : Option ErrorCode) : (c.handleConnect endpoint rest e).work A stocks < c.work A stocks := by
  rw [Client.work, Client.work, hphase]
  cases e with
  | none => exact Nat.add_lt_add_right (Nat.succ_lt_succ (Nat.succ_pos _)) _
  | some ec =>
    cases rest with
    | nil => exact Nat.add_lt_add_right Nat.zero_lt_two _
    | cons next rest => exact Nat.add_lt_add_right (Nat.lt_succ_self _) _

theorem Reads.work_le {phase : Phase ε T} {read : List (Result T)} (h : Reads phase read) : phase.work ≤ 1 := by
  cases h <;> simp [Phase.work]

theorem Known.read_nil (h : Known A stocks endpoints c) (hphase : c.phase = .reading) : c.link.read = [] := by
  cases h.progress with
  | connecting hphase' => cases hphase.symm.trans hphase'
  | refused hphase' => cases hphase.symm.trans hphase'
  | connected _ _ hreads => exact (hphase ▸ hreads).read_nil

theorem Known.connected_of_reading (h : Known A stocks endpoints c) (hphase : c.phase = .reading) :
    c.connected = true := by
  cases h.progress with
  | connecting hphase' => cases hphase.symm.trans hphase'
  | refused hphase' => cases hphase.symm.trans hphase'
  | connected _ hconnected => exact hconnected

/-- Whatever happens, less is left to do. -/
theorem Known.work_lt (hload : ∀ t, A.load (A.save t) = some t) (hne : ∀ t, A.save t ≠ [])
    (h : Known A stocks endpoints c) (hm : ClientMoves A stocks c d) : d.work A stocks < c.work A stocks := by
  cases hm with
  | connect hphase => exact work_handleConnect hphase _
  | @accept link hconnected hnew hlink =>
    have hwire := (h.empty hload hne hnew).2
    have hunsent := (h.idle hnew).2
    rw [Link.step, if_pos hunsent, Option.some.injEq] at hlink
    subst hlink
    rw [Client.work, Client.work, hnew, if_pos rfl, if_neg Bool.false_ne_true]
    by_cases hfits : Fits A stocks
    · simp only [Link.write, outbound_of_fits hfits, hwire, List.length_nil]
      omega
    · simp only [Link.write, outbound_of_not_fits hfits, hwire, hunsent, List.length_nil]
      omega
  | @send link hlink =>
    rw [Link.step] at hlink
    split at hlink
    · cases hlink
    · next b unsent hunsent =>
      cases hlink
      cases haccepted : c.accepted with
      | false => cases hunsent.symm.trans (h.idle haccepted).2
      | true =>
        simp only [Client.work, haccepted, if_true, hunsent, List.length_cons, List.length_append, List.length_nil]
        omega
  | @receive a link phase hphase ha hlink hreads =>
    have hnil := h.read_nil hphase
    have hreads := hreads hnil
    rcases ha with rfl | ⟨code, rfl⟩
    · rw [Link.step] at hlink
      split at hlink
      · cases hlink
      · next b wire hwire =>
        rw [Option.ite_none_right_eq_some, Option.some.injEq] at hlink
        obtain ⟨-, rfl⟩ := hlink
        cases haccepted : c.accepted with
        | false => cases hwire.symm.trans (h.empty hload hne haccepted).2
        | true =>
          have hle := hreads.work_le
          have hunsent : (c.link.take A b wire).unsent = c.link.unsent := by
            rw [Link.take]
            split <;> rfl
          have hrest : (c.link.take A b wire).wire = wire := by
            rw [Link.take]
            split <;> rfl
          have hone : (Phase.reading : Phase ε T).work = 1 := rfl
          simp only [Client.work, hphase, haccepted, if_true, hunsent, hrest, hwire, List.length_cons, hone]
          omega
    · rw [Link.step, Option.ite_none_right_eq_some, Option.some.injEq] at hlink
      obtain ⟨-, rfl⟩ := hlink
      -- the error is the outcome of the read
      have hread : (c.link.lose (.other code)).read = [.error (.other code)] := by
        rw [Link.lose, hnil]
        rfl
      rw [hread] at hreads
      cases hreads
      simp only [Client.work, hphase, Phase.work, Link.lose]
      omega

theorem lost_of_step {s t : Link T} {a : Framing.Act T} (ha : ∀ code, a ≠ .lose code) (h : s.step A a = some t) :
    t.lost = s.lost := by
  cases a with
  | write m =>
    rw [Link.step, Option.ite_none_right_eq_some, Option.some.injEq] at h
    obtain ⟨-, rfl⟩ := h
    rw [Link.write]
    split <;> rfl
  | send =>
    rw [Link.step] at h
    split at h
    · cases h
    · cases h
      rfl
  | arrive =>
    rw [Link.step] at h
    split at h
    · cases h
    · rw [Option.ite_none_right_eq_some, Option.some.injEq] at h
      obtain ⟨-, rfl⟩ := h
      rw [Link.take]
      split <;> rfl
  | lose code => exact absurd rfl (ha code)

theorem link_of_receives {a : Framing.Act T} (h : c.receives A a = some d) : c.link.step A a = some d.link := by
  rw [Client.receives] at h
  split at h
  · simp only [Option.bind_eq_bind, Option.bind_eq_some_iff] at h
    obtain ⟨link, hlink, h⟩ := h
    split at h
    · cases h
      exact hlink
    · next result rest _ =>
      cases h
      cases result <;> exact hlink
  · cases h

/-- A client that reads gets the next byte. -/
theorem receives_ne_none (hphase : c.phase = .reading) {a : Framing.Act T} {link : Link T}
    (hlink : c.link.step A a = some link) : c.receives A a ≠ none := by
  rw [Client.receives, hphase]
  simp only [hlink, Option.bind_eq_bind, Option.bind_some]
  split <;> nofun

section
variable [DecidableEq ι] {s t : State ι ε T} {a : Act ι} {offered : ι → List ε}

/-- The server has accepted whoever came, and no stream is lost. -/
def Healthy (s : State ι ε T) : Prop := s.accepting = true ∧ ∀ i, (s.client i).link.lost = none

theorem healthy_step (ha : a.Ok) (h : Healthy s) (hs : s.step A stocks a = some t) : Healthy t := by
  obtain ⟨haccepting, hall⟩ := h
  cases a with
  | connect i e =>
    rw [State.step] at hs
    split at hs
    · next endpoint rest _ =>
      cases hs
      refine ⟨haccepting, forall_put (P := fun _ c => c.link.lost = none) hall ?_⟩
      have hlink : ((s.client i).handleConnect endpoint rest e).link = (s.client i).link := by
        cases e with
        | none => rfl
        | some ec => cases rest <;> rfl
      rw [hlink]
      exact hall i
    · cases hs
  | accept i =>
    simp only [State.step, Option.ite_none_right_eq_some, Option.bind_eq_bind, Option.bind_eq_some_iff,
      Option.some.injEq] at hs
    obtain ⟨-, link, hlink, rfl⟩ := hs
    refine ⟨haccepting, forall_put (P := fun _ c => c.link.lost = none) hall ?_⟩
    exact (lost_of_step (fun _ heq => by cases heq) hlink).trans (hall i)
  | acceptError => exact ha.elim
  | send i =>
    simp only [State.step, Option.bind_eq_bind, Option.bind_eq_some_iff, Option.some.injEq] at hs
    obtain ⟨link, hlink, rfl⟩ := hs
    refine ⟨haccepting, forall_put (P := fun _ c => c.link.lost = none) hall ?_⟩
    exact (lost_of_step (fun _ heq => by cases heq) hlink).trans (hall i)
  | arrive i =>
    simp only [State.step, Option.bind_eq_bind, Option.bind_eq_some_iff, Option.some.injEq] at hs
    obtain ⟨d, hd, rfl⟩ := hs
    refine ⟨haccepting, forall_put (P := fun _ c => c.link.lost = none) hall ?_⟩
    exact (lost_of_step (fun _ heq => by cases heq) (link_of_receives hd)).trans (hall i)
  | lose i code => exact ha.elim

/-- Where nothing can go on, a client that reads has got the whole message. -/
theorem whole_of_stuck (hload : ∀ t, A.load (A.save t) = some t) (hne : ∀ t, A.save t ≠ []) (hfits : Fits A stocks)
    (hhealthy : Healthy s) (hstuck : ∀ a : Act ι, a.Ok → s.step A stocks a = none) (i : ι)
    (hknown : Known A stocks endpoints (s.client i)) (hphase : (s.client i).phase = .reading) :
    (s.client i).link.arrived = frame A stocks := by
  have hintact := Intact.of_reachable hload hne hknown.reachable
  have hconnected := hknown.connected_of_reading hphase
  cases haccepted : (s.client i).accepted with
  | false =>
    have haccept := hstuck (.accept i) trivial
    simp only [State.step, hhealthy.1, hconnected, haccepted, Bool.not_false, and_self, if_true, Link.step,
      (hknown.idle haccepted).2, Option.bind_eq_bind, Option.bind_some] at haccept
    cases haccept
  | true =>
    have hunsent : (s.client i).link.unsent = [] := by
      cases hu : (s.client i).link.unsent with
      | nil => rfl
      | cons b rest =>
        have hsend := hstuck (.send i) trivial
        simp only [State.step, Link.step, hu, Option.bind_eq_bind, Option.bind_some] at hsend
        cases hsend
    have hwire : (s.client i).link.wire = [] := by
      cases hw : (s.client i).link.wire with
      | nil => rfl
      | cons b rest =>
        have harrive := hstuck (.arrive i) trivial
        simp only [State.step, Option.bind_eq_bind, Option.bind_eq_none_iff] at harrive
        have hlink : (s.client i).link.step A .arrive = some ((s.client i).link.take A b rest) := by
          rw [Link.step, hw]
          exact if_pos ⟨hintact.broken, hhealthy.2 i⟩
        obtain ⟨d, hd⟩ := Option.ne_none_iff_exists'.mp (receives_ne_none hphase hlink)
        cases harrive d hd
    have hwritten : (s.client i).link.written = [stocks] := by
      rcases hknown.sent haccepted with ⟨-, hwritten⟩ | ⟨hno, -⟩
      · exact hwritten
      · exact absurd hfits hno
    have hstream := hintact.stream
    rwa [hwritten, hunsent, hwire, List.flatMap_singleton, List.append_nil, List.append_nil, eq_comm] at hstream

/-- Where nothing can go on, no client is still on its way. -/
theorem done_of_stuck (hload : ∀ t, A.load (A.save t) = some t) (hne : ∀ t, A.save t ≠ []) (hfits : Fits A stocks)
    (hhealthy : Healthy s) (hstuck : ∀ a : Act ι, a.Ok → s.step A stocks a = none) (i : ι)
    (hknown : Known A stocks endpoints (s.client i)) : (s.client i).phase = .printed stocks ∨
      ((s.client i).tried.map Prod.fst = endpoints ∧ ∃ ec, (s.client i).phase = .failed ec) := by
  have hfate := fate_of_known hload hne hknown
  rw [hhealthy.2 i] at hfate
  rcases hfate.cases_of_whole_stream with ⟨endpoint, rest, hphase⟩ | ⟨hphase, hless⟩ | hdone
  · have hconnect := hstuck (.connect i none) trivial
    rw [State.step, hphase] at hconnect
    cases hconnect
  · exact absurd (whole_of_stuck hload hne hfits hhealthy hstuck i hknown hphase) hless
  · exact hdone

def State.work [Fintype ι] (A : Archives T) (stocks : T) (s : State ι ε T) : Nat :=
  ∑ i, (s.client i).work A stocks + if s.accepting then 1 else 0

theorem work_step [Fintype ι] (hload : ∀ t, A.load (A.save t) = some t) (hne : ∀ t, A.save t ≠ [])
    (hall : ∀ i, Known A stocks (offered i) (s.client i)) (hm : Moves A stocks s t) :
    t.work A stocks < s.work A stocks := by
  cases hm with
  | @client i c hc =>
    have hlt := (hall i).work_lt hload hne hc
    have hsum := Tally.sum_update (Client.work A stocks) s.client i c
    rw [State.work, State.work, State.put]
    dsimp only
    omega
  | closed haccepting =>
    rw [State.work, State.work, haccepting]
    exact Nat.lt_succ_self _

end

/-- Every run of the server and its clients is over after a few steps for each endpoint and each byte; and if the
    stocks fit into a frame and nothing goes wrong but connects, one that cannot go on has ended with every client
    having printed the stocks, except those that no endpoint let connect. -/
theorem exchange_ends [Fintype ι] [DecidableEq ι] (hload : ∀ t, A.load (A.save t) = some t)
    (hne : ∀ t, A.save t ≠ []) {offered : ι → List ε} {s t : State ι ε T}
    {l : List (State ι ε T × Act ι)} (hs : (system A stocks offered).init s)
    (hl : (system A stocks offered).Trace s l t) :
    l.length ≤ ∑ i, ((offered i).length + 2 * (frame A stocks).length + 2) + 1 ∧
      (Fits A stocks → (∀ x ∈ l, x.2.Ok) → (∀ a : Act ι, a.Ok → t.step A stocks a = none) → ∀ i,
        (t.client i).phase = .printed stocks ∨
          ((t.client i).tried.map Prod.fst = offered i ∧ ∃ ec, (t.client i).phase = .failed ec)) := by
  have hknown := fun i => known_of_reachable (.of_init hs) i
  constructor
  · have hlength := hl.length_le (I := fun s => ∀ i, Known A stocks (offered i) (s.client i)) (State.work A stocks)
      (fun _ _ _ hall hstep =>
        ⟨known_step hall (moves_of_step hstep), work_step hload hne hall (moves_of_step hstep)⟩) hknown
    have hwork : s.work A stocks = ∑ i, ((offered i).length + 2 * (frame A stocks).length + 2) + 1 := by
      obtain ⟨haccepting, hnew⟩ := hs
      rw [State.work, haccepting, if_pos rfl]
      refine congrArg (· + 1) (Finset.sum_congr rfl fun i _ => ?_)
      obtain ⟨endpoint, rest, heq, hc⟩ := hnew i
      rw [heq, hc, List.length_cons]
      simp only [Client.work, Client.new, Phase.work, Bool.false_eq_true, if_false]
      omega
    omega
  · intro hfits hok hstuck i
    have hfresh : Healthy s := by
      refine ⟨hs.1, fun i => ?_⟩
      obtain ⟨endpoint, rest, -, hc⟩ := hs.2 i
      rw [hc]
      rfl
    have hhealthy := (hl.always (I := Healthy) (A := Act.Ok) (fun _ _ _ ha h hstep => healthy_step ha h hstep)
      hfresh hok).2
    exact done_of_stuck hload hne hfits hhealthy hstuck i (known_of_reachable (.of_trace hs hl) i)

/-- A client that the first endpoint let connect, and that has read the stocks. -/
def served : Client Nat Bool where
  phase := .printed true
  tried := []
  connected := true
  accepted := true
  link := { Link.initial with written := [true], arrived := frame letters true, read := [.ok true] }

/-- A client that no endpoint let connect. -/
def refused : Client Nat Bool where
  phase := .failed (.other 111)
  tried := [(1, .other 111), (2, .other 111)]
  connected := false
  accepted := false
  link := .initial

theorem stuck_of_served_refused {t : State (Fin 2) Nat Bool} (hserved : t.client 0 = served)
    (hrefused : t.client 1 = refused) : ∀ a : Act (Fin 2), a.Ok → t.step letters true a = none := by
  have hstuck : ∀ i, t.step letters true (.accept i) = none ∧ t.step letters true (.send i) = none ∧
      t.step letters true (.arrive i) = none ∧ ∀ e, t.step letters true (.connect i e) = none := by
    rw [Fin.forall_fin_two]
    simp only [State.step, hserved, hrefused]
    simp [served, refused, Client.receives, Link.initial, Link.step]
  intro a ha
  cases a with
  | connect i e => exact (hstuck i).2.2.2 e
  | accept i => exact (hstuck i).1
  | acceptError => exact ha.elim
  | send i => exact (hstuck i).2.1
  | arrive i => exact (hstuck i).2.2.1
  | lose i code => exact ha.elim

/-- One client reads the stocks, and the other one does not get to the server. -/
theorem exchange_ends_printed : ∃ (t : State (Fin 2) Nat Bool) (l : List (State (Fin 2) Nat Bool × Act (Fin 2))),
    (system letters true fun _ => [1, 2]).Trace constructed l t ∧ t.client 0 = served ∧ t.client 1 = refused ∧
      l.length ≤ ∑ _i : Fin 2, ([1, 2].length + 2 * (frame letters true).length + 2) + 1 ∧
      ∀ i, (t.client i).phase = .printed true ∨
        ((t.client i).tried.map Prod.fst = [1, 2] ∧ ∃ ec, (t.client i).phase = .failed ec) := by
  have hfits : Fits letters true := by
    show 1 < 16 ^ headerLength
    decide
  let acts : List (Act (Fin 2)) := [.connect 0 none, .connect 1 (some (.other 111)), .accept 0] ++
    List.replicate 9 (.send 0) ++ List.replicate 9 (.arrive 0) ++ [.connect 1 (some (.other 111))]
  obtain ⟨t, hrun, hserved, hrefused⟩ : ∃ t, (system letters true fun _ => [1, 2]).run constructed acts = some t ∧
      t.client 0 = served ∧ t.client 1 = refused := ⟨_, rfl, rfl, rfl⟩
  obtain ⟨l, hl, hacts⟩ := System.exists_trace_of_run hrun
  have hok : ∀ a ∈ l.map Prod.snd, a.Ok := by
    rw [hacts]
    simp [acts, Act.Ok, or_imp, forall_and]
  obtain ⟨hlength, hends⟩ := exchange_ends (by decide) (by decide) init_constructed hl
  exact ⟨t, l, hl, hserved, hrefused, hlength,
    hends hfits (List.forall_mem_map.mp hok) (stuck_of_served_refused hserved hrefused)⟩

end ServiceBridge.Stocks
