import ServiceBridge.ServerPool
import ServiceBridge.Theorems.HttpServer

/-! The threads of the pool, whose handlers overlap in any way, do what handlers that run at once do. -/

namespace ServiceBridge.Http

/-! ### One connection -/

/-- A connection with a handler under way beside the one where what is left of the handler has not begun, or is
    already done: it takes effect when it starts the next operation, or has a file to read. -/
inductive Tracks : Option Handler → Connection → Connection → Prop
  | still {c : Connection} : Tracks none c c
  | reading {c : Connection} {data : Option Str} (hpending : c.pending = .read)
      (harrives : Server.arrives data = true) : Tracks (some (.reading data)) { c with pending := .nothing } c
  | parsed {c : Connection} {bytes rest : Str} {result : Option Bool} {p : Parsing} (hpending : c.pending = .read)
      (harrives : Server.arrives (some bytes) = true) (hparse : parse c.parsing bytes = .ok (result, rest, p)) :
      Tracks (some (.parsed result))
        { c with pending := .nothing, received := c.received ++ bytes, parsing := p } c
  | replied {c : Connection} {files : Str → File} :
      Tracks (some (.replied files)) c (c.beginWrite files c.reply)
  | writing {c : Connection} {ok : Bool} (hpending : c.pending = .write) :
      Tracks (some (.writing ok)) { c with pending := .nothing } c
  | leaving {c : Connection} : Tracks (some .leaving) c c

/-- What a handler that runs at once makes of a connection; or none runs. -/
inductive AtOnce (docRoot : Str) (files : Str → File) (c : Connection) : Connection → Prop
  | nothing : AtOnce docRoot files c c
  | read {data : Option Str} (hpending : c.pending = .read) (harrives : Server.arrives data = true) :
      AtOnce docRoot files c (c.handleRead docRoot files data)
  | write {ok : Bool} (hpending : c.pending = .write) : AtOnce docRoot files c (c.handleWrite ok)

variable {ι : Type} {docRoot : Str} {files : Str → File} {c c' d d' : Connection} {cs cs' : List Connection}
  {s s' : Pool ι} {t : Server} {thread : ι → Thread} {k : ι} {i j : Nat} {h : Handler} {rest : Option Handler}
  {p : Thread}

/-- Every handler takes effect in one of its steps. -/
theorem Tracks.goOn (htracks : Tracks (some h) c c') (docRoot : Str) (files : Str → File) :
    ∃ d', AtOnce docRoot files c' d' ∧ Tracks (c.goOn docRoot files h).2 (c.goOn docRoot files h).1 d' := by
  cases htracks with
  | @reading _ data hpending harrives =>
    cases data with
    | none => exact ⟨_, .read hpending harrives, .leaving⟩
    | some bytes =>
      cases hparse : parse c'.parsing bytes with
      | error what =>
        refine ⟨_, .read hpending harrives, ?_⟩
        simp only [Connection.goOn, Connection.handleRead, hparse]
        exact .leaving
      | ok r =>
        obtain ⟨result, rest, p⟩ := r
        refine ⟨c', .nothing, ?_⟩
        simp only [Connection.goOn, hparse]
        exact .parsed hpending harrives hparse
  | @parsed _ bytes rest result p hpending harrives hparse =>
    refine ⟨_, .read hpending harrives, ?_⟩
    rcases result with _ | _ | _
    · simp only [Connection.goOn, Connection.handleRead, hparse]
      exact .leaving
    · simp only [Connection.goOn, Connection.handleRead, hparse]
      exact .replied
    · simp only [Connection.goOn, Connection.handleRead, hparse]
      cases hrep : handleRequest docRoot files p.req c'.reply with
      | error fault => exact .leaving
      | ok rep => exact .replied
  | replied => exact ⟨_, .nothing, .leaving⟩
  | writing hpending => exact ⟨_, .write hpending, .leaving⟩
  | leaving => exact ⟨_, .nothing, .still⟩

/-! ### All connections -/

/-- What is left of the handler in the strand of a connection. -/
inductive At (thread : ι → Thread) (i : Nat) : Option Handler → Prop
  | free (h : ∀ k, (thread k).strand ≠ some i) : At thread i none
  | busy {k : ι} {h : Handler} (hk : thread k = .handling i h) : At thread i (some h)

/-- No two threads are in one strand, and each connection tracks one whose handlers run at once. -/
structure Handles (thread : ι → Thread) (cs cs' : List Connection) : Prop where
  alone : ∀ j k i, (thread j).strand = some i → (thread k).strand = some i → j = k
  bound : ∀ k i, (thread k).strand = some i → i < cs.length
  length : cs'.length = cs.length
  tracks : ∀ i c, cs[i]? = some c → ∃ c' rest, cs'[i]? = some c' ∧ At thread i rest ∧ Tracks rest c c'

theorem At.unique (hat : At thread i rest)
    (halone : ∀ j k i, (thread j).strand = some i → (thread k).strand = some i → j = k)
    (hk : thread k = .handling i h) : rest = some h := by
  have hstrand : (thread k).strand = some i := by rw [hk]; rfl
  cases hat with
  | free hfree => exact absurd hstrand (hfree k)
  | @busy l h' hl =>
    have hstrand' : (thread l).strand = some i := by rw [hl]; rfl
    obtain rfl := halone l k i hstrand' hstrand
    rw [hl] at hk
    cases hk
    rfl

theorem At.of_free (hat : At thread i rest) (hfree : ∀ k, (thread k).strand ≠ some i) : rest = none := by
  cases hat with
  | free => rfl
  | @busy l h hl => exact absurd (by rw [hl]; rfl) (hfree l)

theorem Handles.append (h : Handles thread cs cs') (c : Connection) : Handles thread (cs ++ [c]) (cs' ++ [c]) := by
  refine ⟨h.alone, fun k i hk => ?_, by rw [List.length_append, List.length_append, h.length], fun i d hd => ?_⟩
  · rw [List.length_append]
    exact Nat.lt_add_right 1 (h.bound k i hk)
  · rcases Nat.lt_or_ge i cs.length with hlt | hge
    · rw [List.getElem?_append_left hlt] at hd
      obtain ⟨c', rest, hc', htracks⟩ := h.tracks i d hd
      exact ⟨c', rest, by rw [List.getElem?_append_left (by rw [h.length]; exact hlt), hc'], htracks⟩
    · -- the new connection, in whose strand there is no thread yet
      rw [List.getElem?_append_right hge, List.getElem?_singleton, Option.ite_none_right_eq_some] at hd
      obtain ⟨hzero, hd⟩ := hd
      obtain rfl := Option.some.inj hd
      refine ⟨c, none, ?_, .free fun k hk => ?_, .still⟩
      · rw [List.getElem?_append_right (by rw [h.length]; exact hge), h.length, hzero]
        rfl
      · exact absurd (h.bound k i hk) (Nat.not_lt.mpr hge)

section
variable [DecidableEq ι]

theorem strand_update (thread : ι → Thread) (k : ι) (p : Thread) (l : ι) :
    (Function.update thread k p l).strand = Function.update (fun l => (thread l).strand) k p.strand l :=
  Function.apply_update (fun _ => Thread.strand) thread k p l

/-- A step of one thread leaves the strands alone in which it is not. -/
theorem At.update (hat : At thread j rest) (hk : (thread k).strand ≠ some j) (hp : p.strand ≠ some j) :
    At (Function.update thread k p) j rest := by
  cases hat with
  | free hfree =>
    refine .free fun l => ?_
    rcases eq_or_ne l k with rfl | hne
    · rwa [Function.update_self]
    · rw [Function.update_of_ne hne]
      exact hfree l
  | @busy l h hl =>
    refine .busy (k := l) ?_
    rw [Function.update_of_ne, hl]
    rintro rfl
    exact hk (by rw [hl]; rfl)

namespace Handles

/-- A step outside of the strands. -/
theorem goto (h : Handles thread cs cs') (hk : (thread k).strand = none) (hp : p.strand = none) :
    Handles (Function.update thread k p) cs cs' := by
  have hsame : ∀ l, (Function.update thread k p l).strand = (thread l).strand := by
    intro l
    rw [strand_update, hp, ← hk]
    exact congrFun (Function.update_eq_self k fun l => (thread l).strand) l
  refine ⟨fun j l i hj hl => ?_, fun l i hl => ?_, h.length, fun i c hc => ?_⟩
  · rw [hsame] at hj hl
    exact h.alone j l i hj hl
  · rw [hsame] at hl
    exact h.bound l i hl
  · obtain ⟨c', rest, hc', hat, htracks⟩ := h.tracks i c hc
    exact ⟨c', rest, hc', hat.update (by rw [hk]; nofun) (by rw [hp]; nofun), htracks⟩

/-- A step of the thread that is in the strand `i`, or begins to be. -/
theorem move (h : Handles thread cs cs') (hi : i < cs.length) (hothers : ∀ l, (thread l).strand = some i → l = k)
    (hself : ∀ j, (thread k).strand = some j → j = i) (htracks : Tracks rest d d') :
    Handles (Function.update thread k (rest.elim .idle (.handling i))) (cs.set i d) (cs'.set i d') := by
  have hstrand : (rest.elim .idle (.handling i) : Thread).strand = rest.map fun _ => i := by cases rest <;> rfl
  have hin : ∀ l j, (Function.update thread k (rest.elim .idle (.handling i)) l).strand = some j →
      l = k ∧ j = i ∨ l ≠ k ∧ j ≠ i ∧ (thread l).strand = some j := by
    intro l j hl
    rw [strand_update, hstrand] at hl
    rcases eq_or_ne l k with rfl | hne
    · rw [Function.update_self, Option.map_eq_some_iff] at hl
      obtain ⟨-, -, rfl⟩ := hl
      exact .inl ⟨rfl, rfl⟩
    · rw [Function.update_of_ne hne] at hl
      refine .inr ⟨hne, ?_, hl⟩
      rintro rfl
      exact hne (hothers l hl)
  refine ⟨fun j l i' hj hl => ?_, fun l j hl => ?_, ?_, fun j c hc => ?_⟩
  · rcases hin j i' hj with ⟨rfl, rfl⟩ | ⟨-, hne, hj⟩
    · rcases hin l i' hl with ⟨rfl, -⟩ | ⟨-, hne, -⟩
      · rfl
      · exact absurd rfl hne
    · rcases hin l i' hl with ⟨-, rfl⟩ | ⟨-, -, hl⟩
      · exact absurd rfl hne
      · exact h.alone j l i' hj hl
  · rw [List.length_set]
    rcases hin l j hl with ⟨-, rfl⟩ | ⟨-, -, hl⟩
    · exact hi
    · exact h.bound l j hl
  · rw [List.length_set, List.length_set, h.length]
  · rcases eq_or_ne i j with rfl | hne
    · rw [List.getElem?_set_self hi] at hc
      obtain rfl := Option.some.inj hc
      refine ⟨d', rest, List.getElem?_set_self (by rw [h.length]; exact hi), ?_, htracks⟩
      cases rest with
      | none =>
        refine .free fun l hl => ?_
        rcases hin l i hl with ⟨rfl, -⟩ | ⟨-, hne, -⟩
        · rw [Function.update_self] at hl
          cases hl
        · exact hne rfl
      | some hd => exact .busy (Function.update_self ..)
    · rw [List.getElem?_set_ne hne] at hc
      obtain ⟨c', rest', hc', hat, htracks'⟩ := h.tracks j c hc
      refine ⟨c', rest', by rw [List.getElem?_set_ne hne, hc'], hat.update ?_ ?_, htracks'⟩
      · exact fun hk => hne (hself j hk).symm
      · rw [hstrand]
        cases rest with
        | none => nofun
        | some _ => exact fun heq => hne (Option.some.inj heq)

end Handles

end

/-! ### The pool -/

/-- At most one thread is in `handle_accept`, and no accept is under way then: the next connection of the pool, and
    whether it waits for it, beside what they are where `handle_accept` has not begun or is already done. -/
inductive Accepts (thread : ι → Thread) (next : Connection) (waits : Bool) (next' : Connection) (waits' : Bool) : Prop
  | quiet (hno : ∀ k, (thread k).isAccepting = false) (hnext : next' = next) (hwaits : waits' = waits)
  | accepting {k : ι} {ok : Bool} {major minor : Int} {status : StatusType}
      (hk : thread k = .accepting ok (.new major minor status))
      (honly : ∀ j, (thread j).isAccepting = true → j = k) (hnext : next' = next) (hbusy : waits = false)
      (hwaits : waits' = true)
  | started {k : ι} (hk : thread k = .started next') (honly : ∀ j, (thread j).isAccepting = true → j = k)
      (hbusy : waits = false) (hwaits : waits' = true)

namespace Accepts
variable {next next' made : Connection} {waits waits' ok : Bool}

theorem of_accepting (h : Accepts thread next waits next' waits') (hk : thread k = .accepting ok made) :
    (∃ major minor status, made = .new major minor status) ∧ (∀ j, (thread j).isAccepting = true → j = k) ∧
      next' = next ∧ waits = false ∧ waits' = true := by
  have htrue : (thread k).isAccepting = true := by rw [hk]; rfl
  cases h with
  | quiet hno =>
    rw [hno] at htrue
    cases htrue
  | accepting hl honly hnext hbusy hwaits =>
    obtain rfl := honly k htrue
    cases hk.symm.trans hl
    exact ⟨⟨_, _, _, rfl⟩, honly, hnext, hbusy, hwaits⟩
  | started hl honly =>
    obtain rfl := honly k htrue
    cases hk.symm.trans hl

theorem of_started (h : Accepts thread next waits next' waits') (hk : thread k = .started made) :
    (∀ j, (thread j).isAccepting = true → j = k) ∧ next' = made ∧ waits' = true := by
  have htrue : (thread k).isAccepting = true := by rw [hk]; rfl
  cases h with
  | quiet hno =>
    rw [hno] at htrue
    cases htrue
  | accepting hl honly =>
    obtain rfl := honly k htrue
    cases hk.symm.trans hl
  | started hl honly _ hwaits =>
    obtain rfl := honly k htrue
    cases hk.symm.trans hl
    exact ⟨honly, rfl, hwaits⟩

theorem of_waits (h : Accepts thread next true next' waits') :
    (∀ j, (thread j).isAccepting = false) ∧ next' = next ∧ waits' = true := by
  cases h with
  | quiet hno hnext hwaits => exact ⟨hno, hnext, hwaits⟩
  | accepting _ _ _ hbusy => cases hbusy
  | started _ _ hbusy => cases hbusy

variable [DecidableEq ι]

/-- A step outside of `handle_accept`. -/
theorem goto (h : Accepts thread next waits next' waits') (hk : (thread k).isAccepting = false)
    (hp : p.isAccepting = false) : Accepts (Function.update thread k p) next waits next' waits' := by
  have hsame : ∀ j, (Function.update thread k p j).isAccepting = (thread j).isAccepting := by
    intro j
    rcases eq_or_ne j k with rfl | hne
    · rw [Function.update_self, hp, hk]
    · rw [Function.update_of_ne hne]
  have hkeep : ∀ j, (thread j).isAccepting = true → Function.update thread k p j = thread j := by
    intro j hj
    refine Function.update_of_ne ?_ ..
    rintro rfl
    rw [hk] at hj
    cases hj
  cases h with
  | quiet hno hnext hwaits => exact .quiet (fun j => (hsame j).trans (hno j)) hnext hwaits
  | accepting hl honly hnext hbusy hwaits =>
    refine .accepting ((hkeep _ (by rw [hl]; rfl)).trans hl) (fun j hj => honly j ?_) hnext hbusy hwaits
    rwa [hsame] at hj
  | started hl honly hbusy hwaits =>
    refine .started ((hkeep _ (by rw [hl]; rfl)).trans hl) (fun j hj => honly j ?_) hbusy hwaits
    rwa [hsame] at hj

end Accepts

/-- The server that the pool shows when every handler has taken effect or not begun. A server that has been stopped
    still finishes its handlers, and nothing is lost when the stop comes after them. -/
structure Shows (s : Pool ι) (t : Server) : Prop where
  files : t.files = s.files
  running : t.stopped = false
  handles : Handles s.thread s.connections t.connections
  accepts : Accepts s.thread s.newConnection s.accepting t.newConnection t.accepting

section
variable [DecidableEq ι]

/-- The thread `k` is the only one to leave or enter `handle_accept`. -/
theorem only_update (honly : ∀ j, (thread j).isAccepting = true → j = k) :
    ∀ j, (Function.update thread k p j).isAccepting = true → j = k := by
  intro j hj
  by_contra hne
  rw [Function.update_of_ne hne] at hj
  exact hne (honly j hj)

theorem none_update (honly : ∀ j, (thread j).isAccepting = true → j = k) (hp : p.isAccepting = false) :
    ∀ j, (Function.update thread k p j).isAccepting = false := by
  intro j
  rcases eq_or_ne j k with rfl | hne
  · rwa [Function.update_self]
  · rw [Function.update_of_ne hne, ← Bool.not_eq_true]
    exact fun hj => hne (honly j hj)

theorem set_eq_self {l : List Connection} (hc : l[i]? = some c) : l.set i c = l := by
  obtain ⟨hi, rfl⟩ := List.getElem?_eq_some_iff.mp hc
  exact List.set_getElem_self hi

/-- A step of a handler of a connection. -/
theorem Shows.move (hshows : Shows s t) (hi : i < s.connections.length) (hk : (s.thread k).isAccepting = false)
    (hothers : ∀ l, (s.thread l).strand = some i → l = k) (hself : ∀ j, (s.thread k).strand = some j → j = i)
    (htracks : Tracks rest d d') :
    Shows ({ s with connections := s.connections.set i d }.goto k (rest.elim .idle (.handling i)))
      { t with connections := t.connections.set i d' } where
  files := hshows.files
  running := hshows.running
  handles := hshows.handles.move hi hothers hself htracks
  accepts := hshows.accepts.goto hk (by cases rest <;> rfl)

/-- A handler begins. -/
theorem Shows.begin (hshows : Shows s t) (hk : s.thread k = .idle) (hfree : s.Free i) {pending : Pending}
    (htracks : ∀ c : Connection, c.pending = pending → Tracks (some h) { c with pending := .nothing } c)
    (hs : s.begin k i pending h = some s') : Shows s' t := by
  simp only [Pool.begin, Option.bind_eq_bind, Option.bind_eq_some_iff, Option.ite_none_right_eq_some,
    Option.some.injEq] at hs
  obtain ⟨c, hc, hpending, rfl⟩ := hs
  obtain ⟨c', rest, hc', hat, hstill⟩ := hshows.handles.tracks i c hc
  obtain rfl := hat.of_free hfree
  cases hstill
  have hmoved := hshows.move (k := k) (List.getElem?_eq_some_iff.mp hc).1 (by rw [hk]; rfl)
    (fun l hl => absurd hl (hfree l)) (fun j hj => by rw [hk] at hj; cases hj) (htracks c hpending)
  rwa [set_eq_self hc'] at hmoved

theorem AtOnce.server (hat : AtOnce docRoot t.files c' d') (hc : t.connections[i]? = some c')
    (hrunning : t.stopped = false) : { t with connections := t.connections.set i d' } = t ∨
      ∃ a, t.step docRoot a = some { t with connections := t.connections.set i d' } := by
  cases hat with
  | nothing =>
    left
    rw [set_eq_self hc]
  | @read data hpending harrives =>
    refine .inr ⟨.read i data, ?_⟩
    simp only [Server.step, hc, Option.bind_eq_bind, Option.bind_some]
    exact if_pos ⟨hpending, harrives, by rw [hrunning]; rfl⟩
  | @write ok hpending =>
    refine .inr ⟨.write i ok, ?_⟩
    simp only [Server.step, hc, Option.bind_eq_bind, Option.bind_some]
    exact if_pos ⟨hpending, by rw [hrunning]; rfl⟩

/-- A handler goes on. -/
theorem Shows.goOn (hshows : Shows s t) (hs : s.goOn docRoot k = some s') :
    Shows s' t ∨ ∃ a t', t.step docRoot a = some t' ∧ Shows s' t' := by
  rw [Pool.goOn] at hs
  split at hs
  · next next hk =>
    cases hs
    obtain ⟨⟨major, minor, status, rfl⟩, honly, hnew, hs, ht⟩ := hshows.accepts.of_accepting hk
    have hstrand : (s.thread k).strand = none := by rw [hk]; rfl
    refine .inr ⟨.accept true major minor status, t.handleAccept true (.new major minor status), ?_, ?_⟩
    · exact if_pos ⟨ht, by rw [hshows.running]; rfl⟩
    · rw [← hnew]
      refine ⟨hshows.files, hshows.running, (hshows.handles.append _).goto hstrand rfl, ?_⟩
      exact .started (Function.update_self ..) (only_update honly) hs ht
  · next next hk =>
    cases hs
    obtain ⟨⟨major, minor, status, rfl⟩, honly, hnew, hs, ht⟩ := hshows.accepts.of_accepting hk
    have hstrand : (s.thread k).strand = none := by rw [hk]; rfl
    refine .inr ⟨.accept false major minor status, t.handleAccept false (.new major minor status), ?_, ?_⟩
    · exact if_pos ⟨ht, by rw [hshows.running]; rfl⟩
    · exact ⟨hshows.files, hshows.running, hshows.handles.goto hstrand rfl,
        .quiet (none_update honly rfl) hnew hs.symm⟩
  · next next hk =>
    cases hs
    obtain ⟨honly, hnew, ht⟩ := hshows.accepts.of_started hk
    have hstrand : (s.thread k).strand = none := by rw [hk]; rfl
    exact .inl ⟨hshows.files, hshows.running, hshows.handles.goto hstrand rfl, .quiet (none_update honly rfl) hnew ht⟩
  · next i h hk =>
    simp only [Option.bind_eq_bind, Option.bind_eq_some_iff, Option.some.injEq] at hs
    obtain ⟨c, hc, rfl⟩ := hs
    obtain ⟨c', rest, hc', hat, htracks⟩ := hshows.handles.tracks i c hc
    obtain rfl := hat.unique hshows.handles.alone hk
    obtain ⟨d', honce, hnext⟩ := htracks.goOn docRoot s.files
    have hstrand : (s.thread k).strand = some i := by rw [hk]; rfl
    have hmoved := hshows.move (k := k) (List.getElem?_eq_some_iff.mp hc).1 (by rw [hk]; rfl)
      (fun l hl => hshows.handles.alone l k i hl hstrand)
      (fun j hj => Option.some.inj (hj.symm.trans hstrand)) hnext
    rw [← hshows.files] at honce
    rcases honce.server hc' hshows.running with heq | ⟨a, ha⟩
    · exact .inl (heq ▸ hmoved)
    · exact .inr ⟨a, _, ha, hmoved⟩
  · cases hs

theorem Shows.step [Fintype ι] {a : PoolAct ι} (hshows : Shows s t) (hs : s.step docRoot a = some s') :
    Shows s' t ∨ ∃ b t', t.step docRoot b = some t' ∧ Shows s' t' := by
  cases a with
  | accept k ok major minor status =>
    rw [Pool.step] at hs
    split at hs
    · next hk =>
      rw [Option.ite_none_right_eq_some, Option.some.injEq] at hs
      obtain ⟨⟨haccepting, -⟩, rfl⟩ := hs
      obtain ⟨hno, hnew, ht⟩ := (haccepting ▸ hshows.accepts).of_waits
      have honly : ∀ j, (s.thread j).isAccepting = true → j = k := fun j hj => by
        rw [hno] at hj
        cases hj
      have hstrand : (s.thread k).strand = none := by rw [hk]; rfl
      exact .inl ⟨hshows.files, hshows.running, hshows.handles.goto hstrand rfl,
        .accepting (Function.update_self ..) (only_update honly) hnew rfl ht⟩
    · cases hs
  | read k i data =>
    rw [Pool.step] at hs
    split at hs
    · next hk =>
      rw [Option.ite_none_right_eq_some] at hs
      obtain ⟨⟨hfree, harrives, -⟩, hs⟩ := hs
      exact .inl (hshows.begin hk hfree (fun c hpending => .reading hpending harrives) hs)
    · cases hs
  | write k i ok =>
    rw [Pool.step] at hs
    split at hs
    · next hk =>
      rw [Option.ite_none_right_eq_some] at hs
      obtain ⟨⟨hfree, -⟩, hs⟩ := hs
      exact .inl (hshows.begin hk hfree (fun c hpending => .writing hpending) hs)
    · cases hs
  | goOn k => exact hshows.goOn hs
  | leave k =>
    rw [Pool.step] at hs
    split at hs
    · next hk =>
      rw [Option.ite_none_right_eq_some, Option.some.injEq] at hs
      obtain ⟨-, rfl⟩ := hs
      have hstrand : (s.thread k).strand = none := by rw [hk]; rfl
      exact .inl ⟨hshows.files, hshows.running, hshows.handles.goto hstrand rfl,
        hshows.accepts.goto (by rw [hk]; rfl) rfl⟩
    · cases hs
  | change files =>
    cases hs
    exact .inr ⟨.change files, _, rfl, rfl, hshows.running, hshows.handles, hshows.accepts⟩
  | stop =>
    cases hs
    exact .inl ⟨hshows.files, hshows.running, hshows.handles, hshows.accepts⟩

end

/-- The server that a pool is, without its threads. -/
def Pool.server (s : Pool ι) : Server := ⟨s.files, s.connections, s.newConnection, s.accepting, s.stopped⟩

theorem Shows.initial (hs : s.Initial) : Shows s ⟨s.files, [], s.newConnection, true, false⟩ where
  files := rfl
  running := rfl
  handles := by
    obtain ⟨hnil, -, -, -, hidle⟩ := hs
    rw [hnil]
    refine ⟨fun j k i hj => ?_, fun k i hk => ?_, rfl, fun i c hc => ?_⟩
    · rw [hidle] at hj
      cases hj
    · rw [hidle] at hk
      cases hk
    · rw [List.getElem?_nil] at hc
      cases hc
  accepts := by
    obtain ⟨-, -, haccepting, -, hidle⟩ := hs
    exact .quiet (fun k => by rw [hidle]; rfl) rfl haccepting.symm

/-- Any number of threads, and the server whose handlers run at once. -/
def poolSimulation (docRoot : Str) (ι : Type) [Fintype ι] [DecidableEq ι] :
    System.Simulation (Pool.system docRoot ι) (Server.system docRoot) where
  rel := Shows
  init := fun _ hs => ⟨_, ⟨rfl, hs.2.1, rfl, rfl⟩, .initial hs⟩
  step := fun _ _ _ _ hshows hs => hshows.step hs

/-- Two threads: one has started a connection and is still in `handle_accept`, the other one reads. -/
theorem exists_overlap : ∃ s, (Pool.system ['w'] (Fin 2)).Reachable s ∧ (s.thread 0).isAccepting = true ∧
    (s.thread 1).strand = some 0 := by
  have hinit : (Pool.system ['w'] (Fin 2)).init
      ⟨fun _ => .missing, [], .new 0 0 .ok, true, false, fun _ => .idle⟩ :=
    ⟨rfl, ⟨0, 0, .ok, rfl⟩, rfl, rfl, fun _ => rfl⟩
  have hstart := (System.Reachable.of_init hinit).run [.accept 0 true 0 0 .ok, .goOn 0] rfl
  have hparse := hstart.run [.read 1 0 (some ['G']), .goOn 1] rfl
  exact ⟨_, hparse, rfl, rfl⟩

end ServiceBridge.Http
