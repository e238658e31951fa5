import Mathlib.Data.List.Induction
import ServiceBridge.Serialization

/-! The objects that `write_one_object` sends are not read back: nothing ever sizes `inbound_data_`, so
    `b_asio::read` fills an empty buffer and the archive finds no preamble. -/

namespace ServiceBridge.Serialization
open Command

/-! ### What the calls do -/

section
variable {T A τ : Type} (L : TextArchives T A) {size : Nat}

/-- An empty text holds no preamble. -/
theorem construct_nil : L.construct [] = .error .archive := by
  cases h : L.construct [] with
  | ok archive => exact absurd (L.construct_reads h) (Nat.not_lt_zero _)
  | error e => rw [L.construct_throws h]

theorem available_exec {x : Reading τ} (h : x.connection.socket.isOpen = true) :
    available.exec x = (.ok x.connection.socket.arrived.length, x) := by
  unfold available
  simp only [exec_bind, exec_get, andThen_ok, exec_liftM, Socket.available_open h]
  rfl

/-- A `read` that finds enough takes as much as `inbound_data_` holds. -/
theorem receive_exec {x : Reading τ} (h : x.connection.inboundData.length ≤ x.connection.socket.arrived.length) :
    receive.exec x = (.ok ⟨⟩, { x with connection := { x.connection with
      socket := { x.connection.socket with
        arrived := x.connection.socket.arrived.drop x.connection.inboundData.length
        taken := x.connection.socket.taken ++
          x.connection.socket.arrived.take x.connection.inboundData.length }
      inboundData := x.connection.socket.arrived.take x.connection.inboundData.length } }) := by
  have taking : x.connection.socket.taking x.connection.inboundData ⟨x.connection.inboundData.length, .success⟩ =
      x.connection.inboundData.length := by
    rw [Socket.taking, Nat.min_eq_right h, Nat.min_self]
  unfold receive
  simp only [exec_bind, exec_get, andThen_ok, exec_set, exec_require, Socket.readSome, taking, h, if_true,
    List.drop_length, List.append_nil]

theorem receive_nil {x : Reading τ} (h : x.connection.inboundData = []) : receive.exec x = (.ok ⟨⟩, x) := by
  rw [receive_exec (by rw [h]; exact Nat.zero_le _), h]
  rcases x with ⟨⟨⟨isOpen, arrived, taken, accepted⟩, inboundData, outboundData⟩, target⟩
  obtain rfl : inboundData = [] := h
  rw [List.length_nil, List.drop_zero, List.take_zero, List.append_nil]

theorem readOneObject_nil {x : Reading T} (hopen : x.connection.socket.isOpen = true)
    (h : x.connection.inboundData = []) : (L.readOneObject size).exec x = (.ok false, x) := by
  unfold TextArchives.readOneObject
  simp only [exec_tryCatch, exec_bind, available_exec hopen, andThen_ok]
  by_cases hsize : size ≤ x.connection.socket.arrived.length
  · simp only [hsize, if_true, exec_bind, receive_nil h, andThen_ok, exec_get, exec_liftM, h, construct_nil,
      andThen_error]
    rfl
  · simp only [hsize, if_false]
    rfl

theorem readAllObjects_nil {x : Reading (List T)} {temp : T} (hopen : x.connection.socket.isOpen = true)
    (h : x.connection.inboundData = []) : (L.readAllObjects size temp).exec x =
      (if size ≤ x.connection.socket.arrived.length then .error .archive else .ok false, x) := by
  unfold TextArchives.readAllObjects
  simp only [exec_bind, available_exec hopen, andThen_ok]
  by_cases hsize : size ≤ x.connection.socket.arrived.length
  · simp only [hsize, if_true, exec_bind, receive_nil h, andThen_ok, exec_get, exec_liftM, h, construct_nil,
      andThen_error]
  · simp only [hsize, if_false]
    rfl

theorem send_exec {c : Connection} {failure : Option Transfer} (h : c.socket.isOpen = true) :
    (send failure).exec c =
      (failure.elim (.ok ⟨⟩) fun t => .error (.system t.ec), { c with socket := { c.socket with
        accepted := c.socket.accepted ++
          c.outboundData.take (failure.elim c.outboundData.length Transfer.count) } }) := by
  rcases c with ⟨⟨isOpen, arrived, taken, accepted⟩, inboundData, outboundData⟩
  obtain rfl : isOpen = true := h
  cases failure with
  | none => rfl
  | some t => rfl

/-- Each call sends a preamble of its own. -/
theorem writeOneObject_exec {c : Connection} {obj : T} {failure : Option Transfer} (h : c.socket.isOpen = true) :
    (L.writeOneObject obj failure).exec c = (.ok failure.isNone,
      ⟨{ c.socket with accepted := c.socket.accepted ++
          (L.preamble ++ L.save obj).take (failure.elim (L.preamble ++ L.save obj).length Transfer.count) },
        c.inboundData, L.preamble ++ L.save obj⟩) := by
  have hsend := @send_exec { c with outboundData := L.preamble ++ L.save obj } failure h
  unfold TextArchives.writeOneObject
  simp only [exec_tryCatch, exec_bind, exec_modify, andThen_ok, hsend]
  cases failure with
  | none => rfl
  | some t => rfl

end

/-! ### With a buffer of the right size -/

section
variable {T A τ : Type} {L : TextArchives T A} {size : Nat} {archive : A}

/-- A buffer as long as the text that has arrived takes all of it. -/
theorem receive_sized {x : Reading τ} (h : x.connection.inboundData.length = x.connection.socket.arrived.length) :
    ∃ c : Connection, c.inboundData = x.connection.socket.arrived ∧
      receive.exec x = (.ok ⟨⟩, { x with connection := c }) := by
  refine ⟨_, ?_, receive_exec (Nat.le_of_eq h)⟩
  rw [h, List.take_length]

theorem readOneObject_sized {x : Reading T} {rest : A} {obj : T} (hopen : x.connection.socket.isOpen = true)
    (hsize : size ≤ x.connection.socket.arrived.length)
    (h : x.connection.inboundData.length = x.connection.socket.arrived.length)
    (hconstruct : L.construct x.connection.socket.arrived = .ok archive)
    (hload : L.load archive x.target = (.ok rest, obj)) :
    ((L.readOneObject size).exec x).1 = .ok true ∧ ((L.readOneObject size).exec x).2.target = obj := by
  obtain ⟨c, hc, hreceive⟩ := receive_sized h
  unfold TextArchives.readOneObject TextArchives.loadTarget
  simp only [exec_tryCatch, exec_bind, available_exec hopen, andThen_ok, hsize, if_true, hreceive, exec_get,
    exec_liftM, hc, hconstruct, hload, exec_set]
  exact ⟨rfl, rfl⟩

end

/-! ### Runs -/

theorem Side.other_ne (side : Side) : side.other ≠ side := by
  cases side <;> exact nofun

theorem Side.other_other (side : Side) : side.other.other = side := by
  cases side <;> rfl

theorem Side.eq_or_eq_other (s side : Side) : s = side ∨ s = side.other := by
  cases s <;> cases side <;> simp [Side.other]

/-- What a run keeps at a side: its buffer is empty, and it has read nothing of what the other side sent. -/
structure Steady (ends : Side → Connection) (side : Side) : Prop where
  isOpen : (ends side).socket.isOpen = true
  empty : (ends side).inboundData = []
  untouched : (ends side).socket.taken = []
  ordered : (ends side).socket.arrived <+: (ends side.other).socket.accepted

namespace Link

variable {T A : Type} {L : TextArchives T A} {size : Nat} {l u : Link T} {side : Side} {c : Connection}

theorem ends_put : (l.put side c).ends side = c := Function.update_self _ _ _

theorem ends_put_of_ne {s : Side} (h : s ≠ side) : (l.put side c).ends s = l.ends s :=
  Function.update_of_ne h _ _

theorem put_ends : l.put side (l.ends side) = l := by
  rw [put, Function.update_eq_self]

theorem steady_put (h : ∀ s, Steady l.ends s) (isOpen : c.socket.isOpen = true) (empty : c.inboundData = [])
    (untouched : c.socket.taken = []) (ordered : c.socket.arrived <+: (l.ends side.other).socket.accepted)
    (sent : (l.ends side).socket.accepted <+: c.socket.accepted) : ∀ s, Steady (l.put side c).ends s := by
  intro s
  have there := @ends_put_of_ne T l side c _ side.other_ne
  rcases s.eq_or_eq_other side with rfl | rfl
  · refine ⟨?_, ?_, ?_, ?_⟩
    · rw [ends_put, isOpen]
    · rw [ends_put, empty]
    · rw [ends_put, untouched]
    · rw [ends_put, there]
      exact ordered
  · have hs := h side.other
    refine ⟨?_, ?_, ?_, ?_⟩
    · rw [there, hs.isOpen]
    · rw [there, hs.empty]
    · rw [there, hs.untouched]
    · have hordered := hs.ordered
      rw [Side.other_other] at hordered
      rw [there, Side.other_other, ends_put]
      exact hordered.trans sent

/-- A call that reads leaves both connections as they are. -/
theorem put_readOne (h : Steady l.ends side) (target : T) :
    l.put side ((L.readOneObject size).exec ⟨l.ends side, target⟩).2.connection = l := by
  rw [readOneObject_nil L h.isOpen h.empty, put_ends]

theorem put_readAll (h : Steady l.ends side) (temp : T) (target : List T) :
    l.put side ((L.readAllObjects size temp).exec ⟨l.ends side, target⟩).2.connection = l := by
  rw [readAllObjects_nil L h.isOpen h.empty, put_ends]

theorem arrived_append_onTheWay (h : Steady l.ends side) :
    (l.ends side).socket.arrived ++ l.onTheWay side = (l.ends side.other).socket.accepted := by
  rw [onTheWay, h.untouched, List.nil_append]
  exact List.prefix_iff_eq_append.mp h.ordered

/-- Each step does what its action says to the connections and to the calls; the calls that read do nothing. -/
theorem step_cases {a : LinkAct T} (h : ∀ s, Steady l.ends s) (hs : step L size l a = some u) :
    (∃ side obj failure, u = l.write side obj ((L.writeOneObject obj failure).exec (l.ends side))) ∨
    (∃ side count, u = l.arrive side count) ∨ u = l := by
  cases a with
  | write side obj failure => exact .inl ⟨side, obj, failure, (Option.some.inj hs).symm⟩
  | arrive side count => exact .inr (.inl ⟨side, count, (Option.some.inj hs).symm⟩)
  | readOne side target =>
    obtain ⟨-, ⟨⟩⟩ := Option.ite_none_right_eq_some.mp hs
    exact .inr (.inr (put_readOne (h side) target))
  | readAll side temp target =>
    obtain ⟨-, ⟨⟩⟩ := Option.ite_none_right_eq_some.mp hs
    exact .inr (.inr (put_readAll (h side) temp target))

theorem steady_step {a : LinkAct T} (h : ∀ s, Steady l.ends s) (hs : step L size l a = some u) :
    ∀ s, Steady u.ends s := by
  rcases step_cases h hs with ⟨side, obj, failure, rfl⟩ | ⟨side, count, rfl⟩ | rfl
  · rw [writeOneObject_exec L (h side).isOpen]
    exact steady_put h (h side).isOpen (h side).empty (h side).untouched (h side).ordered (List.prefix_append _ _)
  · refine steady_put h (h side).isOpen (h side).empty (h side).untouched ?_ (List.prefix_refl _)
    rw [← arrived_append_onTheWay (h side)]
    exact (List.prefix_append_right_inj _).mpr (List.take_prefix _ _)
  · exact h

theorem steady_of_reachable (h : (system L size).Reachable l) : ∀ s, Steady l.ends s := by
  refine h.invariant (I := fun l => ∀ s, Steady l.ends s) ?_ fun t a u => steady_step
  rintro _ rfl s
  exact ⟨rfl, rfl, rfl, List.prefix_refl _⟩

/-- Where no call has failed, a side has sent the archives of its objects, one after another. -/
def SentAll (L : TextArchives T A) (l : Link T) (side : Side) : Prop :=
  (∀ w ∈ l.written side, w.2 = .ok true) →
    (l.ends side).socket.accepted = (l.written side).flatMap fun w => L.preamble ++ L.save w.1

theorem sentAll_step {a : LinkAct T} (h : ∀ s, Steady l.ends s) (sent : ∀ s, SentAll L l s)
    (hs : step L size l a = some u) : ∀ s, SentAll L u s := by
  rcases step_cases h hs with ⟨side, obj, failure, rfl⟩ | ⟨side, count, rfl⟩ | rfl
  · rw [writeOneObject_exec L (h side).isOpen]
    intro s ok
    by_cases hside : s = side
    · obtain rfl := hside
      simp only [write, put, Function.update_self] at ok ⊢
      obtain ⟨before, last⟩ := List.forall_mem_append.mp ok
      have hnone : failure = none := by simpa using List.forall_mem_singleton.mp last
      rw [sent s before, hnone, List.flatMap_append, List.flatMap_singleton, Option.elim_none, List.take_length]
    · simp only [write, put, Function.update_of_ne hside] at ok ⊢
      exact sent s ok
  · intro s ok
    by_cases hside : s = side
    · obtain rfl := hside
      simp only [arrive, ends_put]
      exact sent s ok
    · rw [arrive, ends_put_of_ne hside]
      exact sent s ok
  · exact sent

theorem sentAll_of_reachable (h : (system L size).Reachable l) : ∀ s, SentAll L l s := by
  suffices both : (∀ s, Steady l.ends s) ∧ ∀ s, SentAll L l s from both.2
  refine h.invariant (I := fun l => (∀ s, Steady l.ends s) ∧ ∀ s, SentAll L l s) ?_ ?_
  · intro t ht
    obtain rfl : t = connected := ht
    exact ⟨steady_of_reachable (.of_init (M := system L size) rfl), fun s _ => rfl⟩
  · rintro t a u ⟨steady, sent⟩ hs
    exact ⟨steady_step steady hs, sentAll_step steady sent hs⟩

/-- The other side has sent just `objs`, each with success, and all of it has arrived. -/
structure Delivered (l : Link T) (side : Side) (objs : List T) : Prop where
  written : l.written side.other = objs.map fun obj => (obj, .ok true)
  arrived : (l.ends side).socket.taken ++ (l.ends side).socket.arrived = (l.ends side.other).socket.accepted

variable {objs : List T}

theorem Delivered.arrived_eq (hd : l.Delivered side objs) (h : (system L size).Reachable l) :
    (l.ends side).socket.arrived = objs.flatMap fun obj => L.preamble ++ L.save obj := by
  have arrived := hd.arrived
  rw [(steady_of_reachable h side).untouched, List.nil_append] at arrived
  have ok : ∀ w ∈ l.written side.other, w.2 = .ok true := by
    rw [hd.written]
    exact List.forall_mem_map.mpr fun _ _ => rfl
  rw [arrived, sentAll_of_reachable h side.other ok, hd.written, List.flatMap_map]

theorem exists_written (L : TextArchives T A) (size : Nat) (side : Side) (objs : List T) :
    ∃ l, (system L size).Reachable l ∧ l.written side = objs.map fun obj => (obj, .ok true) := by
  induction objs using List.reverseRecOn with
  | nil => exact ⟨connected, .of_init rfl, rfl⟩
  | append_singleton objs obj ih =>
    obtain ⟨l, h, written⟩ := ih
    refine ⟨_, h.step (a := .write side obj none) rfl, ?_⟩
    rw [writeOneObject_exec L (steady_of_reachable h side).isOpen, List.map_append, ← written]
    exact Function.update_self _ _ _

/-- Any objects can be sent and arrive. -/
theorem exists_delivered (L : TextArchives T A) (size : Nat) (side : Side) (objs : List T) :
    ∃ l, (system L size).Reachable l ∧ l.Delivered side objs := by
  obtain ⟨l, h, written⟩ := exists_written L size side.other objs
  have steady := steady_of_reachable h side
  refine ⟨_, h.step (a := .arrive side (l.onTheWay side).length) rfl, written, ?_⟩
  rw [arrive, ends_put, ends_put_of_ne side.other_ne, List.take_length, steady.untouched]
  exact arrived_append_onTheWay steady

end Link

/-! ### The round trip -/

section
variable {T A : Type} (L : TextArchives T A) (size : Nat)

/-- `read_all_objects` returns true and appends `objs` to its target. -/
def ReadsAll (c : Connection) (temp : T) (target objs : List T) : Prop :=
  ((L.readAllObjects size temp).exec ⟨c, target⟩).1 = .ok true ∧
    ((L.readAllObjects size temp).exec ⟨c, target⟩).2.target = target ++ objs

/-- `read_one_object` returns true, and its target is `obj`. -/
def ReadsOne (c : Connection) (target obj : T) : Prop :=
  ((L.readOneObject size).exec ⟨c, target⟩).1 = .ok true ∧
    ((L.readOneObject size).exec ⟨c, target⟩).2.target = obj

variable {L size} {c : Connection}

theorem not_readsAll (isOpen : c.socket.isOpen = true) (empty : c.inboundData = []) (temp : T)
    (target objs : List T) : ¬ ReadsAll L size c temp target objs := by
  rw [ReadsAll, readAllObjects_nil L isOpen empty]
  rintro ⟨returned, -⟩
  split at returned <;> cases returned

theorem not_readsOne (isOpen : c.socket.isOpen = true) (empty : c.inboundData = []) (target obj : T) :
    ¬ ReadsOne L size c target obj := by
  rw [ReadsOne, readOneObject_nil L isOpen empty]
  rintro ⟨⟨⟩, -⟩

/-- One object would be read back if `inbound_data_` were given the size of what has arrived. -/
theorem readsOne_of_sized {l : Link T} {side : Side} {buffer : Buffer} {archive rest : A} {target obj : T}
    (h : (Link.system L size).Reachable l) (hd : l.Delivered side [obj])
    (hbuffer : buffer.length = (l.ends side).socket.arrived.length)
    (hsize : size ≤ (L.preamble ++ L.save obj).length)
    (hconstruct : L.construct (L.preamble ++ L.save obj) = .ok archive)
    (hload : L.load archive target = (.ok rest, obj)) :
    ReadsOne L size { l.ends side with inboundData := buffer } target obj := by
  have arrived := hd.arrived_eq h
  rw [List.flatMap_singleton] at arrived
  rw [← arrived] at hsize hconstruct
  exact readOneObject_sized (Link.steady_of_reachable h side).isOpen hsize hbuffer hconstruct hload

end

/-- Whatever Datagrams are sent, they can all arrive, and in no run is there a call at the other side that reads
    them back. -/
theorem round_trip_never {A : Type} (L : TextArchives Datagram A) (size : Nat) (side : Side) (ds : List Datagram) :
    (∃ l, (Link.system L size).Reachable l ∧ l.Delivered side ds) ∧
      ∀ l, (Link.system L size).Reachable l → l.Delivered side ds →
        (∀ n target, ¬ ReadsAll L size (l.ends side) (Datagram.new n) target ds) ∧
          ∀ d target, ds = [d] → ¬ ReadsOne L size (l.ends side) target d := by
  refine ⟨Link.exists_delivered L size side ds, fun l h _ => ?_⟩
  have steady := Link.steady_of_reachable h side
  exact ⟨fun n target => not_readsAll steady.isOpen steady.empty _ target ds,
    fun d target _ => not_readsOne steady.isOpen steady.empty target d⟩

/-! ### One Datagram -/

namespace FirstDatagram

def bytes (s : String) : Buffer := s.toList.map fun c => UInt8.ofNat c.toNat

def preamble : Buffer := bytes "22 serialization::archive 19"

/-- The text of the first Datagram that a program constructs, which has no data. -/
def text : Buffer := bytes " 0 0 1 0 0 0 0"

/-- Take `part` off the front of a text. -/
def skip (part buffer : Buffer) : Except Thrown Buffer :=
  if part <+: buffer then .ok (buffer.drop part.length) else .error .archive

theorem length_of_skip {part buffer rest : Buffer} (hpart : part ≠ []) (h : skip part buffer = .ok rest) :
    rest.length < buffer.length := by
  unfold skip at h
  split at h
  · rename_i hprefix
    obtain rfl := Except.ok.inj h
    have hpos := List.length_pos_iff.mpr hpart
    have hle := hprefix.length_le
    rw [List.length_drop]
    omega
  · cases h

theorem skip_throws {part buffer : Buffer} {e : Thrown} (h : skip part buffer = .error e) : e = .archive := by
  unfold skip at h
  split at h
  · cases h
  · exact (Except.error.inj h).symm

/-- Text archives of that Datagram. An input archive is the text that it has not read. -/
def archives : TextArchives Datagram Buffer where
  preamble := preamble
  save _ := text
  construct := skip preamble
  load archive target := (skip text archive, if text <+: archive then Datagram.new 0 else target)
  unread := List.length
  construct_reads := length_of_skip (List.cons_ne_nil _ _)
  construct_throws := skip_throws
  load_reads := length_of_skip (List.cons_ne_nil _ _)

theorem round_trip_never_first : ∃ l, (Link.system archives 32).Reachable l ∧ l.Delivered .right [Datagram.new 0] ∧
    ¬ ReadsAll archives 32 (l.ends .right) (Datagram.new 1) [] [Datagram.new 0] ∧
    ¬ ReadsOne archives 32 (l.ends .right) (Datagram.new 1) (Datagram.new 0) := by
  obtain ⟨⟨l, h, hd⟩, never⟩ := round_trip_never archives 32 .right [Datagram.new 0]
  obtain ⟨readsAll, readsOne⟩ := never l h hd
  exact ⟨l, h, hd, readsAll 1 [], readsOne _ _ rfl⟩

def sent : Link Datagram :=
  Link.connected.write .left (Datagram.new 0) ((archives.writeOneObject (Datagram.new 0) none).exec .connected)

def arrived : Link Datagram := sent.arrive .right 42

theorem reachable_arrived : (Link.system archives 32).Reachable arrived :=
  (System.Reachable.of_init rfl).run [.write .left (Datagram.new 0) none, .arrive .right 42] rfl

/-- All 42 bytes are there; `read_all_objects` throws what the archive throws, and `read_one_object` returns
    false. -/
theorem datagram_not_read_back : (Link.system archives 32).Reachable arrived ∧
    arrived.Delivered .right [Datagram.new 0] ∧
    ((archives.readAllObjects 32 (Datagram.new 1)).exec ⟨arrived.ends .right, []⟩).1 = .error .archive ∧
    ((archives.readOneObject 32).exec ⟨arrived.ends .right, Datagram.new 1⟩).1 = .ok false ∧
    ¬ ReadsAll archives 32 (arrived.ends .right) (Datagram.new 1) [] [Datagram.new 0] ∧
    ¬ ReadsOne archives 32 (arrived.ends .right) (Datagram.new 1) (Datagram.new 0) := by
  have steady := Link.steady_of_reachable reachable_arrived .right
  refine ⟨reachable_arrived, ⟨rfl, rfl⟩, ?_, ?_, ?_, ?_⟩
  · rw [readAllObjects_nil _ steady.isOpen steady.empty, if_pos (by decide)]
  · rw [readOneObject_nil _ steady.isOpen steady.empty]
  · exact not_readsAll steady.isOpen steady.empty _ _ _
  · exact not_readsOne steady.isOpen steady.empty _ _

end FirstDatagram

end ServiceBridge.Serialization
