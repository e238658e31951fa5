import ServiceBridge.Framing
import ServiceBridge.Theorems.Hex

/-! Messages that one end of a stream writes are read at the other end, and what any bytes from another peer do. -/

namespace ServiceBridge.Framing
open Incremental Str

variable {T : Type} {A : Archives T} {bytes header data : Str} {t : T} {ts : List T} {n : Nat}

/-! ### One message -/

/-- The bytes of a message. -/
def frame (A : Archives T) (t : T) : Str := writeHex headerLength (A.save t).length ++ A.save t

/-- The data that a header can be written for. -/
def Fits (A : Archives T) (t : T) : Prop := (A.save t).length < 16 ^ headerLength

theorem length_header : (writeHex headerLength n).length = headerLength ↔ n < 16 ^ headerLength :=
  length_writeHex_eq_iff (by decide)

theorem outbound_of_fits (h : Fits A t) : outbound A t = .ok (frame A t) := by
  rw [outbound]
  exact if_neg (not_not.mpr (length_header.mpr h))

theorem outbound_of_not_fits (h : ¬Fits A t) : outbound A t = .error .invalidArgument := by
  rw [outbound]
  exact if_pos fun hlen => h (length_header.mp hlen)

theorem quiet_header (h : bytes.length < headerLength) : Quiet (receive A) (.header []) bytes (.header bytes) := by
  refine .loop Inbound.header fun front c hfront => ?_
  have hlen := hfront.length_le
  rw [receive]
  exact if_pos (by omega)

theorem quiet_data (h : bytes.length < n) : Quiet (receive A) (.data n []) bytes (.data n bytes) := by
  refine .loop (Inbound.data n) fun front c hfront => ?_
  have hlen := hfront.length_le
  rw [receive]
  exact if_pos (by omega)

/-- The last byte of a header. -/
theorem receive_header {front : Str} {c : Char} (h : (front ++ [c]).length = headerLength) :
    receive A (.header front) c = handleReadHeader (front ++ [c]) := by
  rw [receive]
  exact if_neg (by omega)

theorem receive_data {front : Str} {c : Char} (h : (front ++ [c]).length = n) :
    receive A (.data n front) c = .ok (some (handleReadData A (front ++ [c])), .header []) := by
  rw [receive]
  exact if_neg (by omega)

/-- What the handler of a header does with the number in it. -/
theorem handleReadHeader_eq (h : header.length = headerLength) : handleReadHeader (T := T) header =
    match readHex header with
    | none => .ok (some (.error .invalidArgument), .header [])
    | some (_, 0) => .error .undefined
    | some (true, _ + 1) => .error .lengthError
    | some (false, n + 1) => .ok (none, .data (n + 1) []) := by
  have range : sizeRange = 18446744073709551616 := by decide
  cases hread : readHex header with
  | none => simp only [handleReadHeader, readHexSize, hread, Option.bind_eq_bind, Option.bind_none]
  | some r =>
    obtain ⟨minus, n⟩ := r
    have hlt : n < 4294967296 := by
      have hlt := readHex_lt hread
      rwa [h] at hlt
    have hsize : readHexSize header = some (if minus then (sizeRange - n) % sizeRange else n) := by
      rw [readHexSize, hread]
      exact if_pos (by omega)
    rw [handleReadHeader, hsize]
    rcases n with _ | n
    · cases minus <;> rfl
    · cases minus
      · exact (if_neg (by simp only [maxSize, Bool.false_eq_true, if_false]; omega)).trans (if_neg (by simp))
      · refine if_pos ?_
        simp only [if_true, maxSize, range]
        omega

/-- What any bytes do to a connection that reads a message: the outcome, what is left of the bytes, and what the
    connection has then. -/
def firstMessage (A : Archives T) (bytes : Str) : Except Broken (Option (Result T) × Str × Inbound) :=
  if bytes.length < headerLength then .ok (none, [], .header bytes)
  else
    let rest := bytes.drop headerLength
    match readHex (bytes.take headerLength) with
    | none => .ok (some (.error .invalidArgument), rest, .header [])
    | some (_, 0) => .error .undefined
    | some (true, _ + 1) => .error .lengthError
    | some (false, n + 1) =>
      if rest.length < n + 1 then .ok (none, [], .data (n + 1) rest)
      else .ok (some (handleReadData A (rest.take (n + 1))), rest.drop (n + 1), .header [])

theorem exists_concat (h : bytes.length = n + 1) : ∃ front c, bytes = front ++ [c] ∧ front.length = n := by
  have hne : bytes ≠ [] := by
    rintro rfl
    cases h
  refine ⟨bytes.dropLast, bytes.getLast hne, (List.dropLast_concat_getLast hne).symm, ?_⟩
  rw [List.length_dropLast, h, Nat.add_sub_cancel]

theorem feed_header (h : header.length = headerLength) (rest : Str) :
    feed (receive A) (.header []) (header ++ rest) = match handleReadHeader header with
      | .error e => .error e
      | .ok (some r, s) => .ok (some r, rest, s)
      | .ok (none, s) => feed (receive A) s rest := by
  obtain ⟨front, c, rfl, hfront⟩ := exists_concat h
  have hlast := receive_header (A := A) h
  rw [List.append_assoc, feed_of_quiet (quiet_header (by rw [hfront]; decide)), List.singleton_append, feed, hlast]
  rcases handleReadHeader (T := T) (front ++ [c]) with e | ⟨_ | r, s⟩ <;> rfl

theorem feed_data (h : data.length = n + 1) (rest : Str) :
    feed (receive A) (.data (n + 1) []) (data ++ rest) = .ok (some (handleReadData A data), rest, .header []) := by
  obtain ⟨front, c, rfl, hfront⟩ := exists_concat h
  rw [List.append_assoc, feed_of_quiet (quiet_data (by rw [hfront]; exact Nat.lt_succ_self n)), List.singleton_append,
    feed, receive_data h]

/-- The reads that a message takes come to the same as one look at all the bytes. -/
theorem feed_receive_eq (A : Archives T) (bytes : Str) :
    feed (receive A) (.header []) bytes = firstMessage A bytes := by
  rw [firstMessage]
  by_cases hshort : bytes.length < headerLength
  · rw [if_pos hshort]
    exact feed_eq_none_iff.mpr ⟨rfl, quiet_header hshort⟩
  · rw [if_neg hshort]
    have htake : (bytes.take headerLength).length = headerLength := by
      rw [List.length_take]
      omega
    conv_lhs => rw [← List.take_append_drop headerLength bytes]
    rw [feed_header htake, handleReadHeader_eq htake]
    rcases readHex (bytes.take headerLength) with _ | ⟨_ | _, _ | n⟩
    · rfl
    · rfl
    · simp only
      generalize bytes.drop headerLength = rest
      by_cases hless : rest.length < n + 1
      · rw [if_pos hless]
        exact feed_eq_none_iff.mpr ⟨rfl, quiet_data hless⟩
      · rw [if_neg hless]
        have hdata : (rest.take (n + 1)).length = n + 1 := by
          rw [List.length_take]
          omega
        have hfeed := feed_data (A := A) hdata (rest.drop (n + 1))
        rwa [List.take_append_drop] at hfeed
    · rfl
    · rfl

/-! ### Any number of messages -/

section
variable (hload : ∀ t, A.load (A.save t) = some t) (hne : ∀ t, A.save t ≠ [])
include hload hne

theorem feed_frame (h : Fits A t) (rest : Str) :
    feed (receive A) (.header []) (frame A t ++ rest) = .ok (some (.ok t), rest, .header []) := by
  have hlength : (A.save t).length ≠ 0 := fun h0 => hne t (List.length_eq_zero_iff.mp h0)
  obtain ⟨n, hn⟩ := Nat.exists_eq_succ_of_ne_zero hlength
  have hheader := length_header.mpr h
  rw [frame, List.append_assoc, feed_header hheader, handleReadHeader_eq hheader, readHex_writeHex, hn]
  simp only
  rw [feed_data hn, handleReadData, hload]

theorem answers_frames (h : ∀ t ∈ ts, Fits A t) :
    answers (receive A) (.header []) (ts.flatMap (frame A)) = .ok (ts.map .ok, .header []) := by
  induction ts with
  | nil => rfl
  | cons t ts ih =>
    rw [List.forall_mem_cons] at h
    rw [List.flatMap_cons]
    exact answers_of_feed (feed_frame hload hne h.1 _) (ih h.2)

end

/-! ### Runs -/

/-- A read that has begun to get bytes is not at the start of a message. -/
theorem receive_ne_start {s u : Inbound} {c : Char} (h : receive A s c = .ok (none, u)) : u ≠ .header [] := by
  rintro rfl
  cases s with
  | header got =>
    rw [receive] at h
    split_ifs at h with hlt
    · simp at h
    · rw [handleReadHeader] at h
      split at h
      · cases h
      · split_ifs at h
        cases h
  | data size got =>
    rw [receive] at h
    split_ifs at h
    · cases h
    · cases h

structure Intact (A : Archives T) (s : Link T) : Prop where
  written : ∀ t ∈ s.written, Fits A t
  refused : ∀ t ∈ s.refused, ¬Fits A t
  stream : s.written.flatMap (frame A) = s.arrived ++ s.wire ++ s.unsent
  broken : s.broken = none
  reading : ∃ results, answers (receive A) (.header []) s.arrived = .ok (results, s.inbound) ∧
    s.read = results ++ s.lost.toList.map .error

section
variable (hload : ∀ t, A.load (A.save t) = some t) (hne : ∀ t, A.save t ≠ []) {s t : Link T}

theorem Intact.write (h : Intact A s) (hunsent : s.unsent = []) (m : T) : Intact A (s.write A m) := by
  by_cases hfits : Fits A m
  · rw [Link.write, outbound_of_fits hfits]
    refine ⟨List.forall_mem_append.mpr ⟨h.written, List.forall_mem_singleton.mpr hfits⟩, h.refused, ?_, h.broken, h.reading⟩
    have hstream := h.stream
    rw [hunsent, List.append_nil] at hstream
    simp only [List.flatMap_append, hstream, List.flatMap_singleton]
  · rw [Link.write, outbound_of_not_fits hfits]
    exact ⟨h.written, List.forall_mem_append.mpr ⟨h.refused, List.forall_mem_singleton.mpr hfits⟩, h.stream, h.broken,
      h.reading⟩

include hload hne

theorem Intact.take (h : Intact A s) {c : Char} {wire : Str} (hwire : s.wire = c :: wire) (hlost : s.lost = none) :
    Intact A (s.take A c wire) := by
  have hstream : s.written.flatMap (frame A) = (s.arrived ++ [c]) ++ (wire ++ s.unsent) := by
    rw [h.stream, hwire]
    simp
  obtain ⟨results, hresults, hread⟩ := h.reading
  have hall := answers_frames hload hne h.written
  rw [hstream] at hall
  obtain ⟨front, back, u, hfront, -, -⟩ := answers_of_append hall
  rw [answers_concat hresults] at hfront
  cases hc : receive A s.inbound c with
  | error e =>
    rw [hc] at hfront
    cases hfront
  | ok r =>
    rw [Link.take, hc]
    refine ⟨h.written, h.refused, by rw [hstream, List.append_assoc _ wire], h.broken, results ++ r.1.toList, ?_, ?_⟩
    · show answers (receive A) (.header []) (s.arrived ++ [c]) = _
      rw [answers_concat hresults, hc]
      rfl
    · rw [hread, hlost]
      simp

theorem Intact.step {a : Act T} (h : Intact A s) (hs : s.step A a = some t) : Intact A t := by
  cases a with
  | write m =>
    rw [Link.step, Option.ite_none_right_eq_some, Option.some.injEq] at hs
    obtain ⟨hunsent, rfl⟩ := hs
    exact h.write hunsent m
  | send =>
    rw [Link.step] at hs
    split at hs
    · cases hs
    · next c unsent hunsent =>
      cases hs
      refine ⟨h.written, h.refused, ?_, h.broken, h.reading⟩
      rw [h.stream, hunsent]
      simp
  | arrive =>
    rw [Link.step] at hs
    split at hs
    · cases hs
    · next c wire hwire =>
      rw [Option.ite_none_right_eq_some, Option.some.injEq] at hs
      obtain ⟨⟨-, hlost⟩, rfl⟩ := hs
      exact h.take hload hne hwire hlost
  | lose code =>
    rw [Link.step, Option.ite_none_right_eq_some, Option.some.injEq] at hs
    obtain ⟨⟨-, hlost⟩, rfl⟩ := hs
    obtain ⟨results, hresults, hread⟩ := h.reading
    refine ⟨h.written, h.refused, h.stream, h.broken, results, hresults, ?_⟩
    simp [Link.lose, hread, hlost]

theorem Intact.of_reachable (h : (Link.system A).Reachable s) : Intact A s := by
  refine h.invariant (I := Intact A) ?_ fun s a t hs hstep => hs.step hload hne hstep
  rintro s rfl
  exact ⟨List.forall_mem_nil _, List.forall_mem_nil _, rfl, rfl, [], rfl, rfl⟩

end

/-- What has been read when some of the bytes of messages have come: the messages that have come whole. -/
theorem answers_arrived (hload : ∀ t, A.load (A.save t) = some t) (hne : ∀ t, A.save t ≠ []) {written : List T}
    {arrived rest : Str} {results : List (Result T)} {u : Inbound} (hfits : ∀ t ∈ written, Fits A t)
    (hstream : written.flatMap (frame A) = arrived ++ rest)
    (hresults : answers (receive A) (.header []) arrived = .ok (results, u)) :
    ∃ front, front <+: written ∧ results = front.map .ok ∧
      ∀ more, more <+: written → (more.flatMap (frame A) <+: arrived ↔ more <+: front) := by
  have hall := answers_frames hload hne hfits
  rw [hstream] at hall
  obtain ⟨results', back, u', hresults', hback, happend⟩ := answers_of_append hall
  cases hresults.symm.trans hresults'
  obtain ⟨front, after, hwritten, rfl, -⟩ := List.map_eq_append_iff.mp happend.symm
  have hfront : front <+: written := ⟨after, hwritten.symm⟩
  refine ⟨front, hfront, rfl, fun more hmore => ⟨fun harrived => ?_, fun hmore => ?_⟩⟩
  · obtain ⟨z, rfl⟩ := harrived
    obtain ⟨front', back', v, hfront', -, happend'⟩ := answers_of_append hresults
    cases hfront'.symm.trans (answers_frames hload hne fun t ht => hfits t (hmore.subset ht))
    have hlen := congrArg List.length happend'
    rw [List.length_append, List.length_map, List.length_map] at hlen
    exact List.prefix_of_prefix_length_le hmore hfront (by omega)
  · have hmono : more.flatMap (frame A) <+: front.flatMap (frame A) := by
      obtain ⟨last, rfl⟩ := hmore
      rw [List.flatMap_append]
      exact List.prefix_append _ _
    have htotal : front.flatMap (frame A) <+: arrived ++ rest := by
      rw [← hstream, hwritten, List.flatMap_append]
      exact List.prefix_append _ _
    rcases List.prefix_or_prefix_of_prefix htotal (List.prefix_append arrived rest) with hle | ⟨ys, hys⟩
    · exact hmono.trans hle
    -- the bytes that are missing would bring no message and yet end at the start of one
    have hwhole := answers_frames hload hne fun t ht => hfits t (hfront.subset ht)
    rw [← hys] at hwhole
    obtain ⟨front', back', v, hfront', hback', happend'⟩ := answers_of_append hwhole
    cases hresults.symm.trans hfront'
    rw [List.append_right_eq_self] at happend'
    subst happend'
    cases quiet_of_answers hback' with
    | nil =>
      rw [List.append_nil] at hys
      exact hys ▸ hmono
    | snoc _ hc => exact absurd rfl (receive_ne_start hc)

/-- One end reads the messages that the other end wrote, in their order and each once: at any time those that have
    come whole. Only what is too long for a header is not sent. -/
theorem messages_in_order (hload : ∀ t, A.load (A.save t) = some t) (hne : ∀ t, A.save t ≠ []) (s : Link T)
    (h : (Link.system A).Reachable s) :
    s.broken = none ∧ (∀ t ∈ s.written, Fits A t) ∧ (∀ t ∈ s.refused, ¬Fits A t) ∧
      ∃ front, front <+: s.written ∧ s.read = front.map .ok ++ s.lost.toList.map .error ∧
        ∀ more, more <+: s.written → (more.flatMap (frame A) <+: s.arrived ↔ more <+: front) := by
  obtain ⟨hwritten, hrefused, hstream, hbroken, results, hresults, hread⟩ := Intact.of_reachable hload hne h
  rw [List.append_assoc] at hstream
  obtain ⟨front, hfront, rfl, hwhole⟩ := answers_arrived hload hne hwritten hstream hresults
  exact ⟨hbroken, hwritten, hrefused, front, hfront, hread, hwhole⟩

def letters : Archives Bool where
  save b := if b then ['t'] else ['f']
  load s := if s = ['t'] then some true else if s = ['f'] then some false else none

/-- A message has come whole, and of the next one a byte. -/
theorem messages_in_order_letters : ∃ s, (Link.system letters).Reachable s ∧ s.written = [true, false] ∧
    s.read = [.ok true] ∧ s.arrived.length = 10 ∧ s.broken = none ∧ (∀ t ∈ s.written, Fits letters t) ∧
      (∀ t ∈ s.refused, ¬Fits letters t) ∧
      ∃ front, front <+: s.written ∧ s.read = front.map .ok ++ s.lost.toList.map .error ∧
        ∀ more, more <+: s.written → (more.flatMap (frame letters) <+: s.arrived ↔ more <+: front) := by
  have hinitial : (Link.system letters).Reachable .initial := .of_init rfl
  have hfirst := hinitial.run (.write true :: List.replicate 9 .send) rfl
  have hsecond := hfirst.run (.write false :: .send :: List.replicate 10 .arrive) rfl
  exact ⟨_, hsecond, rfl, rfl, rfl, messages_in_order (by decide) (by decide) _ hsecond⟩

end ServiceBridge.Framing
