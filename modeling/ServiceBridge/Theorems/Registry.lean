import ServiceBridge.Server
import ServiceBridge.Theorems.Lines

/-! The registry of services, and `parse_service_file` as a fold over the lines of the file that stops at the
    first line whose numbers do not convert. -/

namespace ServiceBridge
open Command

/-! ### The registry -/

/-- What a line asks for: `<topic_name>,<queue_size>,<request_length>,<response_length>`. -/
structure ServiceSpec where
  topicName : Str
  queueSize : Nat
  requestLength : Nat
  responseLength : Nat
  deriving DecidableEq, Repr

@[ext] structure Registry where
  services : List (ServiceQueue XferType)
  serviceNames : Finset Str

def Server.registry (s : Server) : Registry := ⟨s.services, s.serviceNames⟩

def Server.withRegistry (s : Server) (r : Registry) : Server :=
  { s with services := r.services, serviceNames := r.serviceNames }

def Registry.Admits (r : Registry) (spec : ServiceSpec) : Prop :=
  spec.topicName ∉ r.serviceNames ∧ max spec.requestLength spec.responseLength ≤ 32

instance (r : Registry) (spec : ServiceSpec) : Decidable (r.Admits spec) :=
  inferInstanceAs (Decidable (_ ∧ _))

def ServiceSpec.service (spec : ServiceSpec) : ServiceQueue XferType :=
  ServiceQueue.new spec.topicName spec.queueSize

def Registry.register (r : Registry) (spec : ServiceSpec) : Registry :=
  if r.Admits spec then ⟨r.services ++ [spec.service], insert spec.topicName r.serviceNames⟩ else r

theorem Registry.register_of_admits {r : Registry} {spec : ServiceSpec} (h : r.Admits spec) :
    r.register spec = ⟨r.services ++ [spec.service], insert spec.topicName r.serviceNames⟩ := if_pos h

theorem Registry.register_of_not {r : Registry} {spec : ServiceSpec} (h : ¬ r.Admits spec) :
    r.register spec = r := if_neg h

/-! ### Lines -/

def lineTokens (line : Str) : List Str := tokens (keptFields (line.splitOn ','))

/-- What a line asks for, `none` when it has too few attributes. -/
def lineSpec (line : Str) : Except Fault (Option ServiceSpec) :=
  match lineTokens line with
  | topicName :: spec1 :: spec2 :: spec3 :: _ =>
    match convertSpec spec1 spec2 spec3 with
    | .error e => .error e
    | .ok (qLen, reqLen, rspLen) => .ok (some ⟨topicName, qLen, reqLen, rspLen⟩)
  | _ => .ok none

def Registry.readLines (r : Registry) : List Str → Except Fault Unit × Registry
  | [] => (.ok (), r)
  | line :: lines =>
    match lineSpec line with
    | .error e => (.error e, r)
    | .ok none => r.readLines lines
    | .ok (some spec) => (r.register spec).readLines lines

/-- `stoull` does not throw at a line: it has too few tokens, or the second to fourth are accepted. -/
def Converts (line : Str) : Prop :=
  (lineTokens line).length < minAttrs ∨ ∀ t ∈ ((lineTokens line).drop 1).take 3, ∃ n, Str.stoull t = .ok n

theorem convertSpec_eq_ok {t1 t2 t3 : Str} {qLen reqLen rspLen : Nat} :
    convertSpec t1 t2 t3 = .ok (qLen, reqLen, rspLen) ↔
      Str.stoull t1 = .ok qLen ∧ Str.stoull t2 = .ok reqLen ∧ Str.stoull t3 = .ok rspLen := by
  unfold convertSpec
  cases Str.stoull t1 <;> [exact ⟨fun h => (by cases h), fun h => (by cases h.1)⟩; skip]
  cases Str.stoull t2 <;> [exact ⟨fun h => (by cases h), fun h => (by cases h.2.1)⟩; skip]
  cases Str.stoull t3 <;> [exact ⟨fun h => (by cases h), fun h => (by cases h.2.2)⟩; skip]
  show Except.ok _ = Except.ok _ ↔ _
  simp only [Except.ok.injEq, Prod.mk.injEq]

theorem converts_iff (line : Str) : Converts line ↔ ∃ spec?, lineSpec line = .ok spec? := by
  unfold Converts lineSpec
  rcases lineTokens line with _ | ⟨topic, _ | ⟨spec1, _ | ⟨spec2, _ | ⟨spec3, more⟩⟩⟩⟩
  · exact ⟨fun _ => ⟨none, rfl⟩, fun _ => Or.inl (by decide)⟩
  · exact ⟨fun _ => ⟨none, rfl⟩, fun _ => Or.inl (by decide : 1 < 4)⟩
  · exact ⟨fun _ => ⟨none, rfl⟩, fun _ => Or.inl (by decide : 2 < 4)⟩
  · exact ⟨fun _ => ⟨none, rfl⟩, fun _ => Or.inl (by decide : 3 < 4)⟩
  · have long : ¬ (topic :: spec1 :: spec2 :: spec3 :: more).length < minAttrs := by
      simp [minAttrs]
    simp only [long, false_or, List.drop_succ_cons, List.drop_zero, List.take_succ_cons, List.take_zero,
      List.forall_mem_cons, List.not_mem_nil, false_implies, implies_true, and_true]
    constructor
    · rintro ⟨⟨qLen, h1⟩, ⟨reqLen, h2⟩, rspLen, h3⟩
      rw [convertSpec_eq_ok.mpr ⟨h1, h2, h3⟩]
      exact ⟨_, rfl⟩
    · rintro ⟨spec?, h⟩
      cases hconv : convertSpec spec1 spec2 spec3 with
      | error e => rw [hconv] at h; cases h
      | ok lens =>
        obtain ⟨qLen, reqLen, rspLen⟩ := lens
        obtain ⟨h1, h2, h3⟩ := convertSpec_eq_ok.mp hconv
        exact ⟨⟨qLen, h1⟩, ⟨reqLen, h2⟩, rspLen, h3⟩

namespace Registry
variable {r : Registry} {lines : List Str}

theorem readLines_append (r : Registry) (A B : List Str) : r.readLines (A ++ B) =
    match r.readLines A with
    | (.error e, r') => (.error e, r')
    | (.ok _, r') => r'.readLines B := by
  induction A generalizing r with
  | nil => rfl
  | cons line A ih =>
    rw [List.cons_append, readLines, readLines]
    cases lineSpec line with
    | error e => rfl
    | ok spec? => cases spec? <;> exact ih _

theorem readLines_ok_iff : (r.readLines lines).1 = .ok () ↔ ∀ line ∈ lines, Converts line := by
  induction lines generalizing r with
  | nil => simp [readLines]
  | cons line lines ih =>
    rw [readLines, List.forall_mem_cons, converts_iff]
    cases h : lineSpec line with
    | error e => simp
    | ok spec? => cases spec? <;> simp [ih]

/-- `q` is the service of a line of `lines` that is reached, asks for it and is admitted there. -/
def StemsFrom (r : Registry) (lines : List Str) (q : ServiceQueue XferType) : Prop :=
  ∃ A line B spec, lines = A ++ line :: B ∧ (r.readLines A).1 = .ok () ∧ lineSpec line = .ok (some spec) ∧
    (r.readLines A).2.Admits spec ∧ spec.service = q

theorem StemsFrom.cons {r' : Registry} {line : Str} {q : ServiceQueue XferType}
    (hr : ∀ A, r.readLines (line :: A) = r'.readLines A) (h : r'.StemsFrom lines q) :
    r.StemsFrom (line :: lines) q := by
  obtain ⟨A, line', B, spec, rfl, hok, hspec, hadm, rfl⟩ := h
  exact ⟨line :: A, line', B, spec, rfl, by rw [hr]; exact hok, hspec, by rw [hr]; exact hadm, rfl⟩

theorem readLines_added (r : Registry) (lines : List Str) : ∃ added,
    (r.readLines lines).2.services = r.services ++ added ∧ ∀ q ∈ added, r.StemsFrom lines q := by
  induction lines generalizing r with
  | nil => exact ⟨[], (List.append_nil _).symm, by simp⟩
  | cons line lines ih =>
    cases h : lineSpec line with
    | error e => exact ⟨[], by rw [readLines, h, List.append_nil], by simp⟩
    | ok spec? =>
      cases spec? with
      | none =>
        have hr : ∀ A, r.readLines (line :: A) = r.readLines A := fun A => by rw [readLines, h]
        obtain ⟨added, happ, hadded⟩ := ih r
        exact ⟨added, by rw [hr, happ], fun q hq => (hadded q hq).cons hr⟩
      | some spec =>
        have hr : ∀ A, r.readLines (line :: A) = (r.register spec).readLines A := fun A => by rw [readLines, h]
        obtain ⟨added, happ, hadded⟩ := ih (r.register spec)
        by_cases hadm : r.Admits spec
        · refine ⟨spec.service :: added, ?_, ?_⟩
          · rw [hr, happ, register_of_admits hadm, List.append_assoc, List.singleton_append]
          · intro q hq
            rcases List.mem_cons.mp hq with rfl | hq
            · exact ⟨[], line, lines, spec, rfl, rfl, h, hadm, rfl⟩
            · exact (hadded q hq).cons hr
        · exact ⟨added, by rw [hr, happ, register_of_not hadm], fun q hq => (hadded q hq).cons hr⟩

/-! ### Consistency -/

/-- The two containers agree: the services have distinct names, which are exactly the names in the set. -/
structure Consistent (r : Registry) : Prop where
  distinct : (r.services.map (·.topicName)).Nodup
  names : ∀ name, name ∈ r.serviceNames ↔ name ∈ r.services.map (·.topicName)

theorem Consistent.register {spec : ServiceSpec} (h : r.Consistent) : (r.register spec).Consistent := by
  by_cases hadm : r.Admits spec
  · rw [register_of_admits hadm]
    have hnew : spec.topicName ∉ r.services.map (·.topicName) := fun hm => hadm.1 ((h.names _).mpr hm)
    constructor
    · rw [List.map_append, List.nodup_append]
      refine ⟨h.distinct, List.nodup_singleton _, ?_⟩
      rintro a ha b hb rfl
      obtain rfl : a = spec.topicName := by simpa [ServiceSpec.service, ServiceQueue.new] using hb
      exact hnew ha
    · intro name
      simp only [Finset.mem_insert, h.names, List.map_append, List.mem_append, List.map_singleton,
        List.mem_singleton]
      exact or_comm
  · rwa [register_of_not hadm]

theorem Consistent.readLines (h : r.Consistent) (lines : List Str) : (r.readLines lines).2.Consistent := by
  induction lines generalizing r with
  | nil => exact h
  | cons line lines ih =>
    rw [Registry.readLines]
    cases lineSpec line with
    | error e => exact h
    | ok spec? =>
      cases spec? with
      | none => exact ih h
      | some spec => exact ih h.register

end Registry

theorem lineTokens_exec (line : Str) : splitCSVLine line ",".toList true = .ok (lineTokens line) :=
  splitCSVLine_char line ',' true

theorem addService_exec (spec : ServiceSpec) (p : Process) : ∃ cout,
    (addService spec.topicName spec.queueSize (max spec.requestLength spec.responseLength)).exec p =
      (.ok ⟨⟩, ⟨p.server.withRegistry (p.server.registry.register spec), cout⟩) := by
  unfold addService
  simp only [exec_bind, exec_get, andThen_ok]
  by_cases hname : spec.topicName ∈ p.server.serviceNames
  · have hno : ¬ p.server.registry.Admits spec := fun h => h.1 hname
    rw [Registry.register_of_not hno, if_neg (by simp [containerHas, hname])]
    exact ⟨_, rfl⟩
  · rw [if_pos (by simp [containerHas, hname])]
    by_cases hlen : max spec.requestLength spec.responseLength ≤ 32
    · rw [Registry.register_of_admits ⟨hname, hlen⟩, if_pos hlen]
      exact ⟨_, rfl⟩
    · have hno : ¬ p.server.registry.Admits spec := fun h => hlen h.2
      rw [Registry.register_of_not hno, if_neg hlen]
      exact ⟨_, rfl⟩

/-- One pass of the loop: an exception leaves everything as it was, a line that asks for a service goes to
    `register`, and nothing else of the server is touched. -/
theorem parseLine_exec (topicName line : Str) (p : Process) :
    match lineSpec line with
    | .error e => (parseLine topicName line).exec p = (.error e, p)
    | .ok none => ∃ cout, (parseLine topicName line).exec p = (.ok topicName, ⟨p.server, cout⟩)
    | .ok (some spec) => ∃ cout, (parseLine topicName line).exec p =
        (.ok spec.topicName, ⟨p.server.withRegistry (p.server.registry.register spec), cout⟩) := by
  unfold parseLine lineSpec
  simp only [exec_bind, exec_liftM, lineTokens_exec, andThen_ok]
  rcases lineTokens line with _ | ⟨topic, _ | ⟨spec1, _ | ⟨spec2, _ | ⟨spec3, more⟩⟩⟩⟩
  · exact ⟨_, rfl⟩
  · exact ⟨_, rfl⟩
  · exact ⟨_, rfl⟩
  · exact ⟨_, rfl⟩
  · cases h : convertSpec spec1 spec2 spec3 with
    | error e => simp only [exec_bind, exec_liftM, h, andThen_error]
    | ok lens =>
      obtain ⟨qLen, reqLen, rspLen⟩ := lens
      obtain ⟨cout, hadd⟩ := addService_exec ⟨topic, qLen, reqLen, rspLen⟩ p
      simp only [exec_bind, exec_liftM, h, andThen_ok, hadd, exec_pure]
      exact ⟨cout, rfl⟩

/-- The loop over the lines is `readLines` on the registry; the rest of the server is not touched. -/
theorem foldlM_parseLine_exec (lines : List Str) (topicName : Str) (p : Process) :
    ∃ r cout, (lines.foldlM parseLine topicName).exec p =
      (r, ⟨p.server.withRegistry (p.server.registry.readLines lines).2, cout⟩) ∧
      r.map (fun _ => ()) = (p.server.registry.readLines lines).1 := by
  induction lines generalizing topicName p with
  | nil => exact ⟨.ok topicName, p.cout, rfl, rfl⟩
  | cons line lines ih =>
    have first := parseLine_exec topicName line p
    rw [List.foldlM_cons, exec_bind, Registry.readLines]
    cases h : lineSpec line with
    | error e =>
      rw [h] at first
      rw [first, andThen_error]
      exact ⟨.error e, p.cout, rfl, rfl⟩
    | ok spec? =>
      rw [h] at first
      cases spec? with
      | none =>
        obtain ⟨cout, first⟩ := first
        rw [first, andThen_ok]
        exact ih topicName ⟨p.server, cout⟩
      | some spec =>
        obtain ⟨cout, first⟩ := first
        rw [first, andThen_ok]
        exact ih spec.topicName _

/-- The services when the loop over the lines has passed, or thrown at, the last of `lines`. -/
def servicesAfter (p : Process) (lines : List Str) : List (ServiceQueue XferType) :=
  ((lines.foldlM parseLine []).exec p).2.server.services

theorem servicesAfter_eq (p : Process) (lines : List Str) :
    servicesAfter p lines = (p.server.registry.readLines lines).2.services := by
  obtain ⟨r, cout, hloop, -⟩ := foldlM_parseLine_exec lines [] p
  rw [servicesAfter, hloop]
  rfl

/-- `parse_service_file` reads the lines of the file into the registry and returns whether there was one,
    unless a line ends it with an exception. -/
theorem parseServiceFile_exec (files : Str → File) (path : Str) (p : Process) :
    ∃ cout, (parseServiceFile files path).exec p =
      (((p.server.registry.readLines (fileLines files path)).1).map fun _ =>
          decide (minLines ≤ (fileLines files path).length),
        ⟨p.server.withRegistry (p.server.registry.readLines (fileLines files path)).2, cout⟩) := by
  obtain ⟨printed, hread⟩ := readlines_eq files path
  unfold parseServiceFile
  simp only [exec_bind, exec_liftM, hread, andThen_ok]
  have hprint : ∀ (texts : List Str) (p : Process), ∃ cout,
      (texts.forM print).exec p = (.ok ⟨⟩, ⟨p.server, cout⟩) := by
    intro texts
    induction texts with
    | nil => exact fun p => ⟨p.cout, rfl⟩
    | cons text texts ih => exact fun p => ih _
  obtain ⟨cout, hcout⟩ := hprint printed p
  rw [hcout, andThen_ok]
  by_cases hlen : minLines ≤ (fileLines files path).length
  · obtain ⟨r, cout', hloop, hr⟩ := foldlM_parseLine_exec (fileLines files path) [] ⟨p.server, cout⟩
    rw [if_pos hlen, exec_bind, hloop, ← hr, decide_eq_true hlen]
    cases r <;> exact ⟨cout', rfl⟩
  · have hnil : fileLines files path = [] := by
      rw [← List.length_eq_zero_iff]
      unfold minLines at hlen
      omega
    rw [if_neg hlen, decide_eq_false hlen, hnil]
    exact ⟨_, rfl⟩

end ServiceBridge
