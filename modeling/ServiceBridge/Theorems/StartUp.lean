import ServiceBridge.Library.Transition
import ServiceBridge.Theorems.FirstMatch
import ServiceBridge.Theorems.ThreadBudget

/-! From a constructor to `init_server`, and `init_server` again. It divides by the number of services, which
    nothing makes positive, and appends its threads to those of an earlier call. -/

namespace ServiceBridge
open Command

/-! ### The division -/

theorem initServer_divides_iff {host : Host} {p : Process} :
    ((initServer host).exec p).1 = .error .divisionByZero ↔ p.server.serviceNames = ∅ := by
  rw [← Finset.card_eq_zero]
  refine ⟨fun h => by_contra fun hS => ?_, initServer_zero host p⟩
  obtain ⟨returns, diverges⟩ := initServer_exec host p hS
  rcases Nat.lt_or_ge (totalThreads (cpuLim host) p.server.nThreadsPerTopic p.server.serviceNames.card) (2 ^ 32) with
    hlt | hge
  · rw [returns hlt] at h
    cases h
  · rw [diverges hge] at h
    cases h

theorem constructFrom_exec (files : Str → File) (path : Str) (p : Process) :
    (constructFrom files path).exec p =
      (((parseServiceFile files path).exec p).1.map fun _ => ⟨⟩, ((parseServiceFile files path).exec p).2) := by
  unfold constructFrom
  rw [exec_bind]
  rcases (parseServiceFile files path).exec p with ⟨_ | b, p'⟩ <;> rfl

theorem constructFrom_ok_iff {files : Str → File} {path : Str} {p : Process} :
    ((constructFrom files path).exec p).1 = .ok ⟨⟩ ↔ ∀ line ∈ fileLines files path, Converts line := by
  rw [constructFrom_exec, ← parse_ok_iff (p := p)]
  cases ((parseServiceFile files path).exec p).1 with
  | error e => exact iff_of_false (fun h => nomatch h) fun ⟨b, hb⟩ => nomatch hb
  | ok b => exact iff_of_true rfl ⟨b, rfl⟩

theorem parse_names_ne_empty_iff {files : Str → File} {path : Str} {p : Process} (names : p.server.serviceNames = ∅)
    (h : ∀ line ∈ fileLines files path, Converts line) :
    ((parseServiceFile files path).exec p).2.server.serviceNames ≠ ∅ ↔
      ∃ line ∈ fileLines files path, ∃ spec, Qualifies line spec := by
  have same : ((parseServiceFile files path).exec p).2.server.serviceNames = _ :=
    congrArg Registry.serviceNames (parse_registry files path p)
  have none : ∀ name, name ∉ p.server.registry.serviceNames := Finset.eq_empty_iff_forall_notMem.mp names
  rw [same, ← Finset.nonempty_iff_ne_empty]
  constructor
  · rintro ⟨name, hname⟩
    obtain ⟨line, hl, spec, hq, -⟩ := ((mem_readLines_names h name).mp hname).resolve_left (none name)
    exact ⟨line, hl, spec, hq⟩
  · rintro ⟨line, hl, spec, hq⟩
    exact ⟨spec.topicName, (mem_readLines_names h _).mpr (Or.inr ⟨line, hl, spec, hq, rfl⟩)⟩

/-- A server that is made and then initialised does not divide by zero exactly if it was made from a file
    in which some line qualifies. -/
theorem start_up_divides_iff {c : Construction} {mTotalThreads numServices : Nat}
    (returns : (c.body.exec (c.start mTotalThreads numServices)).1 = .ok ⟨⟩) (host : Host) :
    ((initServer host).exec (c.body.exec (c.start mTotalThreads numServices)).2).1 ≠ .error .divisionByZero ↔
      ∃ files path nThreadP port, c = .file files path nThreadP port ∧
        ∃ line ∈ fileLines files path, ∃ spec, Qualifies line spec := by
  rw [Ne, initServer_divides_iff]
  cases c with
  | dflt =>
    refine iff_of_false (fun hne => hne rfl) ?_
    rintro ⟨files, path, nThreadP, port, hc, -⟩
    cases hc
  | file files path nThreadP port =>
    rw [Construction.body] at returns ⊢
    have names := @parse_names_ne_empty_iff files path
      ((Construction.file files path nThreadP port).start mTotalThreads numServices) rfl
      (constructFrom_ok_iff.mp returns)
    rw [constructFrom_exec, ← Ne, names]
    constructor
    · exact fun h => ⟨files, path, nThreadP, port, rfl, h⟩
    · rintro ⟨_, _, _, _, hc, h⟩
      cases hc
      exact h

theorem start_up_divides_iff_limit :
    ((Construction.file limitFile [] 2 8000).body.exec
      ((Construction.file limitFile [] 2 8000).start 0 0)).1 = .ok ⟨⟩ ∧
    ((initServer ⟨4, by decide, []⟩).exec ((Construction.file limitFile [] 2 8000).body.exec
      ((Construction.file limitFile [] 2 8000).start 0 0)).2).1 ≠ .error .divisionByZero := by
  have returns : ((Construction.file limitFile [] 2 8000).body.exec
    ((Construction.file limitFile [] 2 8000).start 0 0)).1 = .ok ⟨⟩ := by rfl
  have line : (fileLines limitFile [])[1]? = some "t,6,10,10".toList := by rfl
  have qualifies : Qualifies "t,6,10,10".toList ⟨['t'], 6, 10, 10⟩ := qualifies_iff.mpr ⟨by rfl, by decide⟩
  exact ⟨returns, (start_up_divides_iff returns _).mpr
    ⟨limitFile, [], 2, 8000, rfl, _, List.mem_of_getElem? line, _, qualifies⟩⟩

theorem missing_file_divides_by_zero :
    ((Construction.file (fun _ => .missing) [] 2 8000).body.exec
      ((Construction.file (fun _ => .missing) [] 2 8000).start 0 0)).1 = .ok ⟨⟩ ∧
    ((initServer ⟨4, by decide, []⟩).exec ((Construction.file (fun _ => .missing) [] 2 8000).body.exec
      ((Construction.file (fun _ => .missing) [] 2 8000).start 0 0)).2).1 = .error .divisionByZero :=
  ⟨by rfl, initServer_zero _ _ (by rfl)⟩

/-! ### Initialising again -/

/-- The threads, their number, and the number for each service agree, and every service is counted. -/
structure Server.Counted (s : Server) : Prop where
  threads : s.threads.length = s.mTotalThreads
  total : s.mTotalThreads = s.nThreadsPerTopic * s.numServices
  services : s.numServices = s.services.length

/-- The server has no threads, and the threads asked for, cut to the cap, are so few that the loop variable
    can count them with the remainder of the division given to each service. -/
def CountersFit (host : Host) (s : Server) : Prop :=
  let S := s.serviceNames.card
  let lim := host.hardwareConcurrency * 2 % 2 ^ 32
  let request := s.nThreadsPerTopic * S % 2 ^ 64
  let T := if lim = 0 then request else min lim request
  s.threads = [] ∧ T + T % S * (S - 1) < 2 ^ 32

theorem countersFit_iff {host : Host} {s : Server} (hS : 1 ≤ s.serviceNames.card) : CountersFit host s ↔
    s.threads = [] ∧
      perTopic (cpuLim host) s.nThreadsPerTopic s.serviceNames.card * s.serviceNames.card < 2 ^ 32 := by
  have capped : cappedTotal (cpuLim host) s.nThreadsPerTopic s.serviceNames.card =
      if cpuLim host = 0 then s.nThreadsPerTopic * s.serviceNames.card % 2 ^ 64
      else min (cpuLim host) (s.nThreadsPerTopic * s.serviceNames.card % 2 ^ 64) := by
    unfold cappedTotal
    by_cases hlim : cpuLim host = 0
    · rw [if_neg (by omega), if_pos hlim]
      rfl
    · rw [if_pos (by omega), if_neg hlim]
      rfl
  rw [perTopic_eq_share hS, share_mul hS, capped]
  rfl

theorem counted_initialized_iff {host : Host} {s : Server} : (initialized host s).Counted ↔ s.threads = [] ∧
    totalThreads (cpuLim host) s.nThreadsPerTopic s.serviceNames.card =
      perTopic (cpuLim host) s.nThreadsPerTopic s.serviceNames.card * s.serviceNames.card ∧
    s.serviceNames.card = s.services.length := by
  have hthreads : ∀ n, (s.threads ++ List.replicate n Thread.schedulerRun).length = n ↔ s.threads = [] := by
    intro n
    rw [List.length_append, List.length_replicate, Nat.add_eq_right, List.length_eq_zero_iff]
  constructor
  · rintro ⟨threads, total, services⟩
    exact ⟨(hthreads _).mp threads, total, services⟩
  · rintro ⟨threads, total, services⟩
    exact ⟨(hthreads _).mpr threads, total, services⟩

/-- With a service, a call of `init_server` ends well and leaves the counters in agreement exactly if they
    fit before it. -/
theorem initServer_counted_iff {host : Host} {p : Process} (h : p.server.registry.Consistent)
    (hne : p.server.services ≠ []) :
    ((initServer host).exec p).1 = .ok 0 ∧ ((initServer host).exec p).2.server.Counted ↔
      CountersFit host p.server := by
  have hcard : p.server.serviceNames.card = p.server.services.length := h.card
  have hS : 1 ≤ p.server.serviceNames.card := by
    rw [hcard]
    exact List.length_pos_iff.mpr hne
  obtain ⟨returns, diverges⟩ := initServer_exec host p (Nat.ne_of_gt hS)
  rw [countersFit_iff hS]
  constructor
  · rintro ⟨hok, hcounted⟩
    have hlt : totalThreads (cpuLim host) p.server.nThreadsPerTopic p.server.serviceNames.card < 2 ^ 32 := by
      refine Nat.lt_of_not_le fun hle => ?_
      rw [diverges hle] at hok
      cases hok
    rw [returns hlt] at hcounted
    obtain ⟨threads, total, -⟩ := counted_initialized_iff.mp hcounted
    exact ⟨threads, total ▸ hlt⟩
  · rintro ⟨threads, hlt⟩
    have total : totalThreads (cpuLim host) p.server.nThreadsPerTopic p.server.serviceNames.card = _ :=
      Nat.mod_eq_of_lt (Nat.lt_trans hlt (by decide))
    rw [returns (total ▸ hlt)]
    exact ⟨rfl, counted_initialized_iff.mpr ⟨threads, total, hcard⟩⟩

theorem createThreads_registry (p : Process) : (createThreads.exec p).2.server.registry = p.server.registry := by
  rw [createThreads_exec]
  split <;> rfl

theorem initServer_registry (host : Host) (p : Process) :
    ((initServer host).exec p).2.server.registry = p.server.registry := by
  unfold initServer
  simp only [exec_bind, capThreads_exec, andThen_ok]
  by_cases hS : p.server.serviceNames.card = 0
  · unfold spreadThreads
    simp only [exec_bind, exec_get, exec_liftM, andThen_ok, divide, if_pos hS]
    rfl
  · rw [spreadThreads_exec hS]
    simp only [andThen_ok, exec_bind, andThen_pure_snd]
    exact createThreads_registry _

inductive ServerCall where
  | parse (files : Str → File) (fullPath : Str)
  | init (host : Host)

/-- A server in use: the process, and what the last call returned if it was one of `init_server`. -/
structure Use where
  process : Process
  returned : Option (Except Fault Nat)

/-- A call of `init_server` that never returns is the last one. -/
def Use.step (u : Use) (call : ServerCall) : Option Use :=
  if u.returned = some (.error .diverges) then none
  else match call with
    | .parse files fullPath => some ⟨((parseServiceFile files fullPath).exec u.process).2, none⟩
    | .init host => some ⟨((initServer host).exec u.process).2, some ((initServer host).exec u.process).1⟩

/-- Servers that start from a constructor and calls of `parse_service_file`, with a service registered. -/
def useSystem : System Use ServerCall where
  init u := ∃ mTotalThreads numServices nThreadP port cout calls,
    u = ⟨afterParses ⟨Server.fresh mTotalThreads numServices nThreadP port, cout⟩ calls, none⟩ ∧
      u.process.server.services ≠ []
  step := Use.step

/-- If the last call was one of `init_server`, it returned and left the counters in agreement. -/
def Use.Agrees (u : Use) : Prop := ∀ r ∈ u.returned, r = .ok 0 ∧ u.process.server.Counted

def ServerCall.Fits (call : ServerCall) (u : Use) : Prop :=
  match call with
  | .parse _ _ => True
  | .init host => CountersFit host u.process.server

structure Use.Serves (u : Use) : Prop where
  registry : u.process.server.registry.Consistent
  services : u.process.server.services ≠ []

theorem Use.Serves.step {u v : Use} {call : ServerCall} (h : u.Serves) (hs : u.step call = some v) : v.Serves := by
  obtain ⟨-, hs⟩ := Option.ite_none_left_eq_some.mp hs
  cases call with
  | parse files path =>
    cases hs
    refine ⟨parse_consistent files path h.registry, fun hnil => h.services ?_⟩
    exact List.prefix_nil.mp (hnil ▸ parse_services_isPrefix files path u.process)
  | init host =>
    cases hs
    have same := initServer_registry host u.process
    exact ⟨same ▸ h.registry, fun hnil => h.services ((congrArg Registry.services same).symm.trans hnil)⟩

theorem Use.agrees_step_iff {u v : Use} {call : ServerCall} (h : u.Serves) (hs : u.step call = some v) :
    v.Agrees ↔ call.Fits u := by
  obtain ⟨-, hs⟩ := Option.ite_none_left_eq_some.mp hs
  cases call with
  | parse files path =>
    cases hs
    exact iff_of_true (fun r hr => nomatch hr) trivial
  | init host =>
    cases hs
    refine Iff.trans ?_ (initServer_counted_iff h.registry h.services)
    exact ⟨fun hv => hv _ rfl, fun hv r hr => Option.some.inj hr ▸ hv⟩

/-- Throughout a run of calls, every `init_server` ends well and leaves the counters in agreement, exactly if
    they fit before each of its calls. -/
theorem counters_agree_iff {u v : Use} {l : List (Use × ServerCall)} (start : useSystem.init u)
    (run : useSystem.Trace u l v) : System.Always Use.Agrees l v ↔ ∀ x ∈ l, x.2.Fits x.1 := by
  obtain ⟨_, _, _, _, cout, calls, rfl, services⟩ := start
  have serves : Use.Serves ⟨afterParses ⟨Server.fresh _ _ _ _, cout⟩ calls, none⟩ :=
    ⟨afterParses_consistent calls (fresh_consistent _ _ _ _), services⟩
  exact run.always_iff (I := fun _ => Use.Serves) (C := fun u call => call.Fits u) serves
    (fun _ _ _ _ h hs => h.step hs) (fun r hr => nomatch hr) fun _ _ _ _ _ h _ hs => Use.agrees_step_iff h hs

/-- One service, for which two threads are asked for. -/
def served : Use := ⟨afterParses ⟨Server.fresh 0 0 2 8000, []⟩ [(limitFile, [])], none⟩

def afterInit (host : Host) (u : Use) : Use :=
  ⟨((initServer host).exec u.process).2, some ((initServer host).exec u.process).1⟩

theorem step_init {host : Host} {u : Use} (h : u.returned ≠ some (.error .diverges)) :
    useSystem.step u (.init host) = some (afterInit host u) := if_neg h

theorem init_served : useSystem.init served := by
  have services : served.process.server.services = [ServiceQueue.new ['t'] 6] := by rfl
  exact ⟨0, 0, 2, 8000, [], [(limitFile, [])], rfl, services ▸ List.cons_ne_nil _ _⟩

theorem card_served : served.process.server.serviceNames.card = 1 := by rfl

theorem initServer_served (host : Host) (h : host.hardwareConcurrency = 4) :
    (initServer host).exec served.process =
      (.ok 0, ⟨initialized host served.process.server, served.process.cout⟩) := by
  refine (initServer_exec host served.process (by rw [card_served]; decide)).1 ?_
  rw [card_served, cpuLim, h]
  decide

theorem counters_agree_iff_once : useSystem.init served ∧
    useSystem.Trace served [(served, .init ⟨4, by decide, []⟩)] (afterInit ⟨4, by decide, []⟩ served) ∧
    (afterInit ⟨4, by decide, []⟩ served).Agrees := by
  have run : useSystem.Trace served [(served, .init ⟨4, by decide, []⟩)] (afterInit ⟨4, by decide, []⟩ served) :=
    System.Trace.nil.snoc rfl
  have fits : CountersFit ⟨4, by decide, []⟩ served.process.server := by
    unfold CountersFit
    rw [card_served]
    exact ⟨rfl, by decide⟩
  exact ⟨init_served, run, ((counters_agree_iff init_served run).mpr (List.forall_mem_singleton.mpr fits)).2⟩

/-- The second call counts two threads again, but has added them to the first two. -/
theorem threads_added_again : ∃ u l v, useSystem.init u ∧ useSystem.Trace u l v ∧ v.returned = some (.ok 0) ∧
    v.process.server.threads.length = 4 ∧ v.process.server.mTotalThreads = 2 ∧ ¬ System.Always Use.Agrees l v := by
  have first := initServer_served ⟨4, by decide, []⟩ rfl
  generalize hs : initialized ⟨4, by decide, []⟩ served.process.server = s at first
  have card : s.serviceNames.card = 1 := hs ▸ card_served
  have perTopic : s.nThreadsPerTopic = 2 := by
    rw [← hs]
    rfl
  have threads : s.threads.length = 2 := by
    rw [← hs]
    rfl
  have total : totalThreads (cpuLim ⟨4, by decide, []⟩) s.nThreadsPerTopic s.serviceNames.card = 2 := by
    rw [card, perTopic]
    decide
  have second := (initServer_exec ⟨4, by decide, []⟩ ⟨s, served.process.cout⟩ (by rw [card]; decide)).1
    (by rw [total]; decide)
  have step₁ : useSystem.step served (.init ⟨4, by decide, []⟩) =
      some ⟨⟨s, served.process.cout⟩, some (.ok 0)⟩ := by
    rw [step_init (by rintro ⟨⟩), afterInit, first]
  have step₂ : useSystem.step ⟨⟨s, served.process.cout⟩, some (.ok 0)⟩ (.init ⟨4, by decide, []⟩) =
      some ⟨⟨initialized ⟨4, by decide, []⟩ s, served.process.cout⟩, some (.ok 0)⟩ := by
    rw [step_init (by rintro ⟨⟩), afterInit, second]
  have four : (initialized ⟨4, by decide, []⟩ s).threads.length = 4 := by
    rw [initialized, List.length_append, List.length_replicate, threads, total]
  refine ⟨_, _, _, init_served, (System.Trace.nil.snoc step₁).snoc step₂, rfl, four, total, fun always => ?_⟩
  have counted := (always.2 _ rfl).2.threads
  rw [four] at counted
  exact absurd (counted.trans total) (by decide)

end ServiceBridge
