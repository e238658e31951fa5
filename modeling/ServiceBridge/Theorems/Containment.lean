import ServiceBridge.Theorems.Registry

/-! What a bad line does to the rest of its file, and what holds of the registry over any calls of
    `parse_service_file`. -/

namespace ServiceBridge

/-! ### A bad line -/

def AddsNothing (p : Process) (A : List Str) (bad : Str) : Prop :=
  servicesAfter p (A ++ [bad]) = servicesAfter p A

/-- Parsing the file under `path` returns normally and leaves the registry as parsing the file under
    `path'` does. -/
def ParsesAs (files : Str → File) (p : Process) (path path' : Str) : Prop :=
  (∃ b, ((parseServiceFile files path).exec p).1 = .ok b) ∧
    ((parseServiceFile files path).exec p).2.server.services =
      ((parseServiceFile files path').exec p).2.server.services ∧
    ((parseServiceFile files path).exec p).2.server.serviceNames =
      ((parseServiceFile files path').exec p).2.server.serviceNames

section
variable {files : Str → File} {path path' : Str} {p : Process}

theorem parse_ok_iff : (∃ b, ((parseServiceFile files path).exec p).1 = .ok b) ↔
    ∀ line ∈ fileLines files path, Converts line := by
  obtain ⟨cout, hexec⟩ := parseServiceFile_exec files path p
  rw [hexec, ← Registry.readLines_ok_iff (r := p.server.registry)]
  cases (p.server.registry.readLines (fileLines files path)).1 with
  | error e => exact ⟨fun ⟨b, hb⟩ => (by cases hb), fun h => (by cases h)⟩
  | ok u => exact ⟨fun _ => rfl, fun _ => ⟨_, rfl⟩⟩

theorem parse_registry (files : Str → File) (path : Str) (p : Process) :
    ((parseServiceFile files path).exec p).2.server.registry =
    (p.server.registry.readLines (fileLines files path)).2 := by
  obtain ⟨cout, hexec⟩ := parseServiceFile_exec files path p
  rw [hexec]
  rfl

theorem Registry.register_eq_of_services {r : Registry} {spec : ServiceSpec}
    (h : (r.register spec).services = r.services) : r.register spec = r := by
  by_cases hadm : r.Admits spec
  · rw [Registry.register_of_admits hadm] at h
    simp at h
  · exact Registry.register_of_not hadm

theorem readLines_skip {A B : List Str} {bad : Str} (hadd : AddsNothing p A bad)
    (hA : (p.server.registry.readLines A).1 = .ok ()) (hbad : Converts bad) :
    p.server.registry.readLines (A ++ bad :: B) = p.server.registry.readLines (A ++ B) := by
  rw [AddsNothing, servicesAfter_eq, servicesAfter_eq, Registry.readLines_append] at hadd
  rw [Registry.readLines_append, Registry.readLines_append]
  generalize p.server.registry.readLines A = out at hadd hA ⊢
  obtain ⟨_, r⟩ := out
  obtain rfl := hA
  obtain ⟨spec?, hspec⟩ := (converts_iff bad).mp hbad
  simp only [Registry.readLines, hspec] at hadd ⊢
  cases spec? with
  | none => rfl
  | some spec =>
    show (r.register spec).readLines B = r.readLines B
    rw [Registry.register_eq_of_services hadd]

/-- A line that adds nothing is contained exactly when no line of its file throws. -/
theorem bad_line_contained_iff {A B : List Str} {bad : Str} (lines : fileLines files path = A ++ bad :: B)
    (others : fileLines files path' = A ++ B) (hadd : AddsNothing p A bad) :
    ParsesAs files p path path' ↔ ∀ line ∈ A ++ bad :: B, Converts line := by
  rw [ParsesAs, parse_ok_iff, lines]
  refine ⟨fun h => h.1, fun hall => ⟨hall, ?_⟩⟩
  have hA : (p.server.registry.readLines A).1 = .ok () :=
    Registry.readLines_ok_iff.mpr fun line hl => hall line (List.mem_append_left _ hl)
  have same := parse_registry files path p
  rw [lines, readLines_skip hadd hA (hall bad (by simp)), ← others, ← parse_registry] at same
  exact ⟨congrArg Registry.services same, congrArg Registry.serviceNames same⟩

end

/-- Two files that differ in one line: the first of the file under `a`. -/
def twoFiles (bad : Str) : Str → File := fun path =>
  .readable (fileText true (if path = ['a'] then [bad, "u,5,10,10".toList] else ["u,5,10,10".toList]))

theorem bad_line_contained_iff_short : AddsNothing ⟨Server.fresh 0 0 2 8000, []⟩ [] "t".toList ∧
    ParsesAs (twoFiles "t".toList) ⟨Server.fresh 0 0 2 8000, []⟩ ['a'] ['b'] := by
  have hadd : AddsNothing ⟨Server.fresh 0 0 2 8000, []⟩ [] "t".toList := by rfl
  refine ⟨hadd, (bad_line_contained_iff (B := ["u,5,10,10".toList]) (by rfl) (by rfl) hadd).mpr ?_⟩
  simp only [List.nil_append, List.forall_mem_cons]
  exact ⟨(converts_iff _).mpr ⟨none, by rfl⟩, (converts_iff _).mpr ⟨some ⟨['u'], 5, 10, 10⟩, by rfl⟩, by simp⟩

theorem bad_number_hides_lines : AddsNothing ⟨Server.fresh 0 0 2 8000, []⟩ [] "t,x,10,10".toList ∧
    ¬ ParsesAs (twoFiles "t,x,10,10".toList) ⟨Server.fresh 0 0 2 8000, []⟩ ['a'] ['b'] := by
  refine ⟨by rfl, fun h => ?_⟩
  obtain ⟨b, hb⟩ := h.1
  rw [show ((parseServiceFile (twoFiles "t,x,10,10".toList) ['a']).exec ⟨Server.fresh 0 0 2 8000, []⟩).1 =
    .error .invalidArgument from by rfl] at hb
  cases hb

/-! ### Runs of calls -/

/-- The process after some calls of `parse_service_file`, whatever each of them returned or threw. -/
def afterParses (p : Process) (calls : List ((Str → File) × Str)) : Process :=
  calls.foldl (fun p call => ((parseServiceFile call.1 call.2).exec p).2) p

theorem parse_consistent (files : Str → File) (path : Str) {p : Process} (h : p.server.registry.Consistent) :
    ((parseServiceFile files path).exec p).2.server.registry.Consistent := by
  rw [parse_registry]
  exact h.readLines _

theorem fresh_consistent (mTotalThreads numServices nThreadP port : Nat) :
    (Server.fresh mTotalThreads numServices nThreadP port).registry.Consistent where
  distinct := List.nodup_nil
  names := fun _ => by simp [Server.registry, Server.fresh]

theorem afterParses_consistent (calls : List ((Str → File) × Str)) {p : Process}
    (h : p.server.registry.Consistent) : (afterParses p calls).server.registry.Consistent := by
  induction calls generalizing p with
  | nil => exact h
  | cons call calls ih => exact ih (parse_consistent call.1 call.2 h)

theorem parse_services_isPrefix (files : Str → File) (path : Str) (p : Process) :
    p.server.services <+: ((parseServiceFile files path).exec p).2.server.services := by
  obtain ⟨added, happ, -⟩ := p.server.registry.readLines_added (fileLines files path)
  refine ⟨added, ?_⟩
  have same := congrArg Registry.services (parse_registry files path p)
  exact happ.symm.trans same.symm

theorem Registry.Consistent.card {r : Registry} (h : r.Consistent) : r.serviceNames.card = r.services.length := by
  have hset : r.serviceNames = (r.services.map (·.topicName)).toFinset := by
    ext name
    rw [h.names, List.mem_toFinset]
  rw [hset, List.toFinset_card_of_nodup h.distinct, List.length_map]

/-- After any calls of `parse_service_file` on a new server, the services have distinct topics, which are the
    registered names; the server counts and lists them; and one more call only appends services. -/
theorem registry_over_runs (mTotalThreads numServices nThreadP port : Nat) (cout : List Str)
    (calls : List ((Str → File) × Str)) :
    let p := afterParses ⟨Server.fresh mTotalThreads numServices nThreadP port, cout⟩ calls
    (p.server.services.map (·.topicName)).Nodup ∧
    (∀ name, name ∈ p.server.serviceNames ↔ name ∈ p.server.services.map (·.topicName)) ∧
    p.server.howManyServices = p.server.getServedROSTopicNames.length ∧
    p.server.getServedROSTopicNames.Pairwise (· < ·) ∧
    (∀ name, name ∈ p.server.getServedROSTopicNames ↔ name ∈ p.server.serviceNames) ∧
    ∀ files path, p.server.services <+: ((parseServiceFile files path).exec p).2.server.services := by
  intro p
  have h : p.server.registry.Consistent := afterParses_consistent calls (fresh_consistent _ _ _ _)
  refine ⟨h.distinct, h.names, ?_, ?_, fun name => Finset.mem_sort _, fun files path =>
    parse_services_isPrefix files path p⟩
  · rw [Server.getServedROSTopicNames, convertSetToVector, Finset.length_sort]
    exact h.card.symm
  · exact (Finset.sortedLT_sort p.server.serviceNames).pairwise

end ServiceBridge
