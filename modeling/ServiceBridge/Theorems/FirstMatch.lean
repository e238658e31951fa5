import ServiceBridge.Theorems.Containment
import ServiceBridge.Theorems.Format

/-! Which lines of a file become services: for each topic that is not registered yet, the first line that
    qualifies. So a file that is read again adds nothing. -/

namespace ServiceBridge

/-! ### Lines that qualify -/

/-- A line of at least four tokens that asks for `spec`, with both lengths within the limit. -/
structure Qualifies (line : Str) (spec : ServiceSpec) : Prop where
  tokens : ∃ t1 t2 t3 more, splitCSVLine line ",".toList true = .ok (spec.topicName :: t1 :: t2 :: t3 :: more) ∧
    Str.stoull t1 = .ok spec.queueSize ∧ Str.stoull t2 = .ok spec.requestLength ∧
    Str.stoull t3 = .ok spec.responseLength
  limits : spec.requestLength ≤ 32 ∧ spec.responseLength ≤ 32

/-- The line at `i` is the first of `lines` that qualifies for its topic. -/
structure FirstFor (lines : List Str) (i : Nat) (spec : ServiceSpec) : Prop where
  qualifies : ∃ line, lines[i]? = some line ∧ Qualifies line spec
  first : ∀ line ∈ lines.take i, ∀ other, Qualifies line other → other.topicName ≠ spec.topicName

section
variable {line : Str} {lines : List Str} {spec : ServiceSpec} {i : Nat} {r : Registry}

theorem lineSpec_of_tokens {t1 t2 t3 : Str} {more : List Str}
    (htokens : lineTokens line = spec.topicName :: t1 :: t2 :: t3 :: more) (h1 : Str.stoull t1 = .ok spec.queueSize)
    (h2 : Str.stoull t2 = .ok spec.requestLength) (h3 : Str.stoull t3 = .ok spec.responseLength) :
    lineSpec line = .ok (some spec) := by
  unfold lineSpec
  rw [htokens]
  simp only [convertSpec_eq_ok.mpr ⟨h1, h2, h3⟩]

theorem qualifies_iff : Qualifies line spec ↔
    lineSpec line = .ok (some spec) ∧ max spec.requestLength spec.responseLength ≤ 32 := by
  constructor
  · rintro ⟨⟨t1, t2, t3, more, htokens, h1, h2, h3⟩, hlimits⟩
    rw [lineTokens_exec, Except.ok.injEq] at htokens
    exact ⟨lineSpec_of_tokens htokens h1 h2 h3, max_le hlimits.1 hlimits.2⟩
  · rintro ⟨hspec, hlimits⟩
    obtain ⟨t1, t2, t3, more, htokens, h1, h2, h3⟩ := lineSpec_eq_some hspec
    exact ⟨⟨t1, t2, t3, more, by rw [lineTokens_exec, htokens], h1, h2, h3⟩, max_le_iff.mp hlimits⟩

theorem Qualifies.eq {other : ServiceSpec} (h : Qualifies line spec) (h' : Qualifies line other) :
    other = spec := by
  have heq := (qualifies_iff.mp h').1.symm.trans (qualifies_iff.mp h).1
  simpa using heq

theorem FirstFor.lt (h : FirstFor lines i spec) : i < lines.length := by
  obtain ⟨line, hi, -⟩ := h.qualifies
  exact (List.getElem?_eq_some_iff.mp hi).1

theorem firstFor_concat_iff : FirstFor (lines ++ [line]) i spec ↔ FirstFor lines i spec ∨
    i = lines.length ∧ Qualifies line spec ∧
      ∀ l ∈ lines, ∀ other, Qualifies l other → other.topicName ≠ spec.topicName := by
  rcases Nat.lt_trichotomy i lines.length with hlt | rfl | hgt
  · rw [or_iff_left fun h => absurd h.1 (Nat.ne_of_lt hlt)]
    constructor
    · rintro ⟨hq, hfirst⟩
      rw [List.getElem?_append_left hlt] at hq
      rw [List.take_append_of_le_length hlt.le] at hfirst
      exact ⟨hq, hfirst⟩
    · rintro ⟨hq, hfirst⟩
      refine ⟨?_, ?_⟩
      · rwa [List.getElem?_append_left hlt]
      · rwa [List.take_append_of_le_length hlt.le]
  · rw [or_iff_right fun h => absurd h.lt (Nat.lt_irrefl _)]
    constructor
    · rintro ⟨⟨l, hl, hq⟩, hfirst⟩
      rw [List.getElem?_concat_length, Option.some.injEq] at hl
      rw [List.take_left] at hfirst
      exact ⟨rfl, hl ▸ hq, hfirst⟩
    · rintro ⟨-, hq, hfirst⟩
      refine ⟨⟨line, List.getElem?_concat_length, hq⟩, ?_⟩
      rwa [List.take_left]
  · refine iff_of_false (fun h => ?_) ?_
    · have hlt := h.lt
      rw [List.length_append, List.length_singleton] at hlt
      omega
    · rintro (h | h)
      · exact absurd h.lt (Nat.lt_asymm hgt)
      · omega

/-! ### What a line does -/

/-- A line becomes a service if it qualifies for a name that is not registered; else nothing changes. -/
theorem readLine_cases (r : Registry) (h : Converts line) :
    (∃ spec, Qualifies line spec ∧ spec.topicName ∉ r.serviceNames ∧
      r.readLines [line] = (.ok (), ⟨r.services ++ [spec.service], insert spec.topicName r.serviceNames⟩)) ∨
    r.readLines [line] = (.ok (), r) ∧ ∀ spec, Qualifies line spec → spec.topicName ∈ r.serviceNames := by
  obtain ⟨spec?, hspec⟩ := (converts_iff line).mp h
  simp only [Registry.readLines, hspec]
  cases spec? with
  | none =>
    refine Or.inr ⟨rfl, fun spec hq => ?_⟩
    rw [(qualifies_iff.mp hq).1] at hspec
    cases hspec
  | some spec =>
    by_cases hadm : r.Admits spec
    · refine Or.inl ⟨spec, qualifies_iff.mpr ⟨hspec, hadm.2⟩, hadm.1, ?_⟩
      simp only [Registry.register_of_admits hadm]
    · refine Or.inr ⟨by simp only [Registry.register_of_not hadm], fun other hq => ?_⟩
      obtain ⟨hother, hlimits⟩ := qualifies_iff.mp hq
      rw [hspec] at hother
      obtain rfl : spec = other := by simpa using hother
      exact not_not.mp fun hnew => hadm ⟨hnew, hlimits⟩

theorem readLines_concat (h : ∀ l ∈ lines, Converts l) :
    r.readLines (lines ++ [line]) = (r.readLines lines).2.readLines [line] := by
  rw [Registry.readLines_append]
  have hok := (Registry.readLines_ok_iff (r := r)).mpr h
  generalize r.readLines lines = out at hok ⊢
  obtain ⟨_, r'⟩ := out
  obtain rfl := hok
  rfl

theorem mem_readLines_names (h : ∀ l ∈ lines, Converts l) (name : Str) :
    name ∈ (r.readLines lines).2.serviceNames ↔
      name ∈ r.serviceNames ∨ ∃ l ∈ lines, ∃ spec, Qualifies l spec ∧ spec.topicName = name := by
  induction lines using List.reverseRecOn with
  | nil => simp [Registry.readLines]
  | append_singleton lines line ih =>
    obtain ⟨hlines, hline⟩ := List.forall_mem_append.mp h
    have ih := ih hlines
    rw [readLines_concat hlines]
    simp only [List.mem_append, List.mem_singleton, or_and_right, exists_or, ← or_assoc, ← ih, exists_eq_left]
    rcases readLine_cases (r.readLines lines).2 (hline line List.mem_cons_self) with
      ⟨spec, hq, hnew, hread⟩ | ⟨hread, hold⟩
    · rw [hread, Finset.mem_insert, or_comm]
      refine or_congr_right ⟨fun h => ⟨spec, hq, h.symm⟩, ?_⟩
      rintro ⟨other, hother, rfl⟩
      rw [hq.eq hother]
    · rw [hread, or_iff_left_of_imp]
      rintro ⟨spec, hq, rfl⟩
      exact hold spec hq

/-! ### What a file does -/

/-- `firsts` are the first lines that qualify for a name that `r` does not have, in the order of the file. -/
structure Firsts (r : Registry) (lines : List Str) (firsts : List (Nat × ServiceSpec)) : Prop where
  services : (r.readLines lines).2.services = r.services ++ firsts.map (·.2.service)
  order : (firsts.map (·.1)).Pairwise (· < ·)
  distinct : (firsts.map (·.2.topicName)).Nodup
  mem : ∀ i spec, (i, spec) ∈ firsts ↔ spec.topicName ∉ r.serviceNames ∧ FirstFor lines i spec

theorem Firsts.keep {firsts : List (Nat × ServiceSpec)} (h : Firsts r lines firsts)
    (hlines : ∀ l ∈ lines, Converts l)
    (hread : (r.readLines lines).2.readLines [line] = (.ok (), (r.readLines lines).2))
    (hold : ∀ spec, Qualifies line spec → spec.topicName ∈ (r.readLines lines).2.serviceNames) :
    Firsts r (lines ++ [line]) firsts where
  services := by rw [readLines_concat hlines, hread, h.services]
  order := h.order
  distinct := h.distinct
  mem i spec := by
    rw [h.mem, firstFor_concat_iff]
    refine and_congr_right fun hnew => (or_iff_left ?_).symm
    rintro ⟨-, hq, hfirst⟩
    rcases (mem_readLines_names hlines _).mp (hold spec hq) with hr | ⟨l, hl, other, hother, heq⟩
    · exact hnew hr
    · exact hfirst l hl other hother heq

theorem Firsts.grow {firsts : List (Nat × ServiceSpec)} (h : Firsts r lines firsts)
    (hlines : ∀ l ∈ lines, Converts l) (hq : Qualifies line spec)
    (hnew : spec.topicName ∉ (r.readLines lines).2.serviceNames)
    (hread : ((r.readLines lines).2.readLines [line]).2.services =
      (r.readLines lines).2.services ++ [spec.service]) :
    Firsts r (lines ++ [line]) (firsts ++ [(lines.length, spec)]) := by
  rw [mem_readLines_names hlines, not_or] at hnew
  obtain ⟨hr, hnew⟩ := hnew
  have hfirst : ∀ l ∈ lines, ∀ other, Qualifies l other → other.topicName ≠ spec.topicName :=
    fun l hl other hother heq => hnew ⟨l, hl, other, hother, heq⟩
  refine ⟨?_, ?_, ?_, fun i other => ?_⟩
  · rw [readLines_concat hlines, hread, h.services, List.map_append, List.append_assoc]
    rfl
  · rw [List.map_append, List.pairwise_append]
    refine ⟨h.order, List.pairwise_singleton _ _, fun i hi j hj => ?_⟩
    obtain ⟨⟨i, other⟩, hmem, rfl⟩ := List.mem_map.mp hi
    obtain rfl : j = lines.length := by simpa using hj
    exact ((h.mem i other).mp hmem).2.lt
  · rw [List.map_append, List.nodup_append]
    refine ⟨h.distinct, List.nodup_singleton _, fun name hname name' hname' => ?_⟩
    obtain ⟨⟨i, other⟩, hmem, rfl⟩ := List.mem_map.mp hname
    obtain rfl : name' = spec.topicName := by simpa using hname'
    obtain ⟨l, hl, hother⟩ := ((h.mem i other).mp hmem).2.qualifies
    exact hfirst l (List.mem_of_getElem? hl) other hother
  · rw [List.mem_append, h.mem, firstFor_concat_iff, and_or_left]
    refine or_congr_right ?_
    rw [List.mem_singleton, Prod.mk.injEq]
    constructor
    · rintro ⟨rfl, rfl⟩
      exact ⟨hr, rfl, hq, hfirst⟩
    · rintro ⟨-, rfl, hother, -⟩
      exact ⟨rfl, hq.eq hother⟩

theorem exists_firsts (r : Registry) (h : ∀ l ∈ lines, Converts l) : ∃ firsts, Firsts r lines firsts := by
  induction lines using List.reverseRecOn with
  | nil =>
    refine ⟨[], by simp [Registry.readLines], List.Pairwise.nil, List.nodup_nil, fun i spec => ?_⟩
    exact iff_of_false List.not_mem_nil fun h => Nat.not_lt_zero _ h.2.lt
  | append_singleton lines line ih =>
    obtain ⟨hlines, hline⟩ := List.forall_mem_append.mp h
    obtain ⟨firsts, hfirsts⟩ := ih hlines
    rcases readLine_cases (r.readLines lines).2 (hline line List.mem_cons_self) with
      ⟨spec, hq, hnew, hread⟩ | ⟨hread, hold⟩
    · exact ⟨_, hfirsts.grow hlines hq hnew (by rw [hread])⟩
    · exact ⟨firsts, hfirsts.keep hlines hread hold⟩

/-! ### The same file again -/

theorem readLines_registered (h : ∀ l ∈ lines, Converts l)
    (hold : ∀ l ∈ lines, ∀ spec, Qualifies l spec → spec.topicName ∈ r.serviceNames) :
    r.readLines lines = (.ok (), r) := by
  induction lines using List.reverseRecOn with
  | nil => rfl
  | append_singleton lines line ih =>
    obtain ⟨hlines, hline⟩ := List.forall_mem_append.mp h
    obtain ⟨hbefore, hlast⟩ := List.forall_mem_append.mp hold
    rw [readLines_concat hlines, ih hlines hbefore]
    rcases readLine_cases r (hline line List.mem_cons_self) with ⟨spec, hq, hnew, -⟩ | ⟨hread, -⟩
    · exact absurd (hlast line List.mem_cons_self spec hq) hnew
    · exact hread

theorem Registry.names_subset_register (r : Registry) (spec : ServiceSpec) :
    r.serviceNames ⊆ (r.register spec).serviceNames := by
  by_cases hadm : r.Admits spec
  · rw [register_of_admits hadm]
    exact Finset.subset_insert _ _
  · rw [register_of_not hadm]

theorem Registry.names_subset_readLines (r : Registry) (lines : List Str) :
    r.serviceNames ⊆ (r.readLines lines).2.serviceNames := by
  induction lines generalizing r with
  | nil => exact Finset.Subset.refl _
  | cons line lines ih =>
    rw [readLines]
    cases lineSpec line with
    | error e => exact Finset.Subset.refl _
    | ok spec? =>
      cases spec? with
      | none => exact ih r
      | some spec => exact (r.names_subset_register spec).trans (ih _)

end

section
variable {files : Str → File} {path : Str} {p : Process}

theorem names_subset_afterParses (calls : List ((Str → File) × Str)) (p : Process) :
    p.server.serviceNames ⊆ (afterParses p calls).server.serviceNames := by
  induction calls generalizing p with
  | nil => exact Finset.Subset.refl _
  | cons call calls ih =>
    have first : p.server.serviceNames ⊆ ((parseServiceFile call.1 call.2).exec p).2.server.serviceNames := by
      have same := congrArg Registry.serviceNames (parse_registry call.1 call.2 p)
      exact (p.server.registry.names_subset_readLines _).trans (Finset.subset_of_eq same.symm)
    exact first.trans (ih _)

theorem parse_registered (h : ∀ l ∈ fileLines files path, Converts l)
    (hold : ∀ l ∈ fileLines files path, ∀ spec, Qualifies l spec → spec.topicName ∈ p.server.serviceNames) :
    (∃ b, ((parseServiceFile files path).exec p).1 = .ok b) ∧
      ((parseServiceFile files path).exec p).2.server = p.server := by
  obtain ⟨cout, hexec⟩ := parseServiceFile_exec files path p
  have hread : p.server.registry.readLines (fileLines files path) = (.ok (), p.server.registry) :=
    readLines_registered h hold
  rw [hexec, hread]
  exact ⟨⟨_, rfl⟩, rfl⟩

/-- A file that is read to its end brings in, in its own order, one service for each topic that it asks for
    and that is not registered: that of the first line that qualifies. After any further calls, reading it
    again returns normally and changes nothing. -/
theorem first_qualifying_line_wins (returns : ∃ b, ((parseServiceFile files path).exec p).1 = .ok b) :
    (∃ firsts : List (Nat × ServiceSpec),
      ((parseServiceFile files path).exec p).2.server.services =
        p.server.services ++ firsts.map (fun first => ServiceQueue.new first.2.topicName first.2.queueSize) ∧
      (firsts.map (·.1)).Pairwise (· < ·) ∧
      (firsts.map (·.2.topicName)).Nodup ∧
      ∀ i spec, (i, spec) ∈ firsts ↔
        spec.topicName ∉ p.server.serviceNames ∧ FirstFor (fileLines files path) i spec) ∧
    ∀ calls, let again := afterParses ((parseServiceFile files path).exec p).2 calls
      (∃ b, ((parseServiceFile files path).exec again).1 = .ok b) ∧
        ((parseServiceFile files path).exec again).2.server = again.server := by
  have hlines := parse_ok_iff.mp returns
  have same := parse_registry files path p
  constructor
  · obtain ⟨firsts, h⟩ := exists_firsts p.server.registry hlines
    exact ⟨firsts, (congrArg Registry.services same).trans h.services, h.order, h.distinct, h.mem⟩
  · intro calls again
    refine parse_registered hlines fun l hl spec hq => names_subset_afterParses calls _ ?_
    refine Finset.subset_of_eq (congrArg Registry.serviceNames same).symm ?_
    exact (mem_readLines_names hlines _).mpr (Or.inr ⟨l, hl, spec, hq, rfl⟩)

end

/-- The first line for `t` is over the limit. -/
def limitFile : Str → File := fun _ =>
  .readable (fileText true ["t,5,40,10".toList, "t,6,10,10".toList, "t,7,10,10".toList])

theorem first_qualifying_line_wins_limit :
    (∃ b, ((parseServiceFile limitFile []).exec ⟨Server.fresh 0 0 2 8000, []⟩).1 = .ok b) ∧
    let again := afterParses ((parseServiceFile limitFile []).exec ⟨Server.fresh 0 0 2 8000, []⟩).2 []
    ((parseServiceFile limitFile []).exec again).2.server.services = [ServiceQueue.new ['t'] 6] := by
  have returns : ∃ b, ((parseServiceFile limitFile []).exec ⟨Server.fresh 0 0 2 8000, []⟩).1 = .ok b :=
    ⟨true, by rfl⟩
  exact ⟨returns, (congrArg Server.services ((first_qualifying_line_wins returns).2 []).2).trans (by rfl)⟩

end ServiceBridge
