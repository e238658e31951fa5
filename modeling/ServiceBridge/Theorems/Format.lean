import ServiceBridge.Theorems.Registry

/-! The format of a service file: which lines are accepted, and what a file that is written in the format
    comes to. A last field of one character is lost in `split_CSV_line`, so that a response length below ten
    takes its line with it. -/

namespace ServiceBridge
open Strip

/-! ### Files in the format -/

/-- `<topic_name>,<queue_size>,<request_length>,<response_length>` -/
def ServiceSpec.line (spec : ServiceSpec) : Str :=
  [','].intercalate [spec.topicName, Str.toString spec.queueSize, Str.toString spec.requestLength,
    Str.toString spec.responseLength]

/-- A topic that can stand in a line: not empty, without commas and newlines, and trimmed. -/
structure Topic (topic : Str) : Prop where
  nonempty : topic ≠ []
  comma : ',' ∉ topic
  newline : '\n' ∉ topic
  head : ∀ c ∈ topic.head?, isWhitespace c = false
  last : ∀ c ∈ topic.getLast?, isWhitespace c = false

/-- Specifications of distinct topics, within the limits of the format. -/
structure WellFormed (specs : List ServiceSpec) : Prop where
  distinct : (specs.map (·.topicName)).Nodup
  topics : ∀ spec ∈ specs, Topic spec.topicName
  queueSizes : ∀ spec ∈ specs, spec.queueSize < Str.sizeRange
  lengths : ∀ spec ∈ specs, spec.requestLength ≤ 32 ∧ spec.responseLength ≤ 32

theorem WellFormed.tail {spec : ServiceSpec} {specs : List ServiceSpec} (h : WellFormed (spec :: specs)) :
    WellFormed specs where
  distinct := (List.nodup_cons.mp h.distinct).2
  topics s hs := h.topics s (List.mem_cons_of_mem _ hs)
  queueSizes s hs := h.queueSizes s (List.mem_cons_of_mem _ hs)
  lengths s hs := h.lengths s (List.mem_cons_of_mem _ hs)

theorem ne_of_isDigit {c d : Char} (hc : c.isDigit = true) (hd : d.isDigit = false) : c ≠ d := by
  rintro rfl
  rw [hc] at hd
  cases hd

theorem not_mem_toString {c : Char} (h : c.isDigit = false) (n : Nat) : c ∉ Str.toString n := fun hc =>
  ne_of_isDigit ((digits_toString n).2 c hc) h rfl

theorem isWhitespace_eq_isspace (c : Char) : isWhitespace c = Str.isspace c := rfl

theorem strip_toString (n : Nat) : strip isWhitespace (Str.toString n) = Str.toString n :=
  strip_eq_self_of_forall fun c hc => isspace_of_isDigit ((digits_toString n).2 c hc)

theorem splitOn_line {spec : ServiceSpec} (h : Topic spec.topicName) : spec.line.splitOn ',' =
    [spec.topicName, Str.toString spec.queueSize, Str.toString spec.requestLength] ++
      [Str.toString spec.responseLength] := by
  refine List.splitOn_intercalate ',' ?_ (List.cons_ne_nil _ _)
  have hcomma := not_mem_toString (c := ',') (by decide)
  simp [h.comma, hcomma]

/-- The line of a specification keeps its four tokens, but for a response length of one digit. -/
theorem lineTokens_line {spec : ServiceSpec} (h : Topic spec.topicName) : lineTokens spec.line =
    [spec.topicName, Str.toString spec.queueSize, Str.toString spec.requestLength] ++
      if spec.responseLength < 10 then [] else [Str.toString spec.responseLength] := by
  have htopic : strip isWhitespace spec.topicName = spec.topicName := strip_eq_self h.head h.last
  have hdigits : ∀ n, Str.toString n ≠ [] := fun n => (digits_toString n).1
  rw [lineTokens, splitOn_line h, keptFields_concat, lastKept]
  simp only [length_toString_lt_two_iff]
  by_cases hlen : spec.responseLength < 10
  · rw [if_pos hlen, if_pos hlen]
    simp [tokens, htopic, strip_toString, h.nonempty, hdigits]
  · rw [if_neg hlen, if_neg hlen]
    simp [tokens, htopic, strip_toString, h.nonempty, hdigits]

theorem lineSpec_line {spec : ServiceSpec} (h : Topic spec.topicName) (hq : spec.queueSize < Str.sizeRange)
    (hlen : spec.requestLength ≤ 32 ∧ spec.responseLength ≤ 32) :
    lineSpec spec.line = .ok (if spec.responseLength < 10 then none else some spec) := by
  have small : ∀ {n : Nat}, n ≤ 32 → n < Str.sizeRange := fun hn => Nat.lt_of_le_of_lt hn (by decide)
  unfold lineSpec
  rw [lineTokens_line h]
  by_cases hr : spec.responseLength < 10
  · rw [if_pos hr, if_pos hr]
    rfl
  · rw [if_neg hr, if_neg hr]
    simp only [List.cons_append, List.nil_append, convertSpec, stoull_toString hq,
      stoull_toString (small hlen.1), stoull_toString (small hlen.2)]
    rfl

theorem readLines_specs {specs : List ServiceSpec} (h : WellFormed specs) (r : Registry)
    (hnew : ∀ spec ∈ specs, spec.topicName ∉ r.serviceNames) :
    (r.readLines (specs.map (·.line))).1 = .ok () ∧ (r.readLines (specs.map (·.line))).2.services =
      r.services ++ (specs.filter fun spec => 10 ≤ spec.responseLength).map (·.service) := by
  induction specs generalizing r with
  | nil => exact ⟨rfl, (List.append_nil _).symm⟩
  | cons spec specs ih =>
    have hmem : spec ∈ spec :: specs := List.mem_cons_self
    have hline := lineSpec_line (h.topics spec hmem) (h.queueSizes spec hmem) (h.lengths spec hmem)
    rw [List.map_cons, Registry.readLines, hline]
    by_cases hr : spec.responseLength < 10
    · rw [if_pos hr, List.filter_cons_of_neg (by simpa using hr)]
      exact ih h.tail r fun s hs => hnew s (List.mem_cons_of_mem _ hs)
    · have hadm : r.Admits spec :=
        ⟨hnew spec hmem, max_le (h.lengths spec hmem).1 (h.lengths spec hmem).2⟩
      have hnew' : ∀ s ∈ specs, s.topicName ∉ (r.register spec).serviceNames := by
        intro s hs
        have hne : s.topicName ≠ spec.topicName := fun heq =>
          (List.nodup_cons.mp h.distinct).1 (List.mem_map.mpr ⟨s, hs, heq⟩)
        rw [Registry.register_of_admits hadm, Finset.mem_insert, not_or]
        exact ⟨hne, hnew s (List.mem_cons_of_mem _ hs)⟩
      obtain ⟨hok, hservices⟩ := ih h.tail (r.register spec) hnew'
      rw [if_neg hr, List.filter_cons_of_pos (by simpa using hr)]
      refine ⟨hok, ?_⟩
      show ((r.register spec).readLines _).2.services = _
      rw [hservices, Registry.register_of_admits hadm, List.append_assoc]
      rfl

theorem fileLines_specs {files : Str → File} {path : Str} {terminated : Bool} {specs : List ServiceSpec}
    (h : WellFormed specs) (hfile : files path = .readable (fileText terminated (specs.map (·.line)))) :
    fileLines files path = specs.map (·.line) := by
  rw [fileLines, openStream, hfile]
  apply textLines_fileText
  · intro l hl hnil
    obtain ⟨spec, hspec, rfl⟩ := List.mem_map.mp hl
    have hsplit := splitOn_line (h.topics spec hspec)
    rw [hnil, List.splitOn_nil] at hsplit
    simp at hsplit
  · intro l hl
    obtain ⟨spec, hspec, rfl⟩ := List.mem_map.mp hl
    have hdigit := not_mem_toString (c := '\n') (by decide)
    simp [ServiceSpec.line, List.intercalate, List.intersperse, (h.topics spec hspec).newline, hdigit]

/-- A file of well-formed specifications, read into an empty registry, comes to one service for each of
    them exactly when there is one and each response length has two digits. -/
theorem parseServiceFile_complete_iff {files : Str → File} {path : Str} {terminated : Bool}
    {specs : List ServiceSpec} {p : Process} (h : WellFormed specs)
    (hfile : files path = .readable (fileText terminated (specs.map (·.line))))
    (services : p.server.services = []) (names : p.server.serviceNames = ∅) :
    (((parseServiceFile files path).exec p).1 = .ok true ∧
      ((parseServiceFile files path).exec p).2.server.services =
        specs.map fun spec => ServiceQueue.new spec.topicName spec.queueSize) ↔
    specs ≠ [] ∧ ∀ spec ∈ specs, 10 ≤ spec.responseLength := by
  obtain ⟨cout, hexec⟩ := parseServiceFile_exec files path p
  have hnew : ∀ spec ∈ specs, spec.topicName ∉ p.server.registry.serviceNames := by
    intro spec _
    show spec.topicName ∉ p.server.serviceNames
    rw [names]
    exact Finset.notMem_empty _
  obtain ⟨hok, hservices⟩ := readLines_specs h p.server.registry hnew
  have hempty : p.server.registry.services = [] := services
  rw [hempty, List.nil_append] at hservices
  rw [hexec, fileLines_specs h hfile, hok]
  show (Except.ok (decide _) = Except.ok true ∧ (p.server.registry.readLines _).2.services = _) ↔ _
  rw [hservices]
  refine and_congr ?_ ?_
  · rw [Except.ok.injEq, decide_eq_true_eq, List.length_map, minLines, Nat.one_le_iff_ne_zero, ne_eq,
      List.length_eq_zero_iff]
  · constructor
    · intro heq
      have hlen := congrArg List.length heq
      rw [List.length_map, List.length_map] at hlen
      simpa using List.length_filter_eq_length_iff.mp hlen
    · intro hall
      rw [List.filter_eq_self.mpr (by simpa using hall)]
      rfl

theorem topic_singleton {c : Char} (hcomma : ',' ≠ c) (hnewline : '\n' ≠ c) (hc : isWhitespace c = false) :
    Topic [c] where
  nonempty := List.cons_ne_nil _ _
  comma := List.mem_singleton.not.mpr hcomma
  newline := List.mem_singleton.not.mpr hnewline
  head := by
    rintro d ⟨⟩
    exact hc
  last := by
    rintro d ⟨⟩
    exact hc

theorem wellFormed_t {n : Nat} (h : n ≤ 32) : WellFormed [⟨['t'], 5, 10, n⟩] where
  distinct := List.nodup_singleton _
  topics := List.forall_mem_singleton.mpr (topic_singleton (by decide) (by decide) rfl)
  queueSizes := List.forall_mem_singleton.mpr (show 5 < Str.sizeRange by decide)
  lengths := List.forall_mem_singleton.mpr ⟨show 10 ≤ 32 by decide, h⟩

def twoSpecs : List ServiceSpec := [⟨['u'], 3, 32, 12⟩, ⟨['t'], 5, 10, 20⟩]

theorem wellFormed_twoSpecs : WellFormed twoSpecs where
  distinct := by decide
  topics := List.forall_mem_cons.mpr
    ⟨topic_singleton (by decide) (by decide) rfl, (wellFormed_t (n := 20) (by decide)).topics⟩
  queueSizes := by decide
  lengths := by decide

theorem parseServiceFile_complete_iff_two :
    (((parseServiceFile (fun _ => .readable (fileText true (twoSpecs.map (·.line)))) []).exec
        ⟨Server.fresh 0 0 2 8000, []⟩).1 = .ok true ∧
      ((parseServiceFile (fun _ => .readable (fileText true (twoSpecs.map (·.line)))) []).exec
        ⟨Server.fresh 0 0 2 8000, []⟩).2.server.services = [ServiceQueue.new ['u'] 3, ServiceQueue.new ['t'] 5]) :=
  (@parseServiceFile_complete_iff _ [] true twoSpecs _ wellFormed_twoSpecs rfl rfl rfl).mpr
    ⟨List.cons_ne_nil _ _, by decide⟩

theorem parseServiceFile_drops_line : WellFormed [⟨['t'], 5, 10, 7⟩] ∧
    ((parseServiceFile (fun _ => .readable (fileText true [ServiceSpec.line ⟨['t'], 5, 10, 7⟩])) []).exec
      ⟨Server.fresh 0 0 2 8000, []⟩).2.server.services ≠ [ServiceQueue.new ['t'] 5] := by
  refine ⟨wellFormed_t (by decide), ?_⟩
  have hnil : ((parseServiceFile (fun _ => .readable (fileText true [ServiceSpec.line ⟨['t'], 5, 10, 7⟩])) []).exec
      ⟨Server.fresh 0 0 2 8000, []⟩).2.server.services = [] := by rfl
  rw [hnil]
  exact (List.cons_ne_nil _ _).symm

/-! ### What is accepted -/

/-- `field` is what `stoull` reads as `n`, with nothing before the sign. -/
def NumeralField (field : Str) (n : Nat) : Prop := ∃ sign digits rest, Numeral field n [] sign digits rest

def positionalFields (line : Str) : List Str := (line.splitOn ',').map (strip isWhitespace)

def nonBlankFields (line : Str) : List Str := tokens (line.splitOn ',')

/-- The first four fields of a line by position describe `q` in the format. -/
def Describes (line : Str) (q : ServiceQueue XferType) : Prop :=
  ∃ topic f1 f2 f3 more, positionalFields line = topic :: f1 :: f2 :: f3 :: more ∧
    topic ≠ [] ∧ topic = q.topicName ∧ Digits f1 ∧ Digits f2 ∧ Digits f3 ∧
    digitsValue f1 = q.queueSize ∧ digitsValue f2 ≤ 32 ∧ digitsValue f3 ≤ 32

theorem Describes.digits {line : Str} {q : ServiceQueue XferType} (h : Describes line q) :
    ∀ f ∈ ((positionalFields line).drop 1).take 3, Digits f := by
  obtain ⟨topic, f1, f2, f3, more, hpos, -, -, h1, h2, h3, -⟩ := h
  rw [hpos]
  simp [h1, h2, h3]

theorem numeralField_of_token {fields : List Str} {field : Str} {n : Nat} (hf : field ∈ tokens fields)
    (h : Str.stoull field = .ok n) : NumeralField field n := by
  obtain ⟨hmem, hne⟩ := List.mem_filter.mp hf
  obtain ⟨raw, -, rfl⟩ := List.mem_map.mp hmem
  obtain ⟨blanks, sign, digits, rest, hnum⟩ := numeral_of_stoull h
  cases blanks with
  | nil => exact ⟨sign, digits, rest, hnum⟩
  | cons c cs =>
    have hblank := hnum.blank c List.mem_cons_self
    have hhead : (strip isWhitespace raw).head? = some c := by rw [hnum.text]; rfl
    rw [← isWhitespace_eq_isspace, head?_strip c hhead] at hblank
    cases hblank

/-- A line with two tokens or more has as its tokens its fields that are not blank, but perhaps the last. -/
theorem lineTokens_isPrefix {line : Str} (h : 2 ≤ (lineTokens line).length) :
    lineTokens line <+: nonBlankFields line := by
  have hne : line.splitOn ',' ≠ [] := List.splitOn_ne_nil _ _
  obtain ⟨before, l, hsplit⟩ : ∃ before l, line.splitOn ',' = before ++ [l] :=
    ⟨_, _, (List.dropLast_append_getLast hne).symm⟩
  unfold lineTokens at h ⊢
  unfold nonBlankFields
  rw [hsplit, keptFields_concat] at h ⊢
  unfold lastKept at h ⊢
  by_cases hlen : l.length < 2
  · rw [if_pos hlen, List.append_nil, tokens_append]
    exact List.prefix_append _ _
  · by_cases hnil : before = []
    · rw [if_neg hlen, if_pos hnil, hnil] at h
      have hone : (tokens [l.dropLast]).length ≤ 1 := List.length_filter_le _ _
      rw [List.nil_append] at h
      omega
    · rw [if_neg hlen, if_neg hnil]

theorem nonBlankFields_of_positional {line t f1 f2 f3 : Str} {more : List Str}
    (h : positionalFields line = t :: f1 :: f2 :: f3 :: more) (ht : t ≠ []) (h1 : f1 ≠ []) (h2 : f2 ≠ [])
    (h3 : f3 ≠ []) : ∃ more', nonBlankFields line = t :: f1 :: f2 :: f3 :: more' := by
  refine ⟨more.filter (· ≠ []), ?_⟩
  show (positionalFields line).filter (· ≠ []) = _
  rw [h]
  simp [ht, h1, h2, h3]

/-- What a line must be to bring in `q`: its first four fields that are not blank are the topic and three
    numerals. Where its first four fields by position are a topic and three runs of digits, it is these. -/
structure BringsIn (line : Str) (q : ServiceQueue XferType) : Prop where
  topic : q.topicName ≠ []
  fields : ∃ f1 f2 f3 more reqLen rspLen, nonBlankFields line = q.topicName :: f1 :: f2 :: f3 :: more ∧
    NumeralField f1 q.queueSize ∧ NumeralField f2 reqLen ∧ NumeralField f3 rspLen ∧ reqLen ≤ 32 ∧ rspLen ≤ 32
  exact : ∀ topic f1 f2 f3 more, positionalFields line = topic :: f1 :: f2 :: f3 :: more → topic ≠ [] →
    Digits f1 → Digits f2 → Digits f3 → Describes line q

theorem lineSpec_eq_some {line : Str} {spec : ServiceSpec} (h : lineSpec line = .ok (some spec)) :
    ∃ t1 t2 t3 more, lineTokens line = spec.topicName :: t1 :: t2 :: t3 :: more ∧
      Str.stoull t1 = .ok spec.queueSize ∧ Str.stoull t2 = .ok spec.requestLength ∧
      Str.stoull t3 = .ok spec.responseLength := by
  unfold lineSpec at h
  split at h
  · rename_i topic t1 t2 t3 more htokens
    split at h
    · cases h
    · rename_i qLen reqLen rspLen hconv
      cases h
      exact ⟨t1, t2, t3, more, htokens, convertSpec_eq_ok.mp hconv⟩
  · cases h

theorem bringsIn_of_lineSpec {line : Str} {spec : ServiceSpec} (h : lineSpec line = .ok (some spec))
    (hlen : max spec.requestLength spec.responseLength ≤ 32) : BringsIn line spec.service := by
  obtain ⟨t1, t2, t3, more, htokens, h1, h2, h3⟩ := lineSpec_eq_some h
  obtain ⟨more', hfields⟩ : ∃ more', nonBlankFields line = spec.topicName :: t1 :: t2 :: t3 :: more' := by
    obtain ⟨rest, hrest⟩ := @lineTokens_isPrefix line (by rw [htokens]; simp)
    exact ⟨more ++ rest, by rw [← hrest, htokens]; rfl⟩
  have token : ∀ {t : Str}, t ∈ [spec.topicName, t1, t2, t3] → t ∈ tokens (line.splitOn ',') := by
    intro t ht
    show t ∈ nonBlankFields line
    rw [hfields]
    exact List.mem_append_left more' ht
  have htopic : spec.topicName ≠ [] := by
    simpa using (List.mem_filter.mp (token List.mem_cons_self)).2
  have hreq : spec.requestLength ≤ 32 := le_trans (le_max_left _ _) hlen
  have hrsp : spec.responseLength ≤ 32 := le_trans (le_max_right _ _) hlen
  refine ⟨htopic, ⟨t1, t2, t3, more', spec.requestLength, spec.responseLength, hfields,
    numeralField_of_token (token (by simp)) h1, numeralField_of_token (token (by simp)) h2,
    numeralField_of_token (token (by simp)) h3, hreq, hrsp⟩, ?_⟩
  intro topic f1 f2 f3 rest hpos ht hd1 hd2 hd3
  obtain ⟨rest', hsame⟩ := nonBlankFields_of_positional hpos ht hd1.1 hd2.1 hd3.1
  rw [hfields] at hsame
  obtain ⟨rfl, rfl, rfl, rfl, -⟩ : spec.topicName = topic ∧ t1 = f1 ∧ t2 = f2 ∧ t3 = f3 ∧ more' = rest' := by
    simpa using hsame
  refine ⟨_, t1, t2, t3, rest, hpos, ht, rfl, hd1, hd2, hd3, (eq_digitsValue_of_stoull h1 hd1).symm, ?_, ?_⟩
  · rw [← eq_digitsValue_of_stoull h2 hd2]
    exact hreq
  · rw [← eq_digitsValue_of_stoull h3 hd3]
    exact hrsp

/-- Whatever the file and the registry, services are only appended, each at a line that brings it in. -/
theorem parseServiceFile_sound (files : Str → File) (path : Str) (p : Process) : ∃ added,
    ((parseServiceFile files path).exec p).2.server.services = p.server.services ++ added ∧
    ∀ q ∈ added, ∃ A line B, fileLines files path = A ++ line :: B ∧
      servicesAfter p (A ++ [line]) = servicesAfter p A ++ [q] ∧ BringsIn line q := by
  obtain ⟨cout, hexec⟩ := parseServiceFile_exec files path p
  obtain ⟨added, happ, hadded⟩ := p.server.registry.readLines_added (fileLines files path)
  refine ⟨added, by rw [hexec]; exact happ, fun q hq => ?_⟩
  obtain ⟨A, line, B, spec, hlines, hok, hspec, hadm, rfl⟩ := hadded q hq
  refine ⟨A, line, B, hlines, ?_, bringsIn_of_lineSpec hspec hadm.2⟩
  rw [servicesAfter_eq, servicesAfter_eq, Registry.readLines_append]
  generalize hA : p.server.registry.readLines A = out at hok hadm ⊢
  obtain ⟨_, r⟩ := out
  obtain rfl := hok
  show (r.readLines [line]).2.services = _
  rw [Registry.readLines, hspec]
  show (r.register spec).services = _
  rw [Registry.register_of_admits hadm]

/-- A blank field, a negative number and text after a number are accepted. -/
theorem parseServiceFile_accepts_others :
    ((parseServiceFile (fun _ => .readable (fileText true ["a,,7,10,10".toList,
        "b,7,-18446744073709551606,10".toList, "c,7x,10,10".toList])) []).exec
      ⟨Server.fresh 0 0 2 8000, []⟩).2.server.services =
        [ServiceQueue.new ['a'] 7, ServiceQueue.new ['b'] 7, ServiceQueue.new ['c'] 7] ∧
    ∀ q, ¬ Describes "a,,7,10,10".toList q ∧ ¬ Describes "b,7,-18446744073709551606,10".toList q ∧
      ¬ Describes "c,7x,10,10".toList q := by
  refine ⟨by rfl, fun q => ⟨fun h => ?_, fun h => ?_, fun h => ?_⟩⟩
  · exact (h.digits [] (by decide)).1 rfl
  · exact absurd ((h.digits "-18446744073709551606".toList (by decide)).2 '-' (by decide)) (by decide)
  · exact absurd ((h.digits "7x".toList (by decide)).2 'x' (by decide)) (by decide)

end ServiceBridge
