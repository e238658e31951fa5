import ServiceBridge.Theorems.RequestText

/-! What the parser makes of a text: it accepts the texts of requests, it waits for more exactly while what it
    has can go on to one of them, and its only undefined outcome is a version that is too great. -/

namespace ServiceBridge.Http
open Incremental

variable {req : Request} {c : Char} {front rest text digits : Str} {p q : Parsing} {e : Undefined}

/-! ### Verdicts -/

theorem goOn_ne_true {x : Except Undefined Request} {state : ParserState} :
    (x >>= fun r => goOn state r) ≠ .ok (some true, q) := by
  intro h
  rcases x with e | r
  · cases h
  · cases h

/-- Only the end of the empty line is accepted. -/
theorem consume_true (h : consume p c = .ok (some true, q)) : p.state = .expectingNewline3 ∧ c = '\n' ∧ q = p := by
  rcases p with ⟨state, req⟩
  cases state <;> simp only [consume] at h
  all_goals grind [reject, goOn, goOn_ne_true]

theorem Reached.accept {major minor : Int} (h : Reached major minor p text)
    (hc : consume p c = .ok (some true, q)) : q.state = .expectingNewline3 ∧ RequestText q.req (text ++ [c]) := by
  obtain ⟨hstate, rfl, rfl⟩ := consume_true hc
  refine ⟨hstate, ?_⟩
  cases h with
  | newline3 hline hfields =>
    have htext := RequestText.mk hline hfields
    rwa [crlf, ← List.singleton_append, ← List.append_assoc] at htext
  | name w v _ _ hin => simp_all
  | _ => cases hstate

theorem of_error {P : Prop} [Decidable P] {r : Request} {state : ParserState}
    (h : (if P then goOn state r else .error .overflow) = .error e) : e = .overflow ∧ ¬P := by
  by_cases hP : P
  · rw [if_pos hP] at h
    cases h
  · rw [if_neg hP] at h
    cases h
    exact ⟨rfl, hP⟩

theorem Reached.error {major minor : Int} (h : Reached major minor p text) (hc : consume p c = .error e) :
    e = .overflow ∧ Overflowing (text ++ [c]) := by
  cases h with
  | majorStart hstart =>
    rw [consume] at hc
    split_ifs at hc with hdigit
    · rw [goOn_pushMajor _ [] hdigit (Nat.zero_le _) rfl] at hc
      obtain ⟨he, hbig⟩ := of_error hc
      exact ⟨he, .major hstart (List.forall_mem_singleton.mpr hdigit) (Nat.lt_of_not_le hbig)⟩
    · cases hc
  | major hstart n =>
    rw [consume] at hc
    split_ifs at hc with hdot hdigit
    · cases hc
    · rw [goOn_pushMajor _ _ hdigit n.fits rfl] at hc
      obtain ⟨he, hbig⟩ := of_error hc
      rw [List.append_assoc]
      exact ⟨he, .major hstart (forall_concat n.digit hdigit) (Nat.lt_of_not_le hbig)⟩
    · cases hc
  | minorStart hstart n =>
    rw [consume] at hc
    split_ifs at hc with hdigit
    · rw [goOn_pushMinor _ [] hdigit (Nat.zero_le _) rfl] at hc
      obtain ⟨he, hbig⟩ := of_error hc
      exact ⟨he, .minor hstart n (List.forall_mem_singleton.mpr hdigit) (Nat.lt_of_not_le hbig)⟩
    · cases hc
  | minor hstart n k =>
    rw [consume] at hc
    split_ifs at hc with hcr hdigit
    · cases hc
    · rw [goOn_pushMinor _ _ hdigit k.fits rfl] at hc
      obtain ⟨he, hbig⟩ := of_error hc
      rw [List.append_assoc]
      exact ⟨he, .minor hstart n (forall_concat k.digit hdigit) (Nat.lt_of_not_le hbig)⟩
    · cases hc
  | name w v _ _ hin =>
    simp only [List.mem_cons, Prod.mk.injEq, List.not_mem_nil, or_false] at hin
    rcases hin with ⟨rfl, rfl⟩ | ⟨rfl, rfl⟩ | ⟨rfl, rfl⟩ | ⟨rfl, rfl⟩ | ⟨rfl, rfl⟩
    all_goals rw [consume] at hc; split_ifs at hc <;> cases hc
  -- where a header is changed there is one
  | lineStart | headerName =>
    rw [consume, Request.pushName, modifyBack_concat _ rfl] at hc
    split_ifs at hc <;> cases hc
  | lws | value | tail =>
    rw [consume, Request.pushValue, modifyBack_concat _ rfl] at hc
    split_ifs at hc <;> cases hc
  | methodStart =>
    rw [Parsing.fresh, consume] at hc
    split_ifs at hc <;> cases hc
  | method | uri | newline1 | space | newline2 =>
    rw [consume] at hc
    split_ifs at hc <;> cases hc
  | newline3 => cases hc

/-! ### Texts that can go on -/

def Numeral.zero : Numeral := ⟨['0'], List.cons_ne_nil _ _, List.forall_mem_singleton.mpr rfl, Nat.zero_le _⟩

theorem Unfinished.intro (more : Str) (h : RequestText req text) (hne : more ≠ []) (heq : text = front ++ more) :
    Unfinished front := ⟨req, more, hne, heq ▸ h⟩

theorem Unfinished.of_append {more : Str} (h : Unfinished (text ++ more)) : Unfinished text := by
  obtain ⟨req, more', hne, h⟩ := h
  rw [List.append_assoc] at h
  exact ⟨req, more ++ more', List.append_ne_nil_of_right_ne_nil _ hne, h⟩

theorem Unfinished.of_numerals {method uri start : Str} (h : LineStart method uri start) (n k : Numeral) :
    Unfinished (start ++ n.digits ++ ['.'] ++ k.digits ++ ['\r']) :=
  .intro ('\n' :: crlf) (.mk (.mk h n k) .nil) (List.cons_ne_nil _ _) (by simp [crlf])

theorem Unfinished.of_lineStart {method uri start : Str} (h : LineStart method uri start) : Unfinished start := by
  have h := Unfinished.of_numerals h .zero .zero
  simp only [List.append_assoc] at h
  exact h.of_append

theorem Unfinished.of_field {line fields : Str} {hs : List Header} {h : Header} (hline : RequestLine req line)
    (hfields : Fields hs fields) (field : Field h text) : Unfinished (line ++ fields ++ text ++ ['\r']) :=
  .intro ('\n' :: crlf) (.mk hline (.snoc hfields field)) (List.cons_ne_nil _ _) (by simp [crlf])

/-- Whatever has got no verdict can go on to a request. -/
theorem Reached.unfinished {major minor : Int} (h : Reached major minor p text) : Unfinished text := by
  cases h with
  | methodStart =>
    have h := Unfinished.of_lineStart (.mk (.single 'G' rfl) .empty)
    rw [← List.nil_append (Token.chars _ ++ _ ++ _ ++ _ ++ _)] at h
    exact h.of_append
  | method w =>
    have h := Unfinished.of_lineStart (.mk w .empty)
    simp only [List.append_assoc] at h
    exact h.of_append
  | uri w v =>
    have h := Unfinished.of_lineStart (.mk w v)
    rw [List.append_assoc (w.chars ++ [' '] ++ v.chars)] at h
    exact h.of_append
  | name w v state read hin =>
    obtain ⟨more, hmore⟩ : read <+: ['H', 'T', 'T', 'P', '/'] := by
      simp only [List.mem_cons, Prod.mk.injEq, List.not_mem_nil, or_false] at hin
      rcases hin with ⟨-, rfl⟩ | ⟨-, rfl⟩ | ⟨-, rfl⟩ | ⟨-, rfl⟩ | ⟨-, rfl⟩
      all_goals simp
    have h := Unfinished.of_lineStart (.mk w v)
    rw [← hmore, ← List.append_assoc _ read] at h
    exact h.of_append
  | majorStart hstart => exact .of_lineStart hstart
  | major hstart n =>
    have h := Unfinished.of_numerals hstart n .zero
    simp only [List.append_assoc _ ['.'], List.append_assoc _ (['.'] ++ _)] at h
    exact h.of_append
  | minorStart hstart n =>
    have h := Unfinished.of_numerals hstart n .zero
    rw [List.append_assoc] at h
    exact h.of_append
  | minor hstart n k => exact (Unfinished.of_numerals hstart n k).of_append
  | newline1 hstart n k => exact .of_numerals hstart n k
  | lineStart hline hfields => exact .intro crlf (.mk hline hfields) (List.cons_ne_nil _ _) rfl
  | lws hline hfields field blanks =>
    have h := Unfinished.of_field hline hfields (field.fold blanks .empty)
    simp only [Tail.empty, Piece.empty, List.append_nil] at h
    simpa only [List.append_assoc] using h.of_append
  | headerName hline hfields w =>
    have h := Unfinished.of_field hline hfields (.line w .empty)
    simp only [← List.append_assoc] at h
    exact h.of_append.of_append.of_append
  | space hline hfields w =>
    have h := Unfinished.of_field hline hfields (.line w .empty)
    rw [← List.singleton_append (l := [' '])] at h
    simp only [← List.append_assoc] at h
    exact h.of_append.of_append.of_append
  | value hline hfields w v => exact (Unfinished.of_field hline hfields (.line w v)).of_append
  | tail hline hfields field blanks more hne =>
    exact (Unfinished.of_field hline hfields (field.fold blanks more)).of_append
  | newline2 hline hfields field => exact .of_field hline hfields field
  | newline3 hline hfields =>
    exact .intro ['\n'] (.mk hline hfields) (List.cons_ne_nil _ _) (by simp [crlf])

/-! ### Any text -/

theorem reached_of_quiet {major minor : Int} (h : Quiet consume (.fresh major minor) text p) :
    Reached major minor p text :=
  h.invariant (I := fun text p => Reached major minor p text) .methodStart fun _ _ _ _ hr hc => hr.step hc

theorem requestText_of_parse {major minor : Int} (h : parse (.fresh major minor) text = .ok (some true, rest, p)) :
    p.state = .expectingNewline3 ∧ ∃ head, text = head ++ rest ∧ RequestText p.req head := by
  obtain ⟨front, c, q, rfl, hq, hc⟩ := feed_eq_some_iff.mp h
  obtain ⟨hstate, htext⟩ := (reached_of_quiet hq).accept hc
  exact ⟨hstate, front ++ [c], by simp, htext⟩

theorem RequestText.parse_append {head : Str} (h : RequestText req head) (major minor : Int) (rest : Str) :
    parse (.fresh major minor) (head ++ rest) = .ok (some true, rest, ⟨.expectingNewline3, req⟩) := by
  obtain ⟨front, rfl, hq⟩ := quiet_requestText h major minor
  rw [List.append_assoc]
  exact feed_eq_some_iff.mpr ⟨front, '\n', _, rfl, hq, rfl⟩

/-- The parser accepts exactly the texts that start with a request, with what follows left over, and the request
    is the one that the text is of. -/
theorem parse_accepts_iff (major minor : Int) (text rest : Str) (p : Parsing) :
    parse (.fresh major minor) text = .ok (some true, rest, p) ↔
      p.state = .expectingNewline3 ∧ ∃ head, text = head ++ rest ∧ RequestText p.req head := by
  refine ⟨requestText_of_parse, ?_⟩
  obtain ⟨state, req⟩ := p
  rintro ⟨rfl, head, rfl, htext⟩
  exact htext.parse_append major minor rest

theorem unfinished_of_parse {major minor : Int} (h : parse (.fresh major minor) text = .ok (none, rest, p)) :
    Unfinished text :=
  (reached_of_quiet (feed_eq_none_iff.mp h).2).unfinished

theorem Unfinished.exists_parse (h : Unfinished text) (major minor : Int) :
    ∃ rest p, parse (.fresh major minor) text = .ok (none, rest, p) := by
  obtain ⟨req, more, hne, htext⟩ := h
  obtain ⟨front, hfront, hq⟩ := quiet_requestText htext major minor
  obtain ⟨last, c, rfl⟩ := (List.eq_nil_or_concat more).resolve_left hne
  rw [List.concat_eq_append, ← List.append_assoc] at hfront
  obtain ⟨rfl, -⟩ := List.append_inj' hfront rfl
  obtain ⟨p, hp, -⟩ := hq.of_append
  exact ⟨[], p, feed_eq_none_iff.mpr ⟨rfl, hp⟩⟩

/-- The parser waits for more exactly while the text can go on to a request. -/
theorem parse_waits_iff (major minor : Int) (text : Str) :
    (∃ rest p, parse (.fresh major minor) text = .ok (none, rest, p)) ↔ Unfinished text := by
  refine ⟨?_, fun h => h.exists_parse major minor⟩
  rintro ⟨rest, p, h⟩
  exact unfinished_of_parse h

theorem exists_overflow (hbig : versionMax < Nat.ofDigitChars 10 digits 0) :
    ∃ front c rest, digits = front ++ c :: rest ∧ Nat.ofDigitChars 10 front 0 ≤ versionMax ∧
      ¬Nat.ofDigitChars 10 (front ++ [c]) 0 ≤ versionMax := by
  induction digits using List.reverseRecOn with
  | nil => exact absurd hbig (Nat.not_lt_zero _)
  | append_singleton l c ih =>
    by_cases hl : Nat.ofDigitChars 10 l 0 ≤ versionMax
    · exact ⟨l, c, [], rfl, hl, Nat.not_le_of_lt hbig⟩
    · obtain ⟨front, x, rest, rfl, hfront, hx⟩ := ih (Nat.lt_of_not_le hl)
      exact ⟨front, x, rest ++ [c], by simp, hfront, hx⟩

theorem ReadsNumeral.overflow {s : Parsing} {f : Nat → Parsing} (h : ReadsNumeral s f)
    (hdigit : ∀ c ∈ digits, isDigit (toInt c) = true) (hbig : versionMax < Nat.ofDigitChars 10 digits 0)
    (rest : Str) : feed consume s (digits ++ rest) = .error .overflow := by
  obtain ⟨front, c, more, rfl, hfront, hc⟩ := exists_overflow hbig
  rw [List.forall_mem_append, List.forall_mem_cons] at hdigit
  obtain ⟨hdigits, hdigit, -⟩ := hdigit
  rw [List.append_assoc]
  by_cases hne : front = []
  · subst hne
    refine feed_eq_error_iff.mpr ⟨[], c, more ++ rest, s, rfl, .nil, ?_⟩
    rw [h.first c hdigit, taken, if_neg hc]
  · have hq := h.quiet ⟨front, hne, hdigits, hfront⟩
    refine feed_eq_error_iff.mpr ⟨front, c, more ++ rest, _, rfl, hq, ?_⟩
    rw [h.more front c hdigit hfront, taken, if_neg hc]

theorem overflowing_of_parse {major minor : Int} (h : parse (.fresh major minor) text = .error e) :
    e = .overflow ∧ ∃ front rest, text = front ++ rest ∧ Overflowing front := by
  obtain ⟨front, c, rest, p, rfl, hq, hc⟩ := feed_eq_error_iff.mp h
  obtain ⟨he, hover⟩ := (reached_of_quiet hq).error hc
  exact ⟨he, front ++ [c], rest, by simp, hover⟩

theorem Overflowing.parse_append (h : Overflowing front) (major minor : Int) (rest : Str) :
    parse (.fresh major minor) (front ++ rest) = .error .overflow := by
  rw [parse]
  cases h with
  | major hstart hdigit hbig =>
    rw [List.append_assoc, feed_of_quiet (quiet_lineStart hstart major minor)]
    exact (readsNumeral_major rfl).overflow hdigit hbig rest
  | minor hstart n hdigit hbig =>
    have hmajor := (quiet_lineStart hstart major minor).append ((readsNumeral_major rfl).quiet n)
    rw [List.append_assoc, feed_of_quiet (hmajor.snoc (x := '.') rfl)]
    exact (readsNumeral_minor rfl).overflow hdigit hbig rest

/-- The only undefined outcome is a version that is too great; `back()` is never called on an empty vector. -/
theorem parse_undefined_iff (major minor : Int) (text : Str) (e : Undefined) :
    parse (.fresh major minor) text = .error e ↔
      e = .overflow ∧ ∃ front rest, text = front ++ rest ∧ Overflowing front := by
  refine ⟨overflowing_of_parse, ?_⟩
  rintro ⟨rfl, front, rest, rfl, hover⟩
  exact hover.parse_append major minor rest

end ServiceBridge.Http
