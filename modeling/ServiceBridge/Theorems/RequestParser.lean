import ServiceBridge.RequestText

/-! The parser reads exactly the texts of `RequestText`, and waits for more exactly while what it has read can
    become one. -/

namespace ServiceBridge.Http
open Incremental

variable {req : Request} {input c : Char} {n : Int} {digits text : Str}

/-! ### Characters -/

theorem not_token (c : Char) : (!isChar (toInt c) || isCtl (toInt c) || isTspecial (toInt c)) = !isToken c := by
  simp only [isToken, Bool.not_and, Bool.not_not]

theorem toInt_of_isDigit (h : isDigit (toInt c) = true) : 48 ≤ c.toNat ∧ c.toNat ≤ 57 ∧ toInt c = c.toNat := by
  have zero : toInt '0' = 48 := rfl
  have nine : toInt '9' = 57 := rfl
  rw [isDigit, decide_eq_true_iff, zero, nine] at h
  unfold toInt at h ⊢
  by_cases hc : c.toNat < 128
  · rw [if_pos hc] at h ⊢
    omega
  · rw [if_neg hc] at h
    omega

theorem ofDigitChars_concat (digits : Str) (c : Char) :
    Nat.ofDigitChars 10 (digits ++ [c]) 0 = 10 * Nat.ofDigitChars 10 digits 0 + (c.toNat - '0'.toNat) := by
  rw [Nat.ofDigitChars_append, Nat.ofDigitChars_cons, Nat.ofDigitChars_nil]

/-- A digit is taken in as long as the number is in range. -/
theorem pushDigit_ofDigitChars (h : isDigit (toInt c) = true) (hfits : Nat.ofDigitChars 10 digits 0 ≤ versionMax) :
    pushDigit (Nat.ofDigitChars 10 digits 0 : Nat) c =
      if Nat.ofDigitChars 10 (digits ++ [c]) 0 ≤ versionMax then .ok (Nat.ofDigitChars 10 (digits ++ [c]) 0 : Nat)
      else .error .overflow := by
  obtain ⟨hlo, hhi, hc⟩ := toInt_of_isDigit h
  have zero : toInt '0' = 48 := rfl
  have zero' : '0'.toNat = 48 := rfl
  have max : Str.intMax = 2147483647 := rfl
  have bound : versionMax = 2147483599 := rfl
  rw [ofDigitChars_concat, zero', bound]
  unfold pushDigit int
  rw [hc, zero, max]
  by_cases htens : 10 * Nat.ofDigitChars 10 digits 0 ≤ 2147483647
  · rw [if_pos (by omega)]
    simp only [bind, Except.bind]
    by_cases hsum : 10 * Nat.ofDigitChars 10 digits 0 + c.toNat ≤ 2147483647
    · rw [if_pos (by omega), if_pos (by omega)]
      simp only
      rw [if_pos (by omega)]
      congr 1
      omega
    · rw [if_neg (by omega), if_neg (by omega)]
  · rw [if_neg (by omega), if_neg (by omega)]
    rfl

theorem goOn_pushDigit (state : ParserState) (f : Int → Request) (h : isDigit (toInt c) = true)
    (hfits : Nat.ofDigitChars 10 digits 0 ≤ versionMax) :
    (do goOn state (← (return f (← pushDigit (Nat.ofDigitChars 10 digits 0 : Nat) c) : Except Undefined Request)) :
      Consumed) =
      if Nat.ofDigitChars 10 (digits ++ [c]) 0 ≤ versionMax then
        goOn state (f (Nat.ofDigitChars 10 (digits ++ [c]) 0 : Nat))
      else .error .overflow := by
  rw [pushDigit_ofDigitChars h hfits]
  by_cases hle : Nat.ofDigitChars 10 (digits ++ [c]) 0 ≤ versionMax
  · rw [if_pos hle, if_pos hle]
    rfl
  · rw [if_neg hle, if_neg hle]
    rfl

theorem goOn_pushMajor (state : ParserState) (digits : Str) (h : isDigit (toInt c) = true)
    (hfits : Nat.ofDigitChars 10 digits 0 ≤ versionMax)
    (hreq : req.httpVersionMajor = (Nat.ofDigitChars 10 digits 0 : Nat)) :
    (do goOn state (← req.pushMajor c) : Consumed) = if Nat.ofDigitChars 10 (digits ++ [c]) 0 ≤ versionMax then
      goOn state { req with httpVersionMajor := (Nat.ofDigitChars 10 (digits ++ [c]) 0 : Nat) }
      else .error .overflow := by
  rw [Request.pushMajor, hreq]
  exact goOn_pushDigit state (fun n => { req with httpVersionMajor := n }) h hfits

theorem goOn_pushMinor (state : ParserState) (digits : Str) (h : isDigit (toInt c) = true)
    (hfits : Nat.ofDigitChars 10 digits 0 ≤ versionMax)
    (hreq : req.httpVersionMinor = (Nat.ofDigitChars 10 digits 0 : Nat)) :
    (do goOn state (← req.pushMinor c) : Consumed) = if Nat.ofDigitChars 10 (digits ++ [c]) 0 ≤ versionMax then
      goOn state { req with httpVersionMinor := (Nat.ofDigitChars 10 (digits ++ [c]) 0 : Nat) }
      else .error .overflow := by
  rw [Request.pushMinor, hreq]
  exact goOn_pushDigit state (fun n => { req with httpVersionMinor := n }) h hfits

theorem modifyBack_concat {headers : List Header} {h : Header} (f : Header → Header)
    (hreq : req.headers = headers ++ [h]) : req.modifyBack f = .ok { req with headers := headers ++ [f h] } := by
  rw [Request.modifyBack, hreq, List.getLast?_concat, List.dropLast_concat]

/-! ### Steps without a verdict -/

section
variable {p q : Parsing} {state : ParserState} {x : Consumed}

theorem of_unless {P : Prop} [Decidable P] (h : (if P then reject p else x) = .ok (none, q)) :
    ¬P ∧ x = .ok (none, q) := by
  by_cases hP : P
  · rw [if_pos hP] at h
    cases h
  · rw [if_neg hP] at h
    exact ⟨hP, h⟩

theorem of_when {P : Prop} [Decidable P] (h : (if P then x else reject p) = .ok (none, q)) :
    P ∧ x = .ok (none, q) := by
  by_cases hP : P
  · rw [if_pos hP] at h
    exact ⟨hP, h⟩
  · rw [if_neg hP] at h
    cases h

theorem of_ite {P : Prop} [Decidable P] {y : Consumed} (h : (if P then x else y) = .ok (none, q)) :
    P ∧ x = .ok (none, q) ∨ ¬P ∧ y = .ok (none, q) := by
  by_cases hP : P
  · exact .inl ⟨hP, by rwa [if_pos hP] at h⟩
  · exact .inr ⟨hP, by rwa [if_neg hP] at h⟩

theorem of_fits {P : Prop} [Decidable P] {e : Undefined} {r : Request}
    (h : (if P then goOn state r else .error e) = .ok (none, q)) : P ∧ q = ⟨state, r⟩ := by
  by_cases hP : P
  · rw [if_pos hP] at h
    cases h
    exact ⟨hP, rfl⟩
  · rw [if_neg hP] at h
    cases h

end

/-! ### Words that grow -/

theorem forall_concat {P : Char → Prop} (h : ∀ c ∈ text, P c) (hc : P c) : ∀ x ∈ text ++ [c], P x :=
  List.forall_mem_append.mpr ⟨h, List.forall_mem_singleton.mpr hc⟩

def Token.single (c : Char) (h : isToken c = true) : Token :=
  ⟨[c], List.cons_ne_nil _ _, List.forall_mem_singleton.mpr h⟩

def Token.push (w : Token) (c : Char) (h : isToken c = true) : Token :=
  ⟨w.chars ++ [c], List.append_ne_nil_of_right_ne_nil _ (List.cons_ne_nil _ _), forall_concat w.token h⟩

def Target.empty : Target := ⟨[], List.forall_mem_nil _⟩

def Target.push (w : Target) (c : Char) (h : isText c = true) (hc : c ≠ ' ') : Target :=
  ⟨w.chars ++ [c], forall_concat w.text ⟨h, hc⟩⟩

def Numeral.single (c : Char) (h : isDigit (toInt c) = true) (hfits : Nat.ofDigitChars 10 [c] 0 ≤ versionMax) :
    Numeral := ⟨[c], List.cons_ne_nil _ _, List.forall_mem_singleton.mpr h, hfits⟩

def Numeral.push (w : Numeral) (c : Char) (h : isDigit (toInt c) = true)
    (hfits : Nat.ofDigitChars 10 (w.digits ++ [c]) 0 ≤ versionMax) : Numeral :=
  ⟨w.digits ++ [c], List.append_ne_nil_of_right_ne_nil _ (List.cons_ne_nil _ _), forall_concat w.digit h, hfits⟩

def Blanks.single (c : Char) (h : isBlank c = true) : Blanks :=
  ⟨[c], List.cons_ne_nil _ _, List.forall_mem_singleton.mpr h⟩

def Blanks.push (w : Blanks) (c : Char) (h : isBlank c = true) : Blanks :=
  ⟨w.chars ++ [c], List.append_ne_nil_of_right_ne_nil _ (List.cons_ne_nil _ _), forall_concat w.blank h⟩

def Piece.empty : Piece := ⟨[], List.forall_mem_nil _⟩

def Piece.push (w : Piece) (c : Char) (h : isText c = true) : Piece := ⟨w.chars ++ [c], forall_concat w.text h⟩

def Tail.empty : Tail := ⟨.empty, nofun⟩

def Tail.single (c : Char) (h : isText c = true) (hc : c ≠ ' ') : Tail :=
  ⟨⟨[c], List.forall_mem_singleton.mpr h⟩, fun heq => hc (Option.some.inj heq)⟩

def Tail.push (w : Tail) (c : Char) (hne : w.chars ≠ []) (h : isText c = true) : Tail :=
  ⟨w.toPiece.push c h, by
    show (w.chars ++ [c]).head? ≠ some ' '
    obtain ⟨x, l, hl⟩ := List.exists_cons_of_ne_nil hne
    have start := w.start
    rw [hl] at start ⊢
    exact start⟩

/-! ### What the parser has read -/

/-- The text that leads from a fresh parser, whose request has the version `major` and `minor`, to a state
    without a verdict. -/
inductive Reached (major minor : Int) : Parsing → Str → Prop
  | methodStart : Reached major minor (.fresh major minor) []
  | method (method : Token) : Reached major minor ⟨.method, ⟨method.chars, [], major, minor, []⟩⟩ method.chars
  | uri (method : Token) (uri : Target) : Reached major minor
      ⟨.uri, ⟨method.chars, uri.chars, major, minor, []⟩⟩ (method.chars ++ [' '] ++ uri.chars)
  /-- In one of the five states before a character of `HTTP/`. -/
  | name (method : Token) (uri : Target) (state : ParserState) (read : Str)
      (h : (state, read) ∈ [(ParserState.httpVersionH, ([] : Str)), (.httpVersionT1, ['H']),
        (.httpVersionT2, ['H', 'T']), (.httpVersionP, ['H', 'T', 'T']), (.httpVersionSlash, ['H', 'T', 'T', 'P'])]) :
      Reached major minor ⟨state, ⟨method.chars, uri.chars, major, minor, []⟩⟩
        (method.chars ++ [' '] ++ uri.chars ++ [' '] ++ read)
  | majorStart {method uri start : Str} (h : LineStart method uri start) :
      Reached major minor ⟨.httpVersionMajorStart, ⟨method, uri, 0, 0, []⟩⟩ start
  | major {method uri start : Str} (h : LineStart method uri start) (n : Numeral) :
      Reached major minor ⟨.httpVersionMajor, ⟨method, uri, n.value, 0, []⟩⟩ (start ++ n.digits)
  | minorStart {method uri start : Str} (h : LineStart method uri start) (n : Numeral) :
      Reached major minor ⟨.httpVersionMinorStart, ⟨method, uri, n.value, 0, []⟩⟩ (start ++ n.digits ++ ['.'])
  | minor {method uri start : Str} (h : LineStart method uri start) (n k : Numeral) :
      Reached major minor ⟨.httpVersionMinor, ⟨method, uri, n.value, k.value, []⟩⟩
        (start ++ n.digits ++ ['.'] ++ k.digits)
  | newline1 {method uri start : Str} (h : LineStart method uri start) (n k : Numeral) :
      Reached major minor ⟨.expectingNewline1, ⟨method, uri, n.value, k.value, []⟩⟩
        (start ++ n.digits ++ ['.'] ++ k.digits ++ ['\r'])
  | lineStart {req : Request} {line fields : Str} {hs : List Header} (hline : RequestLine req line)
      (hfields : Fields hs fields) :
      Reached major minor ⟨.headerLineStart, { req with headers := hs }⟩ (line ++ fields)
  | lws {req : Request} {line fields text : Str} {hs : List Header} {h : Header} (hline : RequestLine req line)
      (hfields : Fields hs fields) (field : Field h text) (blanks : Blanks) :
      Reached major minor ⟨.headerLws, { req with headers := hs ++ [h] }⟩
        (line ++ fields ++ text ++ crlf ++ blanks.chars)
  | headerName {req : Request} {line fields : Str} {hs : List Header} (hline : RequestLine req line)
      (hfields : Fields hs fields) (name : Token) :
      Reached major minor ⟨.headerName, { req with headers := hs ++ [⟨name.chars, []⟩] }⟩
        (line ++ fields ++ name.chars)
  | space {req : Request} {line fields : Str} {hs : List Header} (hline : RequestLine req line)
      (hfields : Fields hs fields) (name : Token) :
      Reached major minor ⟨.spaceBeforeHeaderValue, { req with headers := hs ++ [⟨name.chars, []⟩] }⟩
        (line ++ fields ++ name.chars ++ [':'])
  | value {req : Request} {line fields : Str} {hs : List Header} (hline : RequestLine req line)
      (hfields : Fields hs fields) (name : Token) (value : Piece) :
      Reached major minor ⟨.headerValue, { req with headers := hs ++ [⟨name.chars, value.chars⟩] }⟩
        (line ++ fields ++ (name.chars ++ [':', ' '] ++ value.chars))
  | tail {req : Request} {line fields text : Str} {hs : List Header} {h : Header} (hline : RequestLine req line)
      (hfields : Fields hs fields) (field : Field h text) (blanks : Blanks) (more : Tail) (hne : more.chars ≠ []) :
      Reached major minor ⟨.headerValue, { req with headers := hs ++ [⟨h.name, h.value ++ more.chars⟩] }⟩
        (line ++ fields ++ (text ++ crlf ++ blanks.chars ++ more.chars))
  | newline2 {req : Request} {line fields text : Str} {hs : List Header} {h : Header}
      (hline : RequestLine req line) (hfields : Fields hs fields) (field : Field h text) :
      Reached major minor ⟨.expectingNewline2, { req with headers := hs ++ [h] }⟩ (line ++ fields ++ text ++ ['\r'])
  | newline3 {req : Request} {line fields : Str} {hs : List Header} (hline : RequestLine req line)
      (hfields : Fields hs fields) :
      Reached major minor ⟨.expectingNewline3, { req with headers := hs }⟩ (line ++ fields ++ ['\r'])

namespace Reached
variable {i j : Int} {p q : Parsing} {text' : Str}

theorem of_eq (h : Reached i j p text) (heq : text = text') : Reached i j p text' := heq ▸ h

theorem of_eq' (h : Reached i j p text) (hp : p = q) (heq : text = text') : Reached i j q text' :=
  hp ▸ heq ▸ h

/-- A character that gets no verdict. -/
theorem step (h : Reached i j p text) (hc : consume p c = .ok (none, q)) :
    Reached i j q (text ++ [c]) := by
  cases h with
  | methodStart =>
    rw [Parsing.fresh, consume, not_token] at hc
    obtain ⟨htoken, ⟨⟩⟩ := of_unless hc
    exact method (.single c (by simpa using htoken))
  | method w =>
    rw [consume, not_token] at hc
    rcases of_ite hc with ⟨rfl, ⟨⟩⟩ | ⟨-, hc⟩
    · exact (uri w .empty).of_eq (by simp [Target.empty])
    · obtain ⟨htoken, ⟨⟩⟩ := of_unless hc
      exact method (w.push c (by simpa using htoken))
  | uri w v =>
    rw [consume] at hc
    rcases of_ite hc with ⟨rfl, ⟨⟩⟩ | ⟨hne, hc⟩
    · exact (name w v _ [] (by simp)).of_eq (by simp)
    · obtain ⟨htext, ⟨⟩⟩ := of_unless hc
      exact (uri w (v.push c (by simpa [isText] using htext) hne)).of_eq (by simp [Target.push])
  | name w v _ _ hin =>
    simp only [List.mem_cons, Prod.mk.injEq, List.not_mem_nil, or_false] at hin
    rcases hin with ⟨rfl, rfl⟩ | ⟨rfl, rfl⟩ | ⟨rfl, rfl⟩ | ⟨rfl, rfl⟩ | ⟨rfl, rfl⟩
    · obtain ⟨rfl, ⟨⟩⟩ := of_when hc
      exact (name w v _ ['H'] (by simp)).of_eq (by simp)
    · obtain ⟨rfl, ⟨⟩⟩ := of_when hc
      exact (name w v _ ['H', 'T'] (by simp)).of_eq (by simp)
    · obtain ⟨rfl, ⟨⟩⟩ := of_when hc
      exact (name w v _ ['H', 'T', 'T'] (by simp)).of_eq (by simp)
    · obtain ⟨rfl, ⟨⟩⟩ := of_when hc
      exact (name w v _ ['H', 'T', 'T', 'P'] (by simp)).of_eq (by simp)
    · obtain ⟨rfl, ⟨⟩⟩ := of_when hc
      exact (majorStart (.mk w v)).of_eq (by simp)
  | majorStart hstart =>
    rw [consume] at hc
    obtain ⟨hdigit, hc⟩ := of_when hc
    rw [goOn_pushMajor _ [] hdigit (Nat.zero_le _) rfl] at hc
    obtain ⟨hfits, rfl⟩ := of_fits hc
    exact major hstart (.single c hdigit hfits)
  | major hstart n =>
    rw [consume] at hc
    rcases of_ite hc with ⟨rfl, ⟨⟩⟩ | ⟨-, hc⟩
    · exact minorStart hstart n
    · obtain ⟨hdigit, hc⟩ := of_when hc
      rw [goOn_pushMajor _ _ hdigit n.fits rfl] at hc
      obtain ⟨hfits, rfl⟩ := of_fits hc
      exact (major hstart (n.push c hdigit hfits)).of_eq (by simp [Numeral.push])
  | minorStart hstart n =>
    rw [consume] at hc
    obtain ⟨hdigit, hc⟩ := of_when hc
    rw [goOn_pushMinor _ [] hdigit (Nat.zero_le _) rfl] at hc
    obtain ⟨hfits, rfl⟩ := of_fits hc
    exact minor hstart n (.single c hdigit hfits)
  | minor hstart n k =>
    rw [consume] at hc
    rcases of_ite hc with ⟨rfl, ⟨⟩⟩ | ⟨-, hc⟩
    · exact newline1 hstart n k
    · obtain ⟨hdigit, hc⟩ := of_when hc
      rw [goOn_pushMinor _ _ hdigit k.fits rfl] at hc
      obtain ⟨hfits, rfl⟩ := of_fits hc
      exact (minor hstart n (k.push c hdigit hfits)).of_eq (by simp [Numeral.push])
  | newline1 hstart n k =>
    rw [consume] at hc
    obtain ⟨rfl, ⟨⟩⟩ := of_when hc
    exact (lineStart (.mk hstart n k) .nil).of_eq (by simp [crlf])
  | lineStart hline hfields =>
    rw [consume, not_token] at hc
    rcases of_ite hc with ⟨rfl, ⟨⟩⟩ | ⟨-, hc⟩
    · exact newline3 hline hfields
    rcases of_ite hc with ⟨⟨hne, hblank⟩, ⟨⟩⟩ | ⟨-, hc⟩
    · -- a blank goes on with the last header there is
      cases hfields with
      | nil => exact absurd rfl hne
      | snoc hfields field =>
        exact (lws hline hfields field (.single c (decide_eq_true hblank))).of_eq (by simp [Blanks.single])
    · obtain ⟨htoken, hc⟩ := of_unless hc
      rw [Request.pushName, modifyBack_concat _ rfl] at hc
      cases hc
      exact headerName hline hfields (.single c (by simpa using htoken))
  | lws hline hfields field blanks =>
    rw [consume] at hc
    rcases of_ite hc with ⟨rfl, ⟨⟩⟩ | ⟨-, hc⟩
    · exact (newline2 hline hfields (field.fold blanks .empty)).of_eq' (by simp [Tail.empty, Piece.empty])
        (by simp [Tail.empty, Piece.empty])
    rcases of_ite hc with ⟨hblank, ⟨⟩⟩ | ⟨hblank, hc⟩
    · exact (lws hline hfields field (blanks.push c (decide_eq_true hblank))).of_eq (by simp [Blanks.push])
    · obtain ⟨htext, hc⟩ := of_unless hc
      rw [Request.pushValue, modifyBack_concat _ rfl] at hc
      cases hc
      have hne : c ≠ ' ' := fun heq => hblank (.inl heq)
      exact (tail hline hfields field blanks (.single c (by simpa [isText] using htext) hne)
        (List.cons_ne_nil _ _)).of_eq (by simp [Tail.single])
  | headerName hline hfields w =>
    rw [consume, not_token] at hc
    rcases of_ite hc with ⟨rfl, ⟨⟩⟩ | ⟨-, hc⟩
    · exact space hline hfields w
    · obtain ⟨htoken, hc⟩ := of_unless hc
      rw [Request.pushName, modifyBack_concat _ rfl] at hc
      cases hc
      exact (headerName hline hfields (w.push c (by simpa using htoken))).of_eq (by simp [Token.push])
  | space hline hfields w =>
    rw [consume] at hc
    obtain ⟨rfl, ⟨⟩⟩ := of_when hc
    exact (value hline hfields w .empty).of_eq (by simp [Piece.empty])
  | value hline hfields w v =>
    rw [consume] at hc
    rcases of_ite hc with ⟨rfl, ⟨⟩⟩ | ⟨-, hc⟩
    · exact newline2 hline hfields (.line w v)
    · obtain ⟨htext, hc⟩ := of_unless hc
      rw [Request.pushValue, modifyBack_concat _ rfl] at hc
      cases hc
      exact (value hline hfields w (v.push c (by simpa [isText] using htext))).of_eq (by simp [Piece.push])
  | tail hline hfields field blanks more hne =>
    rw [consume] at hc
    rcases of_ite hc with ⟨rfl, ⟨⟩⟩ | ⟨-, hc⟩
    · exact newline2 hline hfields (field.fold blanks more)
    · obtain ⟨htext, hc⟩ := of_unless hc
      rw [Request.pushValue, modifyBack_concat _ rfl] at hc
      cases hc
      exact (tail hline hfields field blanks (more.push c hne (by simpa [isText] using htext))
        (List.append_ne_nil_of_right_ne_nil _ (List.cons_ne_nil _ _))).of_eq'
        (by simp [Tail.push, Piece.push]) (by simp [Tail.push, Piece.push])
  | newline2 hline hfields field =>
    rw [consume] at hc
    obtain ⟨rfl, ⟨⟩⟩ := of_when hc
    exact (lineStart hline (.snoc hfields field)).of_eq (by simp [crlf])
  | newline3 hline hfields =>
    rw [consume] at hc
    cases hc

end Reached

end ServiceBridge.Http
