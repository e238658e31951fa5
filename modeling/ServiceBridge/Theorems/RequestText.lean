import ServiceBridge.Theorems.RequestParser

/-! The parser reads every text of `RequestText` to its end. -/

namespace ServiceBridge.Http
open Incremental

variable {req : Request} {c d : Char} {front text : Str} {headers : List Header}

/-! ### Words -/

theorem ne_of_holds {p : Char → Bool} (h : p c = true) (hd : p d = false) : c ≠ d := by
  rintro rfl
  rw [h] at hd
  cases hd

theorem Token.of_prefix {w : Token} (h : front ++ [c] <+: w.chars) : isToken c = true :=
  w.token c (h.subset (List.mem_append_right _ (List.mem_singleton_self c)))

theorem Piece.of_prefix {w : Piece} (h : front ++ [c] <+: w.chars) : isText c = true :=
  w.text c (h.subset (List.mem_append_right _ (List.mem_singleton_self c)))

theorem ofDigitChars_le_append (front digits : Str) :
    Nat.ofDigitChars 10 front 0 ≤ Nat.ofDigitChars 10 (front ++ digits) 0 := by
  induction digits using List.reverseRecOn with
  | nil => exact (List.append_nil front).symm ▸ Nat.le_refl _
  | append_singleton l c ih =>
    rw [← List.append_assoc, ofDigitChars_concat]
    omega

/-- Each front of a numeral is in range. -/
theorem Numeral.fits_of_prefix (w : Numeral) (h : front <+: w.digits) :
    Nat.ofDigitChars 10 front 0 ≤ versionMax := by
  obtain ⟨l, hl⟩ := h
  have hle := ofDigitChars_le_append front l
  rw [hl] at hle
  exact Nat.le_trans hle w.fits

theorem Numeral.of_prefix {w : Numeral} (h : front ++ [c] <+: w.digits) : isDigit (toInt c) = true :=
  w.digit c (h.subset (List.mem_append_right _ (List.mem_singleton_self c)))

theorem quiet_method (w : Token) (major minor : Int) :
    Quiet consume (.fresh major minor) w.chars ⟨.method, ⟨w.chars, [], major, minor, []⟩⟩ := by
  refine .word (fun front => Parsing.mk .method ⟨front, [], major, minor, []⟩) w.ne_nil (fun c hc => ?_)
    fun front c _ hc => ?_
  · have htoken := w.token c (hc.subset (List.mem_singleton_self c))
    simp [Parsing.fresh, consume, not_token, htoken, goOn, Request.pushMethod]
  · have htoken := Token.of_prefix hc
    have hne := ne_of_holds htoken (d := ' ') rfl
    simp [consume, not_token, htoken, hne, goOn, Request.pushMethod]

theorem quiet_uri (w : Target) (h : req.uri = []) :
    Quiet consume ⟨.uri, req⟩ w.chars ⟨.uri, { req with uri := w.chars }⟩ := by
  have hloop : Quiet consume ⟨.uri, { req with uri := [] }⟩ w.chars ⟨.uri, { req with uri := w.chars }⟩ :=
    .loop (fun front => Parsing.mk .uri { req with uri := front }) fun front c hc => by
      obtain ⟨htext, hne⟩ := w.text c (hc.subset (List.mem_append_right _ (List.mem_singleton_self c)))
      rw [isText, Bool.not_eq_true'] at htext
      simp [consume, htext, hne, goOn, Request.pushUri]
  rwa [← h] at hloop

/-- The outcome of one more digit in a numeral whose value `n` is kept in the state `f n`. -/
def taken (f : Nat → Parsing) (front : Str) (c : Char) : Consumed :=
  if Nat.ofDigitChars 10 (front ++ [c]) 0 ≤ versionMax then .ok (none, f (Nat.ofDigitChars 10 (front ++ [c]) 0))
  else .error .overflow

/-- A numeral starts in `s` and goes on in the states `f`. -/
structure ReadsNumeral (s : Parsing) (f : Nat → Parsing) : Prop where
  first : ∀ c, isDigit (toInt c) = true → consume s c = taken f [] c
  more : ∀ front c, isDigit (toInt c) = true → Nat.ofDigitChars 10 front 0 ≤ versionMax →
    consume (f (Nat.ofDigitChars 10 front 0)) c = taken f front c

theorem readsNumeral_major (h : req.httpVersionMajor = 0) :
    ReadsNumeral ⟨.httpVersionMajorStart, req⟩ fun n => ⟨.httpVersionMajor, { req with httpVersionMajor := n }⟩ where
  first c hdigit := by
    rw [consume, if_pos hdigit, goOn_pushMajor _ [] hdigit (Nat.zero_le _) h]
    rfl
  more front c hdigit hfits := by
    have hne : c ≠ '.' := ne_of_holds (p := fun c => isDigit (toInt c)) hdigit rfl
    rw [consume, if_neg hne, if_pos hdigit, goOn_pushMajor _ _ hdigit hfits rfl]
    rfl

theorem readsNumeral_minor (h : req.httpVersionMinor = 0) :
    ReadsNumeral ⟨.httpVersionMinorStart, req⟩ fun n => ⟨.httpVersionMinor, { req with httpVersionMinor := n }⟩ where
  first c hdigit := by
    rw [consume, if_pos hdigit, goOn_pushMinor _ [] hdigit (Nat.zero_le _) h]
    rfl
  more front c hdigit hfits := by
    have hne : c ≠ '\r' := ne_of_holds (p := fun c => isDigit (toInt c)) hdigit rfl
    rw [consume, if_neg hne, if_pos hdigit, goOn_pushMinor _ _ hdigit hfits rfl]
    rfl

theorem ReadsNumeral.quiet {s : Parsing} {f : Nat → Parsing} (h : ReadsNumeral s f) (w : Numeral) :
    Quiet consume s w.digits (f (Nat.ofDigitChars 10 w.digits 0)) := by
  refine .word (fun front => f (Nat.ofDigitChars 10 front 0)) w.ne_nil (fun c hc => ?_) fun front c _ hc => ?_
  · have hdigit := w.digit c (hc.subset (List.mem_singleton_self c))
    have hfits : Nat.ofDigitChars 10 ([] ++ [c]) 0 ≤ versionMax := w.fits_of_prefix hc
    rw [h.first c hdigit, taken, if_pos hfits]
    rfl
  · have hfits := w.fits_of_prefix ((List.prefix_append _ _).trans hc)
    rw [h.more front c (Numeral.of_prefix hc) hfits, taken, if_pos (w.fits_of_prefix hc)]

theorem quiet_headerName (w : Token) (hreq : req.headers = headers) :
    Quiet consume ⟨.headerLineStart, req⟩ w.chars
      ⟨.headerName, { req with headers := headers ++ [⟨w.chars, []⟩] }⟩ := by
  refine .word (fun front => Parsing.mk .headerName { req with headers := headers ++ [⟨front, []⟩] }) w.ne_nil
    (fun c hc => ?_) fun front c _ hc => ?_
  · have htoken := w.token c (hc.subset (List.mem_singleton_self c))
    have hcr : c ≠ '\r' := ne_of_holds htoken rfl
    have hspace : c ≠ ' ' := ne_of_holds htoken rfl
    have htab : c ≠ '\t' := ne_of_holds htoken rfl
    subst hreq
    rw [consume, not_token, if_neg hcr, if_neg (by simp [hspace, htab]), htoken, if_neg (by simp),
      Request.pushName, modifyBack_concat _ rfl]
    rfl
  · have htoken := Token.of_prefix hc
    have hcolon : c ≠ ':' := ne_of_holds htoken rfl
    rw [consume, not_token, if_neg hcolon, htoken, if_neg (by simp), Request.pushName, modifyBack_concat _ rfl]
    rfl

theorem quiet_value {name : Str} (w : Piece) (hreq : req.headers = headers ++ [⟨name, []⟩]) :
    Quiet consume ⟨.headerValue, req⟩ w.chars
      ⟨.headerValue, { req with headers := headers ++ [⟨name, w.chars⟩] }⟩ := by
  have hloop : Quiet consume ⟨.headerValue, { req with headers := headers ++ [⟨name, []⟩] }⟩ w.chars
      ⟨.headerValue, { req with headers := headers ++ [⟨name, w.chars⟩] }⟩ :=
    .loop (fun front => Parsing.mk .headerValue { req with headers := headers ++ [⟨name, front⟩] })
      fun front c hc => by
        have htext := Piece.of_prefix hc
        have hcr : c ≠ '\r' := ne_of_holds htext rfl
        rw [isText, Bool.not_eq_true'] at htext
        rw [consume, if_neg hcr, htext, if_neg (by simp), Request.pushValue, modifyBack_concat _ rfl]
        rfl
  rwa [← hreq] at hloop

theorem quiet_blanks (w : Blanks) (hne : req.headers ≠ []) :
    Quiet consume ⟨.headerLineStart, req⟩ w.chars ⟨.headerLws, req⟩ := by
  refine .word (fun _ => Parsing.mk .headerLws req) w.ne_nil (fun c hc => ?_) fun front c _ hc => ?_
  · have hblank := w.blank c (hc.subset (List.mem_singleton_self c))
    rw [isBlank, decide_eq_true_iff] at hblank
    have hcr : c ≠ '\r' := by
      rintro rfl
      simp at hblank
    rw [consume, if_neg hcr, if_pos ⟨hne, hblank⟩]
    rfl
  · have hblank := w.blank c (hc.subset (List.mem_append_right _ (List.mem_singleton_self c)))
    rw [isBlank, decide_eq_true_iff] at hblank
    have hcr : c ≠ '\r' := by
      rintro rfl
      simp at hblank
    rw [consume, if_neg hcr, if_pos hblank]
    rfl

theorem quiet_tail {h : Header} (w : Tail) (hne : w.chars ≠ []) (hreq : req.headers = headers ++ [h]) :
    Quiet consume ⟨.headerLws, req⟩ w.chars
      ⟨.headerValue, { req with headers := headers ++ [⟨h.name, h.value ++ w.chars⟩] }⟩ := by
  refine .word (fun front => Parsing.mk .headerValue
    { req with headers := headers ++ [⟨h.name, h.value ++ front⟩] }) hne (fun c hc => ?_) fun front c _ hc => ?_
  · have htext := w.text c (hc.subset (List.mem_singleton_self c))
    have hcr : c ≠ '\r' := ne_of_holds htext rfl
    have hspace : c ≠ ' ' := by
      rintro rfl
      exact w.start (List.head?_eq_some_iff.mpr ⟨_, (List.prefix_iff_eq_append.mp hc).symm⟩)
    have htab : c ≠ '\t' := ne_of_holds htext rfl
    rw [isText, Bool.not_eq_true'] at htext
    rw [consume, if_neg hcr, if_neg (by simp [hspace, htab]), htext, if_neg (by simp), Request.pushValue,
      modifyBack_concat _ hreq]
    rfl
  · have htext := Piece.of_prefix hc
    have hcr : c ≠ '\r' := ne_of_holds htext rfl
    rw [isText, Bool.not_eq_true'] at htext
    rw [consume, if_neg hcr, htext, if_neg (by simp), Request.pushValue, modifyBack_concat _ rfl]
    rw [List.append_assoc]
    rfl

theorem quiet_lineStart {method uri start : Str} (h : LineStart method uri start) (major minor : Int) :
    Quiet consume (.fresh major minor) start ⟨.httpVersionMajorStart, ⟨method, uri, 0, 0, []⟩⟩ := by
  obtain ⟨w, v⟩ := h
  have hmethod := (quiet_method w major minor).snoc (x := ' ') rfl
  have huri := (hmethod.append (quiet_uri v rfl)).snoc (x := ' ') rfl
  exact huri.append (.cons rfl (.cons rfl (.cons rfl (.cons rfl (.cons rfl .nil)))))

/-! ### Lines -/

theorem quiet_requestLine {line : Str} (h : RequestLine req line) (major minor : Int) :
    Quiet consume (.fresh major minor) line ⟨.headerLineStart, req⟩ := by
  obtain ⟨hstart, i, j⟩ := h
  have hmajor := (quiet_lineStart hstart major minor).append ((readsNumeral_major rfl).quiet i)
  have hminor := (hmajor.snoc (x := '.') rfl).append ((readsNumeral_minor rfl).quiet j)
  exact hminor.append (.cons rfl (.cons rfl .nil))

/-- The lines of a header up to the end of the last one. -/
theorem quiet_field {h : Header} (field : Field h text) (hreq : req.headers = headers) :
    Quiet consume ⟨.headerLineStart, req⟩ (text ++ ['\r']) ⟨.expectingNewline2, { req with headers := headers ++ [h] }⟩ := by
  induction field with
  | line name value =>
    have hname := ((quiet_headerName name hreq).snoc (x := ':') rfl).snoc (x := ' ') rfl
    have hvalue := (hname.append (quiet_value value rfl)).snoc (x := '\r') rfl
    simpa using hvalue
  | fold field blanks more ih =>
    rename_i h text
    have hlws := (ih.snoc (x := '\n') rfl).append (quiet_blanks blanks (by simp))
    by_cases hne : more.chars = []
    · have hcr := hlws.snoc (x := '\r') rfl
      simpa [hne, crlf] using hcr
    · have htail := (hlws.append (quiet_tail more hne rfl)).snoc (x := '\r') rfl
      simpa [crlf] using htail

theorem quiet_fields {hs : List Header} (h : Fields hs text) (hreq : req.headers = []) :
    Quiet consume ⟨.headerLineStart, req⟩ text ⟨.headerLineStart, { req with headers := hs }⟩ := by
  induction h with
  | nil =>
    rw [← hreq]
    exact .nil
  | snoc _ field ih =>
    have hline := (ih.append (quiet_field field rfl)).snoc (x := '\n') rfl
    simpa [crlf] using hline

/-- All of the text but its last character gets no verdict. -/
theorem quiet_requestText (h : RequestText req text) (major minor : Int) :
    ∃ front, text = front ++ ['\n'] ∧ Quiet consume (.fresh major minor) front ⟨.expectingNewline3, req⟩ := by
  obtain ⟨hline, hfields⟩ := h
  rename_i req line fields headers
  have hempty : req.headers = [] := by
    obtain ⟨_, _, _⟩ := hline
    rfl
  have hquiet := ((quiet_requestLine hline major minor).append (quiet_fields hfields hempty)).snoc (x := '\r') rfl
  exact ⟨line ++ fields ++ ['\r'], by simp [crlf], hquiet⟩

end ServiceBridge.Http
