import ServiceBridge.Theorems.RequestLanguage

/-! The requests that the parser accepts are those that can be written, and a written request is read back. -/

namespace ServiceBridge.Http
open Incremental

variable {req : Request} {text : Str} {hs : List Header}

/-! ### Numerals -/

theorem isDigit_of_isDigit {c : Char} (h : c.isDigit = true) : isDigit (toInt c) = true := by
  have hrange : 48 ≤ c.toNat ∧ c.toNat ≤ 57 := Char.isDigit_iff_toNat.mp h
  have hint : toInt c = c.toNat := if_pos (by omega)
  have zero : toInt '0' = 48 := rfl
  have nine : toInt '9' = 57 := rfl
  rw [isDigit, zero, nine, hint, decide_eq_true_iff]
  omega

def Numeral.ofVersion (n : Int) (h : InRange n) : Numeral where
  digits := Str.toString n.toNat
  ne_nil := Nat.toDigits_ne_nil
  digit c hc := isDigit_of_isDigit (Nat.isDigit_of_mem_toDigits (by decide) (by decide) hc)
  fits := by
    rw [Str.toString, Nat.ofDigitChars_ten_toDigits]
    exact Int.toNat_le.mpr h.2

theorem Numeral.value_ofVersion {n : Int} (h : InRange n) : (Numeral.ofVersion n h).value = n := by
  have hvalue : Nat.ofDigitChars 10 (Str.toString n.toNat) 0 = n.toNat := Nat.ofDigitChars_ten_toDigits
  rw [Numeral.value, Numeral.ofVersion, hvalue]
  exact Int.toNat_of_nonneg h.1

theorem Numeral.inRange (w : Numeral) : InRange w.value :=
  ⟨Int.natCast_nonneg _, Int.ofNat_le.mpr w.fits⟩

/-! ### What is accepted -/

theorem Field.wellFormed {h : Header} (field : Field h text) : h.WellFormed := by
  induction field with
  | line name value => exact ⟨⟨name.ne_nil, name.token⟩, value.text⟩
  | fold _ _ more ih => exact ⟨ih.1, List.forall_mem_append.mpr ⟨ih.2, more.text⟩⟩

theorem Fields.wellFormed (h : Fields hs text) : ∀ h ∈ hs, h.WellFormed := by
  induction h with
  | nil => exact List.forall_mem_nil _
  | snoc _ field ih => exact List.forall_mem_append.mpr ⟨ih, List.forall_mem_singleton.mpr field.wellFormed⟩

theorem RequestText.wellFormed (h : RequestText req text) : req.WellFormed := by
  obtain ⟨⟨⟨method, uri⟩, major, minor⟩, hfields⟩ := h
  exact ⟨⟨method.ne_nil, method.token⟩, uri.text, major.inRange, minor.inRange, hfields.wellFormed⟩

/-! ### What is written -/

theorem Header.field (h : Header) (hh : h.WellFormed) : Field h (h.name ++ [':', ' '] ++ h.value) :=
  .line ⟨h.name, hh.1.1, hh.1.2⟩ ⟨h.value, hh.2⟩

theorem fields_print (h : ∀ h ∈ hs, h.WellFormed) : Fields hs (hs.map Header.print).flatten := by
  induction hs using List.reverseRecOn with
  | nil => exact .nil
  | append_singleton l x ih =>
    rw [List.forall_mem_append, List.forall_mem_singleton] at h
    have hfields := (ih h.1).snoc (x.field h.2)
    simpa [Header.print] using hfields

theorem requestText_print (h : req.WellFormed) : RequestText req req.print := by
  have hline := RequestLine.mk (.mk ⟨req.method, h.method.1, h.method.2⟩ ⟨req.uri, h.uri⟩)
    (.ofVersion _ h.major) (.ofVersion _ h.minor)
  have htext := RequestText.mk hline (fields_print h.headers)
  simp only [Numeral.value_ofVersion] at htext
  exact htext

/-- A written request is read back, whatever follows it, exactly if it is well formed. -/
theorem parse_print_iff (major minor : Int) (req : Request) (rest : Str) :
    parse (.fresh major minor) (req.print ++ rest) = .ok (some true, rest, ⟨.expectingNewline3, req⟩) ↔
      req.WellFormed := by
  constructor
  · intro h
    obtain ⟨-, head, -, htext⟩ := requestText_of_parse h
    exact htext.wellFormed
  · intro h
    exact (requestText_print h).parse_append major minor rest

end ServiceBridge.Http
