import ServiceBridge.Theorems.Tokens

/-! Files as lists of lines (`readlines`), and numerals (`std::stoull`). -/

namespace ServiceBridge

/-! ### Lines -/

/-- The lines of a text: what is between its newlines, and after the last one if that is not empty. -/
def textLines (text : Str) : List Str :=
  if (text.splitOn '\n').getLast? = some [] then (text.splitOn '\n').dropLast else text.splitOn '\n'

def fileLines (files : Str → File) (path : Str) : List Str := textLines (openStream files path)

theorem textLines_nil : textLines [] = [] := rfl

theorem textLines_of_not_mem {l : Str} (hne : l ≠ []) (h : '\n' ∉ l) : textLines l = [l] := by
  unfold textLines
  rw [List.splitOn_eq_singleton h]
  simp [hne]

theorem textLines_append_newline {l : Str} (h : '\n' ∉ l) (rest : Str) :
    textLines (l ++ '\n' :: rest) = l :: textLines rest := by
  have hne : rest.splitOn '\n' ≠ [] := List.splitOn_ne_nil _ _
  unfold textLines
  rw [List.splitOn_append_cons_self_of_not_mem h]
  obtain ⟨f, fs, hf⟩ := List.exists_cons_of_ne_nil hne
  rw [hf, List.getLast?_cons_cons, List.dropLast_cons_of_ne_nil (List.cons_ne_nil _ _)]
  split <;> rfl

theorem getline_eq_some {text line rest : Str} (h : Str.getline text = some (line, rest)) :
    textLines text = line :: textLines rest ∧ rest.length < text.length := by
  cases text with
  | nil => cases h
  | cons c cs =>
    obtain ⟨rfl, rfl⟩ : (c :: cs).takeWhile (· != '\n') = line ∧ ((c :: cs).dropWhile (· != '\n')).tail = rest := by
      simpa [Str.getline] using h
    have hnl : '\n' ∉ (c :: cs).takeWhile (· != '\n') := fun hm => by simpa using List.mem_takeWhile_imp hm
    have hsplit := List.takeWhile_append_dropWhile (p := (· != '\n')) (l := c :: cs)
    have first := List.head?_dropWhile_not (· != '\n') (c :: cs)
    have hlen := congrArg List.length hsplit
    rw [List.length_append] at hlen
    cases hd : (c :: cs).dropWhile (· != '\n') with
    | nil =>
      rw [hd, List.append_nil] at hsplit
      rw [hsplit] at hnl ⊢
      exact ⟨textLines_of_not_mem (List.cons_ne_nil _ _) hnl, by simp⟩
    | cons d ds =>
      rw [hd] at hsplit first hlen
      have hd' : d = '\n' := by simpa using first
      subst hd'
      constructor
      · conv_lhs => rw [← hsplit]
        exact textLines_append_newline hnl ds
      · rw [List.length_cons] at hlen
        show ds.length < _
        omega

theorem getline_eq_none {text : Str} (h : Str.getline text = none) : text = [] := by
  cases text with
  | nil => rfl
  | cons c cs => cases h

theorem readlines_loop (text : Str) :
    Loop.run Fault.diverges readPass (text.length + 1) ⟨text, []⟩ = .ok ⟨[], textLines text⟩ := by
  obtain ⟨r, hrun, hr, leave⟩ := Loop.exists_run Fault.diverges readPass (n := text.length + 1)
    (s := ⟨text, []⟩) (I := fun r => textLines text = r.rtnVec ++ textLines r.fin)
    (μ := fun r => r.fin.length) (fun r hr => by
      unfold readPass
      cases h : Str.getline r.fin with
      | none => exact Or.inl rfl
      | some lr =>
        obtain ⟨line, rest⟩ := lr
        obtain ⟨hlines, hlt⟩ := getline_eq_some h
        exact Or.inr ⟨_, rfl, by rw [hr, hlines, List.append_assoc]; rfl, hlt⟩) rfl (by simp)
  have hfin : r.fin = [] := by
    unfold readPass at leave
    cases h : Str.getline r.fin with
    | none => exact getline_eq_none h
    | some lr => rw [h] at leave; cases leave
  rw [hrun, hr, hfin, textLines_nil, List.append_nil, ← hfin]

theorem readlines_eq (files : Str → File) (path : Str) :
    ∃ printed, readlines files path = .ok (fileLines files path, printed) := by
  unfold readlines fileLines
  by_cases h : fileExists files path = true
  · refine ⟨[], ?_⟩
    simp only [h, ↓reduceIte, readlines_loop]
    rfl
  · have hmissing : openStream files path = [] := by
      unfold openStream
      unfold fileExists at h
      cases hf : files path <;> simp_all
    exact ⟨_, by rw [if_neg h, hmissing, textLines_nil]; rfl⟩

/-- A file of the given lines, each ended by a newline or, if not `terminated`, only separated by one. -/
def fileText (terminated : Bool) (lines : List Str) : Str :=
  if terminated then lines.flatMap (· ++ ['\n']) else ['\n'].intercalate lines

theorem textLines_fileText (terminated : Bool) {lines : List Str} (hne : ∀ l ∈ lines, l ≠ [])
    (h : ∀ l ∈ lines, '\n' ∉ l) : textLines (fileText terminated lines) = lines := by
  induction lines with
  | nil => cases terminated <;> rfl
  | cons l lines ih =>
    have ih := ih (fun x hx => hne x (List.mem_cons_of_mem _ hx)) fun x hx => h x (List.mem_cons_of_mem _ hx)
    have hl := h l List.mem_cons_self
    cases terminated with
    | true =>
      show textLines ((l ++ ['\n']) ++ fileText true lines) = _
      rw [List.append_assoc, List.singleton_append, textLines_append_newline hl, ih]
    | false =>
      cases lines with
      | nil =>
        show textLines (['\n'].intercalate [l]) = _
        rw [List.intercalate_singleton]
        exact textLines_of_not_mem (hne l List.mem_cons_self) hl
      | cons m lines =>
        show textLines (['\n'].intercalate (l :: m :: lines)) = _
        rw [List.intercalate_cons_cons, List.append_assoc, List.singleton_append, textLines_append_newline hl]
        exact congrArg _ ih

/-! ### Numerals -/

def Digits (digits : Str) : Prop := digits ≠ [] ∧ ∀ c ∈ digits, c.isDigit = true

/-- The exact value of a run of decimal digits. -/
def digitsValue (digits : Str) : Nat := Nat.ofDigitChars 10 digits 0

/-- `stoull` reads `s` as `n`: white space, a sign or none, a longest run of digits whose value fits the
    type, and any text after it. After `-` the value is negated modulo `2 ^ 64`. -/
structure Numeral (s : Str) (n : Nat) (blanks sign digits rest : Str) : Prop where
  text : s = blanks ++ sign ++ digits ++ rest
  blank : ∀ c ∈ blanks, Str.isspace c = true
  signed : sign = [] ∨ sign = ['+'] ∨ sign = ['-']
  run : Digits digits
  stop : ∀ c ∈ rest.head?, c.isDigit = false
  fits : digitsValue digits < Str.sizeRange
  value : n = if sign = ['-'] then (Str.sizeRange - digitsValue digits) % Str.sizeRange else digitsValue digits

theorem readSign_spec (s : Str) : ∃ sign, s = sign ++ (Str.readSign s).2 ∧
    (sign = [] ∨ sign = ['+'] ∨ sign = ['-']) ∧ ((Str.readSign s).1 = true ↔ sign = ['-']) := by
  unfold Str.readSign
  split
  · exact ⟨['+'], rfl, by simp, by simp⟩
  · exact ⟨['-'], rfl, by simp, by simp⟩
  · exact ⟨[], rfl, by simp, by simp⟩

theorem numeral_of_stoull {s : Str} {n : Nat} (h : Str.stoull s = .ok n) :
    ∃ blanks sign digits rest, Numeral s n blanks sign digits rest := by
  obtain ⟨sign, htext, hsign, hneg⟩ := readSign_spec (s.dropWhile Str.isspace)
  unfold Str.stoull at h
  simp only at h
  generalize Str.readSign (s.dropWhile Str.isspace) = signed at h htext hneg
  split at h
  · cases h
  rename_i hne
  split at h
  · cases h
  rename_i hlt
  refine ⟨s.takeWhile Str.isspace, sign, signed.2.takeWhile Char.isDigit, signed.2.dropWhile Char.isDigit, ?_,
    fun c hc => List.mem_takeWhile_imp hc, hsign, ⟨hne, fun c hc => List.mem_takeWhile_imp hc⟩, ?_,
    Nat.lt_of_not_le hlt, ?_⟩
  · rw [List.append_assoc, List.takeWhile_append_dropWhile, List.append_assoc, ← htext,
      List.takeWhile_append_dropWhile]
  · intro c hc
    have first := List.head?_dropWhile_not Char.isDigit signed.2
    rw [show (signed.2.dropWhile Char.isDigit).head? = some c from hc] at first
    exact first
  · rw [← Except.ok.inj h]
    simp only [hneg]
    rfl

theorem isspace_of_isDigit {c : Char} (h : c.isDigit = true) : Str.isspace c = false := by
  rw [Bool.eq_false_iff]
  intro hs
  unfold Str.isspace at hs
  simp only [List.contains_eq_mem, List.mem_cons, List.not_mem_nil, or_false, decide_eq_true_eq] at hs
  rcases hs with rfl | rfl | rfl | rfl | rfl | rfl <;> simp at h

theorem readSign_of_isDigit {c : Char} {cs : Str} (h : c.isDigit = true) :
    Str.readSign (c :: cs) = (false, c :: cs) := by
  unfold Str.readSign
  split
  · rename_i heq
    obtain rfl := (List.cons.inj heq).1
    simp at h
  · rename_i heq
    obtain rfl := (List.cons.inj heq).1
    simp at h
  · rfl

theorem stoull_digits {s : Str} (h : Digits s) : Str.stoull s =
    if Str.sizeRange ≤ digitsValue s then .error .outOfRange else .ok (digitsValue s) := by
  obtain ⟨hne, hall⟩ := h
  obtain ⟨c, cs, rfl⟩ := List.exists_cons_of_ne_nil hne
  have hc : c.isDigit = true := hall c List.mem_cons_self
  have hblank : (c :: cs).dropWhile Str.isspace = c :: cs := by
    rw [List.dropWhile_cons, isspace_of_isDigit hc]
    rfl
  have hrun : (c :: cs).takeWhile Char.isDigit = c :: cs := List.takeWhile_eq_self_iff.mpr hall
  unfold Str.stoull
  simp only [hblank, readSign_of_isDigit hc, hrun]
  exact if_neg (List.cons_ne_nil _ _)

theorem eq_digitsValue_of_stoull {s : Str} {n : Nat} (h : Str.stoull s = .ok n) (hs : Digits s) :
    n = digitsValue s := by
  rw [stoull_digits hs] at h
  split at h
  · cases h
  · exact (Except.ok.inj h).symm

theorem digits_toString (n : Nat) : Digits (Str.toString n) :=
  ⟨Nat.toDigits_ne_nil, fun _ hc => Nat.isDigit_of_mem_toDigits (by decide) (by decide) hc⟩

theorem digitsValue_toString (n : Nat) : digitsValue (Str.toString n) = n := Nat.ofDigitChars_ten_toDigits

/-- `stoull` undoes `to_string`. -/
theorem stoull_toString {n : Nat} (h : n < Str.sizeRange) : Str.stoull (Str.toString n) = .ok n := by
  rw [stoull_digits (digits_toString n), digitsValue_toString, if_neg (Nat.not_le_of_lt h)]

theorem length_toString_lt_two_iff {n : Nat} : (Str.toString n).length < 2 ↔ n < 10 := by
  unfold Str.toString
  rcases Nat.lt_or_ge n 10 with h | h
  · rw [Nat.toDigits_of_lt_base h]
    simp [h]
  · rw [Nat.toDigits_of_base_le (by decide) h, List.length_append, List.length_singleton]
    have := List.length_pos_iff.mpr (Nat.toDigits_ne_nil (n := n / 10) (b := 10))
    omega

end ServiceBridge
