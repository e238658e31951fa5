import ServiceBridge.RequestHandler
import ServiceBridge.Theorems.Hex

/-! What `url_decode` accepts and what it makes of it. -/

namespace ServiceBridge
open Str

variable {a b c : Char} {n : Nat} {v : Int} {s text rest out : Str}

/-! ### Two characters -/

/-- What the two characters after a `%` stand for. Only the first kind is meant. -/
inductive Escape : Char → Char → Int → Prop
  | two {a b : Char} (ha : isxdigit a = true) (hb : isxdigit b = true) :
      Escape a b (16 * xdigitValue a + xdigitValue b)
  /-- The second character is not read. -/
  | one {a b : Char} (ha : isxdigit a = true) (hb : isxdigit b = false)
      (hbase : ¬(a = '0' ∧ (b = 'x' ∨ b = 'X'))) : Escape a b (xdigitValue a)
  | skip {a b : Char} (ha : isspace a = true ∨ a = '+') (hb : isxdigit b = true) : Escape a b (xdigitValue b)
  | minus {b : Char} (hb : isxdigit b = true) : Escape '-' b (-xdigitValue b)

theorem readHex_single (h : isxdigit b = true) : readHex [b] = some (false, xdigitValue b) := by
  simp [readHex, isspace_of_isxdigit h, readSign_of_isxdigit h, dropBase, h, ofXDigits]

theorem readHex_pair_digit (ha : isxdigit a = true) : readHex [a, b] =
    if isxdigit b then some (false, 16 * xdigitValue a + xdigitValue b)
    else if a = '0' ∧ (b = 'x' ∨ b = 'X') then none else some (false, xdigitValue a) := by
  have hsign := readSign_of_isxdigit (s := [b]) ha
  simp only [readHex, List.dropWhile_cons, isspace_of_isxdigit ha, Bool.false_eq_true, if_false, hsign]
  by_cases hbase : a = '0' ∧ (b = 'x' ∨ b = 'X')
  · obtain ⟨rfl, rfl | rfl⟩ := hbase
    all_goals rfl
  · have hdrop : dropBase [a, b] = [a, b] := by
      unfold dropBase
      split
      · next heq => simp_all
      · next heq => simp_all
      · rfl
    rw [hdrop, if_neg hbase]
    by_cases hb : isxdigit b = true
    · simp [List.takeWhile, ha, hb, ofXDigits]
    · simp [List.takeWhile, ha, hb, ofXDigits]

theorem readHex_of_isspace (ha : isspace a = true) : readHex (a :: s) = readHex s := by
  rw [readHex, List.dropWhile_cons, if_pos ha, readHex]

theorem readHex_single_none (hb : isxdigit b = false) : readHex [b] = none := by
  by_cases hspace : isspace b = true
  · rw [readHex_of_isspace hspace]
    rfl
  · simp only [readHex, List.dropWhile_cons, if_neg hspace]
    unfold readSign
    split <;> simp_all [dropBase]

theorem readHex_sign (minus : Bool) : readHex [if minus then '-' else '+', b] =
    if isxdigit b then some (minus, xdigitValue b) else none := by
  cases minus
  all_goals
    simp only [readHex, Bool.false_eq_true, if_false, if_true, List.dropWhile_cons]
    by_cases hb : isxdigit b = true
    · simp [isspace, readSign, dropBase, hb, ofXDigits]
    · simp [isspace, readSign, dropBase, hb]

theorem readHex_other (ha : isxdigit a = false) (hspace : isspace a = false) (hplus : a ≠ '+') (hminus : a ≠ '-') :
    readHex (a :: s) = none := by
  have hsign : readSign (a :: s) = (false, a :: s) := by
    unfold readSign
    split <;> simp_all
  have hdrop : dropBase (a :: s) = a :: s := by
    unfold dropBase
    split
    · next heq =>
      cases heq
      cases ha
    · next heq =>
      cases heq
      cases ha
    · rfl
  simp [readHex, hspace, hsign, hdrop, ha]

theorem readHexInt_eq_some {minus : Bool} (h : readHex s = some (minus, n)) (hn : n < 256) :
    readHexInt s = some (if minus then -(n : Int) else n) := by
  have max : intMax = 2147483647 := rfl
  rw [readHexInt, h, max]
  cases minus
  all_goals
    simp only [Option.bind_eq_bind, Option.bind_some, Bool.false_eq_true, if_false, if_true]
    rw [if_pos (by omega)]

theorem Escape.readHexInt (h : Escape a b v) : readHexInt [a, b] = some v := by
  cases h with
  | two ha hb =>
    have hread := readHex_pair_digit (b := b) ha
    rw [if_pos hb] at hread
    have hlta := xdigitValue_lt ha
    have hltb := xdigitValue_lt hb
    exact readHexInt_eq_some hread (by omega)
  | one ha hb hbase =>
    have hread := readHex_pair_digit (b := b) ha
    rw [if_neg (by simp [hb]), if_neg hbase] at hread
    exact readHexInt_eq_some hread ((xdigitValue_lt ha).trans (by decide))
  | skip ha hb =>
    have hread : readHex [a, b] = some (false, xdigitValue b) := by
      rcases ha with ha | rfl
      · rw [readHex_of_isspace ha, readHex_single hb]
      · exact (readHex_sign false).trans (if_pos hb)
    exact readHexInt_eq_some hread ((xdigitValue_lt hb).trans (by decide))
  | minus hb =>
    have hread : readHex ['-', b] = some (true, xdigitValue b) := (readHex_sign true).trans (if_pos hb)
    exact readHexInt_eq_some hread ((xdigitValue_lt hb).trans (by decide))

theorem escape_or_none (a b : Char) : (∃ v, Escape a b v) ∨ readHex [a, b] = none := by
  by_cases ha : isxdigit a = true
  · have hread := readHex_pair_digit (b := b) ha
    by_cases hb : isxdigit b = true
    · exact .inl ⟨_, .two ha hb⟩
    rw [if_neg hb] at hread
    by_cases hbase : a = '0' ∧ (b = 'x' ∨ b = 'X')
    · exact .inr (hread.trans (if_pos hbase))
    · exact .inl ⟨_, .one ha (Bool.eq_false_iff.mpr hb) hbase⟩
  rw [Bool.not_eq_true] at ha
  by_cases hspace : isspace a = true
  · by_cases hb : isxdigit b = true
    · exact .inl ⟨_, .skip (.inl hspace) hb⟩
    · rw [readHex_of_isspace hspace]
      exact .inr (readHex_single_none (Bool.eq_false_iff.mpr hb))
  by_cases hplus : a = '+'
  · subst hplus
    by_cases hb : isxdigit b = true
    · exact .inl ⟨_, .skip (.inr rfl) hb⟩
    · exact .inr ((readHex_sign false).trans (if_neg hb))
  by_cases hminus : a = '-'
  · subst hminus
    by_cases hb : isxdigit b = true
    · exact .inl ⟨_, .minus hb⟩
    · exact .inr ((readHex_sign true).trans (if_neg hb))
  exact .inr (readHex_other ha (Bool.eq_false_iff.mpr hspace) hplus hminus)

theorem readHexInt_pair_iff : readHexInt [a, b] = some v ↔ Escape a b v := by
  refine ⟨fun h => ?_, Escape.readHexInt⟩
  rcases escape_or_none a b with ⟨w, hw⟩ | hnone
  · obtain rfl := Option.some.inj (hw.readHexInt.symm.trans h)
    exact hw
  · rw [Str.readHexInt, hnone] at h
    cases h

namespace Http

/-! ### Texts -/

/-- The texts that decode to a string. -/
inductive Encodes : Str → Str → Prop
  | nil : Encodes [] []
  | plain {c : Char} {text out : Str} (hpercent : c ≠ '%') (hplus : c ≠ '+') (h : Encodes text out) :
      Encodes (c :: text) (c :: out)
  | plus {text out : Str} (h : Encodes text out) : Encodes ('+' :: text) (' ' :: out)
  | escape {a b : Char} {v : Int} {text out : Str} (hv : Escape a b v) (h : Encodes text out) :
      Encodes ('%' :: a :: b :: text) (charOf v :: out)

theorem urlDecode_plain (hpercent : c ≠ '%') (hplus : c ≠ '+') :
    urlDecode (c :: text) = do return c :: (← urlDecode text) :=
  urlDecode.eq_5 c text (fun _ _ _ h => absurd h hpercent) hpercent hplus

theorem of_cons {x : Option Str} (h : (do return c :: (← x)) = some out) : ∃ rest, x = some rest ∧ out = c :: rest := by
  cases x with
  | none => cases h
  | some rest =>
    cases h
    exact ⟨rest, rfl, rfl⟩

theorem encodes_of_urlDecode {text : Str} (h : urlDecode text = some out) : Encodes text out := by
  induction text using urlDecode.induct generalizing out with
  | case1 =>
    cases h
    exact .nil
  | case2 a b rest ih =>
    cases hv : readHexInt [a, b] with
    | none =>
      rw [urlDecode, hv] at h
      cases h
    | some v =>
      rw [urlDecode, hv] at h
      obtain ⟨out, hrest, rfl⟩ := of_cons h
      exact .escape (readHexInt_pair_iff.mp hv) (ih hrest)
  | case3 rest hrest =>
    rw [urlDecode.eq_3 rest hrest] at h
    cases h
  | case4 rest ih =>
    rw [urlDecode] at h
    obtain ⟨out, hrest, rfl⟩ := of_cons h
    exact .plus (ih hrest)
  | case5 c rest _ hpercent hplus ih =>
    rw [urlDecode_plain hpercent hplus] at h
    obtain ⟨out, hrest, rfl⟩ := of_cons h
    exact .plain hpercent hplus (ih hrest)

theorem Encodes.urlDecode {text : Str} (h : Encodes text out) : urlDecode text = some out := by
  induction h with
  | nil => rfl
  | plain hpercent hplus _ ih =>
    rw [urlDecode_plain hpercent hplus, ih]
    rfl
  | plus _ ih =>
    rw [Http.urlDecode, ih]
    rfl
  | escape hv _ ih =>
    rw [Http.urlDecode, hv.readHexInt, ih]
    rfl

/-- What `url_decode` accepts, and its result. -/
theorem urlDecode_eq_some_iff (text out : Str) : urlDecode text = some out ↔ Encodes text out :=
  ⟨encodes_of_urlDecode, Encodes.urlDecode⟩

/-! ### Encoding -/

/-- An encoder that leaves the characters `keep` as they are and writes two digits for any other one. -/
def percentEncode (keep : Char → Bool) : Str → Str
  | [] => []
  | c :: s =>
    if keep c then c :: percentEncode keep s
    else '%' :: Nat.digitChar (c.toNat / 16) :: Nat.digitChar (c.toNat % 16) :: percentEncode keep s

theorem charOf_toNat (h : c.toNat < 256) : charOf (c.toNat : Int) = c := by
  rw [charOf, Int.emod_eq_of_lt (Int.natCast_nonneg _) (by omega), Int.toNat_natCast, Char.ofNat_toNat]

theorem encodes_percentEncode {keep : Char → Bool} (hpercent : keep '%' = false) (hplus : keep '+' = false)
    (hbyte : ∀ c ∈ s, c.toNat < 256) : Encodes (percentEncode keep s) s := by
  induction s with
  | nil => exact .nil
  | cons c s ih =>
    rw [List.forall_mem_cons] at hbyte
    obtain ⟨hc, hbyte⟩ := hbyte
    rw [percentEncode]
    by_cases hkeep : keep c = true
    · rw [if_pos hkeep]
      refine .plain ?_ ?_ (ih hbyte)
      · rintro rfl
        simp [hpercent] at hkeep
      · rintro rfl
        simp [hplus] at hkeep
    · rw [if_neg hkeep]
      obtain ⟨hhi, hvhi⟩ := isxdigit_digitChar (n := c.toNat / 16) (by omega)
      obtain ⟨hlo, hvlo⟩ := isxdigit_digitChar (n := c.toNat % 16) (by omega)
      have hescape := Escape.two hhi hlo
      have hvalue : (16 * xdigitValue (Nat.digitChar (c.toNat / 16)) + xdigitValue (Nat.digitChar (c.toNat % 16)) : Int)
          = c.toNat := by
        rw [hvhi, hvlo]
        omega
      rw [hvalue] at hescape
      have h := Encodes.escape hescape (ih hbyte)
      rwa [charOf_toNat hc] at h

/-- Whatever is encoded is decoded again, whichever characters the encoder leaves. -/
theorem urlDecode_percentEncode (keep : Char → Bool) (hpercent : keep '%' = false) (hplus : keep '+' = false)
    (s : Str) (hbyte : ∀ c ∈ s, c.toNat < 256) : urlDecode (percentEncode keep s) = some s :=
  (encodes_percentEncode hpercent hplus hbyte).urlDecode

theorem urlDecode_percentEncode_page :
    urlDecode (percentEncode (fun c => c.isAlphanum || c = '/') "/a b+%".toList) = some "/a b+%".toList :=
  urlDecode_percentEncode _ rfl rfl _ (by simp)

end Http

end ServiceBridge
