import Mathlib.Data.List.Induction
import Mathlib.Data.List.TakeWhile
import ServiceBridge.Hex

/-! Hexadecimal numbers are read back as they were written. -/

namespace ServiceBridge
open Str

variable {c : Char} {n : Nat} {s : Str}

/-! ### Digits -/

theorem le_iff_toNat {a b : Char} : a ≤ b ↔ a.toNat ≤ b.toNat := UInt32.le_iff_toNat_le

theorem isxdigit_iff : isxdigit c = true ↔
    48 ≤ c.toNat ∧ c.toNat ≤ 57 ∨ 97 ≤ c.toNat ∧ c.toNat ≤ 102 ∨ 65 ≤ c.toNat ∧ c.toNat ≤ 70 := by
  simp only [isxdigit, Bool.or_eq_true, Char.isDigit_iff_toNat, decide_eq_true_iff, le_iff_toNat, Char.reduceToNat]
  tauto

theorem xdigitValue_lt (h : isxdigit c = true) : xdigitValue c < 16 := by
  have hrange := isxdigit_iff.mp h
  simp only [xdigitValue, Char.isDigit_iff_toNat, le_iff_toNat, Char.reduceToNat]
  split_ifs
  all_goals omega

theorem isxdigit_of_isspace (h : isspace c = true) : isxdigit c = false := by
  rw [isspace, List.contains_iff_mem] at h
  simp only [List.mem_cons, List.not_mem_nil, or_false] at h
  rcases h with rfl | rfl | rfl | rfl | rfl | rfl
  all_goals rfl

theorem isspace_of_isxdigit (h : isxdigit c = true) : isspace c = false := by
  rw [Bool.eq_false_iff]
  intro hspace
  rw [isxdigit_of_isspace hspace] at h
  cases h

theorem readSign_of_isxdigit (h : isxdigit c = true) : readSign (c :: s) = (false, c :: s) := by
  unfold readSign
  split
  · next heq =>
    cases heq
    simp [isxdigit_iff] at h
  · next heq =>
    cases heq
    simp [isxdigit_iff] at h
  · rfl

theorem isxdigit_digitChar (h : n < 16) : isxdigit (Nat.digitChar n) = true ∧ xdigitValue (Nat.digitChar n) = n := by
  have hall : ∀ n < 16, isxdigit (Nat.digitChar n) = true ∧ xdigitValue (Nat.digitChar n) = n := by decide
  exact hall n h

/-! ### Numbers -/

theorem ofXDigits_concat (digits : Str) (c : Char) : ofXDigits (digits ++ [c]) = 16 * ofXDigits digits + xdigitValue c :=
  List.foldl_append

theorem toDigits_spec (n : Nat) : (∀ c ∈ Nat.toDigits 16 n, isxdigit c = true) ∧ ofXDigits (Nat.toDigits 16 n) = n := by
  induction n using Nat.strongRecOn with
  | ind n ih =>
    by_cases hn : n < 16
    · obtain ⟨hdigit, hvalue⟩ := isxdigit_digitChar hn
      rw [Nat.toDigits_of_lt_base hn]
      refine ⟨List.forall_mem_singleton.mpr hdigit, ?_⟩
      have hsingle : ofXDigits [Nat.digitChar n] = 16 * 0 + xdigitValue (Nat.digitChar n) := ofXDigits_concat [] _
      rw [hsingle, hvalue, Nat.mul_zero, Nat.zero_add]
    · obtain ⟨hdigits, hvalue⟩ := ih (n / 16) (by omega)
      obtain ⟨hdigit, hlast⟩ := isxdigit_digitChar (Nat.mod_lt n (by decide : 0 < 16))
      rw [Nat.toDigits_of_base_le (by decide) (by omega), ofXDigits_concat, hvalue, hlast]
      exact ⟨List.forall_mem_append.mpr ⟨hdigits, List.forall_mem_singleton.mpr hdigit⟩, by omega⟩

theorem dropBase_of_isxdigit (h : ∀ c ∈ s, isxdigit c = true) : dropBase s = s := by
  unfold dropBase
  split
  · exact absurd (h 'x' (by simp)) (by decide)
  · exact absurd (h 'X' (by simp)) (by decide)
  · rfl

theorem readHex_writeHex (width n : Nat) : readHex (writeHex width n) = some (false, n) := by
  obtain ⟨hdigits, hvalue⟩ := toDigits_spec n
  obtain ⟨c, rest, hcons⟩ := List.exists_cons_of_ne_nil (Nat.toDigits_ne_nil (n := n) (b := 16))
  have hc : isxdigit c = true := hdigits c (hcons ▸ List.mem_cons_self)
  have hspace : (writeHex width n).dropWhile isspace = Nat.toDigits 16 n := by
    rw [writeHex, List.dropWhile_append_of_pos fun x hx => by rw [List.eq_of_mem_replicate hx]; rfl, hcons,
      List.dropWhile_cons, if_neg (by simp [isspace_of_isxdigit hc])]
  have hsign : readSign (Nat.toDigits 16 n) = (false, Nat.toDigits 16 n) := hcons ▸ readSign_of_isxdigit hc
  have htake : (Nat.toDigits 16 n).takeWhile isxdigit = Nat.toDigits 16 n := List.takeWhile_eq_self_iff.mpr hdigits
  rw [readHex, hspace, hsign]
  simp only
  rw [dropBase_of_isxdigit hdigits, htake, if_neg Nat.toDigits_ne_nil, hvalue]

theorem length_writeHex_eq_iff {width : Nat} (hwidth : 0 < width) : (writeHex width n).length = width ↔ n < 16 ^ width := by
  rw [← Nat.length_toDigits_le_iff (by decide) hwidth, writeHex, List.length_append, List.length_replicate]
  omega

theorem ofXDigits_lt (h : ∀ c ∈ s, isxdigit c = true) : ofXDigits s < 16 ^ s.length := by
  induction s using List.reverseRecOn with
  | nil => exact Nat.one_pos
  | append_singleton s c ih =>
    rw [List.forall_mem_append, List.forall_mem_singleton] at h
    have hlt := ih h.1
    have hc := xdigitValue_lt h.2
    rw [ofXDigits_concat, List.length_append, List.length_singleton, Nat.pow_succ]
    omega

theorem readHex_lt {minus : Bool} (h : readHex s = some (minus, n)) : n < 16 ^ s.length := by
  rw [readHex] at h
  simp only [Option.ite_none_left_eq_some, Option.some.injEq, Prod.mk.injEq] at h
  obtain ⟨-, -, rfl⟩ := h
  refine Nat.lt_of_lt_of_le (ofXDigits_lt fun c hc => List.mem_takeWhile_imp hc) (Nat.pow_le_pow_right (by decide) ?_)
  have hbase : ∀ s, dropBase s <:+ s := fun s => by
    unfold dropBase
    split
    · exact ⟨['0', 'x'], rfl⟩
    · exact ⟨['0', 'X'], rfl⟩
    · exact List.suffix_refl _
  have hsign : ∀ s, (readSign s).2 <:+ s := fun s => by
    unfold readSign
    split
    · exact ⟨['+'], rfl⟩
    · exact ⟨['-'], rfl⟩
    · exact List.suffix_refl _
  have hsuffix := (hbase _).trans ((hsign _).trans (List.dropWhile_suffix isspace (l := s)))
  exact Nat.le_trans (List.takeWhile_prefix _).length_le hsuffix.length_le

end ServiceBridge
