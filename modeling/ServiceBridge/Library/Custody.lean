import Mathlib.Data.List.Nodup
import Mathlib.Logic.Function.Basic

/-! Who has what was taken from a common stock: each thing taken is in the hands of one owner, or finished. -/

namespace Custody

variable {ι α : Type*}

/-- What was taken is what is finished and what one owner each holds. -/
structure Holds (taken : List α) (held : ι → Option α) (done : List α) : Prop where
  taken : ∀ x, x ∈ taken ↔ x ∈ done ∨ ∃ i, held i = some x
  unfinished : ∀ i x, held i = some x → x ∉ done
  owner : ∀ i j x, held i = some x → held j = some x → i = j

/-- Besides, each thing is finished once. -/
structure Accounts (taken : List α) (held : ι → Option α) (done : List α) : Prop
    extends Holds taken held done where
  distinct : done.Nodup

variable {taken : List α} {held : ι → Option α} {done : List α} {i j : ι} {x y : α}

/-! ### Hands -/

section
variable [DecidableEq ι]

theorem update_some_iff : Function.update held i (some x) j = some y ↔ j = i ∧ x = y ∨ j ≠ i ∧ held j = some y := by
  rcases eq_or_ne j i with rfl | hne
  · rw [Function.update_self, Option.some.injEq]
    simp
  · rw [Function.update_of_ne hne]
    simp [hne]

theorem update_none_iff : Function.update held i none j = some y ↔ j ≠ i ∧ held j = some y := by
  rcases eq_or_ne j i with rfl | hne
  · rw [Function.update_self]
    simp
  · rw [Function.update_of_ne hne]
    simp [hne]

theorem exists_update_some_iff (hi : held i = none) :
    (∃ j, Function.update held i (some x) j = some y) ↔ (∃ j, held j = some y) ∨ y = x := by
  constructor
  · rintro ⟨j, hj⟩
    rcases update_some_iff.mp hj with ⟨-, rfl⟩ | ⟨-, hj⟩
    · exact Or.inr rfl
    · exact Or.inl ⟨j, hj⟩
  · rintro (⟨j, hj⟩ | rfl)
    · refine ⟨j, update_some_iff.mpr (Or.inr ⟨?_, hj⟩)⟩
      rintro rfl
      rw [hi] at hj
      cases hj
    · exact ⟨i, Function.update_self ..⟩

theorem exists_eq_some_iff (hi : held i = some x) :
    (∃ j, held j = some y) ↔ y = x ∨ ∃ j, Function.update held i none j = some y := by
  constructor
  · rintro ⟨j, hj⟩
    rcases eq_or_ne j i with rfl | hne
    · exact Or.inl (Option.some.inj (hj.symm.trans hi))
    · exact Or.inr ⟨j, update_none_iff.mpr ⟨hne, hj⟩⟩
  · rintro (rfl | ⟨j, hj⟩)
    · exact ⟨i, hi⟩
    · exact ⟨j, (update_none_iff.mp hj).2⟩

end

/-! ### Steps -/

namespace Holds

theorem initial : Holds ([] : List α) (fun _ : ι => none) [] where
  taken := by simp
  unfinished := by simp
  owner := by simp

variable [DecidableEq ι]

/-- An owner with empty hands takes something new. -/
theorem take (h : Holds taken held done) (hi : held i = none) (fresh : x ∉ taken) :
    Holds (taken ++ [x]) (Function.update held i (some x)) done := by
  refine ⟨fun y => ?_, fun j y hj hy => ?_, fun j k y hj hk => ?_⟩
  · rw [List.mem_append, h.taken, List.mem_singleton, exists_update_some_iff hi, or_assoc]
  · rcases update_some_iff.mp hj with ⟨-, rfl⟩ | ⟨-, hj⟩
    · exact fresh ((h.taken _).mpr (Or.inl hy))
    · exact h.unfinished j y hj hy
  · rcases update_some_iff.mp hj with ⟨rfl, rfl⟩ | ⟨-, hj⟩
    · rcases update_some_iff.mp hk with ⟨rfl, -⟩ | ⟨-, hk⟩
      · rfl
      · exact absurd ((h.taken _).mpr (Or.inr ⟨k, hk⟩)) fresh
    · rcases update_some_iff.mp hk with ⟨-, rfl⟩ | ⟨-, hk⟩
      · exact absurd ((h.taken _).mpr (Or.inr ⟨j, hj⟩)) fresh
      · exact h.owner j k y hj hk

/-- An owner finishes what it holds. -/
theorem finish (h : Holds taken held done) (hi : held i = some x) :
    Holds taken (Function.update held i none) (done ++ [x]) := by
  refine ⟨fun y => ?_, fun j y hj hy => ?_, fun j k y hj hk => ?_⟩
  · rw [h.taken, List.mem_append, List.mem_singleton, exists_eq_some_iff hi, or_assoc]
  · obtain ⟨hne, hj⟩ := update_none_iff.mp hj
    rcases List.mem_append.mp hy with hy | hy
    · exact h.unfinished j y hj hy
    · obtain rfl := List.mem_singleton.mp hy
      exact hne (h.owner j i y hj hi)
  · exact h.owner j k y (update_none_iff.mp hj).2 (update_none_iff.mp hk).2

end Holds

namespace Accounts

theorem initial : Accounts ([] : List α) (fun _ : ι => none) [] := ⟨.initial, List.nodup_nil⟩

variable [DecidableEq ι]

theorem take (h : Accounts taken held done) (hi : held i = none) (fresh : x ∉ taken) :
    Accounts (taken ++ [x]) (Function.update held i (some x)) done :=
  ⟨h.toHolds.take hi fresh, h.distinct⟩

theorem finish (h : Accounts taken held done) (hi : held i = some x) :
    Accounts taken (Function.update held i none) (done ++ [x]) := by
  refine ⟨h.toHolds.finish hi, List.nodup_append.mpr ⟨h.distinct, List.nodup_singleton _, fun y hy z hz heq => ?_⟩⟩
  rw [List.mem_singleton] at hz
  exact h.unfinished i x hi (hz ▸ heq ▸ hy)

end Accounts

end Custody
