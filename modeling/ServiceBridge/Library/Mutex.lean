import Mathlib.Logic.Function.Basic

/-! A lock and the processes that take it: it is in the hands of the one process that is inside, if any. -/

namespace Mutex

variable {ι κ : Type*}

/-- The owner of the lock is whoever is at a place that `inside` holds of. -/
def Guards (owner : Option ι) (inside : κ → Bool) (place : ι → κ) : Prop :=
  ∀ i, owner = some i ↔ inside (place i) = true

namespace Guards
variable {owner : Option ι} {inside : κ → Bool} {place : ι → κ} {i j : ι} {k : κ}

theorem unique (h : Guards owner inside place) (hi : inside (place i) = true) (hj : inside (place j) = true) : i = j :=
  Option.some.inj (((h i).mpr hi).symm.trans ((h j).mpr hj))

theorem outside (h : Guards owner inside place) (hi : inside (place i) = true) (hne : j ≠ i) :
    inside (place j) = false := by
  cases hj : inside (place j) with
  | false => rfl
  | true => exact absurd (h.unique hj hi) hne

variable [DecidableEq ι]

theorem acquire (h : Guards none inside place) (hk : inside k = true) :
    Guards (some i) inside (Function.update place i k) := by
  intro j
  rcases eq_or_ne j i with rfl | hne
  · rw [Function.update_self, hk]
    exact iff_of_true rfl rfl
  · rw [Function.update_of_ne hne, Option.some.injEq, ← h j]
    exact iff_of_false hne.symm (by simp)

theorem release (h : Guards owner inside place) (hi : inside (place i) = true) (hk : inside k = false) :
    Guards none inside (Function.update place i k) := by
  intro j
  rcases eq_or_ne j i with rfl | hne
  · rw [Function.update_self, hk]
    simp
  · rw [Function.update_of_ne hne, h.outside hi hne]
    simp

theorem move (h : Guards owner inside place) (hk : inside k = inside (place i)) :
    Guards owner inside (Function.update place i k) := by
  intro j
  rcases eq_or_ne j i with rfl | hne
  · rw [Function.update_self, hk]
    exact h j
  · rw [Function.update_of_ne hne]
    exact h j

end Guards

end Mutex
