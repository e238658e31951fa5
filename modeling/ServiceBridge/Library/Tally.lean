import Mathlib.Data.Fintype.Basic
import Mathlib.Data.Finset.Card
import Mathlib.Algebra.BigOperators.Group.Finset.Basic

/-! How many of finitely many processes are at each place, what their places are worth together, and how that
    changes when one of them moves. -/

namespace Tally

variable {ι κ : Type*} [Fintype ι] [DecidableEq κ] {f : ι → κ} {k : κ}

def tally (f : ι → κ) (k : κ) : Nat := (Finset.univ.filter fun i => f i = k).card

theorem tally_pos_iff : 0 < tally f k ↔ ∃ i, f i = k := by
  rw [tally, Finset.card_pos]
  constructor
  · rintro ⟨i, hi⟩
    exact ⟨i, (Finset.mem_filter.mp hi).2⟩
  · rintro ⟨i, hi⟩
    exact ⟨i, Finset.mem_filter.mpr ⟨Finset.mem_univ _, hi⟩⟩

theorem tally_eq_zero_iff : tally f k = 0 ↔ ∀ i, f i ≠ k := by
  rw [← not_iff_not, ← ne_eq, ← Nat.pos_iff_ne_zero, tally_pos_iff]
  push Not
  rfl

/-- One process leaves its place for another. -/
theorem tally_update [DecidableEq ι] (f : ι → κ) (i : ι) (v k : κ) :
    tally (Function.update f i v) k + (if f i = k then 1 else 0) = tally f k + if v = k then 1 else 0 := by
  have others : ∀ g : ι → κ, tally g k =
      ((Finset.univ.erase i).filter fun j => g j = k).card + if g i = k then 1 else 0 := by
    intro g
    rw [tally, ← Finset.insert_erase (Finset.mem_univ i), Finset.filter_insert, Finset.erase_insert_eq_erase]
    split
    · rw [Finset.card_insert_of_notMem (by simp), Finset.erase_idem]
    · rw [Finset.erase_idem, Nat.add_zero]
  have same : ((Finset.univ.erase i).filter fun j => Function.update f i v j = k) =
      (Finset.univ.erase i).filter fun j => f j = k := by
    refine Finset.filter_congr fun j hj => ?_
    rw [Function.update_of_ne (Finset.ne_of_mem_erase hj)]
  rw [others (Function.update f i v), others f, same, Function.update_self]
  omega

/-- The places of all processes have a sum of weights. -/
theorem sum_update {ι κ : Type*} [Fintype ι] [DecidableEq ι] (w : κ → Nat) (f : ι → κ) (i : ι) (v : κ) :
    ∑ j, w (Function.update f i v j) + w (f i) = ∑ j, w (f j) + w v := by
  have others : ∑ j ∈ Finset.univ.erase i, w (Function.update f i v j) = ∑ j ∈ Finset.univ.erase i, w (f j) := by
    refine Finset.sum_congr rfl fun j hj => ?_
    rw [Function.update_of_ne (Finset.ne_of_mem_erase hj)]
  have split := Finset.add_sum_erase Finset.univ (fun j => w (Function.update f i v j)) (Finset.mem_univ i)
  rw [Function.update_self, others] at split
  rw [← split, ← Finset.add_sum_erase Finset.univ (fun j => w (f j)) (Finset.mem_univ i)]
  omega

end Tally
