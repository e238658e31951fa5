import Mathlib.Data.List.Induction
import Mathlib.Tactic.Common

/-! Graphs whose edges have names, and the nodes that a list of names leads to: a tree of directories, say, with
    whatever links there are in it. -/

namespace Walk

variable {ν κ : Type*}

/-- The node that the names lead to. -/
def follow (look : ν → κ → Option ν) (n : ν) (names : List κ) : Option ν := names.foldlM look n

/-- The nodes that names in `ok` lead to. -/
def Below (look : ν → κ → Option ν) (ok : κ → Prop) (n m : ν) : Prop :=
  ∃ names, (∀ k ∈ names, ok k) ∧ follow look n names = some m

/-- Below `n` two graphs have the same edges with names in `ok`. -/
def Same (look look' : ν → κ → Option ν) (ok : κ → Prop) (n : ν) : Prop :=
  ∀ m, Below look ok n m → ∀ k, ok k → look m k = look' m k

variable {look look' : ν → κ → Option ν} {ok : κ → Prop} {n m : ν} {k : κ} {names more : List κ}

theorem follow_append : follow look n (names ++ more) = (follow look n names).bind fun m => follow look m more :=
  List.foldlM_append

theorem follow_concat : follow look n (names ++ [k]) = (follow look n names).bind fun m => look m k := by
  rw [follow_append]
  congr 1
  funext m
  exact List.foldlM_cons.trans (bind_pure _)

/-- Names in `ok` lead to the same node in both graphs. -/
theorem Same.follow_eq (h : Same look look' ok n) (hnames : ∀ k ∈ names, ok k) :
    follow look n names = follow look' n names := by
  induction names using List.reverseRecOn with
  | nil => rfl
  | append_singleton names k ih =>
    rw [List.forall_mem_append, List.forall_mem_singleton] at hnames
    obtain ⟨hnames, hk⟩ := hnames
    rw [follow_concat, follow_concat, ← ih hnames]
    cases hm : follow look n names with
    | none => rfl
    | some m => exact h m ⟨names, hnames, hm⟩ k hk

theorem Below.invariant {P : ν → Prop} (h : Below look ok n m) (hn : P n)
    (step : ∀ m k m', P m → ok k → look m k = some m' → P m') : P m := by
  obtain ⟨names, hnames, hm⟩ := h
  induction names using List.reverseRecOn generalizing m with
  | nil =>
    cases hm
    exact hn
  | append_singleton names k ih =>
    rw [List.forall_mem_append, List.forall_mem_singleton] at hnames
    obtain ⟨hnames, hk⟩ := hnames
    rw [follow_concat, Option.bind_eq_some_iff] at hm
    obtain ⟨m', hm', hk'⟩ := hm
    exact step m' k m (ih hnames hm') hk hk'

end Walk
