import Mathlib.Tactic.Common
import ServiceBridge.Library.Transition

/-! A first-in first-out store in the abstract: a log that only grows, and a cursor that walks over it. What
    the cursor has passed is removed, what is before it is pending. -/

namespace Fifo

structure Log (α : Type*) where
  entries : List α
  cursor : Nat
  within : cursor ≤ entries.length

variable {α : Type*}

namespace Log

def removed (L : Log α) : List α := L.entries.take L.cursor

def pending (L : Log α) : List α := L.entries.drop L.cursor

def empty : Log α := ⟨[], 0, Nat.le_refl 0⟩

def append (L : Log α) (x : α) : Log α where
  entries := L.entries ++ [x]
  cursor := L.cursor
  within := by
    rw [List.length_append]
    exact Nat.le_add_right_of_le L.within

def advance (L : Log α) (h : L.cursor < L.entries.length) : Log α where
  entries := L.entries
  cursor := L.cursor + 1
  within := h

variable {L : Log α} {x : α} {rest : List α}

theorem removed_append_pending (L : Log α) : L.removed ++ L.pending = L.entries :=
  List.take_append_drop _ _

@[simp] theorem removed_append : (L.append x).removed = L.removed :=
  List.take_append_of_le_length L.within

@[simp] theorem pending_append : (L.append x).pending = L.pending ++ [x] :=
  List.drop_append_of_le_length L.within

theorem lt_of_pending (h : L.pending = x :: rest) : L.cursor < L.entries.length := by
  refine Nat.lt_of_not_le fun hle => ?_
  have hnil : L.pending = [] := List.drop_of_length_le hle
  rw [h] at hnil
  cases hnil

theorem removed_advance (h : L.pending = x :: rest) :
    (L.advance (lt_of_pending h)).removed = L.removed ++ [x] := by
  have hx : L.entries[L.cursor]? = some x := by
    rw [← List.head?_drop, show L.entries.drop L.cursor = _ from h]
    rfl
  show L.entries.take (L.cursor + 1) = _
  rw [List.take_add_one, hx]
  rfl

theorem pending_advance (h : L.pending = x :: rest) : (L.advance (lt_of_pending h)).pending = rest := by
  show L.entries.drop (L.cursor + 1) = rest
  rw [← List.tail_drop, show L.entries.drop L.cursor = _ from h]
  rfl

end Log

inductive Op (α : Type*) where
  | append (x : α)
  | advance

def system (α : Type*) : System (Log α) (Op α) where
  init := fun L => L = .empty
  step := fun L op =>
    match op with
    | .append x => some (L.append x)
    | .advance => if h : L.cursor < L.entries.length then some (L.advance h) else none

theorem step_advance {L : Log α} (h : L.cursor < L.entries.length) :
    (system α).step L .advance = some (L.advance h) := dif_pos h

/-- Of the entries that satisfy `p`, those removed are the first ones. -/
theorem filter_removed_isPrefix (p : α → Bool) (L : Log α) : L.removed.filter p <+: L.entries.filter p := by
  rw [← L.removed_append_pending, List.filter_append]
  exact List.prefix_append _ _

end Fifo
