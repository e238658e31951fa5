import Mathlib.Data.List.Basic
import Mathlib.Tactic.Common

/-! Formats whose texts end by themselves: from a text and whatever follows it, what was written can be told.
    Formats are put together from parts of this kind. -/

namespace Delimit

variable {α β γ : Type*}

/-- On the values in `P` the end of a text of `code` can be told, and the value. -/
def EndsItself (P : α → Prop) (code : α → List γ) : Prop :=
  ∀ x y rest rest', P x → P y → code x ++ rest = code y ++ rest' → x = y ∧ rest = rest'

variable {P : α → Prop} {code : α → List γ}

theorem EndsItself.mono {Q : α → Prop} (h : EndsItself P code) (hQ : ∀ x, Q x → P x) : EndsItself Q code :=
  fun x y rest rest' hx hy heq => h x y rest rest' (hQ x hx) (hQ y hy) heq

/-- Words without `c`, which is written at the end, with more after it. -/
theorem EndsItself.word (c : γ) (more : List γ) : EndsItself (c ∉ ·) fun l => l ++ c :: more := by
  intro x y rest rest' hx hy heq
  induction x generalizing y with
  | nil =>
    cases y with
    | nil => exact ⟨rfl, List.append_cancel_left heq⟩
    | cons b y =>
      obtain ⟨rfl, -⟩ := List.cons.inj heq
      exact absurd List.mem_cons_self hy
  | cons a x ih =>
    cases y with
    | nil =>
      obtain ⟨rfl, -⟩ := List.cons.inj heq
      exact absurd List.mem_cons_self hx
    | cons b y =>
      obtain ⟨rfl, htail⟩ := List.cons.inj heq
      rw [List.mem_cons, not_or] at hx hy
      obtain ⟨rfl, hrest⟩ := ih y hx.2 hy.2 htail
      exact ⟨rfl, hrest⟩

/-- A part whose format depends on the part before it. -/
theorem EndsItself.pair {Q : α → β → Prop} {f : α → β → List γ} (h : EndsItself P code)
    (hf : ∀ x, P x → EndsItself (Q x) (f x)) :
    EndsItself (fun p : α × β => P p.1 ∧ Q p.1 p.2) fun p => code p.1 ++ f p.1 p.2 := by
  rintro ⟨x, z⟩ ⟨y, w⟩ rest rest' ⟨hx, hz⟩ ⟨hy, hw⟩ heq
  rw [List.append_assoc, List.append_assoc] at heq
  obtain ⟨rfl, heq⟩ := h x y _ _ hx hy heq
  obtain ⟨rfl, hrest⟩ := hf x hx z w _ _ hz hw heq
  exact ⟨rfl, hrest⟩

/-- Any number of parts, and a mark after them that no part starts with. -/
theorem EndsItself.list (stop : List γ) (h : EndsItself P code)
    (hstop : ∀ x rest rest', P x → code x ++ rest ≠ stop ++ rest') :
    EndsItself (fun l : List α => ∀ x ∈ l, P x) fun l => l.flatMap code ++ stop := by
  intro l m rest rest' hl hm heq
  induction l generalizing m with
  | nil =>
    cases m with
    | nil => exact ⟨rfl, List.append_cancel_left heq⟩
    | cons y m =>
      rw [List.forall_mem_cons] at hm
      refine absurd ?_ (hstop y (m.flatMap code ++ stop ++ rest') rest hm.1)
      simpa using heq.symm
  | cons x l ih =>
    rw [List.forall_mem_cons] at hl
    cases m with
    | nil =>
      refine absurd ?_ (hstop x (l.flatMap code ++ stop ++ rest) rest' hl.1)
      simpa using heq
    | cons y m =>
      rw [List.forall_mem_cons] at hm
      simp only [List.flatMap_cons, List.append_assoc] at heq ih
      obtain ⟨rfl, htail⟩ := h x y _ _ hl.1 hm.1 heq
      obtain ⟨rfl, hrest⟩ := ih m hl.2 hm.2 htail
      exact ⟨rfl, hrest⟩

/-- A format of the values of `g`, where `g` forgets nothing. -/
theorem EndsItself.comap (h : EndsItself P code) {g : β → α} (hg : Function.Injective g) :
    EndsItself (fun x => P (g x)) fun x => code (g x) := by
  intro x y rest rest' hx hy heq
  obtain ⟨hxy, hrest⟩ := h (g x) (g y) rest rest' hx hy heq
  exact ⟨hg hxy, hrest⟩

end Delimit
