import Mathlib.Data.List.Forall2
import Mathlib.Tactic.Common

/-! Transition systems whose steps are partial functions of an action, their runs, invariants and
    simulations. -/

/-- Where a system may start, and the state, if any, that an action leads to. -/
structure System (σ α : Type*) where
  init : σ → Prop
  step : σ → α → Option σ

namespace System

variable {σ α τ β : Type*} {M : System σ α}

/-- `Trace M s l t`: a run from `s` to `t`; `l` holds each step's state before it and its action. -/
inductive Trace (M : System σ α) (s : σ) : List (σ × α) → σ → Prop
  | nil : Trace M s [] s
  | snoc {l : List (σ × α)} {t u : σ} {a : α} :
      Trace M s l t → M.step t a = some u → Trace M s (l ++ [(t, a)]) u

/-- `P` holds in every state of a run: before each of its steps, and at its end. -/
def Always (P : σ → Prop) (l : List (σ × α)) (t : σ) : Prop := (∀ x ∈ l, P x.1) ∧ P t

def Reachable (M : System σ α) (t : σ) : Prop := ∃ s l, M.init s ∧ M.Trace s l t

theorem Reachable.of_init {s : σ} (h : M.init s) : M.Reachable s := ⟨s, [], h, .nil⟩

theorem Reachable.of_trace {s t : σ} {l : List (σ × α)} (hs : M.init s) (h : M.Trace s l t) :
    M.Reachable t := ⟨s, l, hs, h⟩

theorem Reachable.step {s t : σ} {a : α} (h : M.Reachable s) (hs : M.step s a = some t) : M.Reachable t := by
  obtain ⟨s₀, l, h₀, hl⟩ := h
  exact ⟨s₀, l ++ [(s, a)], h₀, hl.snoc hs⟩

theorem Trace.append {s t u : σ} {l l' : List (σ × α)} (h : M.Trace s l t) (h' : M.Trace t l' u) :
    M.Trace s (l ++ l') u := by
  induction h' with
  | nil => rwa [List.append_nil]
  | snoc _ hstep ih => exact List.append_assoc l _ _ ▸ ih.snoc hstep

/-- The state, if any, that actions lead to. -/
def run (M : System σ α) (s : σ) (as : List α) : Option σ := as.foldlM M.step s

theorem exists_trace_of_run {s t : σ} {as : List α} (h : M.run s as = some t) :
    ∃ l, M.Trace s l t ∧ l.map Prod.snd = as := by
  induction as generalizing s with
  | nil =>
    cases h
    exact ⟨[], .nil, rfl⟩
  | cons a as ih =>
    rw [run, List.foldlM_cons, Option.bind_eq_bind, Option.bind_eq_some_iff] at h
    obtain ⟨u, hstep, hrest⟩ := h
    obtain ⟨l, hl, hacts⟩ := ih hrest
    exact ⟨(s, a) :: l, (Trace.nil.snoc hstep).append hl, congrArg (a :: ·) hacts⟩

theorem Reachable.run {s t : σ} (h : M.Reachable s) (as : List α) (ht : M.run s as = some t) : M.Reachable t := by
  obtain ⟨s₀, l, h₀, hl⟩ := h
  obtain ⟨l', hl', -⟩ := exists_trace_of_run ht
  exact ⟨s₀, l ++ l', h₀, hl.append hl'⟩

/-! ### Invariants -/

theorem Trace.invariant {I : σ → Prop} (step : ∀ t a u, I t → M.step t a = some u → I u) {s t : σ}
    {l : List (σ × α)} (h : M.Trace s l t) (hs : I s) : I t := by
  induction h with
  | nil => exact hs
  | snoc _ hstep ih => exact step _ _ _ ih hstep

theorem Reachable.invariant {I : σ → Prop} (init : ∀ s, M.init s → I s)
    (step : ∀ t a u, I t → M.step t a = some u → I u) {t : σ} (h : M.Reachable t) : I t := by
  obtain ⟨s, l, hs, hl⟩ := h
  exact hl.invariant step (init s hs)

theorem Trace.reachable {s t : σ} {l : List (σ × α)} (h : M.Trace s l t) (hs : M.Reachable s) : M.Reachable t :=
  h.invariant (I := M.Reachable) (fun _ _ _ ht hstep => ht.step hstep) hs

/-- An invariant of the steps that a run takes holds throughout it. -/
theorem Trace.always {I : σ → Prop} {A : α → Prop} (step : ∀ t a u, A a → I t → M.step t a = some u → I u)
    {s t : σ} {l : List (σ × α)} (h : M.Trace s l t) (hs : I s) (hA : ∀ x ∈ l, A x.2) : Always I l t := by
  induction h with
  | nil => exact ⟨List.forall_mem_nil _, hs⟩
  | snoc _ hstep ih =>
    obtain ⟨hbefore, hlast⟩ := List.forall_mem_append.mp hA
    obtain ⟨before, ht⟩ := ih hbefore
    refine ⟨List.forall_mem_append.mpr ⟨before, List.forall_mem_singleton.mpr ht⟩, ?_⟩
    exact step _ _ _ (hlast _ List.mem_cons_self) ht hstep

/-- The state after each step of a run is one of its states. -/
theorem Trace.next {P : σ → Prop} {s t : σ} {l : List (σ × α)} (h : M.Trace s l t) (hP : Always P l t) :
    ∀ x ∈ l, ∃ u, M.step x.1 x.2 = some u ∧ P u := by
  induction h with
  | nil => exact List.forall_mem_nil _
  | snoc _ hstep ih =>
    obtain ⟨before, after⟩ := hP
    obtain ⟨before, last⟩ := List.forall_mem_append.mp before
    refine List.forall_mem_append.mpr ⟨ih ⟨before, last _ List.mem_cons_self⟩, ?_⟩
    exact List.forall_mem_singleton.mpr ⟨_, hstep, after⟩

/-- When `P` survives a step exactly if the step satisfies `C`, a run satisfies `P` throughout exactly if
    all of its steps satisfy `C`. The auxiliary `I n` holds after `n` steps of any run. -/
theorem Trace.always_iff {I : Nat → σ → Prop} {P : σ → Prop} {C : σ → α → Prop} {s t : σ} {l : List (σ × α)}
    (h : M.Trace s l t) (hI : I 0 s) (keep : ∀ n t a u, I n t → M.step t a = some u → I (n + 1) u) (hP : P s)
    (step : ∀ n t a u, n < l.length → I n t → P t → M.step t a = some u → (P u ↔ C t a)) :
    Always P l t ↔ ∀ x ∈ l, C x.1 x.2 := by
  suffices both : I l.length t ∧ (Always P l t ↔ ∀ x ∈ l, C x.1 x.2) from both.2
  induction h with
  | nil => exact ⟨hI, by simp [Always, hP]⟩
  | @snoc l t u a _ hstep ih =>
    obtain ⟨hIt, ih⟩ := ih fun n t a u hn => step n t a u (by rw [List.length_append]; omega)
    refine ⟨by rw [List.length_append]; exact keep _ _ _ _ hIt hstep, ?_⟩
    have last : P t → (P u ↔ C t a) := fun ht => step _ _ _ _ (by simp) hIt ht hstep
    constructor
    · rintro ⟨before, after⟩ x hx
      have ht : P t := before (t, a) (by simp)
      have past : Always P l t := ⟨fun y hy => before y (List.mem_append_left _ hy), ht⟩
      rcases List.mem_append.mp hx with hx | hx
      · exact ih.mp past x hx
      · obtain rfl := List.mem_singleton.mp hx
        exact (last ht).mp after
    · intro hC
      obtain ⟨before, ht⟩ := ih.mpr fun x hx => hC x (List.mem_append_left _ hx)
      refine ⟨fun x hx => ?_, (last ht).mpr (hC (t, a) (by simp))⟩
      rcases List.mem_append.mp hx with hx | hx
      · exact before x hx
      · obtain rfl := List.mem_singleton.mp hx
        exact ht

/-! ### Runs of certain actions -/

/-- A run whose actions are all in `A`. -/
def Leads (M : System σ α) (A : α → Prop) (s t : σ) : Prop := ∃ l, M.Trace s l t ∧ ∀ x ∈ l, A x.2

namespace Leads
variable {A : α → Prop} {s t u : σ} {a : α}

theorem refl : M.Leads A s s := ⟨[], .nil, List.forall_mem_nil _⟩

theorem snoc (h : M.Leads A s t) (ha : A a) (hs : M.step t a = some u) : M.Leads A s u := by
  obtain ⟨l, hl, hA⟩ := h
  exact ⟨_, hl.snoc hs, List.forall_mem_append.mpr ⟨hA, List.forall_mem_singleton.mpr ha⟩⟩

theorem trans (h : M.Leads A s t) (h' : M.Leads A t u) : M.Leads A s u := by
  obtain ⟨l, hl, hA⟩ := h
  obtain ⟨l', hl', hA'⟩ := h'
  exact ⟨_, hl.append hl', List.forall_mem_append.mpr ⟨hA, hA'⟩⟩

end Leads

/-! ### Progress -/

/-- Where `P` does not hold yet some step brings it nearer, so a run gets there. -/
theorem exists_trace {P I : σ → Prop} (μ : σ → Nat)
    (step : ∀ s, I s → ¬P s → ∃ a t, M.step s a = some t ∧ I t ∧ μ t < μ s) (s : σ) (hs : I s) :
    ∃ l t, M.Trace s l t ∧ P t := by
  by_cases hP : P s
  · exact ⟨[], s, .nil, hP⟩
  · obtain ⟨a, t, hstep, ht, hlt⟩ := step s hs hP
    obtain ⟨l, u, hl, hu⟩ := exists_trace μ step t ht
    exact ⟨_, u, (Trace.nil.snoc hstep).append hl, hu⟩
termination_by μ s

/-- The steps of a run that lower a measure are no more than the measure, where no other step raises it. -/
theorem Trace.countP_le {I : σ → Prop} {A : α → Prop} (μ : σ → Nat) (p : α → Bool)
    (step : ∀ s a t, A a → I s → M.step s a = some t → I t ∧ μ t + (if p a then 1 else 0) ≤ μ s) {s t : σ}
    {l : List (σ × α)} (h : M.Trace s l t) (hs : I s) (hA : ∀ x ∈ l, A x.2) :
    I t ∧ l.countP (fun x => p x.2) + μ t ≤ μ s := by
  induction h with
  | nil => exact ⟨hs, Nat.le_of_eq (Nat.zero_add _)⟩
  | @snoc l t u a _ hstep ih =>
    obtain ⟨hbefore, hlast⟩ := List.forall_mem_append.mp hA
    obtain ⟨hI, hle⟩ := ih hbefore
    obtain ⟨hI', hlt⟩ := step _ a _ (hlast _ List.mem_cons_self) hI hstep
    refine ⟨hI', ?_⟩
    rw [List.countP_append, List.countP_singleton]
    dsimp only
    omega

/-- A run of steps that each lower a measure is no longer than the measure. -/
theorem Trace.length_le_of {I : σ → Prop} {A : α → Prop} (μ : σ → Nat)
    (step : ∀ s a t, A a → I s → M.step s a = some t → I t ∧ μ t < μ s) {s t : σ} {l : List (σ × α)}
    (h : M.Trace s l t) (hs : I s) (hA : ∀ x ∈ l, A x.2) : l.length + μ t ≤ μ s := by
  have hcount := (h.countP_le μ (fun _ => true) step hs hA).2
  rwa [List.countP_true] at hcount

theorem Trace.length_le {I : σ → Prop} (μ : σ → Nat) (step : ∀ s a t, I s → M.step s a = some t → I t ∧ μ t < μ s)
    {s t : σ} {l : List (σ × α)} (h : M.Trace s l t) (hs : I s) : l.length + μ t ≤ μ s :=
  h.length_le_of (A := fun _ => True) μ (fun s a t _ => step s a t) hs fun _ _ => trivial

/-! ### Two runs -/

/-- Where related actions lead from related states to related ones, the actions of a run have a run wherever they
    are replaced by related ones. -/
theorem Trace.lockstep {R : σ → σ → Prop} {E : α → α → Prop}
    (step : ∀ s s' a a' t, R s s' → E a a' → M.step s a = some t → ∃ t', M.step s' a' = some t' ∧ R t t')
    {s s' t : σ} {l : List (σ × α)} (h : M.Trace s l t) (hs : R s s') {as : List α}
    (has : List.Forall₂ E (l.map Prod.snd) as) : ∃ l' t', M.Trace s' l' t' ∧ l'.map Prod.snd = as ∧ R t t' := by
  induction h generalizing as with
  | nil =>
    cases has
    exact ⟨[], s', .nil, rfl, hs⟩
  | @snoc l t u a _ hstep ih =>
    have hlast := List.forall₂_reverse_iff.mpr has
    rw [List.map_append, List.map_singleton, List.reverse_concat, List.forall₂_cons_left_iff] at hlast
    obtain ⟨a', front, ha, hfront, heq⟩ := hlast
    rw [List.reverse_eq_cons_iff] at heq
    obtain ⟨l', t', hl', hacts, ht⟩ := ih (List.forall₂_reverse_iff.mp ((List.reverse_reverse front).symm ▸ hfront))
    obtain ⟨u', hstep', hu⟩ := step t t' a a' u ht ha hstep
    refine ⟨_, u', hl'.snoc hstep', ?_, hu⟩
    rw [List.map_append, List.map_singleton, hacts, heq]

/-- Where the actions of `p` lead from related states to related ones, and the others change nothing that the relation
    sees, a run has one with its actions of `p` alone. -/
theorem Trace.filter {R : σ → σ → Prop} {p : α → Bool}
    (kept : ∀ s s' a t, p a = true → R s s' → M.step s a = some t → ∃ t', M.step s' a = some t' ∧ R t t')
    (dropped : ∀ s s' a t, p a = false → R s s' → M.step s a = some t → R t s') {s s' t : σ} {l : List (σ × α)}
    (h : M.Trace s l t) (hs : R s s') :
    ∃ l' t', M.Trace s' l' t' ∧ l'.map Prod.snd = (l.map Prod.snd).filter p ∧ R t t' := by
  induction h with
  | nil => exact ⟨[], s', .nil, rfl, hs⟩
  | @snoc l t u a _ hstep ih =>
    obtain ⟨l', t', hl', hacts, ht⟩ := ih
    rw [List.map_append, List.filter_append, ← hacts]
    cases hp : p a with
    | true =>
      obtain ⟨u', hstep', hu⟩ := kept t t' a u hp ht hstep
      refine ⟨_, u', hl'.snoc hstep', ?_, hu⟩
      simp [hp]
    | false =>
      refine ⟨l', t', hl', ?_, dropped t t' a u hp ht hstep⟩
      simp [hp]

/-! ### Simulations -/

/-- Each step of `M` is matched by a step of `A` or by none. -/
structure Simulation (M : System σ α) (A : System τ β) where
  rel : σ → τ → Prop
  init : ∀ s, M.init s → ∃ t, A.init t ∧ rel s t
  step : ∀ s a s' t, rel s t → M.step s a = some s' → rel s' t ∨ ∃ b t', A.step t b = some t' ∧ rel s' t'

theorem Simulation.reachable {A : System τ β} (S : Simulation M A) {s : σ} (h : M.Reachable s) :
    ∃ t, A.Reachable t ∧ S.rel s t := by
  refine h.invariant (I := fun s => ∃ t, A.Reachable t ∧ S.rel s t) ?_ ?_
  · intro s hs
    obtain ⟨t, ht, hrel⟩ := S.init s hs
    exact ⟨t, .of_init ht, hrel⟩
  · rintro s a s' ⟨t, ht, hrel⟩ hs
    rcases S.step s a s' t hrel hs with hrel' | ⟨b, t', hb, hrel'⟩
    · exact ⟨t, ht, hrel'⟩
    · exact ⟨t', ht.step hb, hrel'⟩

end System
