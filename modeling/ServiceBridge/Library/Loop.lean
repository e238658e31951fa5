import Mathlib.Tactic.Common

/-! Loops with a bound on their passes. A body leaves the loop (`none`), asks for one more pass (`some`),
    or throws. A loop that is still running when its passes are used up ends in the error `stuck`. -/

namespace Loop

variable {σ ε : Type*}

/-- Run `body` from `s`, for at most the given number of tests of the loop condition. -/
def run (stuck : ε) (body : σ → Except ε (Option σ)) : Nat → σ → Except ε σ
  | 0, _ => .error stuck
  | n + 1, s =>
    match body s with
    | .error e => .error e
    | .ok none => .ok s
    | .ok (some t) => run stuck body n t

variable {stuck : ε} {body : σ → Except ε (Option σ)} {s t : σ} {n : Nat}

theorem run_leave (h : body s = .ok none) : run stuck body (n + 1) s = .ok s := by
  simp only [run, h]

theorem run_pass (h : body s = .ok (some t)) : run stuck body (n + 1) s = run stuck body n t := by
  simp only [run, h]

/-- Total correctness: a body that never throws under `I`, keeps `I` and lowers `μ` leaves the loop, in a
    state that satisfies `I` and the exit condition. -/
theorem exists_run (stuck : ε) (body : σ → Except ε (Option σ)) {I : σ → Prop} {μ : σ → Nat}
    (step : ∀ s, I s → body s = .ok none ∨ ∃ t, body s = .ok (some t) ∧ I t ∧ μ t < μ s)
    (hs : I s) (hn : μ s < n) : ∃ t, run stuck body n s = .ok t ∧ I t ∧ body t = .ok none := by
  induction n generalizing s with
  | zero => exact absurd hn (Nat.not_lt_zero _)
  | succ n ih =>
    rcases step s hs with leave | ⟨u, hb, hu, lower⟩
    · exact ⟨s, run_leave leave, hs, leave⟩
    · obtain ⟨t, hrun, ht, leave⟩ := ih hu (by omega)
      exact ⟨t, (run_pass hb).trans hrun, ht, leave⟩

/-- A loop whose body asks for one more pass wherever `I` holds never ends. -/
theorem run_stuck {I : σ → Prop} (step : ∀ s, I s → ∃ t, body s = .ok (some t) ∧ I t) (hs : I s) :
    run stuck body n s = .error stuck := by
  induction n generalizing s with
  | zero => rfl
  | succ n ih =>
    obtain ⟨t, hb, ht⟩ := step s hs
    rw [run_pass hb]
    exact ih ht

/-! ### Passes -/

/-- `Passes body s n t`: from `s` the loop makes `n` passes and is then at `t`. -/
inductive Passes (body : σ → Except ε (Option σ)) (s : σ) : Nat → σ → Prop
  | start : Passes body s 0 s
  | pass {n : Nat} {t u : σ} : Passes body s n t → body t = .ok (some u) → Passes body s (n + 1) u

/-- A body that keeps `I` and lowers `μ` makes no more passes than `μ` says at first. -/
theorem Passes.bounded {I : σ → Prop} {μ : σ → Nat} (step : ∀ t u, I t → body t = .ok (some u) → I u ∧ μ u < μ t)
    (h : Passes body s n t) (hs : I s) : I t ∧ n + μ t ≤ μ s := by
  induction h with
  | start => exact ⟨hs, Nat.le_of_eq (Nat.zero_add _)⟩
  | pass _ hb ih =>
    obtain ⟨ht, hn⟩ := ih
    obtain ⟨hu, lower⟩ := step _ _ ht hb
    exact ⟨hu, by omega⟩

/-- The loop leaves after the passes that lead to a state in which it leaves. -/
theorem Passes.exists_of_run (h : run stuck body n s = .ok t) (leave : body t = .ok none) :
    ∃ m, Passes body s m t := by
  suffices from_ : ∀ r m, Passes body r m s → ∃ m, Passes body r m t from from_ s 0 .start
  induction n generalizing s with
  | zero => cases h
  | succ n ih =>
    intro r m hm
    rcases hb : body s with e | _ | u
    · simp only [run, hb, reduceCtorEq] at h
    · rw [run_leave hb] at h
      obtain rfl := Except.ok.inj h
      exact ⟨m, hm⟩
    · rw [run_pass hb] at h
      exact ih h r (m + 1) (hm.pass hb)

end Loop
