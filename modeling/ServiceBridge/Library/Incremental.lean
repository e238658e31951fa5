import Mathlib.Data.List.Induction
import Mathlib.Tactic.Common

/-! Consumers that take one element after another until one of them is answered: an incremental parser, say,
    that is fed what happens to have arrived. A step may also fail for good. -/

namespace Incremental

variable {σ α β ε : Type*}

/-- Hand the elements over up to the first answer: the answer, what is left of them, and the state. -/
def feed (step : σ → α → Except ε (Option β × σ)) : σ → List α → Except ε (Option β × List α × σ)
  | s, [] => .ok (none, [], s)
  | s, x :: l =>
    match step s x with
    | .error e => .error e
    | .ok (some b, t) => .ok (some b, l, t)
    | .ok (none, t) => feed step t l

/-- From `s` the elements lead to a state without an answer. -/
inductive Quiet (step : σ → α → Except ε (Option β × σ)) (s : σ) : List α → σ → Prop
  | nil : Quiet step s [] s
  | snoc {l : List α} {t u : σ} {x : α} : Quiet step s l t → step t x = .ok (none, u) → Quiet step s (l ++ [x]) u

variable {step : σ → α → Except ε (Option β × σ)} {s t u : σ} {l m rest : List α} {x : α} {b : β} {e : ε}

theorem Quiet.append (h : Quiet step s l t) (h' : Quiet step t m u) : Quiet step s (l ++ m) u := by
  induction h' with
  | nil => rwa [List.append_nil]
  | snoc _ hx ih =>
    rw [← List.append_assoc]
    exact ih.snoc hx

theorem Quiet.single (h : step s x = .ok (none, t)) : Quiet step s [x] t := Quiet.nil.snoc h

theorem Quiet.cons (hx : step s x = .ok (none, t)) (h : Quiet step t l u) : Quiet step s (x :: l) u :=
  (Quiet.single hx).append h

theorem Quiet.invariant {I : List α → σ → Prop} (h : Quiet step s l t) (start : I [] s)
    (keep : ∀ l t x u, I l t → step t x = .ok (none, u) → I (l ++ [x]) u) : I l t := by
  induction h with
  | nil => exact start
  | snoc _ hx ih => exact keep _ _ _ _ ih hx

/-- A state that loops: after the elements `front` of `l` it is `f front`. -/
theorem Quiet.loop (f : List α → σ)
    (h : ∀ front x, front ++ [x] <+: l → step (f front) x = .ok (none, f (front ++ [x]))) :
    Quiet step (f []) l (f l) := by
  induction l using List.reverseRecOn with
  | nil => exact .nil
  | append_singleton l x ih =>
    have past := ih fun front y hfront => h front y (hfront.trans (List.prefix_append _ _))
    exact past.snoc (h l x List.prefix_rfl)

/-- A state that loops once it has been entered: the first of the elements leads into it. -/
theorem Quiet.word (f : List α → σ) (hne : l ≠ []) (first : ∀ x, [x] <+: l → step s x = .ok (none, f [x]))
    (more : ∀ front x, front ≠ [] → front ++ [x] <+: l → step (f front) x = .ok (none, f (front ++ [x]))) :
    Quiet step s l (f l) := by
  obtain ⟨x, l, rfl⟩ := List.exists_cons_of_ne_nil hne
  have enter := first x ⟨l, rfl⟩
  refine .cons enter (Quiet.loop (fun front => f (x :: front)) fun front y hfront => ?_)
  exact more (x :: front) y (List.cons_ne_nil _ _) (List.prefix_cons_inj x |>.mpr hfront)

/-! ### What is fed -/

theorem feed_of_quiet (h : Quiet step s l t) (m : List α) : feed step s (l ++ m) = feed step t m := by
  induction h generalizing m with
  | nil => rfl
  | snoc _ hx ih => rw [List.append_assoc, List.singleton_append, ih, feed, hx]

theorem quiet_of_feed (h : feed step s l = .ok (none, rest, t)) : rest = [] ∧ Quiet step s l t := by
  induction l generalizing s with
  | nil =>
    cases h
    exact ⟨rfl, .nil⟩
  | cons x l ih =>
    rw [feed] at h
    cases hx : step s x with
    | error e => simp only [hx, reduceCtorEq] at h
    | ok r =>
      rcases r with ⟨_ | b, u⟩
      · rw [hx] at h
        obtain ⟨hrest, hq⟩ := ih h
        exact ⟨hrest, hq.cons hx⟩
      · simp only [hx, Except.ok.injEq, Prod.mk.injEq, reduceCtorEq, false_and] at h

theorem feed_eq_none_iff : feed step s l = .ok (none, rest, t) ↔ rest = [] ∧ Quiet step s l t := by
  refine ⟨quiet_of_feed, ?_⟩
  rintro ⟨rfl, h⟩
  have hfeed := feed_of_quiet h []
  rwa [List.append_nil] at hfeed

theorem feed_eq_some_iff : feed step s l = .ok (some b, rest, u) ↔
    ∃ front x t, l = front ++ x :: rest ∧ Quiet step s front t ∧ step t x = .ok (some b, u) := by
  constructor
  · intro h
    induction l generalizing s with
    | nil => cases h
    | cons x l ih =>
      rw [feed] at h
      cases hx : step s x with
      | error e => simp only [hx, reduceCtorEq] at h
      | ok r =>
        rcases r with ⟨_ | c, t⟩
        · rw [hx] at h
          obtain ⟨front, y, v, rfl, hq, hy⟩ := ih h
          exact ⟨x :: front, y, v, rfl, hq.cons hx, hy⟩
        · simp only [hx, Except.ok.injEq, Prod.mk.injEq, Option.some.injEq] at h
          obtain ⟨rfl, rfl, rfl⟩ := h
          exact ⟨[], x, s, rfl, .nil, hx⟩
  · rintro ⟨front, x, t, rfl, hq, hx⟩
    rw [feed_of_quiet hq, feed, hx]

theorem feed_eq_error_iff : feed step s l = .error e ↔
    ∃ front x rest t, l = front ++ x :: rest ∧ Quiet step s front t ∧ step t x = .error e := by
  constructor
  · intro h
    induction l generalizing s with
    | nil => cases h
    | cons x l ih =>
      rw [feed] at h
      cases hx : step s x with
      | error e' =>
        simp only [hx, Except.error.injEq] at h
        exact ⟨[], x, l, s, rfl, .nil, h ▸ hx⟩
      | ok r =>
        rcases r with ⟨_ | c, t⟩
        · rw [hx] at h
          obtain ⟨front, y, rest, v, rfl, hq, hy⟩ := ih h
          exact ⟨x :: front, y, rest, v, rfl, hq.cons hx, hy⟩
        · simp only [hx, reduceCtorEq] at h
  · rintro ⟨front, x, rest, t, rfl, hq, hx⟩
    rw [feed_of_quiet hq, feed, hx]

theorem Quiet.of_append (h : Quiet step s (l ++ m) u) : ∃ t, Quiet step s l t ∧ Quiet step t m u := by
  induction m using List.reverseRecOn generalizing u with
  | nil =>
    rw [List.append_nil] at h
    exact ⟨u, h, .nil⟩
  | append_singleton m x ih =>
    rw [← List.append_assoc] at h
    generalize hk : l ++ m ++ [x] = k at h
    cases h with
    | nil => simp at hk
    | snoc past hx =>
      obtain ⟨rfl, heq⟩ := List.append_inj' hk rfl
      cases heq
      obtain ⟨t, ht, hu⟩ := ih past
      exact ⟨t, ht, hu.snoc hx⟩

/-! ### All answers -/

/-- Hand all the elements over; after an answer the next element is taken in the state that it left. -/
def answers (step : σ → α → Except ε (Option β × σ)) : σ → List α → Except ε (List β × σ)
  | s, [] => .ok ([], s)
  | s, x :: l => do
    let (b, t) ← step s x
    let (bs, u) ← answers step t l
    return (b.toList ++ bs, u)

theorem answers_append (s : σ) (l m : List α) : answers step s (l ++ m) = (do
    let (bs, t) ← answers step s l
    let (cs, u) ← answers step t m
    return (bs ++ cs, u)) := by
  induction l generalizing s with
  | nil =>
    simp only [List.nil_append, answers, bind, Except.bind]
    rcases answers step s m with e | ⟨cs, u⟩ <;> rfl
  | cons x l ih =>
    rw [List.cons_append, answers, answers]
    rcases step s x with e | ⟨b, t⟩
    · rfl
    simp only [bind, Except.bind, ih]
    rcases answers step t l with e | ⟨bs, u⟩
    · rfl
    simp only [pure, Except.pure]
    rcases answers step u m with e | ⟨cs, v⟩
    · rfl
    simp only [List.append_assoc]

theorem answers_concat {bs : List β} (h : answers step s l = .ok (bs, t)) (x : α) :
    answers step s (l ++ [x]) = (step t x).map fun r => (bs ++ r.1.toList, r.2) := by
  rw [answers_append, h]
  simp only [answers, bind, Except.bind]
  rcases step t x with e | ⟨b, u⟩
  · rfl
  · simp only [pure, Except.pure, Except.map, List.append_nil]

theorem answers_of_quiet (h : Quiet step s l t) : answers step s l = .ok ([], t) := by
  induction h with
  | nil => rfl
  | snoc _ hx ih =>
    rw [answers_concat ih, hx]
    rfl

/-- The first answer, and those to the elements after it. -/
theorem answers_of_feed {bs : List β} (h : feed step s l = .ok (some b, rest, t))
    (hrest : answers step t rest = .ok (bs, u)) : answers step s l = .ok (b :: bs, u) := by
  obtain ⟨front, x, v, rfl, hq, hx⟩ := feed_eq_some_iff.mp h
  rw [answers_append, answers_of_quiet hq]
  simp only [answers, bind, Except.bind, hx, hrest, pure, Except.pure]
  rfl

theorem quiet_of_answers (h : answers step s l = .ok ([], t)) : Quiet step s l t := by
  induction l generalizing s with
  | nil =>
    cases h
    exact .nil
  | cons x l ih =>
    rw [answers] at h
    rcases hx : step s x with e | ⟨b, u⟩
    · rw [hx] at h
      cases h
    rw [hx] at h
    simp only [bind, Except.bind] at h
    rcases hl : answers step u l with e | ⟨bs, v⟩
    · rw [hl] at h
      cases h
    rw [hl] at h
    simp only [pure, Except.pure, Except.ok.injEq, Prod.mk.injEq, List.append_eq_nil_iff, Option.toList_eq_nil_iff] at h
    obtain ⟨⟨rfl, rfl⟩, rfl⟩ := h
    exact .cons hx (ih hl)

/-- All the answers up to any point are the first of all the answers. -/
theorem answers_of_append {bs : List β} (h : answers step s (l ++ m) = .ok (bs, u)) :
    ∃ front back t, answers step s l = .ok (front, t) ∧ answers step t m = .ok (back, u) ∧ front ++ back = bs := by
  rw [answers_append] at h
  rcases hl : answers step s l with e | ⟨front, t⟩
  · rw [hl] at h
    cases h
  · rw [hl] at h
    simp only [bind, Except.bind] at h
    rcases hm : answers step t m with e | ⟨back, v⟩
    · rw [hm] at h
      cases h
    · rw [hm] at h
      cases h
      exact ⟨front, back, t, rfl, hm, rfl⟩

end Incremental
