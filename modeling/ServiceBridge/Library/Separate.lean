import Mathlib.Data.List.Infix
import ServiceBridge.Library.Strip

/-! Lists that are separated by the occurrences of another list: by those that follow one another without
    overlapping, or, resuming one element after each, by all of them. -/

namespace Separate
open Strip

variable {α : Type*} {d l f : List α} {k : Nat}

theorem not_isInfix_cons {x : α} (h : ¬ d <:+: x :: l) : ¬ d <+: x :: l ∧ ¬ d <:+: l :=
  not_or.mp fun hor => h (List.infix_cons_iff.mpr hor)

/-- No occurrence starts inside `f` when `l` follows it. -/
def FreeBefore (d f l : List α) : Prop := ∀ j < f.length, ¬ d <+: (f ++ l).drop j

theorem FreeBefore.of_cons {x : α} (h : FreeBefore d (x :: f) l) : ¬ d <+: x :: (f ++ l) ∧ FreeBefore d f l :=
  ⟨h 0 (Nat.zero_lt_succ _), fun j hj => h (j + 1) (Nat.succ_lt_succ hj)⟩

theorem FreeBefore.of_not_mem {x : α} (h : x ∉ f) : FreeBefore [x] f l := by
  intro j hj hprefix
  rw [List.drop_append_of_le_length hj.le, List.drop_eq_getElem_cons hj] at hprefix
  obtain ⟨rfl, -⟩ := List.cons_prefix_cons.mp hprefix
  exact h (List.getElem_mem hj)

variable [DecidableEq α]

/-! ### Two ways to separate -/

/-- `cuts d acc l` are the stretches of `acc ++ l` before the occurrences of `d` in `l`, overlapping ones too:
    after an occurrence the next stretch starts at its second element. -/
def cuts (d : List α) : List α → List α → List (List α)
  | _, [] => []
  | acc, x :: l => if d <+: x :: l then acc :: cuts d [] l else cuts d (acc ++ [x]) l

/-- The stretches strictly between successive occurrences of `d`, each searched for after the end of the one
    before: `k` elements of that one are still to be passed over, and `acc` follows it. -/
def between (d : List α) : Nat → List α → List α → List (List α)
  | _, _, [] => []
  | k + 1, acc, _ :: l => between d k acc l
  | 0, acc, x :: l => if d <+: x :: l then acc :: between d (d.length - 1) [] l else between d 0 (acc ++ [x]) l

def stretches (d l : List α) : List (List α) := between d 0 [] l

/-- The elements inside the occurrences that `between` goes by, after the first, which are not the start of an
    occurrence themselves and have some occurrence after them. -/
def leaked (d : List α) : Nat → List α → List α
  | _, [] => []
  | k + 1, x :: l => if d <+: x :: l then leaked d k l else if d <:+: l then x :: leaked d k l else []
  | 0, x :: l => if d <+: x :: l then leaked d (d.length - 1) l else leaked d 0 l

/-! ### Where no occurrence is left -/

theorem cuts_eq_nil (h : ¬ d <:+: l) (acc : List α) : cuts d acc l = [] := by
  induction l generalizing acc with
  | nil => rfl
  | cons x l ih =>
    obtain ⟨hx, hl⟩ := not_isInfix_cons h
    rw [cuts, if_neg hx, ih hl]

theorem between_eq_nil (h : ¬ d <:+: l) (k : Nat) (acc : List α) : between d k acc l = [] := by
  induction l generalizing k acc with
  | nil => rfl
  | cons x l ih =>
    obtain ⟨hx, hl⟩ := not_isInfix_cons h
    cases k with
    | zero => rw [between, if_neg hx, ih hl]
    | succ k => rw [between, ih hl]

/-! ### Up to the next occurrence -/

theorem cuts_append (h : FreeBefore d f l) (acc : List α) : cuts d acc (f ++ l) = cuts d (acc ++ f) l := by
  induction f generalizing acc with
  | nil => rw [List.append_nil, List.nil_append]
  | cons x f ih =>
    obtain ⟨hx, hf⟩ := h.of_cons
    rw [List.cons_append, cuts, if_neg hx, ih hf, List.append_assoc, List.singleton_append]

theorem between_append (h : FreeBefore d f l) (acc : List α) :
    between d 0 acc (f ++ l) = between d 0 (acc ++ f) l := by
  induction f generalizing acc with
  | nil => rw [List.append_nil, List.nil_append]
  | cons x f ih =>
    obtain ⟨hx, hf⟩ := h.of_cons
    rw [List.cons_append, between, if_neg hx, ih hf, List.append_assoc, List.singleton_append]

theorem between_skip (acc : List α) : between d f.length acc (f ++ l) = between d 0 acc l := by
  induction f with
  | nil => rfl
  | cons x f ih => rw [List.length_cons, List.cons_append, between, ih]

/-- The stretch before the first occurrence, and the stretches after its end. -/
theorem stretches_first (hd : d ≠ []) (h : FreeBefore d f (d ++ l)) :
    stretches d (f ++ (d ++ l)) = f :: stretches d l := by
  obtain ⟨x, d', rfl⟩ := List.exists_cons_of_ne_nil hd
  have first : x :: d' <+: x :: (d' ++ l) := List.prefix_append (x :: d') l
  rw [stretches, between_append h, List.nil_append, List.cons_append, between, if_pos first]
  exact congrArg (f :: ·) (between_skip [])

theorem stretches_eq_nil (h : ¬ d <:+: l) : stretches d l = [] := between_eq_nil h 0 []

/-- What a single element separates are the parts of a split, but for the last one. -/
theorem stretches_singleton (x : α) (l : List α) : stretches [x] l = (l.splitOn x).dropLast := by
  induction hn : l.length using Nat.strong_induction_on generalizing l with
  | _ n ih =>
    by_cases hx : x ∈ l
    · obtain ⟨f, rest, rfl, hf⟩ := List.eq_append_cons_of_mem hx
      have shorter : rest.length < n := by
        rw [← hn, List.length_append, List.length_cons]
        omega
      rw [List.splitOn_append_cons_self_of_not_mem hf, List.dropLast_cons_of_ne_nil (List.splitOn_ne_nil _ _),
        ← ih _ shorter rest rfl]
      exact stretches_first (List.cons_ne_nil _ _) (.of_not_mem hf)
    · rw [stretches_eq_nil ((List.singleton_infix_iff x l).not.mpr hx), List.splitOn_eq_singleton hx]
      rfl

/-! ### What leaks -/

/-- Only elements of `d` after its first leak: the `k` elements that are passed over are the last ones of `d`. -/
theorem leaked_subset (hk : k < d.length) (h : d.drop (d.length - k) <+: l) : ∀ x ∈ leaked d k l, x ∈ d.tail := by
  have later : ∀ {x : α} {l : List α}, d <+: x :: l → d.drop (d.length - (d.length - 1)) <+: l := by
    intro x l hx
    rw [show d.length - (d.length - 1) = 1 by omega]
    exact hx.drop 1
  induction l generalizing k with
  | nil => exact List.forall_mem_nil _
  | cons x l ih =>
    by_cases hx : d <+: x :: l
    · cases k with
      | zero =>
        rw [leaked, if_pos hx]
        exact ih (by omega) (later hx)
      | succ k =>
        rw [leaked, if_pos hx]
        refine ih (by omega) ?_
        have tail := h.drop 1
        rwa [List.drop_drop, show d.length - (k + 1) + 1 = d.length - k by omega] at tail
    · cases k with
      | zero =>
        rw [leaked, if_neg hx]
        exact ih hk (by rw [Nat.sub_zero, List.drop_length]; exact List.nil_prefix)
      | succ k =>
        rw [leaked, if_neg hx]
        have hlt : d.length - (k + 1) < d.length := by omega
        rw [List.drop_eq_getElem_cons hlt] at h
        obtain ⟨rfl, tail⟩ := List.cons_prefix_cons.mp h
        split
        · refine List.forall_mem_cons.mpr ⟨?_, ih (by omega) ?_⟩
          · rw [← List.drop_one]
            exact List.mem_drop_iff_getElem.mpr ⟨d.length - (k + 1) - 1, by omega, by congr 1; omega⟩
          · rwa [show d.length - (k + 1) + 1 = d.length - k by omega] at tail
        · exact List.forall_mem_nil _

/-! ### What the cuts leave when they are stripped -/

section
variable {p : α → Bool} {w acc : List α}

/-- If only elements that are stripped leak, the cuts and the stretches keep the same. Before the next
    occurrence a cut is a stretch with what has leaked in front of it. -/
theorem kept_cuts (hleaked : ∀ x ∈ leaked d k l, p x = true) (hw : ∀ x ∈ w, p x = true) (hacc : k ≠ 0 → acc = []) :
    kept p (cuts d (w ++ acc) l) = kept p (between d k acc l) := by
  induction l generalizing k w acc with
  | nil => rfl
  | cons x l ih =>
    by_cases hx : d <+: x :: l
    · cases k with
      | zero =>
        rw [leaked, if_pos hx] at hleaked
        rw [cuts, between, if_pos hx, if_pos hx]
        exact kept_cons_congr (strip_append_of_forall hw) (ih (w := []) hleaked nofun fun _ => rfl)
      | succ k =>
        obtain rfl := hacc (Nat.succ_ne_zero k)
        rw [leaked, if_pos hx] at hleaked
        have gone : strip p (w ++ []) = [] := strip_append_of_forall hw
        rw [cuts, between, if_pos hx, kept_cons_of_nil gone]
        exact ih (w := []) hleaked nofun fun _ => rfl
    · cases k with
      | zero =>
        rw [leaked, if_neg hx] at hleaked
        rw [cuts, between, if_neg hx, if_neg hx, List.append_assoc]
        exact ih hleaked hw fun h => absurd rfl h
      | succ k =>
        obtain rfl := hacc (Nat.succ_ne_zero k)
        by_cases hl : d <:+: l
        · rw [leaked, if_neg hx, if_pos hl] at hleaked
          obtain ⟨hpx, hleaked⟩ := List.forall_mem_cons.mp hleaked
          rw [cuts, between, if_neg hx, List.append_nil, ← List.append_nil (w ++ [x])]
          exact ih hleaked (List.forall_mem_append.mpr ⟨hw, List.forall_mem_singleton.mpr hpx⟩) fun _ => rfl
        · rw [cuts, between, if_neg hx, cuts_eq_nil hl, between_eq_nil hl]

/-- The cuts hold what the stretches hold, and what leaks. -/
theorem countP_cuts (hd : d ≠ []) (q : α → Bool) (hacc : k ≠ 0 → acc = []) :
    (cuts d (w ++ acc) l).flatten.countP q =
      (between d k acc l).flatten.countP q + (leaked d k l).countP q + if d <:+: l then w.countP q else 0 := by
  induction l generalizing k w acc with
  | nil => rw [if_neg fun h => hd (List.infix_nil.mp h)]; rfl
  | cons x l ih =>
    by_cases hx : d <+: x :: l
    · rw [if_pos hx.isInfix]
      cases k with
      | zero =>
        have rest := @ih (d.length - 1) [] [] fun _ => rfl
        rw [List.nil_append, List.countP_nil, ite_self] at rest
        rw [cuts, between, leaked, if_pos hx, if_pos hx, if_pos hx, List.flatten_cons, List.flatten_cons,
          List.countP_append, List.countP_append, List.countP_append, rest]
        omega
      | succ k =>
        obtain rfl := hacc (Nat.succ_ne_zero k)
        have rest := @ih k [] [] fun _ => rfl
        rw [List.nil_append, List.countP_nil, ite_self] at rest
        rw [cuts, between, leaked, if_pos hx, if_pos hx, List.flatten_cons, List.countP_append, List.append_nil, rest]
        omega
    · have later : d <:+: x :: l ↔ d <:+: l := by rw [List.infix_cons_iff, or_iff_right hx]
      cases k with
      | zero =>
        rw [cuts, between, leaked, if_neg hx, if_neg hx, if_neg hx, List.append_assoc, ih fun h => absurd rfl h]
        simp only [later]
      | succ k =>
        obtain rfl := hacc (Nat.succ_ne_zero k)
        by_cases hl : d <:+: l
        · have rest := @ih k (w ++ [x]) [] fun _ => rfl
          rw [List.append_nil, if_pos hl, List.countP_append, List.countP_singleton] at rest
          rw [cuts, between, leaked, if_neg hx, if_neg hx, if_pos hl, if_pos (later.mpr hl), List.append_nil, rest,
            List.countP_cons]
          omega
        · rw [cuts, between, leaked, if_neg hx, if_neg hx, if_neg hl, if_neg (mt later.mp hl), cuts_eq_nil hl,
            between_eq_nil hl]
          rfl

theorem leaked_of_countP (hd : d ≠ [])
    (h : (cuts d [] l).flatten.countP (fun x => !p x) = (stretches d l).flatten.countP fun x => !p x) :
    ∀ x ∈ leaked d 0 l, p x = true := by
  have count := @countP_cuts _ d l 0 _ [] [] hd (fun x => !p x) fun _ => rfl
  rw [List.append_nil, List.countP_nil, ite_self, Nat.add_zero, h] at count
  have none : (leaked d 0 l).countP (fun x => !p x) = 0 := by
    unfold stretches at count
    omega
  intro x hx
  simpa using List.countP_eq_zero.mp none x hx

theorem kept_cuts_eq_iff (hd : d ≠ []) :
    kept p (cuts d [] l) = kept p (stretches d l) ↔ ∀ x ∈ leaked d 0 l, p x = true := by
  constructor
  · intro h
    refine leaked_of_countP hd ?_
    rw [← countP_flatten_kept, h, countP_flatten_kept]
  · intro h
    exact kept_cuts (w := []) h nofun fun _ => rfl

theorem kept_cuts_eq_filter_iff (hd : d ≠ []) : kept p (cuts d [] l) = (stretches d l).filter (· ≠ []) ↔
    (∀ x ∈ leaked d 0 l, p x = true) ∧ ∀ f ∈ stretches d l, strip p f = f := by
  constructor
  · intro h
    have hleaked : ∀ x ∈ leaked d 0 l, p x = true := by
      refine leaked_of_countP hd ?_
      rw [← countP_flatten_kept, h, flatten_filter_ne_nil]
    rw [(kept_cuts_eq_iff hd).mpr hleaked] at h
    exact ⟨hleaked, kept_eq_filter_iff.mp h⟩
  · rintro ⟨hleaked, hstrip⟩
    rw [(kept_cuts_eq_iff hd).mpr hleaked, kept_eq_filter_iff.mpr hstrip]

end

end Separate
