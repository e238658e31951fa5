import Mathlib.Data.List.DropRight
import Mathlib.Data.List.Induction
import Mathlib.Data.List.TakeWhile

/-! Stripping a list at both ends of the elements that satisfy a predicate. -/

namespace Strip

variable {α : Type*} {p : α → Bool} {l : List α}

/-- `l` without its longest ends on which `p` holds. -/
def strip (p : α → Bool) (l : List α) : List α := (l.dropWhile p).rdropWhile p

theorem strip_eq_nil_iff : strip p l = [] ↔ ∀ x ∈ l, p x = true := by
  rw [strip, List.rdropWhile_eq_nil_iff]
  constructor
  · intro h x hx
    rw [← List.takeWhile_append_dropWhile (p := p) (l := l)] at hx
    rcases List.mem_append.mp hx with hx | hx
    · exact List.mem_takeWhile_imp hx
    · exact h x hx
  · exact fun h x hx => h x ((List.dropWhile_sublist p).subset hx)

theorem strip_eq_self (head : ∀ x ∈ l.head?, p x = false) (last : ∀ x ∈ l.getLast?, p x = false) :
    strip p l = l := by
  have left : l.dropWhile p = l := by
    rw [List.dropWhile_eq_self_iff]
    intro hl
    rw [head _ (by rw [← List.head_eq_getElem (List.ne_nil_of_length_pos hl)]; exact List.head?_eq_some_head _)]
    exact Bool.false_ne_true
  rw [strip, left, List.rdropWhile_eq_self_iff]
  intro hl
  rw [last _ (List.getLast?_eq_some_getLast hl)]
  exact Bool.false_ne_true

theorem strip_eq_self_of_forall (h : ∀ x ∈ l, p x = false) : strip p l = l :=
  strip_eq_self (fun x hx => h x (List.mem_of_mem_head? hx)) fun x hx => h x (List.mem_of_mem_getLast? hx)

/-- The first element that is left fails `p`. -/
theorem head?_strip : ∀ x ∈ (strip p l).head?, p x = false := by
  intro x hx
  obtain ⟨rest, hrest⟩ := List.rdropWhile_prefix p (l.dropWhile p)
  have hx' : x ∈ (l.dropWhile p).head? := by
    rw [← hrest, List.head?_append, show ((l.dropWhile p).rdropWhile p).head? = some x from hx]
    rfl
  have first := List.head?_dropWhile_not p l
  rw [show (l.dropWhile p).head? = some x from hx'] at first
  exact first

theorem dropWhile_concat_of_not {x : α} (h : ¬ p x) : (l ++ [x]).dropWhile p = l.dropWhile p ++ [x] := by
  rw [List.dropWhile_append]
  split
  · rename_i hnil
    rw [List.isEmpty_iff.mp hnil, List.dropWhile_cons_of_neg h, List.nil_append]
  · rfl

/-- A last element is stripped exactly if it satisfies `p`. -/
theorem strip_concat_eq_iff {x : α} : strip p (l ++ [x]) = strip p l ↔ p x = true := by
  by_cases h : p x = true
  · refine iff_of_true ?_ h
    unfold strip
    rw [List.dropWhile_append]
    split
    · rename_i hnil
      rw [List.isEmpty_iff.mp hnil, List.dropWhile_cons_of_pos h, List.dropWhile_nil]
    · exact List.rdropWhile_concat_pos p _ x h
  · refine iff_of_false (fun heq => ?_) h
    have hlen := congrArg List.length heq
    have hle := (List.rdropWhile_prefix p (l.dropWhile p)).length_le
    unfold strip at hlen
    rw [dropWhile_concat_of_not h, List.rdropWhile_concat_neg p _ x h, List.length_append,
      List.length_singleton] at hlen
    omega

theorem getLast?_strip : ∀ x ∈ (strip p l).getLast?, p x = false := by
  intro x hx
  have hne : strip p l ≠ [] := by
    rintro hnil
    rw [hnil] at hx
    cases hx
  rw [List.getLast?_eq_some_getLast hne] at hx
  obtain rfl := Option.some.inj hx
  exact Bool.eq_false_iff.mpr (List.rdropWhile_last_not p _ hne)

theorem strip_eq_self_iff : strip p l = l ↔
    (∀ x ∈ l.head?, p x = false) ∧ ∀ x ∈ l.getLast?, p x = false := by
  constructor
  · intro h
    rw [← h]
    exact ⟨head?_strip, getLast?_strip⟩
  · exact fun h => strip_eq_self h.1 h.2

theorem strip_strip : strip p (strip p l) = strip p l := strip_eq_self head?_strip getLast?_strip

/-- The two ends can be dropped in either order. -/
theorem dropWhile_rdropWhile : (l.rdropWhile p).dropWhile p = strip p l := by
  induction l using List.reverseRecOn with
  | nil => rfl
  | append_singleton l x ih =>
    by_cases h : p x = true
    · rw [List.rdropWhile_concat_pos p l x h, ih, strip_concat_eq_iff.mpr h]
    · rw [List.rdropWhile_concat_neg p l x h, strip, dropWhile_concat_of_not h, List.rdropWhile_concat_neg p _ x h]

/-- What is dropped at the ends satisfies `p`. -/
theorem takeWhile_append_strip : l.takeWhile p ++ strip p l ++ (l.dropWhile p).rtakeWhile p = l := by
  rw [List.append_assoc, strip, List.rdropWhile_append_rtakeWhile, List.takeWhile_append_dropWhile]

theorem isPrefix_takeWhile {front : List α} (h : front <+: l) (hfront : ∀ x ∈ front, p x = true) :
    front <+: l.takeWhile p := by
  obtain ⟨rest, rfl⟩ := h
  rw [List.takeWhile_append_of_pos hfront]
  exact List.prefix_append _ _

theorem strip_append_of_forall {front : List α} (h : ∀ x ∈ front, p x = true) : strip p (front ++ l) = strip p l := by
  rw [strip, List.dropWhile_append_of_pos h, strip]

theorem length_strip_le : (strip p l).length ≤ l.length :=
  Nat.le_trans (List.rdropWhile_prefix p _).length_le (List.dropWhile_sublist p).length_le

theorem strip_eq_self_of_length (h : (strip p l).length = l.length) : strip p l = l :=
  ((List.rdropWhile_prefix p _).sublist.trans (List.dropWhile_sublist p)).eq_of_length h

/-- Stripping takes nothing away but what satisfies `p`. -/
theorem countP_strip : (strip p l).countP (fun x => !p x) = l.countP fun x => !p x := by
  have front : (l.takeWhile p).countP (fun x => !p x) = 0 :=
    List.countP_eq_zero.mpr fun x hx => by simp [List.mem_takeWhile_imp hx]
  have back : ((l.dropWhile p).rtakeWhile p).countP (fun x => !p x) = 0 :=
    List.countP_eq_zero.mpr fun x hx => by simp [List.mem_rtakeWhile_imp hx]
  conv_rhs => rw [← takeWhile_append_strip (p := p) (l := l)]
  rw [List.countP_append, List.countP_append, front, back, Nat.zero_add, Nat.add_zero]

/-! ### Lists of lists -/

/-- The items, stripped, without those of which nothing is left. -/
def kept (p : α → Bool) (items : List (List α)) : List (List α) := (items.map (strip p)).filter (· ≠ [])

variable {items : List (List α)} {f : List α}

theorem kept_cons_of_nil (h : strip p f = []) : kept p (f :: items) = kept p items := by
  rw [kept, List.map_cons, List.filter_cons_of_neg (by simp [h]), kept]

theorem kept_cons_of_ne (h : strip p f ≠ []) : kept p (f :: items) = strip p f :: kept p items := by
  rw [kept, List.map_cons, List.filter_cons_of_pos (by simp [h]), kept]

theorem kept_cons_congr {g : List α} {items' : List (List α)} (h : strip p f = strip p g)
    (hitems : kept p items = kept p items') : kept p (f :: items) = kept p (g :: items') := by
  by_cases hf : strip p f = []
  · rw [kept_cons_of_nil hf, kept_cons_of_nil (h ▸ hf), hitems]
  · rw [kept_cons_of_ne hf, kept_cons_of_ne (h ▸ hf), h, hitems]

theorem flatten_kept_cons : (kept p (f :: items)).flatten = strip p f ++ (kept p items).flatten := by
  by_cases hf : strip p f = []
  · rw [kept_cons_of_nil hf, hf, List.nil_append]
  · rw [kept_cons_of_ne hf, List.flatten_cons]

theorem countP_flatten_kept :
    (kept p items).flatten.countP (fun x => !p x) = items.flatten.countP fun x => !p x := by
  induction items with
  | nil => rfl
  | cons f items ih =>
    rw [flatten_kept_cons, List.flatten_cons, List.countP_append, List.countP_append, countP_strip, ih]

theorem length_flatten_kept_le : (kept p items).flatten.length ≤ items.flatten.length := by
  induction items with
  | nil => exact Nat.le_refl _
  | cons f items ih =>
    rw [flatten_kept_cons, List.flatten_cons, List.length_append, List.length_append]
    exact Nat.add_le_add length_strip_le ih

theorem strip_eq_self_of_kept (h : (kept p items).flatten.length = items.flatten.length) :
    ∀ f ∈ items, strip p f = f := by
  induction items with
  | nil => exact List.forall_mem_nil _
  | cons f items ih =>
    rw [flatten_kept_cons, List.flatten_cons, List.length_append, List.length_append] at h
    have hf := @length_strip_le _ p f
    have hitems := @length_flatten_kept_le _ p items
    exact List.forall_mem_cons.mpr ⟨strip_eq_self_of_length (by omega), ih (by omega)⟩

theorem flatten_filter_ne_nil : (items.filter (· ≠ [])).flatten = items.flatten := by
  induction items with
  | nil => rfl
  | cons f items ih =>
    by_cases hf : f = []
    · rw [List.filter_cons_of_neg (by simp [hf]), ih, hf, List.flatten_cons, List.nil_append]
    · rw [List.filter_cons_of_pos (by simp [hf]), List.flatten_cons, List.flatten_cons, ih]

/-- Stripping changes nothing exactly if no item has anything to strip. -/
theorem kept_eq_filter_iff : kept p items = items.filter (· ≠ []) ↔ ∀ f ∈ items, strip p f = f := by
  constructor
  · intro h
    exact strip_eq_self_of_kept (by rw [h, flatten_filter_ne_nil])
  · intro h
    rw [kept, List.map_congr_left h, List.map_id']

end Strip
