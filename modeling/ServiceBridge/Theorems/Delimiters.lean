import Mathlib.Algebra.Group.Int.Defs
import ServiceBridge.Library.Separate
import ServiceBridge.Theorems.Tokens

/-! `split_CSV_line` at any delimiter: its loop ends within the line, and it resumes one character after the
    start of each delimiter, so that the rest of a longer one goes into the next token. -/

namespace ServiceBridge
open Strip Separate

variable {line delimiter : Str} {s t : Scan}

/-! ### Bounds -/

/-- The last delimiter that was found starts in the line or at its end; before the first, `last` is -1. -/
structure InBounds (line : Str) (s : Scan) : Prop where
  low : -1 ≤ s.last
  high : s.last ≤ line.length

theorem InBounds.init : InBounds line ⟨-1, []⟩ where
  low := Int.le_refl _
  high := Int.le_trans (by decide) (Int.natCast_nonneg line.length)

/-- A pass moves on by at least one character. -/
theorem InBounds.pass (h : InBounds line s) (hs : scanPass line delimiter s = .ok (some t)) :
    InBounds line t ∧ line.length + 1 - (t.last + 1).toNat < line.length + 1 - (s.last + 1).toNat := by
  cases hf : line.find delimiter (s.last + 1).toNat with
  | none =>
    rw [scanPass_of_none hf] at hs
    cases hs
  | some curr =>
    rw [scanPass_of_some h.low hf] at hs
    cases hs
    obtain ⟨hlo, hhi, -⟩ := find_eq_some_iff.mp hf
    have low := h.low
    refine ⟨⟨?_, ?_⟩, ?_⟩
    · exact Int.le_trans (by decide) (Int.natCast_nonneg curr)
    · exact Int.ofNat_le.mpr hhi
    · simp only
      omega

/-- From any state of the loop there is a pass, or the loop is left. -/
theorem InBounds.progress (h : InBounds line s) :
    scanPass line delimiter s = .ok none ∨ ∃ t, scanPass line delimiter s = .ok (some t) ∧ InBounds line t ∧
      line.length + 1 - (t.last + 1).toNat < line.length + 1 - (s.last + 1).toNat := by
  cases hf : line.find delimiter (s.last + 1).toNat with
  | none => exact Or.inl (scanPass_of_none hf)
  | some curr =>
    have hs := scanPass_of_some h.low hf
    exact Or.inr ⟨_, hs, h.pass hs⟩

/-- After the loop at most one more item is stored. -/
theorem InBounds.rest (h : InBounds line s) :
    ∃ last, scanRest line s = .ok (s.scanVec ++ last) ∧ last.length ≤ 1 := by
  have low := h.low
  unfold scanRest
  by_cases hlt : s.last + 1 < (line.length : Int) - 1
  · rw [if_pos hlt, substr_of_le (by omega)]
    exact ⟨[_], rfl, Nat.le_refl _⟩
  · rw [if_neg hlt]
    exact ⟨[], congrArg Except.ok (List.append_nil _).symm, Nat.zero_le _⟩

/-- The arguments of `substr` in a pass that found `curr`: the start is in the line or at its end, and the
    subtraction, done in `size_t`, does not wrap. -/
structure SubstrFits (line : Str) (s : Scan) (curr : Nat) : Prop where
  nonneg : 0 ≤ s.last + 1
  start : s.last + 1 ≤ line.length
  count : 0 ≤ (curr : Int) - s.last - 1
  noWrap : line.length < 2 ^ 63 → (curr : Int) < 2 ^ 63 ∧
    ((curr : Int) - s.last - 1) % Str.sizeRange = (curr : Int) - s.last - 1

theorem InBounds.substrFits {curr : Nat} (h : InBounds line s)
    (hf : line.find delimiter (s.last + 1).toNat = some curr) : SubstrFits line s curr := by
  obtain ⟨hlo, hhi, -⟩ := find_eq_some_iff.mp hf
  have low := h.low
  have count : 0 ≤ (curr : Int) - s.last - 1 := by omega
  refine ⟨by omega, by omega, count, fun hlen => ⟨by omega, Int.emod_eq_of_lt count ?_⟩⟩
  have range : (Str.sizeRange : Int) = 2 ^ 64 := rfl
  omega

theorem exists_scan (line delimiter : Str) : ∃ s, Loop.run Fault.diverges (scanPass line delimiter)
    (line.length + 2) ⟨-1, []⟩ = .ok s ∧ InBounds line s ∧ scanPass line delimiter s = .ok none :=
  Loop.exists_run Fault.diverges _ (μ := fun s => line.length + 1 - (s.last + 1).toNat)
    (fun s (h : InBounds line s) => h.progress) InBounds.init (Nat.lt_succ_self _)

/-- At any delimiter, the empty one too, the loop makes at most one pass more than the line has characters, and
    ends; each `substr` starts in the line or at its end, with a count that does not wrap; and the function
    returns. -/
theorem scan_in_bounds (line delimiter : Str) (stripWS : Bool) :
    (∀ n s, Loop.Passes (scanPass line delimiter) ⟨-1, []⟩ n s → n ≤ line.length + 1 ∧
      (∀ curr, line.find delimiter (s.last + 1).toNat = some curr → SubstrFits line s curr) ∧
      (s.last + 1 < (line.length : Int) - 1 → 0 ≤ s.last + 1 ∧ s.last + 1 ≤ line.length)) ∧
    (∃ n s, Loop.Passes (scanPass line delimiter) ⟨-1, []⟩ n s ∧ scanPass line delimiter s = .ok none) ∧
    ∃ rtrnVec, splitCSVLine line delimiter stripWS = .ok rtrnVec := by
  obtain ⟨s, hrun, hs, leave⟩ := exists_scan line delimiter
  refine ⟨fun n t ht => ?_, ?_, ?_⟩
  · obtain ⟨bounds, hn⟩ := ht.bounded (I := InBounds line) (μ := fun s => line.length + 1 - (s.last + 1).toNat)
      (fun t u h hb => h.pass hb) InBounds.init
    have low := bounds.low
    refine ⟨Nat.le_trans (Nat.le_add_right _ _) hn, fun curr hf => bounds.substrFits hf, fun hlt => ?_⟩
    omega
  · obtain ⟨n, hn⟩ := Loop.Passes.exists_of_run hrun leave
    exact ⟨n, s, hn, leave⟩
  · obtain ⟨last, hrest, -⟩ := hs.rest
    refine ⟨tokens (s.scanVec ++ last), ?_⟩
    unfold splitCSVLine
    rw [hrun]
    exact (congrArg (· >>= stripItems) hrest).trans (stripItems_eq _)

/-! ### The text before the delimiters -/

/-- The loop has stored the text between the starts of the delimiters, up to the last one found. -/
structure Separated (line delimiter : Str) (s : Scan) : Prop extends InBounds line s where
  items : cuts delimiter [] line = s.scanVec ++ cuts delimiter [] (line.drop (s.last + 1).toNat)

theorem Separated.init : Separated line delimiter ⟨-1, []⟩ := ⟨.init, rfl⟩

/-- From `pos`, `find` passes over text in which no delimiter starts. -/
theorem find_splits {pos curr : Nat} (hf : line.find delimiter pos = some curr) :
    line.drop pos = (line.drop pos).take (curr - pos) ++ line.drop curr ∧
      FreeBefore delimiter ((line.drop pos).take (curr - pos)) (line.drop curr) := by
  obtain ⟨hlo, hhi, -, hmin⟩ := find_eq_some_iff.mp hf
  have split : line.drop pos = (line.drop pos).take (curr - pos) ++ line.drop curr := by
    conv_lhs => rw [← List.take_append_drop (curr - pos) (line.drop pos)]
    rw [List.drop_drop, Nat.add_sub_cancel' hlo]
  refine ⟨split, fun j hj hprefix => ?_⟩
  rw [← split, List.drop_drop] at hprefix
  rw [List.length_take] at hj
  exact hmin (pos + j) (Nat.le_add_right _ _) (by omega) hprefix

theorem not_isInfix_of_find_none {pos : Nat} (h : line.find delimiter pos = none) (hd : delimiter ≠ []) :
    ¬ delimiter <:+: line.drop pos := by
  rintro ⟨front, back, heq⟩
  have hlen := congrArg List.length heq
  have hpos := List.length_pos_iff.mpr hd
  rw [List.length_append, List.length_append, List.length_drop] at hlen
  refine find_eq_none_iff.mp h (pos + front.length) (Nat.le_add_right _ _) (by omega) ?_
  rw [← List.drop_drop, ← heq, List.append_assoc, List.drop_left]
  exact List.prefix_append _ _

theorem Separated.pass (hd : delimiter ≠ []) (h : Separated line delimiter s) :
    scanPass line delimiter s = .ok none ∨ ∃ t, scanPass line delimiter s = .ok (some t) ∧
      Separated line delimiter t ∧
      line.length + 1 - (t.last + 1).toNat < line.length + 1 - (s.last + 1).toNat := by
  cases hf : line.find delimiter (s.last + 1).toNat with
  | none => exact Or.inl (scanPass_of_none hf)
  | some curr =>
    have hs := scanPass_of_some h.low hf
    obtain ⟨bounds, lower⟩ := h.toInBounds.pass hs
    refine Or.inr ⟨_, hs, ⟨bounds, ?_⟩, lower⟩
    obtain ⟨split, free⟩ := find_splits hf
    have here := (find_eq_some_iff.mp hf).2.2.1
    have next : ((curr : Int) + 1).toNat = curr + 1 := by omega
    obtain ⟨c, rest, hrest⟩ := List.exists_cons_of_ne_nil fun hnil => hd (List.prefix_nil.mp (hnil ▸ here))
    have after : line.drop (curr + 1) = rest := by rw [← List.drop_drop, hrest, List.drop_one, List.tail_cons]
    have stored : cuts delimiter [] (line.drop (s.last + 1).toNat) =
        (line.drop (s.last + 1).toNat).take (curr - (s.last + 1).toNat) :: cuts delimiter [] rest := by
      conv_lhs => rw [split, cuts_append free, List.nil_append, hrest]
      rw [cuts, if_pos (hrest ▸ here)]
    rw [h.items, stored, next, after, List.append_assoc, List.singleton_append]

/-- The tokens that `split_CSV_line` makes of what its loop stores, the text that a delimiter follows. -/
def delimitedTokens (line delimiter : Str) (_stripWS : Bool) : Except Fault (List Str) := do
  let s ← Loop.run .diverges (scanPass line delimiter) (line.length + 2) ⟨-1, []⟩
  stripItems s.scanVec

theorem delimitedTokens_eq (hd : delimiter ≠ []) (stripWS : Bool) :
    delimitedTokens line delimiter stripWS = .ok (tokens (cuts delimiter [] line)) := by
  obtain ⟨s, hrun, hs, leave⟩ := Loop.exists_run Fault.diverges _ (n := line.length + 2)
    (μ := fun s => line.length + 1 - (s.last + 1).toNat)
    (fun s (h : Separated line delimiter s) => h.pass hd) Separated.init (Nat.lt_succ_self _)
  have none_left := not_isInfix_of_find_none (find_none_of_leave hs.low leave) hd
  unfold delimitedTokens
  rw [hrun, hs.items, cuts_eq_nil none_left, List.append_nil]
  exact stripItems_eq s.scanVec

/-- What `split_CSV_line` returns are these tokens and at most one more. -/
theorem splitCSVLine_eq_append (line delimiter : Str) (stripWS : Bool) : ∃ before last,
    delimitedTokens line delimiter stripWS = .ok before ∧
    splitCSVLine line delimiter stripWS = .ok (before ++ last) ∧ last.length ≤ 1 := by
  obtain ⟨s, hrun, hs, -⟩ := exists_scan line delimiter
  obtain ⟨last, hrest, hlen⟩ := hs.rest
  refine ⟨tokens s.scanVec, tokens last, ?_, ?_, ?_⟩
  · unfold delimitedTokens
    rw [hrun]
    exact stripItems_eq _
  · unfold splitCSVLine
    rw [hrun, ← tokens_append]
    exact (congrArg (· >>= stripItems) hrest).trans (stripItems_eq _)
  · unfold tokens
    exact Nat.le_trans (List.length_filter_le _ _) (by rw [List.length_map]; exact hlen)

/-- The stretches between the delimiters, trimmed if so asked, without the empty ones. -/
def stretchTokens (line delimiter : Str) (stripWS : Bool) : List Str :=
  if stripWS then tokens (stretches delimiter line) else (stretches delimiter line).filter (· ≠ [])

/-- No stretch starts or ends with white space. -/
def NoWhitespaceEnds (line delimiter : Str) : Prop := ∀ f ∈ stretches delimiter line,
  (∀ c ∈ f.head?, isWhitespace c = false) ∧ ∀ c ∈ f.getLast?, isWhitespace c = false

theorem tokens_cuts_eq_iff (hd : delimiter ≠ []) (stripWS : Bool) :
    tokens (cuts delimiter [] line) = stretchTokens line delimiter stripWS ↔
      (∀ c ∈ leaked delimiter 0 line, isWhitespace c = true) ∧
        (stripWS = false → NoWhitespaceEnds line delimiter) := by
  cases stripWS with
  | true => exact (kept_cuts_eq_iff hd).trans (and_iff_left nofun).symm
  | false =>
    refine (kept_cuts_eq_filter_iff hd).trans (and_congr_right fun _ => ?_)
    rw [forall_prop_of_true rfl]
    exact forall₂_congr fun f _ => strip_eq_self_iff

theorem leaked_of_tail (hd : delimiter ≠ []) (h : ∀ c ∈ delimiter.tail, isWhitespace c = true) :
    ∀ c ∈ leaked delimiter 0 line, isWhitespace c = true := by
  have none_left : delimiter.drop (delimiter.length - 0) <+: line := by
    rw [Nat.sub_zero, List.drop_length]
    exact List.nil_prefix
  exact fun c hc => h c (leaked_subset (List.length_pos_iff.mpr hd) none_left c hc)

/-- The tokens of the text before a delimiter are those of the stretches between the delimiters exactly if
    each character of a delimiter after its first that has a delimiter after it, but is not the start of one, is
    white space, and, where nothing is to be trimmed, no stretch starts or ends with white space. -/
theorem delimitedTokens_eq_iff (line delimiter : Str) (stripWS : Bool) (hd : delimiter ≠ []) : ∃ before last,
    delimitedTokens line delimiter stripWS = .ok before ∧
    splitCSVLine line delimiter stripWS = .ok (before ++ last) ∧ last.length ≤ 1 ∧
    (before = stretchTokens line delimiter stripWS ↔
      (∀ c ∈ leaked delimiter 0 line, isWhitespace c = true) ∧
        (stripWS = false → NoWhitespaceEnds line delimiter)) := by
  obtain ⟨before, last, hbefore, hsplit, hlast⟩ := splitCSVLine_eq_append line delimiter stripWS
  refine ⟨before, last, hbefore, hsplit, hlast, ?_⟩
  obtain rfl := Except.ok.inj (hbefore.symm.trans (delimitedTokens_eq hd stripWS))
  exact tokens_cuts_eq_iff hd stripWS

theorem delimitedTokens_eq_iff_comma : ∃ before last,
    delimitedTokens "a, b, c".toList ", ".toList true = .ok before ∧
    splitCSVLine "a, b, c".toList ", ".toList true = .ok (before ++ last) ∧ last.length ≤ 1 ∧
    before = stretchTokens "a, b, c".toList ", ".toList true := by
  obtain ⟨before, last, hbefore, hsplit, hlast, hiff⟩ :=
    delimitedTokens_eq_iff "a, b, c".toList ", ".toList true (List.cons_ne_nil _ _)
  have blank : ∀ c ∈ ", ".toList.tail, isWhitespace c = true := List.forall_mem_singleton.mpr rfl
  exact ⟨before, last, hbefore, hsplit, hlast, hiff.mpr ⟨leaked_of_tail (List.cons_ne_nil _ _) blank, nofun⟩⟩

/-- The second colon of a delimiter goes into the token after it; and the flag is not read. -/
theorem delimiter_in_token :
    (splitCSVLine "a::b::".toList "::".toList true = .ok ["a".toList, ":b".toList] ∧
      delimitedTokens "a::b::".toList "::".toList true = .ok ["a".toList, ":b".toList] ∧
      delimitedTokens "a::b::".toList "::".toList true ≠ .ok (stretchTokens "a::b::".toList "::".toList true)) ∧
    delimitedTokens " a,".toList ",".toList false = .ok ["a".toList] ∧
      delimitedTokens " a,".toList ",".toList false ≠ .ok (stretchTokens " a,".toList ",".toList false) := by
  have colons : delimitedTokens "a::b::".toList "::".toList true = .ok ["a".toList, ":b".toList] := by rfl
  have flag : delimitedTokens " a,".toList ",".toList false = .ok ["a".toList] := by rfl
  refine ⟨⟨by rfl, colons, ?_⟩, flag, ?_⟩
  · rw [colons]
    exact fun h => absurd (Except.ok.inj h) (by decide)
  · rw [flag]
    exact fun h => absurd (Except.ok.inj h) (by decide)

/-- With a delimiter of one character, or of one and white space after it, trimming makes up for it. -/
theorem delimitedTokens_of_tail (hd : delimiter ≠ []) (h : ∀ c ∈ delimiter.tail, isWhitespace c = true) :
    delimitedTokens line delimiter true = .ok (stretchTokens line delimiter true) := by
  rw [delimitedTokens_eq hd, (tokens_cuts_eq_iff hd true).mpr ⟨leaked_of_tail hd h, nofun⟩]

/-- With one character these are the tokens of the fields of the line, but for the last one. -/
theorem delimitedTokens_char (line : Str) (d : Char) :
    delimitedTokens line [d] true = .ok (tokens (line.splitOn d).dropLast) := by
  rw [delimitedTokens_of_tail (List.cons_ne_nil _ _) (List.forall_mem_nil _), ← stretches_singleton]
  rfl

end ServiceBridge
