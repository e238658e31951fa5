import ServiceBridge.Helper
import ServiceBridge.Library.Strip

/-! What `trim` and `split_CSV_line` compute, stated with lists: stripping both ends, and splitting at
    every comma. The last field of a line goes its own way (`lastKept`). -/

namespace ServiceBridge
open Strip

/-! ### trim -/

def isWhitespace (c : Char) : Bool := whitespace.contains c

theorem substr_of_le {s : Str} {pos : Nat} (h : pos ≤ s.length) (count : Nat) :
    s.substr pos count = .ok ((s.drop pos).take count) := by
  unfold Str.substr
  rw [if_pos h]

theorem ltrim_eq (s : Str) : ltrim s = .ok (s.dropWhile isWhitespace) := by
  unfold ltrim
  cases h : s.findFirstNotOf whitespace with
  | none =>
    have hall : s.dropWhile isWhitespace = [] := by
      rw [List.dropWhile_eq_nil_iff]
      intro c hc
      simpa [isWhitespace] using List.findIdx?_eq_none_iff.mp h c hc
    rw [hall]
  | some start =>
    obtain ⟨hlt, hidx⟩ := List.findIdx?_eq_some_iff_findIdx_eq.mp h
    show s.substr start s.length = _
    rw [substr_of_le hlt.le, List.dropWhile_eq_drop_findIdx_not]
    show _ = Except.ok (s.drop (s.findIdx fun c => !whitespace.contains c))
    rw [hidx, List.take_of_length_le (by rw [List.length_drop]; omega)]

theorem rtrim_eq (s : Str) : rtrim s = .ok (s.rdropWhile isWhitespace) := by
  unfold rtrim Str.findLastNotOf
  cases h : s.reverse.findIdx? fun c => !whitespace.contains c with
  | none =>
    have hall : s.rdropWhile isWhitespace = [] := by
      rw [List.rdropWhile_eq_nil_iff]
      intro c hc
      simpa [isWhitespace] using List.findIdx?_eq_none_iff.mp h c (List.mem_reverse.mpr hc)
    rw [hall]
    rfl
  | some k =>
    obtain ⟨hlt, hidx⟩ := List.findIdx?_eq_some_iff_findIdx_eq.mp h
    rw [List.length_reverse] at hlt
    show s.substr 0 (s.length - 1 - k + 1) = _
    rw [substr_of_le (Nat.zero_le _), List.rdropWhile, List.dropWhile_eq_drop_findIdx_not]
    show _ = Except.ok (s.reverse.drop (s.reverse.findIdx fun c => !whitespace.contains c)).reverse
    rw [hidx, List.drop_zero, List.drop_reverse, List.reverse_reverse]
    congr 2
    omega

theorem trim_eq (s : Str) : trim s = .ok (strip isWhitespace s) := by
  unfold trim
  rw [ltrim_eq]
  exact rtrim_eq _

theorem isWhitespace_iff {c : Char} : isWhitespace c = true ↔ c ∈ whitespace := List.contains_iff_mem

/-- `trim` removes white space at both ends, all that is there: what is left neither starts nor ends with it.
    So a second `trim` changes nothing, the ends can be trimmed in either order, and nothing is left exactly
    of a string of white space. -/
theorem trim_maximal (s : Str) : ∃ t, trim s = .ok t ∧
    (∃ p q, s = p ++ t ++ q ∧ (∀ c ∈ p, c ∈ whitespace) ∧ (∀ c ∈ q, c ∈ whitespace) ∧
      ∀ front, front <+: s → (∀ c ∈ front, c ∈ whitespace) → front <+: p) ∧
    (∀ c ∈ t.head?, c ∉ whitespace) ∧ (∀ c ∈ t.getLast?, c ∉ whitespace) ∧
    trim t = .ok t ∧
    (ltrim s >>= rtrim) = (rtrim s >>= ltrim) ∧
    (t = [] ↔ ∀ c ∈ s, c ∈ whitespace) := by
  simp only [← isWhitespace_iff, Bool.not_eq_true]
  refine ⟨strip isWhitespace s, trim_eq s, ⟨_, _, takeWhile_append_strip.symm, ?_, ?_, ?_⟩, head?_strip,
    getLast?_strip, ?_, ?_, strip_eq_nil_iff⟩
  · exact fun c hc => List.mem_takeWhile_imp hc
  · exact fun c hc => List.mem_rtakeWhile_imp hc
  · exact fun front hfront hall => isPrefix_takeWhile hfront hall
  · rw [trim_eq, strip_strip]
  · have left : (ltrim s >>= rtrim) = .ok (strip isWhitespace s) := trim_eq s
    rw [left, rtrim_eq, ← dropWhile_rdropWhile]
    exact (ltrim_eq _).symm

/-- The fields that are left of a list of fields: trimmed, without the blank ones. -/
def tokens (fields : List Str) : List Str := (fields.map (strip isWhitespace)).filter (· ≠ [])

theorem stripItems_eq (fields : List Str) : stripItems fields = .ok (tokens fields) := by
  have step : ∀ acc : List Str, fields.foldlM (fun rtrnVec item => do
      let token ← trim item
      return if token.length ≠ 0 then rtrnVec ++ [token] else rtrnVec) acc =
        (.ok (acc ++ tokens fields) : Except Fault (List Str)) := by
    induction fields with
    | nil => intro acc; simp [tokens, pure, Except.pure]
    | cons f fields ih =>
      intro acc
      rw [List.foldlM_cons, trim_eq]
      show List.foldlM _ (if (strip isWhitespace f).length ≠ 0 then _ else _) fields = _
      rw [ih]
      by_cases hf : strip isWhitespace f = []
      · simp [tokens, hf]
      · simp [tokens, hf]
  exact step []

theorem tokens_append (fields fields' : List Str) :
    tokens (fields ++ fields') = tokens fields ++ tokens fields' := by
  unfold tokens
  rw [List.map_append, List.filter_append]

theorem tokens_singleton_eq_iff {f g : Str} : tokens [f] = tokens [g] ↔
    strip isWhitespace f = strip isWhitespace g := by
  have one : ∀ l : Str, tokens [l] = if strip isWhitespace l = [] then [] else [strip isWhitespace l] := by
    intro l
    by_cases hl : strip isWhitespace l = [] <;> simp [tokens, hl]
  rw [one, one]
  by_cases hf : strip isWhitespace f = [] <;> by_cases hg : strip isWhitespace g = []
  · simp [hf, hg]
  · simp [hf, hg, Ne.symm hg]
  · simp [hf, hg]
  · simp [hf, hg]

/-! ### find -/

theorem find_eq_some_iff {s needle : Str} {pos i : Nat} : s.find needle pos = some i ↔
    pos ≤ i ∧ i ≤ s.length ∧ needle <+: s.drop i ∧ ∀ j, pos ≤ j → j < i → ¬ needle <+: s.drop j := by
  rw [Str.find, List.find?_range'_eq_some, List.mem_range'_1]
  simp only [List.isPrefixOf_iff_prefix, Bool.not_eq_eq_eq_not, Bool.not_true, Bool.eq_false_iff, ne_eq]
  constructor
  · rintro ⟨hp, ⟨hlo, hhi⟩, hmin⟩
    exact ⟨hlo, by omega, hp, hmin⟩
  · rintro ⟨hlo, hhi, hp, hmin⟩
    exact ⟨hp, ⟨hlo, by omega⟩, hmin⟩

theorem find_eq_none_iff {s needle : Str} {pos : Nat} :
    s.find needle pos = none ↔ ∀ i, pos ≤ i → i ≤ s.length → ¬ needle <+: s.drop i := by
  rw [Str.find, List.find?_range'_eq_none]
  simp only [Bool.not_eq_eq_eq_not, Bool.not_true, Bool.eq_false_iff, ne_eq, List.isPrefixOf_iff_prefix]
  exact ⟨fun h i hlo hhi => h i hlo (by omega), fun h i hlo hhi => h i hlo (by omega)⟩

theorem singleton_isPrefix_drop {s : Str} {d : Char} {i : Nat} : [d] <+: s.drop i ↔ s[i]? = some d := by
  rw [List.prefix_iff_eq_take, List.length_singleton, List.take_one, List.head?_drop]
  cases s[i]? with
  | none => simp
  | some c => simp [eq_comm]

theorem find_char_some {s : Str} {d : Char} {pos i : Nat} (h : s.find [d] pos = some i) :
    pos ≤ i ∧ i < s.length ∧ d ∉ (s.drop pos).take (i - pos) ∧
      s.drop pos = (s.drop pos).take (i - pos) ++ d :: s.drop (i + 1) := by
  obtain ⟨hlo, -, hp, hmin⟩ := find_eq_some_iff.mp h
  obtain ⟨hlt, hi⟩ := List.getElem?_eq_some_iff.mp (singleton_isPrefix_drop.mp hp)
  refine ⟨hlo, hlt, ?_, ?_⟩
  · intro hd
    obtain ⟨j, hj, hjd⟩ := List.mem_take_iff_getElem.mp hd
    rw [List.length_drop] at hj
    refine hmin (pos + j) (by omega) (by omega) (singleton_isPrefix_drop.mpr ?_)
    rw [← hjd, List.getElem_drop, List.getElem?_eq_getElem]
  · conv_lhs => rw [← List.take_append_drop (i - pos) (s.drop pos)]
    rw [List.drop_drop, show pos + (i - pos) = i by omega, List.drop_eq_getElem_cons hlt, hi]

theorem find_char_none {s : Str} {d : Char} {pos : Nat} (h : s.find [d] pos = none) : d ∉ s.drop pos := by
  intro hd
  obtain ⟨j, hj, hjd⟩ := List.mem_iff_getElem.mp hd
  rw [List.length_drop] at hj
  refine find_eq_none_iff.mp h (pos + j) (by omega) (by omega) (singleton_isPrefix_drop.mpr ?_)
  rw [← hjd, List.getElem_drop, List.getElem?_eq_getElem]

/-! ### A pass of the loop -/

section
variable {line delimiter : Str} {s : Scan} {curr : Nat}

theorem scanPass_of_some (low : -1 ≤ s.last) (h : line.find delimiter (s.last + 1).toNat = some curr) :
    scanPass line delimiter s = .ok (some ⟨curr, s.scanVec ++
      [(line.drop (s.last + 1).toNat).take (curr - (s.last + 1).toNat)]⟩) := by
  obtain ⟨hlo, hhi, -⟩ := find_eq_some_iff.mp h
  have len : ((curr : Int) - s.last - 1).toNat = curr - (s.last + 1).toNat := by omega
  unfold scanPass
  simp only [h, len, substr_of_le (Nat.le_trans hlo hhi)]
  rfl

theorem scanPass_of_none (h : line.find delimiter (s.last + 1).toNat = none) :
    scanPass line delimiter s = .ok none := by
  simp only [scanPass, h]

theorem find_none_of_leave (low : -1 ≤ s.last) (h : scanPass line delimiter s = .ok none) :
    line.find delimiter (s.last + 1).toNat = none := by
  cases hf : line.find delimiter (s.last + 1).toNat with
  | none => rfl
  | some curr =>
    rw [scanPass_of_some low hf] at h
    cases h

end

/-! ### split_CSV_line at a delimiter of one character -/

/-- What is kept of the last field `l`: nothing if it is shorter than two characters, and all but its last
    character if no field is before it. -/
def lastKept (before : List Str) (l : Str) : List Str :=
  if l.length < 2 then [] else if before = [] then [l.dropLast] else [l]

/-- The fields of a line that `split_CSV_line` strips. -/
def keptFields (fields : List Str) : List Str :=
  match fields.getLast? with
  | none => []
  | some l => fields.dropLast ++ lastKept fields.dropLast l

@[simp] theorem keptFields_concat (before : List Str) (l : Str) :
    keptFields (before ++ [l]) = before ++ lastKept before l := by
  simp [keptFields]

/-- The loop has stored the fields before position `last + 1`, and no others. -/
structure Scanned (line : Str) (d : Char) (s : Scan) : Prop where
  low : -1 ≤ s.last
  high : (s.last + 1).toNat ≤ line.length
  fields : line.splitOn d = s.scanVec ++ (line.drop (s.last + 1).toNat).splitOn d
  start : s.scanVec = [] ↔ s.last = -1

section Scan
variable {line : Str} {d : Char} {s : Scan}

theorem Scanned.init : Scanned line d ⟨-1, []⟩ where
  low := le_refl _
  high := Nat.zero_le _
  fields := rfl
  start := by simp

/-- A pass stores one more field; the loop is left where no delimiter follows. -/
theorem Scanned.pass (h : Scanned line d s) :
    scanPass line [d] s = .ok none ∨ ∃ t, scanPass line [d] s = .ok (some t) ∧ Scanned line d t ∧
      line.length - (t.last + 1).toNat < line.length - (s.last + 1).toNat := by
  cases hf : line.find [d] (s.last + 1).toNat with
  | none => exact Or.inl (scanPass_of_none hf)
  | some curr =>
    obtain ⟨hlo, hlt, hd, hsplit⟩ := find_char_some hf
    have next : ((curr : Int) + 1).toNat = curr + 1 := by omega
    refine Or.inr ⟨_, scanPass_of_some h.low hf, ⟨?_, ?_, ?_, ?_⟩, ?_⟩
    · show (-1 : Int) ≤ curr
      omega
    · show ((curr : Int) + 1).toNat ≤ _
      omega
    · show _ = _ ++ (line.drop ((curr : Int) + 1).toNat).splitOn d
      rw [h.fields, next, List.append_assoc, List.singleton_append,
        ← List.splitOn_append_cons_self_of_not_mem hd, ← hsplit]
    · show _ = [] ↔ (curr : Int) = -1
      exact ⟨fun hnil => by simp at hnil, fun hneg => by omega⟩
    · show line.length - ((curr : Int) + 1).toNat < _
      omega

theorem scanRest_eq (h : Scanned line d s) :
    scanRest line s = .ok (s.scanVec ++ lastKept s.scanVec (line.drop (s.last + 1).toNat)) := by
  have low := h.low
  have high := h.high
  have len : (line.drop (s.last + 1).toNat).length = line.length - (s.last + 1).toNat := List.length_drop
  unfold scanRest lastKept
  by_cases hlt : s.last + 1 < (line.length : Int) - 1
  · rw [if_pos hlt, if_neg (by omega), substr_of_le high]
    by_cases hnil : s.scanVec = []
    · have hlast := h.start.mp hnil
      rw [if_pos hnil, List.dropLast_eq_take, len]
      simp only [hlast, bind, Except.bind, pure, Except.pure]
      congr 4
      omega
    · have hlast : s.last ≠ -1 := fun hl => hnil (h.start.mpr hl)
      rw [if_neg hnil, List.take_of_length_le (by omega)]
      rfl
  · rw [if_neg hlt, if_pos (by omega), List.append_nil]
    rfl

end Scan

/-- `split_CSV_line` at the character `d`, whatever the flag: the fields between the occurrences of `d`,
    with the last one as `lastKept` leaves it, trimmed and without the blank ones. -/
theorem splitCSVLine_char (line : Str) (d : Char) (stripWS : Bool) :
    splitCSVLine line [d] stripWS = .ok (tokens (keptFields (line.splitOn d))) := by
  obtain ⟨s, hrun, hs, leave⟩ := Loop.exists_run Fault.diverges _ (n := line.length + 2)
    (μ := fun s => line.length - (s.last + 1).toNat) (fun s (h : Scanned line d s) => h.pass) Scanned.init
    (by omega)
  have rest : line.splitOn d = s.scanVec ++ [line.drop (s.last + 1).toNat] := by
    rw [hs.fields, List.splitOn_eq_singleton (find_char_none (find_none_of_leave hs.low leave))]
  unfold splitCSVLine
  rw [hrun]
  show (scanRest line s >>= stripItems) = _
  rw [scanRest_eq hs, rest, keptFields_concat]
  exact stripItems_eq _

/-! ### Against the plain split -/

/-- The last field keeps its token exactly if it is empty or ends in white space, or if it is not the only
    one and has two characters. -/
theorem tokens_lastKept_iff {before : List Str} {l : Str} : tokens (lastKept before l) = tokens [l] ↔
    (∀ c ∈ l.getLast?, isWhitespace c = true) ∨ before ≠ [] ∧ 2 ≤ l.length := by
  rcases List.eq_nil_or_concat' l with rfl | ⟨m, c, rfl⟩
  · exact iff_of_true rfl (Or.inl (by simp))
  · have last : (∀ x ∈ (m ++ [c]).getLast?, isWhitespace x = true) ↔ isWhitespace c = true := by simp
    have cut : tokens [m] = tokens [m ++ [c]] ↔ isWhitespace c = true := by
      rw [tokens_singleton_eq_iff, eq_comm, strip_concat_eq_iff]
    rw [last, lastKept, List.length_append, List.length_singleton]
    by_cases hshort : m.length + 1 < 2
    · obtain rfl : m = [] := List.length_eq_zero_iff.mp (by omega)
      rw [if_pos hshort, or_iff_left (by omega), ← cut]
      rfl
    · by_cases hb : before = []
      · rw [if_neg hshort, if_pos hb, List.dropLast_concat, cut, or_iff_left fun h => h.1 hb]
      · rw [if_neg hshort, if_neg hb]
        exact iff_of_true rfl (Or.inr ⟨hb, by omega⟩)

/-- What follows the last comma of a line. -/
def lastField (line : Str) : Str := line.rtakeWhile (· != ',')

theorem splitOn_eq_concat_lastField (line : Str) :
    ∃ before, line.splitOn ',' = before ++ [lastField line] ∧ (before ≠ [] ↔ ',' ∈ line) := by
  have hsplit : line.rdropWhile (· != ',') ++ lastField line = line := List.rdropWhile_append_rtakeWhile
  have hlast : ',' ∉ lastField line := fun hm => by simpa using List.mem_rtakeWhile_imp hm
  rcases List.eq_nil_or_concat' (line.rdropWhile (· != ',')) with hnil | ⟨m, c, hm⟩
  · rw [hnil, List.nil_append] at hsplit
    rw [hsplit] at hlast ⊢
    exact ⟨[], List.splitOn_eq_singleton hlast, iff_of_false (fun h => h rfl) hlast⟩
  · have hc : c = ',' := by
      have hne : line.rdropWhile (· != ',') ≠ [] := by simp [hm]
      simpa [hm] using List.rdropWhile_last_not _ _ hne
    rw [hm, hc, List.append_assoc, List.singleton_append] at hsplit
    refine ⟨m.splitOn ',', ?_, iff_of_true (List.splitOn_ne_nil _ _) ?_⟩
    · conv_lhs => rw [← hsplit]
      rw [List.splitOn_append_cons_self, List.splitOn_eq_singleton hlast]
    · rw [← hsplit]
      simp

/-- `split_CSV_line` returns the fields of a line, trimmed and without the blank ones, exactly if the line
    is empty or ends in a comma or white space, or has a comma and two characters after the last one. -/
theorem splitCSVLine_eq_tokens_iff (line : Str) :
    splitCSVLine line ",".toList true = .ok (tokens (line.splitOn ',')) ↔
      (∀ c ∈ line.getLast?, c = ',' ∨ isWhitespace c = true) ∨ ',' ∈ line ∧ 2 ≤ (lastField line).length := by
  obtain ⟨before, hfields, hbefore⟩ := splitOn_eq_concat_lastField line
  have ends : (∀ c ∈ (lastField line).getLast?, isWhitespace c = true) ↔
      ∀ c ∈ line.getLast?, c = ',' ∨ isWhitespace c = true := by
    unfold lastField
    rcases List.eq_nil_or_concat' line with rfl | ⟨m, c, rfl⟩
    · simp
    · by_cases hc : c = ',' <;> simp [hc]
  have split : splitCSVLine line ",".toList true = .ok (tokens (keptFields (line.splitOn ','))) :=
    splitCSVLine_char line ',' true
  rw [split, Except.ok.injEq, hfields, keptFields_concat, tokens_append, tokens_append, List.append_cancel_left_eq,
    tokens_lastKept_iff, hbefore, ends]

theorem splitCSVLine_loses_last : splitCSVLine "a,b".toList ",".toList true = .ok ["a".toList] ∧
    splitCSVLine "a,b".toList ",".toList true ≠ .ok (tokens ("a,b".toList.splitOn ',')) := by
  have h : splitCSVLine "a,b".toList ",".toList true = .ok ["a".toList] := by rfl
  exact ⟨h, by rw [h]; decide⟩

end ServiceBridge
