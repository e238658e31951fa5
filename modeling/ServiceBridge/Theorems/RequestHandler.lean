import ServiceBridge.Theorems.Tokens
import ServiceBridge.Theorems.UrlDecode

/-! The reply to any request: which of the three it is, and all that it says of the file. -/

namespace ServiceBridge

variable {s : Str} {c x : Char} {k : Nat}

/-! ### find_last_of -/

theorem findLastOf_concat : Str.findLastOf (s ++ [x]) [c] = if x = c then some s.length else s.findLastOf [c] := by
  rw [Str.findLastOf, List.reverse_concat, List.findIdx?_cons]
  by_cases hx : x = c
  · simp [hx]
  · simp only [List.contains_cons, hx, beq_iff_eq, List.contains_nil, Bool.or_false, if_false, Str.findLastOf,
      Option.map_map]
    congr 1
    funext n
    simp only [Function.comp, List.length_append, List.length_singleton]
    omega

theorem of_findLastOf_some (h : s.findLastOf [c] = some k) :
    ∃ front back, s = front ++ [c] ++ back ∧ c ∉ back ∧ front.length = k := by
  induction s using List.reverseRecOn with
  | nil => cases h
  | append_singleton l x ih =>
    rw [findLastOf_concat] at h
    by_cases hx : x = c
    · rw [if_pos hx] at h
      exact ⟨l, [], by rw [hx, List.append_nil], List.not_mem_nil, Option.some.inj h⟩
    · rw [if_neg hx] at h
      obtain ⟨front, back, rfl, hback, hk⟩ := ih h
      refine ⟨front, back ++ [x], by simp, ?_, hk⟩
      simpa [hback] using Ne.symm hx

theorem of_findLastOf_none (h : s.findLastOf [c] = none) : c ∉ s := by
  induction s using List.reverseRecOn with
  | nil => exact List.not_mem_nil
  | append_singleton l x ih =>
    rw [findLastOf_concat] at h
    by_cases hx : x = c
    · rw [if_pos hx] at h
      cases h
    · rw [if_neg hx] at h
      simpa [ih h] using Ne.symm hx

/-- An end of a string without `c` lies behind every `c`. -/
theorem suffix_of_not_mem {front back tail : Str} (htail : tail <:+ front ++ [c] ++ back) (hc : c ∉ tail) :
    tail <:+ back := by
  have hback : back <:+ front ++ [c] ++ back := List.suffix_append _ _
  rcases le_or_gt tail.length back.length with hle | hlt
  · exact List.suffix_of_suffix_length_le htail hback hle
  · have hcback : [c] ++ back <:+ front ++ [c] ++ back := by
      rw [List.append_assoc]
      exact List.suffix_append _ _
    have hlen : ([c] ++ back).length ≤ tail.length := by
      rw [List.length_append, List.length_singleton]
      omega
    have hsuffix := List.suffix_of_suffix_length_le hcback htail hlen
    exact absurd (hsuffix.subset List.mem_cons_self) hc

namespace Http

/-! ### What a request asks for -/

/-- The path that the target of a request names. -/
structure Asks (uri path : Str) : Prop where
  encodes : Encodes uri path
  absolute : path.head? = some '/'
  inside : ¬['.', '.'] <:+: path

/-- The file that is sent for a path. -/
def indexed (path : Str) : Str := if path.getLast? = some '/' then path ++ "index.html".toList else path

/-- What follows the last dot of the last component; nothing if there is none. -/
inductive Extension : Str → Str → Prop
  | dot {front ext : Str} (hdot : '.' ∉ ext) (hslash : '/' ∉ ext) : Extension (front ++ ['.'] ++ ext) ext
  | none {path : Str} (h : ∀ front ext, path = front ++ ['.'] ++ ext → '/' ∈ ext) : Extension path []

inductive Answers (docRoot : Str) (files : Str → File) (uri : Str) : Reply → Prop
  | refused (h : ∀ path, ¬Asks uri path) : Answers docRoot files uri (.stockReply .badRequest)
  | missing {path : Str} (h : Asks uri path) (hfile : openFile files (docRoot ++ indexed path).cStr = none) :
      Answers docRoot files uri (.stockReply .notFound)
  | served {path content ext : Str} (h : Asks uri path)
      (hfile : openFile files (docRoot ++ indexed path).cStr = some content) (hext : Extension (indexed path) ext) :
      Answers docRoot files uri ⟨.ok, Reply.describe content (extensionToType ext), content⟩

/-! ### The parts -/

theorem extensionOf_spec {path : Str} (h : '/' ∈ path) : ∃ ext, extensionOf path = .ok ext ∧ Extension path ext := by
  cases hslash : path.findLastOf ['/'] with
  | none => exact absurd h (of_findLastOf_none hslash)
  | some slash =>
    obtain ⟨dir, name, rfl, hname, rfl⟩ := of_findLastOf_some hslash
    cases hdot : Str.findLastOf (dir ++ ['/'] ++ name) ['.'] with
    | none =>
      refine ⟨[], by rw [extensionOf, hdot], .none fun front ext heq => ?_⟩
      exact absurd (by rw [heq]; simp) (of_findLastOf_none hdot)
    | some dot =>
      obtain ⟨front, ext, heq, hext, rfl⟩ := of_findLastOf_some hdot
      have hdotmem := List.suffix_append (front ++ ['.']) ext
      have hlen := congrArg List.length heq
      simp only [List.length_append, List.length_singleton] at hlen
      rw [extensionOf, hdot, hslash]
      simp only
      by_cases hlt : front.length > dir.length
      · have hsuffix : ext <:+ name :=
          List.suffix_of_suffix_length_le hdotmem (heq ▸ List.suffix_append _ _) (by omega)
        refine ⟨ext, ?_, heq ▸ .dot hext fun hmem => hname (hsuffix.subset hmem)⟩
        rw [if_pos hlt, heq, substr_of_le (by simp), ← List.length_singleton (a := '.'), ← List.length_append,
          List.drop_left, List.take_of_length_le hdotmem.length_le]
      · -- the last dot is in a directory's name, so the last component has none
        have hsuffix : name <:+ ext :=
          List.suffix_of_suffix_length_le (heq ▸ List.suffix_append _ _) hdotmem (by omega)
        refine ⟨[], if_neg hlt, .none fun front' ext' heq' => ?_⟩
        by_contra hmem
        have hin : ['.'] ++ ext' <:+ dir ++ ['/'] ++ name := by
          rw [heq', List.append_assoc]
          exact List.suffix_append _ _
        have hdotin := suffix_of_not_mem hin (by simpa using hmem)
        exact hext (hsuffix.subset (hdotin.subset List.mem_cons_self))

theorem copy_all (is content : Str) :
    Loop.run .diverges copyPass (is.length + 1) ⟨is, content⟩ = .ok ⟨[], content ++ is⟩ := by
  obtain ⟨⟨is', content'⟩, hrun, hinv, hleave⟩ := Loop.exists_run .diverges copyPass
    (I := fun s => s.content ++ s.is = content ++ is) (μ := fun s => s.is.length) (s := ⟨is, content⟩)
    (fun s hs => by
      rw [copyPass]
      by_cases hbuf : (s.is.take 512).length > 0
      · simp only [if_pos hbuf]
        refine .inr ⟨_, rfl, ?_, ?_⟩
        · simpa using hs
        · rw [List.length_take] at hbuf
          rw [List.length_drop]
          omega
      · exact .inl (if_neg hbuf)) rfl (Nat.lt_succ_self _)
  have hnil : is' = [] := by
    rw [copyPass] at hleave
    by_contra hne
    have hpos := List.length_pos_iff.mpr hne
    have htake : (is'.take 512).length > 0 := by
      rw [List.length_take]
      omega
    simp only [if_pos htake] at hleave
    cases hleave
  subst hnil
  rw [hrun, ← hinv, List.append_nil]

theorem isSome_find_iff {path : Str} : (path.find ['.', '.'] 0).isSome = true ↔ ['.', '.'] <:+: path := by
  rw [Option.isSome_iff_ne_none, ne_eq, find_eq_none_iff]
  constructor
  · intro h
    obtain ⟨i, hi⟩ := not_forall.mp h
    obtain ⟨-, hi⟩ := Classical.not_imp.mp hi
    obtain ⟨-, hprefix⟩ := Classical.not_imp.mp hi
    rw [not_not] at hprefix
    exact hprefix.isInfix.trans (List.drop_suffix i path).isInfix
  · rintro ⟨front, back, rfl⟩ h
    refine h front.length (Nat.zero_le _) (by simp) ?_
    rw [List.append_assoc, List.drop_left]
    exact List.prefix_append _ _

theorem asks_iff {uri path : Str} (h : urlDecode uri = some path) :
    Asks uri path ↔ ¬(path = [] ∨ path.head? ≠ some '/' ∨ (path.find ['.', '.'] 0).isSome) := by
  rw [isSome_find_iff, not_or, not_or, not_not]
  constructor
  · intro ⟨_, habs, hin⟩
    refine ⟨?_, habs, hin⟩
    rintro rfl
    cases habs
  · rintro ⟨-, habs, hin⟩
    exact ⟨encodes_of_urlDecode h, habs, hin⟩

theorem Asks.unique {uri path path' : Str} (h : Asks uri path) (hdecode : urlDecode uri = some path') :
    path = path' := Option.some.inj (h.encodes.urlDecode.symm.trans hdecode)

theorem Asks.slash_mem {uri path : Str} (h : Asks uri path) : '/' ∈ indexed path := by
  have hmem := List.mem_of_mem_head? h.absolute
  rw [indexed]
  split_ifs
  · exact List.mem_append_left _ hmem
  · exact hmem

theorem Extension.unique {path ext ext' : Str} (h : Extension path ext) (h' : Extension path ext') : ext = ext' := by
  cases h with
  | dot hdot hslash =>
    rename_i front
    generalize hpath : front ++ ['.'] ++ ext = path at h'
    cases h' with
    | dot hdot' hslash' =>
      have hin := suffix_of_not_mem (hpath.symm ▸ List.suffix_append _ _) hdot'
      have hin' := suffix_of_not_mem (hpath ▸ List.suffix_append _ _) hdot
      exact hin'.eq_of_length_le hin.length_le
    | none h => exact absurd (h _ _ hpath.symm) hslash
  | none h =>
    cases h' with
    | dot hdot hslash => exact absurd (h _ _ rfl) hslash
    | none => rfl

theorem Answers.unique {docRoot uri : Str} {files : Str → File} {rep rep' : Reply}
    (h : Answers docRoot files uri rep) (h' : Answers docRoot files uri rep') : rep = rep' := by
  cases h with
  | refused hno =>
    cases h' with
    | refused => rfl
    | missing h => exact absurd h (hno _)
    | served h => exact absurd h (hno _)
  | missing h hfile =>
    cases h' with
    | refused hno => exact absurd h (hno _)
    | missing => rfl
    | served h' hfile' =>
      rw [h.unique h'.encodes.urlDecode, hfile'] at hfile
      cases hfile
  | served h hfile hext =>
    cases h' with
    | refused hno => exact absurd h (hno _)
    | missing h' hfile' =>
      rw [h.unique h'.encodes.urlDecode, hfile'] at hfile
      cases hfile
    | served h' hfile' hext' =>
      rw [h.unique h'.encodes.urlDecode] at hfile hext
      obtain rfl := Option.some.inj (hfile.symm.trans hfile')
      rw [hext.unique hext']

theorem exists_answer (docRoot : Str) (files : Str → File) (req : Request) (status : StatusType)
    (headers : List Header) : ∃ rep, handleRequest docRoot files req ⟨status, headers, []⟩ = .ok rep ∧
      Answers docRoot files req.uri rep := by
  cases hdecode : urlDecode req.uri with
  | none =>
    refine ⟨.stockReply .badRequest, by rw [handleRequest, hdecode], .refused fun path hpath => ?_⟩
    rw [hpath.encodes.urlDecode] at hdecode
    cases hdecode
  | some path =>
    rw [handleRequest, hdecode]
    simp only
    by_cases hbad : path = [] ∨ path.head? ≠ some '/' ∨ (path.find ['.', '.'] 0).isSome
    · rw [if_pos hbad]
      refine ⟨_, rfl, .refused fun path' hpath => ?_⟩
      obtain rfl := hpath.unique hdecode
      exact (asks_iff hdecode).mp hpath hbad
    · have hasks := (asks_iff hdecode).mpr hbad
      obtain ⟨ext, hextof, hext⟩ := extensionOf_spec hasks.slash_mem
      rw [indexed] at hextof
      rw [if_neg hbad, hextof]
      simp only [bind, Except.bind]
      cases hfile : openFile files (docRoot ++ indexed path).cStr with
      | none =>
        rw [indexed] at hfile
        rw [hfile]
        exact ⟨_, rfl, .missing hasks hfile⟩
      | some content =>
        rw [indexed] at hfile
        rw [hfile]
        simp only [copy_all, List.nil_append]
        exact ⟨_, rfl, .served hasks hfile hext⟩

theorem handleRequest_eq_ok_iff {docRoot : Str} {files : Str → File} {req : Request} {status : StatusType}
    {headers : List Header} {rep : Reply} :
    handleRequest docRoot files req ⟨status, headers, []⟩ = .ok rep ↔ Answers docRoot files req.uri rep := by
  obtain ⟨rep', hok, hanswer⟩ := exists_answer docRoot files req status headers
  rw [hok, Except.ok.injEq]
  exact ⟨fun h => h ▸ hanswer, hanswer.unique⟩

/-- Every request gets a reply, and it is the one that its target and the file there call for. -/
theorem handleRequest_answers (docRoot : Str) (files : Str → File) (req : Request) (status : StatusType)
    (headers : List Header) : ∃ rep, handleRequest docRoot files req ⟨status, headers, []⟩ = .ok rep ∧
      ∀ rep', Answers docRoot files req.uri rep' ↔ rep' = rep := by
  obtain ⟨rep, hok, hanswer⟩ := exists_answer docRoot files req status headers
  exact ⟨rep, hok, fun rep' => ⟨fun h => h.unique hanswer, fun h => h ▸ hanswer⟩⟩

end Http

end ServiceBridge
