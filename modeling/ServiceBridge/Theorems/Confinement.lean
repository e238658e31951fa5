import ServiceBridge.FileSystem
import ServiceBridge.Theorems.RequestHandler

/-! No request reaches a file that is not below the document root. -/

namespace ServiceBridge

variable {l t q path : Str} {c d : Char}

/-! ### Paths -/

theorem infix_of_mem_splitOn {f : Str} (h : f ∈ l.splitOn d) : f <:+: l := by
  induction hn : l.length using Nat.strong_induction_on generalizing l with
  | _ n ih =>
    by_cases hd : d ∈ l
    · obtain ⟨front, back, rfl⟩ := List.append_of_mem hd
      rw [List.splitOn_append_cons_self, List.mem_append] at h
      rw [List.length_append, List.length_cons] at hn
      rcases h with h | h
      · exact (ih _ (by omega) h rfl).trans (List.prefix_append _ _).isInfix
      · have hinfix := ih _ (by omega) h rfl
        exact hinfix.trans ((List.suffix_cons _ _).isInfix.trans (List.suffix_append _ _).isInfix)
    · rw [List.splitOn_eq_singleton hd, List.mem_singleton] at h
      exact h ▸ List.infix_refl _

theorem dots_infix_append (h : ['.', '.'] <:+: q ++ '/' :: t) : ['.', '.'] <:+: q ∨ ['.', '.'] <:+: t := by
  induction q with
  | nil =>
    rcases List.infix_cons_iff.mp h with h | h
    · exact absurd (List.cons_prefix_cons.mp h).1 (by decide)
    · exact .inr h
  | cons x q ih =>
    rcases List.infix_cons_iff.mp h with hprefix | h
    · obtain ⟨rfl, hnext⟩ := List.cons_prefix_cons.mp hprefix
      cases q with
      | nil => exact absurd (List.cons_prefix_cons.mp hnext).1 (by decide)
      | cons y q =>
        obtain ⟨rfl, -⟩ := List.cons_prefix_cons.mp hnext
        exact .inl (List.prefix_append ['.', '.'] q).isInfix
    · rcases ih h with h | h
      · exact .inl (h.trans (List.suffix_cons _ _).isInfix)
      · exact .inr h

namespace Http

/-- A path that starts with a slash and does not lead up. -/
def Inner (path : Str) : Prop := path.head? = some '/' ∧ ¬['.', '.'] <:+: path

theorem Asks.inner {uri : Str} (h : Asks uri path) : Inner (indexed path) := by
  rw [indexed]
  split_ifs with hlast
  · obtain ⟨q, rfl⟩ := List.getLast?_eq_some_iff.mp hlast
    refine ⟨?_, fun hdots => ?_⟩
    · rw [List.head?_append, h.absolute, Option.some_or]
    · rw [List.append_assoc] at hdots
      rcases dots_infix_append hdots with hdots | hdots
      · exact h.inside (hdots.trans (List.prefix_append _ _).isInfix)
      · exact absurd hdots (by decide)
  · exact ⟨h.absolute, h.inside⟩

theorem Inner.cStr (h : Inner path) : Inner path.cStr := by
  obtain ⟨habs, hin⟩ := h
  obtain ⟨rest, rfl⟩ := List.head?_eq_some_iff.mp habs
  exact ⟨rfl, fun hdots => hin (hdots.trans (List.takeWhile_prefix _).isInfix)⟩

/-- The reply depends only on the files that inner paths name. -/
theorem handleRequest_congr {docRoot : Str} {files files' : Str → File}
    (h : ∀ path, Inner path → files (docRoot ++ path).cStr = files' (docRoot ++ path).cStr) (req : Request)
    (status : StatusType) (headers : List Header) :
    handleRequest docRoot files req ⟨status, headers, []⟩ = handleRequest docRoot files' req ⟨status, headers, []⟩ := by
  obtain ⟨rep, hok, hanswer⟩ := exists_answer docRoot files req status headers
  rw [hok]
  refine (handleRequest_eq_ok_iff.mpr ?_).symm
  cases hanswer with
  | refused hno => exact .refused hno
  | missing hasks hfile =>
    rw [openFile, h _ hasks.inner] at hfile
    exact .missing hasks hfile
  | served hasks hfile hext =>
    rw [openFile, h _ hasks.inner] at hfile
    exact .served hasks hfile hext

end Http

/-! ### The directories -/

namespace FileSystem
variable {ν : Type*} {fs fs' : FileSystem ν} {docRoot : Str}

theorem cStr_append (hnul : '\x00' ∉ docRoot) : Str.cStr (docRoot ++ path) = docRoot ++ path.cStr := by
  refine List.takeWhile_append_of_pos fun c hc => ?_
  rw [bne_iff_ne]
  rintro rfl
  exact hnul hc

theorem names_slash (front back : Str) : names (front ++ '/' :: back) = names front ++ names back := by
  rw [names, List.splitOn_append_cons_self, List.filter_append]
  rfl

theorem entries_append (h : path.head? = some '/') : entries (docRoot ++ path) = names docRoot ++ entries path := by
  obtain ⟨rest, rfl⟩ := List.head?_eq_some_iff.mp h
  have hlast : (docRoot ++ '/' :: rest).getLast? = ('/' :: rest).getLast? :=
    List.getLast?_append_of_ne_nil _ (List.cons_ne_nil _ _)
  have hnil : names ('/' :: rest) = names rest := names_slash [] rest
  rw [entries, entries, names_slash, hlast, hnil, List.append_assoc]

/-- The names in a path from the document root on. -/
theorem file_append (h : path.head? = some '/') : fs.file (docRoot ++ path) =
    ((fs.directory docRoot).bind fun n => Walk.follow fs.look n (entries path)).elim .missing fs.content := by
  have hstart : fs.start (docRoot ++ path) = fs.start (docRoot ++ ['/']) := by
    rw [start, start, List.head?_append, List.head?_append, h]
    rfl
  have hne : docRoot ++ path ≠ [] := by
    refine List.append_ne_nil_of_right_ne_nil _ ?_
    rintro rfl
    cases h
  rw [file, if_neg hne, directory, ← Walk.follow_append, ← entries_append h, hstart]

/-- The names that do not lead up. -/
def Down (name : Str) : Prop := name ≠ ['.', '.']

theorem down_of_inner (h : Http.Inner path) : ∀ name ∈ entries path, Down name := by
  intro name hname
  rcases List.mem_append.mp hname with hname | hname
  · rintro rfl
    exact h.2 (infix_of_mem_splitOn (List.mem_of_mem_filter hname))
  · split_ifs at hname
    · obtain rfl := List.mem_singleton.mp hname
      exact nofun
    · cases hname

/-- Two file systems that agree below the document root: in which files there are and what they contain. -/
structure AgreeBelow (fs fs' : FileSystem ν) (docRoot : Str) : Prop where
  directory : fs.directory docRoot = fs'.directory docRoot
  look : ∀ n, fs.directory docRoot = some n → Walk.Same fs.look fs'.look Down n
  content : ∀ n m, fs.directory docRoot = some n → Walk.Below fs.look Down n m → fs.content m = fs'.content m

theorem AgreeBelow.file_eq (h : AgreeBelow fs fs' docRoot) (hpath : Http.Inner path) :
    fs.file (docRoot ++ path) = fs'.file (docRoot ++ path) := by
  rw [file_append hpath.1, file_append hpath.1, ← h.directory]
  cases hn : fs.directory docRoot with
  | none => rfl
  | some n =>
    have hdown := down_of_inner hpath
    rw [Option.bind_some, Option.bind_some, ← (h.look n hn).follow_eq hdown]
    cases hm : Walk.follow fs.look n (entries path) with
    | none => rfl
    | some m => exact h.content n m hn ⟨entries path, hdown, hm⟩

end FileSystem

namespace Http

theorem file_eq_of_inner {ν : Type*} {fs fs' : FileSystem ν} {docRoot : Str} (hnul : '\x00' ∉ docRoot)
    (h : fs.AgreeBelow fs' docRoot) (path : Str) (hpath : Inner path) :
    fs.file (docRoot ++ path).cStr = fs'.file (docRoot ++ path).cStr := by
  rw [FileSystem.cStr_append hnul, h.file_eq hpath.cStr]

/-- The replies say nothing of what is not below the document root: file systems that agree there get the same
    reply to every request. The root is an argument of `main`, so there is no NUL in it. -/
theorem handleRequest_confined {ν : Type*} {fs fs' : FileSystem ν} {docRoot : Str} (hnul : '\x00' ∉ docRoot)
    (h : fs.AgreeBelow fs' docRoot) (req : Request) (status : StatusType) (headers : List Header) :
    handleRequest docRoot fs.file req ⟨status, headers, []⟩ =
      handleRequest docRoot fs'.file req ⟨status, headers, []⟩ :=
  handleRequest_congr (file_eq_of_inner hnul h) req status headers

/-- A root with the directory `w`, in which there is `a`, and the file `b` beside it. -/
def oneSecret (secret : Str) : FileSystem Nat where
  root := 0
  workingDirectory := 0
  look n name :=
    if n = 0 then if name = ['w'] then some 1 else if name = ['b'] then some 2 else none
    else if n = 1 then if name = ['a'] then some 3 else if name = ['.', '.'] then some 0 else none
    else none
  content n := if n = 2 then .readable secret else if n = 3 then .readable ['x'] else .readable []

theorem oneSecret_agreeBelow (secret secret' : Str) : (oneSecret secret).AgreeBelow (oneSecret secret') ['w'] := by
  refine ⟨rfl, fun _ _ _ _ _ _ => rfl, fun n m hn hm => ?_⟩
  obtain rfl : 1 = n := Option.some.inj hn
  have hin : m = 1 ∨ m = 3 := by
    refine hm.invariant (P := fun m => m = 1 ∨ m = 3) (.inl rfl) fun m k m' hm hk hlook => ?_
    rcases hm with rfl | rfl
    · simp only [oneSecret] at hlook
      split_ifs at hlook with h1 h2 h3 h4
      all_goals simp_all [FileSystem.Down]
    · cases hlook
  rcases hin with rfl | rfl
  all_goals rfl

theorem handleRequest_confined_secret :
    handleRequest ['w'] (oneSecret ['y']).file ⟨['G'], "/../b".toList, 1, 0, []⟩ ⟨.ok, [], []⟩ =
      handleRequest ['w'] (oneSecret ['z']).file ⟨['G'], "/../b".toList, 1, 0, []⟩ ⟨.ok, [], []⟩ :=
  handleRequest_confined (by decide) (oneSecret_agreeBelow ['y'] ['z']) _ _ _

end Http

end ServiceBridge
