import Mathlib.Algebra.Field.Rat
import ServiceBridge.Library.Custody
import ServiceBridge.Theorems.Pipeline

/-! What comes out of the pipeline. Each input that is taken off `in` is processed once, but `process_one`
    multiplies by two whatever its worker's factor, and `mult_arr` by a loop of constant length. -/

namespace ServiceBridge.Pipeline
open Interleaving (Item)

variable {ι : Type} {s s' : State ι} {a : Act ι} {i : ι}

/-- `p` with each entry multiplied by `factor`. -/
def scaled (factor : ℚ) (p : Payload) : Payload where
  data := p.data.map (factor * ·)
  dataLen := p.dataLen
  entries := by rw [List.length_map, p.entries]

/-- Nothing was read out of bounds, and what has been pushed to `out` is, in some order, one payload for each
    input that was processed, multiplied by its worker's factor; each of these inputs was taken off `in`, and
    was processed once. An input counts as processed when its payload is in `out`. -/
structure Conserved (s : State ι) : Prop where
  inBounds : s.outOfBounds = false
  outputs : (s.output.pushed.map (·.value)).Perm (s.completed.map fun c => scaled (s.workers c.1).factor c.2.value)
  distinct : (s.completed.map (·.2.stamp)).Nodup
  inputs : ∀ c ∈ s.completed, c.2 ∈ s.input.taken

/-- A payload that is pushed has `dataLen` entries, and its worker multiplies by two or has only zeros. -/
def ScalesByTwo (s : State ι) (a : Act ι) : Prop :=
  ∀ i inVal, a = .push i → s.pc i = .popped inVal →
    inVal.value.dataLen = dataLen ∧ ((s.workers i).factor = 2 ∨ ∀ x ∈ inVal.value.data, x = 0)

theorem map_mul_two_eq_iff {data : List ℚ} {factor : ℚ} :
    data.map (· * 2) = data.map (factor * ·) ↔ factor = 2 ∨ ∀ x ∈ data, x = 0 := by
  rw [List.map_inj_left]
  constructor
  · intro h
    refine or_iff_not_imp_left.mpr fun hne x hx => ?_
    have hx := h x hx
    rw [mul_comm] at hx
    exact (mul_eq_mul_right_iff.mp hx).resolve_left (Ne.symm hne)
  · rintro (rfl | h) x hx
    · exact mul_comm _ _
    · rw [h x hx, zero_mul, mul_zero]

theorem multArr_eq_scaled_iff {p : Payload} {factor : ℚ} : multArr p 2 dataLen = some (scaled factor p) ↔
    p.dataLen = dataLen ∧ (factor = 2 ∨ ∀ x ∈ p.data, x = 0) := by
  rw [multArr_eq_some_iff, multEntries_eq, Option.ite_none_right_eq_some, Option.some.injEq, ← map_mul_two_eq_iff]
  constructor
  · rintro ⟨hle, heq⟩
    have hlen := congrArg List.length heq
    rw [List.length_map, List.length_take, p.entries, Nat.min_eq_left hle] at hlen
    have same : p.dataLen = dataLen := (hlen.trans ((List.length_map _).trans p.entries)).symm
    rw [List.take_of_length_le (by rw [p.entries, same])] at heq
    exact ⟨same, heq⟩
  · rintro ⟨hlen, h⟩
    refine ⟨hlen.ge, ?_⟩
    rw [List.take_of_length_le (by rw [p.entries, hlen])]
    exact h

theorem scalesByTwo_push_iff {inVal : Item ι Payload} (hi : s.pc i = .popped inVal) : ScalesByTwo s (.push i) ↔
    multArr inVal.value 2 dataLen = some (scaled (s.workers i).factor inVal.value) := by
  rw [multArr_eq_scaled_iff]
  constructor
  · exact fun h => h i inVal rfl hi
  · rintro h j inVal' ⟨⟩ hj
    rw [hi] at hj
    cases hj
    exact h

theorem inVal_goto [DecidableEq ι] (s : State ι) (i : ι) (p : Pc ι) : (fun j => ((s.goto i p).pc j).inVal) =
    Function.update (fun j => (s.pc j).inVal) i p.inVal := by
  funext j
  rcases eq_or_ne j i with rfl | hne
  · rw [State.pc_goto, Function.update_self]
  · rw [State.pc_goto_of_ne hne, Function.update_of_ne hne]

theorem accounts_goto [DecidableEq ι] {p : Pc ι} {taken taken' done : List (Item ι Payload)}
    (h : Custody.Accounts taken (fun j => (s.pc j).inVal) done) (htaken : taken' = taken)
    (hi : (s.pc i).inVal = none) (hp : p.inVal = none) :
    Custody.Accounts taken' (fun j => ((s.goto i p).pc j).inVal) done := by
  have same : Function.update (fun j => (s.pc j).inVal) i p.inVal = fun j => (s.pc j).inVal := by
    rw [Function.update_eq_self_iff, hp, hi]
  rw [htaken, inVal_goto, same]
  exact h

/-- The inputs taken off `in` are held by one thread each, or processed. -/
structure Inv [DecidableEq ι] [Fintype ι] (s : State ι) : Prop where
  reachable : (Interleaving.system ι Payload).Reachable s.input
  accounts : Custody.Accounts s.input.taken (fun i => (s.pc i).inVal) (s.completed.map (·.2))

variable [DecidableEq ι] [Fintype ι]

theorem Inv.step (h : Inv s) (hs : s.step a = some s') : Inv s' := by
  refine ⟨reachable_input h.reachable hs, ?_⟩
  have accounts := h.accounts
  have looks : ∀ {i}, Looks s a i → (s.pc i).inVal = none := by
    rintro i (⟨-, hi⟩ | ⟨-, hi⟩) <;> rw [hi] <;> rfl
  cases effect_of_step hs with
  | feed _ _ grows => exact grows.taken ▸ accounts
  | feedNotify _ grows => exact grows.taken ▸ accounts
  | test hi _ grows hp =>
    refine accounts_goto accounts grows.taken (by rw [hi]; rfl) ?_
    rcases hp with rfl | ⟨rfl, -⟩ <;> rfl
  | missed hi _ grows _ _ _ => exact accounts_goto accounts grows.taken (looks hi) rfl
  | got hi _ hq htaken =>
    have took := accounts.take (looks hi) (Interleaving.not_mem_taken h.reachable hq)
    rw [← htaken] at took
    exact inVal_goto s _ _ ▸ took
  | spuriousWake _ grows => exact grows.taken ▸ accounts
  | @push i inVal _ _ hi _ _ =>
    have held : (fun j => (s.pc j).inVal) i = some inVal := congrArg Pc.inVal hi
    have same : (fun j => ((s.goto i .pushed).pc j).inVal) = Function.update (fun j => (s.pc j).inVal) i none :=
      inVal_goto s i .pushed
    have done := accounts.finish held
    rw [← same] at done
    rwa [List.map_append]
  | outOfBounds _ _ => exact accounts
  | pushNotify hi _ => exact accounts_goto accounts rfl (by rw [hi]; rfl) rfl
  | collect _ _ => exact accounts

theorem Inv.iff_outputs (h : Inv s) : Conserved s ↔ s.outOfBounds = false ∧
    (s.output.pushed.map (·.value)).Perm (s.completed.map fun c => scaled (s.workers c.1).factor c.2.value) := by
  have taken : ∀ c ∈ s.completed, c.2 ∈ s.input.taken := fun c hc =>
    (h.accounts.taken c.2).mpr (Or.inl (List.mem_map_of_mem hc))
  have stamps : ((s.completed.map (·.2)).map (·.stamp)).Nodup := by
    refine h.accounts.distinct.map_on fun x hx y hy heq => ?_
    obtain ⟨c, hc, rfl⟩ := List.mem_map.mp hx
    obtain ⟨d, hd, rfl⟩ := List.mem_map.mp hy
    exact Interleaving.eq_of_stamp h.reachable (Interleaving.mem_pushed_of_taken h.reachable (taken c hc))
      (Interleaving.mem_pushed_of_taken h.reachable (taken d hd)) heq
  rw [List.map_map] at stamps
  exact ⟨fun hc => ⟨hc.inBounds, hc.outputs⟩, fun hc => ⟨hc.1, hc.2, stamps, taken⟩⟩

/-- A step keeps what comes out right exactly when it pushes no payload that its worker gets wrong. -/
theorem conserved_step (h : Inv s) (hs : s.step a = some s') (hc : Conserved s) :
    Conserved s' ↔ ScalesByTwo s a := by
  rw [(h.step hs).iff_outputs]
  have kept := h.iff_outputs.mp hc
  have looks : ∀ {i}, Looks s a i → ScalesByTwo s a := by
    rintro i (⟨rfl, -⟩ | ⟨rfl, -⟩) <;> exact nofun
  cases effect_of_step hs with
  | feed _ _ _ => exact iff_of_true kept nofun
  | feedNotify _ _ => exact iff_of_true kept nofun
  | test _ _ _ _ => exact iff_of_true kept nofun
  | missed hi _ _ _ _ _ => exact iff_of_true kept (looks hi)
  | got hi _ _ _ => exact iff_of_true kept (looks hi)
  | spuriousWake _ _ => exact iff_of_true kept nofun
  | @push i inVal outVal output hi hmult hpushed =>
    rw [scalesByTwo_push_iff hi, hmult, Option.some.injEq, hpushed, List.map_append]
    constructor
    · rintro ⟨-, hperm⟩
      have cancelled := (kept.2.append_right [outVal]).symm.trans hperm
      exact List.singleton_perm_singleton.mp ((List.perm_append_left_iff _).mp cancelled)
    · rintro rfl
      exact ⟨kept.1, kept.2.append_right _⟩
  | outOfBounds hi hmult =>
    rw [scalesByTwo_push_iff hi, hmult]
    exact iff_of_false (fun hu => Bool.noConfusion hu.1) nofun
  | pushNotify _ hpushed => exact iff_of_true (hpushed ▸ kept) nofun
  | collect _ hpushed => exact iff_of_true (hpushed ▸ kept) nofun

/-- Under any interleaving, what comes out is right throughout exactly if each payload that is pushed stems from
    one of `dataLen` entries whose worker multiplies by two, or which are all zero. -/
theorem conserved_iff {l : List (State ι × Act ι)} (start : (system ι).init s) (run : (system ι).Trace s l s') :
    System.Always Conserved l s' ↔ ∀ x ∈ l, ScalesByTwo x.1 x.2 := by
  obtain ⟨workers, rfl⟩ := start
  have inv : Inv (State.initial workers) := ⟨.of_init rfl, .initial⟩
  have conserved : Conserved (State.initial workers) := inv.iff_outputs.mpr ⟨rfl, .nil⟩
  exact run.always_iff (I := fun _ => Inv) inv (fun _ _ _ _ h hs => h.step hs) conserved
    fun _ _ _ _ _ h hc hs => conserved_step h hs hc

theorem conserved_iff_two : ∃ l s', (system (Fin 3)).Trace (idle 2) l s' ∧
    l.map Prod.snd = [.feed 2 ones, .test 0, .enter 0, .push 0] ∧ s'.completed.length = 1 ∧
    System.Always Conserved l s' := by
  have run := ((((System.Trace.nil (M := system (Fin 3)) (s := idle 2)).snoc (a := .feed 2 ones) rfl).snoc
    (a := .test 0) rfl).snoc (a := .enter 0) rfl).snoc (a := .push 0) rfl
  refine ⟨_, _, run, rfl, rfl, (conserved_iff (init_idle 2) run).mpr ?_⟩
  simp only [List.nil_append, List.forall_mem_append, List.forall_mem_singleton]
  refine ⟨⟨⟨nofun, nofun⟩, nofun⟩, ?_⟩
  rintro i inVal ⟨⟩ hi
  cases hi
  exact ⟨rfl, Or.inl rfl⟩

/-- The worker multiplies by two, not by its factor three. -/
theorem factor_ignored : ∃ l s', (system (Fin 3)).init (idle 3) ∧ (system (Fin 3)).Trace (idle 3) l s' ∧
    l.map Prod.snd = [.feed 2 ones, .test 0, .enter 0, .push 0] ∧
    s'.output.pushed.map (·.value.data) = [[1 * 2, 1 * 2, 1 * 2, 1 * 2, 1 * 2]] ∧
    ¬ System.Always Conserved l s' := by
  have run := ((((System.Trace.nil (M := system (Fin 3)) (s := idle 3)).snoc (a := .feed 2 ones) rfl).snoc
    (a := .test 0) rfl).snoc (a := .enter 0) rfl).snoc (a := .push 0) rfl
  refine ⟨_, _, init_idle 3, run, rfl, rfl, fun always => ?_⟩
  have outputs := List.singleton_perm_singleton.mp always.2.outputs
  have first : (1 : ℚ) * 2 = 3 * 1 := Option.some.inj (congrArg (fun p : Payload => p.data.head?) outputs)
  rw [one_mul, mul_one] at first
  exact absurd first (by decide)

end ServiceBridge.Pipeline
