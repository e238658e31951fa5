import Mathlib.Tactic.Common

/-! Commands on a state that may throw, as a method of an object does: what a command has written before
    it throws stays written. -/

abbrev Command (ε σ α : Type) : Type := ExceptT ε (StateM σ) α

namespace Command

variable {ε σ α β : Type}

/-- The outcome of a command and the state it leaves. -/
def exec (c : Command ε σ α) (s : σ) : Except ε α × σ := StateT.run (ExceptT.run c) s

/-- Go on with `f` after a normal outcome; an exception goes through. -/
def andThen (r : Except ε α × σ) (f : α → Command ε σ β) : Except ε β × σ :=
  match r with
  | (.ok a, s) => (f a).exec s
  | (.error e, s) => (.error e, s)

/-- Throw `e` unless `p` holds. -/
def require (p : Prop) [Decidable p] (e : ε) : Command ε σ PUnit :=
  liftM (if p then .ok ⟨⟩ else .error e : Except ε PUnit)

section Exec
variable {s : σ}

@[simp] theorem andThen_ok {a : α} {f : α → Command ε σ β} : andThen (.ok a, s) f = (f a).exec s := rfl

@[simp] theorem andThen_error {e : ε} {f : α → Command ε σ β} : andThen (.error e, s) f = (.error e, s) := rfl

@[simp] theorem exec_pure (a : α) : (pure a : Command ε σ α).exec s = (.ok a, s) := rfl

/-- To return a value at the end leaves the state, after an exception too. -/
theorem andThen_pure_snd (r : Except ε α × σ) (b : β) : (andThen r fun _ => (pure b : Command ε σ β)).2 = r.2 := by
  rcases r with ⟨_ | a, s⟩ <;> rfl

@[simp] theorem exec_get : (get : Command ε σ σ).exec s = (.ok s, s) := rfl

@[simp] theorem exec_set (s' : σ) : (set s' : Command ε σ PUnit).exec s = (.ok ⟨⟩, s') := rfl

@[simp] theorem exec_modify (f : σ → σ) : (modify f : Command ε σ PUnit).exec s = (.ok ⟨⟩, f s) := rfl

@[simp] theorem exec_require {p : Prop} [Decidable p] {e : ε} :
    (require p e : Command ε σ PUnit).exec s = (if p then .ok ⟨⟩ else .error e, s) := rfl

@[simp] theorem exec_liftM (x : Except ε α) : (liftM x : Command ε σ α).exec s = (x, s) := rfl

@[simp] theorem exec_bind (c : Command ε σ α) (f : α → Command ε σ β) :
    (c >>= f).exec s = andThen (c.exec s) f := by
  show StateT.run (ExceptT.run c >>= ExceptT.bindCont f) s = _
  simp only [exec, StateT.run_bind]
  rcases h : StateT.run (ExceptT.run c) s with ⟨_ | a, s'⟩ <;> rfl

/-- A handler starts from the state in which the command threw. -/
@[simp] theorem exec_tryCatch (c : Command ε σ α) (handle : ε → Command ε σ α) :
    (tryCatch c handle).exec s = match c.exec s with
      | (.ok a, s') => (.ok a, s')
      | (.error e, s') => (handle e).exec s' := by
  show StateT.run (ExceptT.run c >>= fun r => match r with
    | .ok a => pure (.ok a)
    | .error e => ExceptT.run (handle e)) s = _
  simp only [exec, StateT.run_bind]
  rcases h : StateT.run (ExceptT.run c) s with ⟨_ | a, s'⟩ <;> rfl

end Exec

end Command
