/-!
# Programs that keep their state when they raise

A program in `ExceptT E (StateM S)` raises or returns, and its state is there in
both cases. Each rule says how a bind runs once the run of its first part is known.
-/
namespace SmartDisk.KeptState

variable {E S α β : Type} {x : ExceptT E (StateM S) α} {s s' : S}

theorem bind_ok {a : α} (h : x.run.run s = (.ok a, s')) (f : α → ExceptT E (StateM S) β) :
    (x >>= f).run.run s = (f a).run.run s' := by
  change StateT.run (ExceptT.bindCont f (x.run.run s).1) (x.run.run s).2 = _
  rw [h]
  rfl

theorem bind_raises {e : E} (h : x.run.run s = (.error e, s')) (f : α → ExceptT E (StateM S) β) :
    (x >>= f).run.run s = (.error e, s') := by
  change StateT.run (ExceptT.bindCont f (x.run.run s).1) (x.run.run s).2 = _
  rw [h]
  rfl

theorem get_bind (f : S → ExceptT E (StateM S) α) (s : S) :
    ((get : ExceptT E (StateM S) S) >>= f).run.run s = (f s).run.run s := rfl

theorem modify_bind (g : S → S) (f : PUnit → ExceptT E (StateM S) α) (s : S) :
    ((modify g : ExceptT E (StateM S) PUnit) >>= f).run.run s = (f ⟨⟩).run.run (g s) := rfl

/-- What is caught keeps the state of the program that raised. -/
theorem tryCatch_run {x : ExceptT E (StateM S) PUnit} {r : Except E PUnit}
    (h : x.run.run s = (r, s')) :
    (tryCatch x fun _ => pure ⟨⟩ : ExceptT E (StateM S) PUnit).run.run s = (.ok ⟨⟩, s') := by
  rw [ExceptT.run_tryCatch, StateT.run_bind, h]
  cases r <;> rfl

theorem liftM_ok {y : Except E α} {a : α} (h : y = .ok a) (s : S) :
    (liftM y : ExceptT E (StateM S) α).run.run s = (.ok a, s) := by rw [h]; rfl

theorem liftM_raises {y : Except E α} {e : E} (h : y = .error e) (s : S) :
    (liftM y : ExceptT E (StateM S) α).run.run s = (.error e, s) := by rw [h]; rfl

/-- What leaves the state alone may follow. -/
theorem bind_state (x : ExceptT E (StateM S) α) {f : α → ExceptT E (StateM S) β}
    (hf : ∀ a s, ((f a).run.run s).2 = s) (s : S) :
    ((x >>= f).run.run s).2 = (x.run.run s).2 := by
  change (StateT.run (ExceptT.bindCont f (x.run.run s).1) (x.run.run s).2).2 = _
  cases (x.run.run s).1 with
  | error e => rfl
  | ok a => exact hf a _

end SmartDisk.KeptState
