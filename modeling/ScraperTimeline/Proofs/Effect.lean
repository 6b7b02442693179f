import ScraperTimeline.Timeline.Store

/-!
Computations that may fail and change a state, run step by step.
-/
namespace ScraperTimeline

variable {ε σ α β : Type} {s s' : σ} {a : α} {e : ε}

theorem run_bind_of_ok {x : ExceptT ε (StateM σ) α} {f : α → ExceptT ε (StateM σ) β}
    (h : x.run.run s = (.ok a, s')) : (x >>= f).run.run s = (f a).run.run s' := by
  rw [ExceptT.run_bind, StateT.run_bind, h]
  rfl

theorem run_bind_of_error {x : ExceptT ε (StateM σ) α} {f : α → ExceptT ε (StateM σ) β}
    (h : x.run.run s = (.error e, s')) : (x >>= f).run.run s = (.error e, s') := by
  rw [ExceptT.run_bind, StateT.run_bind, h]
  rfl

-- What goes well as a whole goes well in its first part.
theorem exists_of_run_bind {b : β} {x : ExceptT ε (StateM σ) α} {f : α → ExceptT ε (StateM σ) β}
    (h : (x >>= f).run.run s = (.ok b, s')) :
    ∃ a s₁, x.run.run s = (.ok a, s₁) ∧ (f a).run.run s₁ = (.ok b, s') := by
  rcases hx : x.run.run s with ⟨e | a, s₁⟩
  · rw [run_bind_of_error hx] at h
    cases h
  · rw [run_bind_of_ok hx] at h
    exact ⟨a, s₁, rfl, h⟩

theorem exists_of_bind {b : β} {x : Except ε α} {f : α → Except ε β} (h : x >>= f = .ok b) :
    ∃ a, x = .ok a ∧ f a = .ok b := by
  cases x with
  | error e => cases h
  | ok a => exact ⟨a, rfl, h⟩

theorem run_get_bind (f : σ → ExceptT ε (StateM σ) β) (s : σ) :
    (get >>= f).run.run s = (f s).run.run s := rfl

theorem run_tryCatch (x : ExceptT ε (StateM σ) α) (f : ε → ExceptT ε (StateM σ) α) :
    (tryCatch x f).run = x.run >>= fun r => match r with
      | .ok a => pure (.ok a)
      | .error e => (f e).run := rfl

-- What goes well is not caught.
theorem run_tryCatch_of_ok {x : ExceptT ε (StateM σ) α} {f : ε → ExceptT ε (StateM σ) α}
    (h : x.run.run s = (.ok a, s')) : (tryCatch x f).run.run s = (.ok a, s') := by
  rw [run_tryCatch, StateT.run_bind, h]
  rfl

theorem run_tryCatch_of_error {x : ExceptT ε (StateM σ) α} {f : ε → ExceptT ε (StateM σ) α}
    (h : x.run.run s = (.error e, s')) : (tryCatch x f).run.run s = (f e).run.run s' := by
  rw [run_tryCatch, StateT.run_bind, h]
  rfl

theorem run_lift_of_ok {x : Except ε α} (h : x = .ok a) (s : σ) :
    (liftM x : ExceptT ε (StateM σ) α).run.run s = (.ok a, s) := by
  rw [h]
  rfl

theorem run_lift_of_error {x : Except ε α} (h : x = .error e) (s : σ) :
    (liftM x : ExceptT ε (StateM σ) α).run.run s = (.error e, s) := by
  rw [h]
  rfl

theorem eq_ok_of_run_lift {x : Except ε α}
    (h : (liftM x : ExceptT ε (StateM σ) α).run.run s = (.ok a, s')) : x = .ok a := by
  cases x with
  | error e => cases h
  | ok a =>
      cases h
      rfl

end ScraperTimeline
