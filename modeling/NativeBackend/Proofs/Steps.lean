import Std.Internal.Do.WP

namespace NativeBackend.Steps

variable {ε σ α β : Type} {s s' : σ} {a : α} {b : β}

theorem bind_eq_ok {step : EStateM ε σ α} {next : α → EStateM ε σ β} :
    (step >>= next) s = .ok b s' ↔ ∃ a t, step s = .ok a t ∧ next a t = .ok b s' := by
  change EStateM.bind step next s = _ ↔ _
  rw [EStateM.bind]
  cases step s with
  | ok a t =>
      constructor
      · intro h
        exact ⟨a, t, rfl, h⟩
      · rintro ⟨_, _, ⟨⟩, h⟩
        exact h
  | error e t => simp

theorem bind_of_ok {step : EStateM ε σ α} {t : σ} (h : step s = .ok a t)
    (next : α → EStateM ε σ β) : (step >>= next) s = next a t := by
  change EStateM.bind step next s = _
  rw [EStateM.bind, h]

theorem bind_eq_error {step : EStateM ε σ α} {next : α → EStateM ε σ β} {e : ε} :
    (step >>= next) s = .error e s' ↔ step s = .error e s' ∨ ∃ a t, step s = .ok a t ∧ next a t = .error e s' := by
  change EStateM.bind step next s = _ ↔ _
  rw [EStateM.bind]
  cases step s with
  | ok a t => simp [and_assoc]
  | error e t => simp

theorem bind_of_error {step : EStateM ε σ α} {e : ε} {t : σ} (h : step s = .error e t)
    (next : α → EStateM ε σ β) : (step >>= next) s = .error e t := by
  change EStateM.bind step next s = _
  rw [EStateM.bind, h]

@[simp]
theorem pure_apply (a : α) (s : σ) : (pure a : EStateM ε σ α) s = .ok a s := rfl

@[simp]
theorem get_apply (s : σ) : (get : EStateM ε σ σ) s = .ok s s := rfl

@[simp]
theorem set_apply (t s : σ) : (set t : EStateM ε σ PUnit) s = .ok ⟨⟩ t := rfl

@[simp]
theorem modify_apply (f : σ → σ) (s : σ) : (modify f : EStateM ε σ PUnit) s = .ok ⟨⟩ (f s) := rfl

@[simp]
theorem throw_apply (e : ε) (s : σ) : (throw e : EStateM ε σ α) s = .error e s := rfl

@[simp]
theorem map_apply (f : α → β) (step : EStateM ε σ α) (s : σ) :
    (f <$> step) s = match step s with
      | .ok a t => .ok (f a) t
      | .error e t => .error e t := rfl

def answer? : EStateM.Result ε σ α → Option α
  | .ok a _ => some a
  | .error _ _ => none

theorem map_answer?_eq_some {step : EStateM ε σ α} {f : α → β} :
    (answer? (step s)).map f = some b ↔ ∃ a t, step s = .ok a t ∧ f a = b := by
  cases step s with
  | ok a t => simp [answer?]
  | error e t => simp [answer?]

theorem except_bind_eq_ok {step : Except ε α} {next : α → Except ε β} :
    (step >>= next) = .ok b ↔ ∃ a, step = .ok a ∧ next a = .ok b := by
  cases step with
  | ok a => simp [bind, Except.bind]
  | error e => simp [bind, Except.bind]

theorem exists_mapM_eq_ok {f : α → Except ε β} {xs : List α} (h : ∀ x ∈ xs, ∃ y, f x = .ok y) :
    ∃ ys, xs.mapM f = .ok ys := by
  induction xs with
  | nil => exact ⟨[], rfl⟩
  | cons x xs ih =>
      obtain ⟨y, hy⟩ := h x List.mem_cons_self
      obtain ⟨ys, hys⟩ := ih fun z hz => h z (List.mem_cons_of_mem _ hz)
      refine ⟨y :: ys, ?_⟩
      rw [List.mapM_cons, hy, hys]
      rfl

theorem mem_of_mapM_eq_ok {f : α → Except ε β} {xs : List α} {ys : List β}
    (h : xs.mapM f = .ok ys) {y : β} : y ∈ ys ↔ ∃ x ∈ xs, f x = .ok y := by
  induction xs generalizing ys with
  | nil =>
      cases h
      simp
  | cons x xs ih =>
      rw [List.mapM_cons] at h
      obtain ⟨z, hz, h⟩ := except_bind_eq_ok.1 h
      obtain ⟨zs, hzs, h⟩ := except_bind_eq_ok.1 h
      cases h
      simp only [List.mem_cons, exists_eq_or_imp, ih hzs, hz, Except.ok.injEq]
      rw [eq_comm]

theorem map_toOption_eq_some {step : Except ε α} {f : α → β} :
    step.toOption.map f = some b ↔ ∃ a, step = .ok a ∧ f a = b := by
  cases step <;> simp [Except.toOption]

end NativeBackend.Steps
