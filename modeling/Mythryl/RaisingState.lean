import Mathlib.Tactic.Basic

/-! # Computations on a state that may raise an exception -/

namespace RaisingState

variable {ε σ α β : Type}

abbrev Raising (ε σ : Type) := ExceptT ε (StateM σ)

def outcome (m : Raising ε σ α) (s : σ) : Except ε α × σ := m.run.run s

def final (m : Raising ε σ α) (s : σ) : Except ε σ :=
  match outcome m s with
  | (.ok _, s') => .ok s'
  | (.error e, _) => .error e

/-- From a state with `P`, the computation returns with `Q` or raises with `E`. -/
def Triple (P : σ → Prop) (m : Raising ε σ α) (Q : α → σ → Prop) (E : σ → Prop) : Prop :=
  ∀ s, P s → match outcome m s with
    | (.ok a, s') => Q a s'
    | (.error _, s') => E s'

section Rules

variable {P : σ → Prop} {Q : α → σ → Prop} {R : β → σ → Prop} {E F : σ → Prop}
  {m : Raising ε σ α} {f : α → Raising ε σ β}

theorem outcome_bind (m : Raising ε σ α) (f : α → Raising ε σ β) (s : σ) :
    outcome (m >>= f) s = match outcome m s with
      | (.ok a, s') => outcome (f a) s'
      | (.error e, s') => (.error e, s') := by
  unfold outcome
  simp only [ExceptT.run_bind, StateT.run_bind]
  cases (m.run.run s) with
  | mk result s' => cases result <;> rfl

@[simp] theorem outcome_pure (a : α) (s : σ) : outcome (pure a : Raising ε σ α) s = (.ok a, s) :=
  rfl

@[simp] theorem outcome_throw (e : ε) (s : σ) :
    outcome (throw e : Raising ε σ α) s = (.error e, s) := rfl

@[simp] theorem outcome_get (s : σ) : outcome (get : Raising ε σ σ) s = (.ok s, s) := rfl

@[simp] theorem outcome_modify (f : σ → σ) (s : σ) :
    outcome (modify f : Raising ε σ PUnit) s = (.ok (), f s) := rfl

@[simp] theorem outcome_lift (x : Except ε α) (s : σ) :
    outcome (liftM x : Raising ε σ α) s = (x, s) := by
  cases x <;> rfl

variable {s : σ}

theorem outcome_bind_eq_ok {b : β} {s' : σ} : outcome (m >>= f) s = (.ok b, s') ↔
    ∃ a s₁, outcome m s = (.ok a, s₁) ∧ outcome (f a) s₁ = (.ok b, s') := by
  rw [outcome_bind]
  cases outcome m s with
  | mk result s₁ => cases result <;> simp [and_assoc]

theorem outcome_bind_ok {a : α} {s' : σ} {m : Raising ε σ α} {f : α → Raising ε σ β}
    (first : outcome m s = (.ok a, s')) : outcome (m >>= f) s = outcome (f a) s' := by
  rw [outcome_bind, first]

theorem outcome_tryCatch (m : Raising ε σ α) (handle : ε → Raising ε σ α) (s : σ) :
    outcome (tryCatch m handle) s = match outcome m s with
      | (.ok a, s') => (.ok a, s')
      | (.error e, s') => outcome (handle e) s' := by
  have caught : outcome (tryCatch m handle) s = (m.run >>= fun result => match result with
      | .ok a => pure (.ok a)
      | .error e => (handle e).run : StateM σ (Except ε α)).run s := rfl
  rw [caught, StateT.run_bind]
  unfold outcome
  cases (m.run.run s) with
  | mk result s' => cases result <;> rfl

theorem Triple.ret {a : α} (h : ∀ s, P s → Q a s) : Triple P (pure a : Raising ε σ α) Q E := h

theorem Triple.raise {e : ε} (h : ∀ s, P s → E s) : Triple P (throw e : Raising ε σ α) Q E := h

theorem Triple.lift {x : Except ε α} (h : ∀ a, x = .ok a → ∀ s, P s → Q a s)
    (raised : ∀ e, x = .error e → ∀ s, P s → E s) : Triple P (liftM x : Raising ε σ α) Q E := by
  intro s pre
  cases x with
  | ok a => exact h a rfl s pre
  | error e => exact raised e rfl s pre

theorem Triple.state {Q : σ → σ → Prop} (h : ∀ s, P s → Q s s) :
    Triple P (get : Raising ε σ σ) Q E := h

theorem Triple.bind (first : Triple P m Q E) (rest : ∀ a, Triple (Q a) (f a) R E) :
    Triple P (m >>= f) R E := by
  intro s pre
  have step := first s pre
  rw [outcome_bind]
  revert step
  cases outcome m s with
  | mk result s' =>
    cases result with
    | ok a => exact rest a s'
    | error e => exact id

theorem Triple.of_fact {p : Prop} (h : p → Triple P m Q E) : Triple (fun s => p ∧ P s) m Q E :=
  fun s pre => h pre.1 s pre.2

theorem Triple.lift_bind {x : Except ε α} (raised : ∀ e, x = .error e → ∀ s, P s → E s)
    (rest : ∀ a, x = .ok a → Triple P (f a) R E) :
    Triple P ((liftM x : Raising ε σ α) >>= f) R E := by
  apply Triple.bind (Q := fun a s => x = .ok a ∧ P s)
  · exact .lift (fun a result s pre => ⟨result, pre⟩) raised
  · exact fun a => .of_fact (rest a)

theorem Triple.handle {recover : ε → Raising ε σ α} (body : Triple P m Q F)
    (handler : ∀ e, Triple F (recover e) Q E) : Triple P (tryCatch m recover) Q E := by
  intro s pre
  have step := body s pre
  rw [outcome_tryCatch]
  revert step
  cases outcome m s with
  | mk result s' =>
    cases result with
    | ok a => exact id
    | error e => exact handler e s'

theorem Triple.weaken {P' : σ → Prop} {Q' : α → σ → Prop} (h : Triple P m Q E)
    (pre : ∀ s, P' s → P s) (post : ∀ a s, Q a s → Q' a s) (raised : ∀ s, E s → F s) :
    Triple P' m Q' F := by
  intro s start
  have step := h s (pre s start)
  revert step
  cases outcome m s with
  | mk result s' =>
    cases result with
    | ok a => exact post a s'
    | error e => exact raised s'

theorem Triple.of_final {s' : σ} (h : Triple P m Q E) (pre : P s) (result : final m s = .ok s') :
    ∃ a, Q a s' := by
  have step := h s pre
  unfold final at result
  revert step result
  cases outcome m s with
  | mk value last =>
    cases value with
    | ok a =>
      intro result post
      cases result
      exact ⟨a, post⟩
    | error e =>
      intro result
      cases result

theorem Triple.of_outcome {I : σ → Prop} (h : Triple P m (fun _ => I) I) (pre : P s) :
    I (outcome m s).2 := by
  have step := h s pre
  revert step
  cases outcome m s with
  | mk value last =>
    cases value with
    | ok a => exact id
    | error e => exact id

end Rules

end RaisingState
