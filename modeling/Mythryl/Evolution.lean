import Mythryl.RaisingState
import Mathlib.Order.Defs.Unbundled

/-! # How a state evolves -/

namespace RaisingState

variable {ε σ α β : Type} {R : σ → σ → Prop} {s s' : σ} {m : Raising ε σ α}
  {f : α → Raising ε σ β} {Q Q' : α → σ → Prop} {Q₂ : β → σ → Prop}

def Evolves (R : σ → σ → Prop) (s : σ) (m : Raising ε σ α) (Q : α → σ → Prop) : Prop :=
  Triple (fun s' => s' = s) m (fun a s' => R s s' ∧ Q a s') (R s)

namespace Evolves

theorem outcome (h : Evolves R s m Q) : R s (outcome m s).2 := by
  apply Triple.of_outcome (h.weaken (fun _ => id) _ fun _ => id) rfl
  exact fun a s' post => post.1

theorem weaken (h : Evolves R s m Q) (imp : ∀ a s', R s s' → Q a s' → Q' a s') : Evolves R s m Q' :=
  Triple.weaken h (fun _ => id) (fun a s' post => ⟨post.1, imp a s' post.1 post.2⟩) fun _ => id

theorem mono {R' : σ → σ → Prop} (h : Evolves R s m Q) (imp : ∀ s', R s s' → R' s s') :
    Evolves R' s m Q :=
  Triple.weaken h (fun _ => id) (fun _ s' post => ⟨imp s' post.1, post.2⟩) imp

theorem modify {g : σ → σ} {Q : PUnit → σ → Prop} (step : R s (g s)) (post : Q ⟨⟩ (g s)) :
    Evolves R s (modify g : Raising ε σ PUnit) Q := by
  rintro _ rfl
  exact ⟨step, post⟩

theorem state {f : σ → Raising ε σ β} (rest : Evolves R s (f s) Q₂) :
    Evolves R s (get >>= f) Q₂ := by
  rintro _ rfl
  exact rest _ rfl

variable [IsPreorder σ R]

theorem ret {a : α} (post : Q a s) : Evolves R s (pure a : Raising ε σ α) Q := by
  rintro _ rfl
  exact ⟨refl _, post⟩

theorem raise {e : ε} : Evolves R s (throw e : Raising ε σ α) Q := by
  rintro _ rfl
  exact refl _

theorem bind (first : Evolves R s m Q) (rest : ∀ a s', R s s' → Q a s' → Evolves R s' (f a) Q₂) :
    Evolves R s (m >>= f) Q₂ := by
  apply Triple.bind first
  intro a s₁ post
  have later := rest a s₁ post.1 post.2 s₁ rfl
  revert later
  cases RaisingState.outcome (f a) s₁ with
  | mk result s₂ =>
    cases result with
    | ok b => exact fun later => ⟨trans_of R post.1 later.1, later.2⟩
    | error e => exact trans_of R post.1

theorem lift_bind {x : Except ε α} (rest : ∀ a, x = .ok a → Evolves R s (f a) Q₂) :
    Evolves R s ((liftM x : Raising ε σ α) >>= f) Q₂ := by
  cases x with
  | ok a => exact rest a rfl
  | error e => exact raise

theorem forM {γ : Type} {g : γ → Raising ε σ PUnit} {l : List γ} {I : σ → Prop}
    {D : γ → σ → Prop} (start : I s) (kept : ∀ x s₁ s₂, R s₁ s₂ → D x s₁ → D x s₂)
    (each : ∀ x ∈ l, ∀ s₁, I s₁ → Evolves R s₁ (g x) fun _ s₂ => I s₂ ∧ D x s₂) :
    Evolves R s (l.forM g) fun _ s₂ => I s₂ ∧ ∀ x ∈ l, D x s₂ := by
  induction l generalizing s with
  | nil => exact ret ⟨start, nofun⟩
  | cons x l ih =>
    rw [List.forM_eq_forM, List.forM_cons]
    apply bind (each x List.mem_cons_self s start)
    rintro ⟨⟩ s₁ _ ⟨holds, done⟩
    have rest := ih holds fun y mem => each y (List.mem_cons_of_mem x mem)
    apply rest.weaken
    rintro ⟨⟩ s₂ later ⟨holds₂, all⟩
    exact ⟨holds₂, List.forall_mem_cons.mpr ⟨kept x s₁ s₂ later done, all⟩⟩

theorem mapM {γ δ : Type} {g : γ → Raising ε σ δ} {l : List γ} {I : σ → Prop} {P : δ → Prop}
    (start : I s) (kept : ∀ s₁ s₂, R s₁ s₂ → I s₁ → I s₂)
    (each : ∀ x ∈ l, ∀ s₁, I s₁ → Evolves R s₁ (g x) fun y _ => P y) :
    Evolves R s (l.mapM g) fun ys _ => ∀ y ∈ ys, P y := by
  induction l generalizing s with
  | nil => exact ret nofun
  | cons x l ih =>
    rw [List.mapM_cons]
    apply bind (each x List.mem_cons_self s start)
    intro y s₁ step first
    apply bind (ih (kept s s₁ step start) fun z mem => each z (List.mem_cons_of_mem x mem))
    intro ys s₂ _ rest
    exact ret (List.forall_mem_cons.mpr ⟨first, rest⟩)

end Evolves

end RaisingState
