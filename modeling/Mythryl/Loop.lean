import Mathlib.Logic.Relation
import Mathlib.Order.RelClasses

/-! # Loops -/

namespace Loop

variable {ε σ ρ : Type}

inductive Turn (σ ρ : Type)
  | next (s : σ)
  | done (r : ρ)

def run (turn : σ → Except ε (Turn σ ρ)) : Nat → σ → Option (Except ε ρ)
  | 0, _ => none
  | fuel + 1, s =>
      match turn s with
      | .ok (.next s') => run turn fuel s'
      | .ok (.done r) => some (.ok r)
      | .error e => some (.error e)

def Ends (turn : σ → Except ε (Turn σ ρ)) (s : σ) (result : Except ε ρ) : Prop :=
  ∃ fuel, run turn fuel s = some result

def TurnsTo (turn : σ → Except ε (Turn σ ρ)) (P' : σ → Prop) (Q : Except ε ρ → Prop) (s : σ) :
    Prop :=
  match turn s with
  | .ok (.next s') => P' s'
  | .ok (.done r) => Q (.ok r)
  | .error e => Q (.error e)

section Rules

variable {turn : σ → Except ε (Turn σ ρ)} {s s' : σ} {result result' : Except ε ρ}
  {P P' : σ → Prop} {Q Q' : Except ε ρ → Prop} {r : ρ} {e : ε}

theorem run_succ (fuel : Nat) : run turn (fuel + 1) s =
    match turn s with
    | .ok (.next s') => run turn fuel s'
    | .ok (.done r) => some (.ok r)
    | .error e => some (.error e) := rfl

theorem ends_next (step : turn s = .ok (.next s')) : Ends turn s result ↔ Ends turn s' result := by
  constructor
  · rintro ⟨fuel, ends⟩
    cases fuel with
    | zero => cases ends
    | succ fuel =>
      rw [run_succ, step] at ends
      exact ⟨fuel, ends⟩
  · rintro ⟨fuel, ends⟩
    refine ⟨fuel + 1, ?_⟩
    rw [run_succ, step]
    exact ends

theorem ends_done (step : turn s = .ok (.done r)) : Ends turn s result ↔ result = .ok r := by
  constructor
  · rintro ⟨fuel, ends⟩
    cases fuel with
    | zero => cases ends
    | succ fuel =>
      rw [run_succ, step] at ends
      exact (Option.some.inj ends).symm
  · rintro rfl
    refine ⟨1, ?_⟩
    rw [run_succ, step]

theorem ends_error (step : turn s = .error e) : Ends turn s result ↔ result = .error e := by
  constructor
  · rintro ⟨fuel, ends⟩
    cases fuel with
    | zero => cases ends
    | succ fuel =>
      rw [run_succ, step] at ends
      exact (Option.some.inj ends).symm
  · rintro rfl
    refine ⟨1, ?_⟩
    rw [run_succ, step]

theorem Ends.unique (ends : Ends turn s result) (ends' : Ends turn s result') :
    result = result' := by
  obtain ⟨fuel, ends⟩ := ends
  induction fuel generalizing s with
  | zero => cases ends
  | succ fuel ih =>
    rw [run_succ] at ends
    split at ends
    · next step => exact ih ((ends_next step).mp ends') ends
    · next step => exact (Option.some.inj ends).symm.trans ((ends_done step).mp ends').symm
    · next step => exact (Option.some.inj ends).symm.trans ((ends_error step).mp ends').symm

theorem TurnsTo.next (step : turn s = .ok (.next s')) (post : P s') : TurnsTo turn P Q s := by
  rw [TurnsTo, step]
  exact post

theorem TurnsTo.done (step : turn s = .ok (.done r)) (post : Q (.ok r)) : TurnsTo turn P Q s := by
  rw [TurnsTo, step]
  exact post

theorem TurnsTo.error (step : turn s = .error e) (post : Q (.error e)) : TurnsTo turn P Q s := by
  rw [TurnsTo, step]
  exact post

theorem TurnsTo.mono (turns : TurnsTo turn P Q s) (next : ∀ s', P s' → P' s')
    (result : ∀ r, Q r → Q' r) : TurnsTo turn P' Q' s := by
  unfold TurnsTo at turns ⊢
  split
  · next step =>
      rw [step] at turns
      exact next _ turns
  · next step =>
      rw [step] at turns
      exact result _ turns
  · next step =>
      rw [step] at turns
      exact result _ turns

theorem ends_of_ranks {M : Type} [Preorder M] [WellFoundedLT M] {P : M → σ → Prop}
    (turns : ∀ m s, P m s → TurnsTo turn (fun s' => ∃ m' < m, P m' s') Q s) {m : M}
    (start : P m s) : ∃ result, Ends turn s result ∧ Q result := by
  induction m using WellFoundedLT.induction generalizing s with
  | ind m ih =>
    have turned := turns m s start
    unfold TurnsTo at turned
    split at turned
    · next s' step =>
        obtain ⟨m', less, here⟩ := turned
        obtain ⟨result, ends, post⟩ := ih m' less here
        exact ⟨result, (ends_next step).mpr ends, post⟩
    · next r step => exact ⟨_, (ends_done step).mpr rfl, turned⟩
    · next e step => exact ⟨_, (ends_error step).mpr rfl, turned⟩

theorem ends_of_descent {M : Type} [Preorder M] [WellFoundedLT M] (measure : σ → M)
    (turns : ∀ s, P s → TurnsTo turn (fun s' => P s' ∧ measure s' < measure s) Q s) (start : P s) :
    ∃ result, Ends turn s result ∧ Q result := by
  apply ends_of_ranks (P := fun m s => P s ∧ measure s = m) _ ⟨start, rfl⟩
  rintro _ s ⟨here, rfl⟩
  exact (turns s here).mono (fun s' next => ⟨_, next.2, next.1, rfl⟩) fun _ => id

end Rules

end Loop
