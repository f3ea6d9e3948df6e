import Mathlib.Tactic.Basic

/-! # Results and exceptions -/

namespace Mythryl

variable {ε α β : Type}

theorem ok_bind (a : α) (f : α → Except ε β) : Except.ok a >>= f = f a := rfl

theorem bind_eq_ok {x : Except ε α} {f : α → Except ε β} {b : β} :
    x >>= f = .ok b ↔ ∃ a, x = .ok a ∧ f a = .ok b := by
  cases x <;> simp [bind, Except.bind]

theorem bind_pure_eq_ok {x : Except ε α} {f : α → β} {b : β} :
    (do return f (← x)) = .ok b ↔ ∃ a, x = .ok a ∧ f a = b := by
  cases x <;> simp [bind, Except.bind, pure, Except.pure]

end Mythryl
