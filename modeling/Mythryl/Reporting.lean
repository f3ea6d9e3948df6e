import Mathlib.Tactic.Basic

/-! # Computations that report and go on -/

def Reporting (ε μ α : Type) := Except ε (α × List μ)

namespace Reporting

variable {ε μ α β : Type}

def quiet (a : α) : Reporting ε μ α := .ok (a, [])

def fail (e : ε) : Reporting ε μ α := .error e

def report (message : μ) : Reporting ε μ Unit := .ok ((), [message])

protected def bind (x : Reporting ε μ α) (f : α → Reporting ε μ β) : Reporting ε μ β :=
  match x with
  | .error e => .error e
  | .ok (a, messages) =>
      match f a with
      | .error e => .error e
      | .ok (b, messages') => .ok (b, messages ++ messages')

instance : Monad (Reporting ε μ) where
  pure := quiet
  bind := Reporting.bind

section Rules

variable {x : Reporting ε μ α} {f : α → Reporting ε μ β} {a : α} {b : β}

@[simp] theorem pure_eq_quiet : (pure a : Reporting ε μ α) = quiet a := rfl

@[simp] theorem quiet_bind : ((quiet a : Reporting ε μ α) >>= f) = f a := by
  change Reporting.bind (quiet a) f = f a
  unfold Reporting.bind quiet
  simp only
  cases f a with
  | error e => rfl
  | ok result => rfl

theorem bind_of_ok {messages messages' : List μ} (first : x = .ok (a, messages))
    (rest : f a = .ok (b, messages')) : (x >>= f) = .ok (b, messages ++ messages') := by
  change Reporting.bind x f = _
  rw [first, Reporting.bind]
  simp only [rest]
  rfl

end Rules

end Reporting
