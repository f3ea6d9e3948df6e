import Mathlib.Data.Set.Insert
import Mathlib.Logic.Relation

/-! # Paths when some nodes are redirected -/

namespace Redirection

open Relation

variable {α : Type} {r s : α → α → Prop} {P : Set α} {v a b : α}

theorem stays (closed : ∀ a ∈ P, ∀ b, r a b → b ∈ P) (start : a ∈ P) (path : ReflTransGen r a b) :
    b ∈ P := by
  induction path with
  | refl => exact start
  | tail _ edge mem => exact closed _ mem _ edge

theorem first_redirected (same : ∀ a ∉ P, ∀ b, r a b → s a b) (path : ReflTransGen r a b) :
    ReflTransGen s a b ∨ ∃ p ∈ P, ReflTransGen s a p ∧ ReflTransGen r p b := by
  induction path using ReflTransGen.head_induction_on with
  | refl => exact .inl .refl
  | @head a c edge path ih =>
    by_cases mem : a ∈ P
    · exact .inr ⟨a, mem, .refl, .head edge path⟩
    · have edge' := same a mem c edge
      rcases ih with whole | ⟨p, memP, upTo, rest⟩
      · exact .inl (.head edge' whole)
      · exact .inr ⟨p, memP, .head edge' upTo, rest⟩

theorem reaches_redirected (same : ∀ a ≠ v, ∀ b, r a b → s a b) (path : ReflTransGen r a v) :
    ReflTransGen s a v := by
  rcases first_redirected (P := {v}) same path with whole | ⟨p, rfl, upTo, _⟩
  · exact whole
  · exact upTo

theorem cycle_redirected (same : ∀ a ≠ v, ∀ b, s a b → r a b) (path : TransGen s a b) :
    TransGen r a b ∨ ReflTransGen s a v ∧ TransGen s v b := by
  induction path with
  | @single b edge =>
    by_cases here : a = v
    · subst here
      exact .inr ⟨.refl, .single edge⟩
    · exact .inl (.single (same a here b edge))
  | @tail b c path edge ih =>
    rcases ih with whole | ⟨upTo, rest⟩
    · by_cases here : b = v
      · subst here
        exact .inr ⟨path.to_reflTransGen, .single edge⟩
      · exact .inl (whole.tail (same b here c edge))
    · exact .inr ⟨upTo, rest.tail edge⟩

theorem acyclic_redirected (same : ∀ a ≠ v, ∀ b, s a b → r a b)
    (fresh : ∀ b, s v b → ¬ReflTransGen r b v) (acyclic : ¬TransGen r a a) : ¬TransGen s a a := by
  intro cycle
  rcases cycle_redirected same cycle with whole | ⟨upTo, rest⟩
  · exact acyclic whole
  · obtain ⟨b, edge, back⟩ := TransGen.head'_iff.mp (rest.trans_left upTo)
    exact fresh b edge (reaches_redirected same back)

end Redirection
