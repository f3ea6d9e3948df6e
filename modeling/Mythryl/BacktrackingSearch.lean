import Mythryl.RaisingState
import Mathlib.Order.Lattice

/-!
# Depth-first search by exceptions

A search that raises `fail` where it cannot go on, and catches it where another way is left.
-/

namespace BacktrackingSearch
open RaisingState

variable {ε σ α : Type}

def orElse [DecidableEq ε] (fail : ε) (first second : Raising ε σ α) : Raising ε σ α :=
  tryCatch first fun e => if e = fail then second else throw e

def Settles (fail : ε) (search : Nat → Raising ε σ α) (Wanted : α → Prop) : Prop :=
  ∀ s, ∃ n, (∃ a, Wanted a ∧ ∀ fuel ≥ n, outcome (search fuel) s = (.ok a, s)) ∨
    ((∀ a, ¬Wanted a) ∧ ∀ fuel ≥ n, outcome (search fuel) s = (.error fail, s))

section Rules

variable {fail : ε} {search first second : Nat → Raising ε σ α} {Wanted Wanted' : α → Prop}

theorem outcome_orElse_ok [DecidableEq ε] {first second : Raising ε σ α} {s s' : σ} {a : α}
    (found : outcome first s = (.ok a, s')) : outcome (orElse fail first second) s = (.ok a, s') := by
  rw [orElse, outcome_tryCatch, found]

theorem outcome_orElse_fail [DecidableEq ε] {first second : Raising ε σ α} {s s' : σ}
    (failed : outcome first s = (.error fail, s')) :
    outcome (orElse fail first second) s = outcome second s' := by
  rw [orElse, outcome_tryCatch, failed]
  change outcome (if fail = fail then second else throw fail) s' = outcome second s'
  rw [if_pos rfl]

theorem Settles.congr (settles : Settles fail search Wanted) (same : ∀ a, Wanted a ↔ Wanted' a) :
    Settles fail search Wanted' := by
  rwa [← funext fun a => propext (same a)]

theorem Settles.step {next : Nat → Raising ε σ α} (passes : ∀ fuel, search (fuel + 1) = next fuel)
    (settles : Settles fail next Wanted) : Settles fail search Wanted := by
  intro s
  obtain ⟨n, result⟩ := settles s
  have shifted {value : Except ε α × σ} (run : ∀ fuel ≥ n, outcome (next fuel) s = value) :
      ∀ fuel ≥ n + 1, outcome (search fuel) s = value := by
    intro fuel enough
    cases fuel with
    | zero => cases enough
    | succ fuel =>
      rw [passes]
      exact run fuel (Nat.le_of_succ_le_succ enough)
  refine ⟨n + 1, ?_⟩
  cases result with
  | inl found =>
    obtain ⟨a, wanted, run⟩ := found
    exact .inl ⟨a, wanted, shifted run⟩
  | inr failed => exact .inr ⟨failed.1, shifted failed.2⟩

theorem Settles.found {a : α} (wanted : Wanted a) :
    Settles fail (fun _ => (pure a : Raising ε σ α)) Wanted :=
  fun _ => ⟨0, .inl ⟨a, wanted, fun _ _ => rfl⟩⟩

theorem Settles.dead (none : ∀ a, ¬Wanted a) :
    Settles fail (fun _ => (throw fail : Raising ε σ α)) Wanted :=
  fun _ => ⟨0, .inr ⟨none, fun _ _ => rfl⟩⟩

theorem Settles.fails (raises : ∀ fuel, search (fuel + 1) = throw fail) (none : ∀ a, ¬Wanted a) :
    Settles fail search Wanted :=
  Settles.step raises (Settles.dead none)

theorem Settles.orElse [DecidableEq ε] (left : Settles fail first Wanted) (right : Settles fail second Wanted') :
    Settles fail (fun fuel => orElse fail (first fuel) (second fuel))
      (fun a => Wanted a ∨ Wanted' a) := by
  intro s
  obtain ⟨n, result⟩ := left s
  cases result with
  | inl found =>
    obtain ⟨a, wanted, run⟩ := found
    exact ⟨n, .inl ⟨a, .inl wanted, fun fuel enough => outcome_orElse_ok (run fuel enough)⟩⟩
  | inr failed =>
    obtain ⟨m, result'⟩ := right s
    have passed {value : Except ε α × σ} (run : ∀ fuel ≥ m, outcome (second fuel) s = value) :
        ∀ fuel ≥ max n m,
          outcome (BacktrackingSearch.orElse fail (first fuel) (second fuel)) s = value := by
      intro fuel enough
      rw [outcome_orElse_fail (failed.2 fuel (le_trans (le_max_left n m) enough))]
      exact run fuel (le_trans (le_max_right n m) enough)
    refine ⟨max n m, ?_⟩
    cases result' with
    | inl found =>
      obtain ⟨a, wanted, run⟩ := found
      exact .inl ⟨a, .inr wanted, passed run⟩
    | inr failed' =>
      refine .inr ⟨fun a wanted => ?_, passed failed'.2⟩
      exact wanted.elim (failed.1 a) (failed'.1 a)

end Rules

/-- The first search has run out of fuel, or it does what the second does; where it fails, the state
has changed as `R` allows. -/
def Steady (ranOut fail : ε) (R : σ → σ → Prop) (m m' : Raising ε σ α) : Prop :=
  ∀ s, (∃ s', outcome m s = (.error ranOut, s')) ∨
    (outcome m s = outcome m' s ∧ ∀ s', outcome m s = (.error fail, s') → R s s')

def Changes (R : σ → σ → Prop) (m : Raising ε σ α) : Prop := ∀ s, R s (outcome m s).2

section Fuel

variable {ranOut fail : ε} {R : σ → σ → Prop} {β : Type}

theorem Steady.unfinished {m : Raising ε σ α} : Steady ranOut fail R (throw ranOut) m :=
  fun s => .inl ⟨s, rfl⟩

theorem Steady.ret {a : α} : Steady ranOut fail R (pure a : Raising ε σ α) (pure a) :=
  fun _ => .inr ⟨rfl, nofun⟩

theorem Steady.bind {x : Raising ε σ β} {f f' : β → Raising ε σ α} (changes : Changes R x)
    (trans : ∀ {s s' s''}, R s s' → R s' s'' → R s s'')
    (rest : ∀ b, Steady ranOut fail R (f b) (f' b)) : Steady ranOut fail R (x >>= f) (x >>= f') := by
  intro s
  have changed := changes s
  simp only [outcome_bind]
  cases first : outcome x s with
  | mk result s' =>
    rw [first] at changed
    cases result with
    | error e =>
      refine .inr ⟨rfl, fun s'' raised => ?_⟩
      cases raised
      exact changed
    | ok b =>
      refine (rest b s').imp id fun ⟨same, restored⟩ => ⟨same, fun s'' raised => ?_⟩
      exact trans changed (restored s'' raised)

theorem Steady.orElse [DecidableEq ε] (apart : ranOut ≠ fail) {first first' second second' : Raising ε σ α}
    (trans : ∀ {s s' s''}, R s s' → R s' s'' → R s s'')
    (left : Steady ranOut fail R first first') (right : Steady ranOut fail R second second') :
    Steady ranOut fail R (orElse fail first second) (orElse fail first' second') := by
  intro s
  unfold BacktrackingSearch.orElse
  simp only [outcome_tryCatch]
  cases left s with
  | inl stopped =>
    obtain ⟨s', stopped⟩ := stopped
    refine .inl ⟨s', ?_⟩
    rw [stopped]
    simp only [if_neg apart]
    rfl
  | inr found =>
    obtain ⟨same, restored⟩ := found
    rw [← same]
    cases tried : outcome first s with
    | mk result s' =>
      cases result with
      | ok a =>
        refine .inr ⟨by simp only, fun s'' raised => ?_⟩
        cases raised
      | error e =>
        by_cases failed : e = fail
        · subst failed
          simp only [if_true]
          refine (right s').imp id fun ⟨same', restored'⟩ => ⟨same', fun s'' raised => ?_⟩
          exact trans (restored s' tried) (restored' s'' raised)
        · simp only [if_neg failed]
          refine .inr ⟨trivial, fun s'' raised => ?_⟩
          cases raised
          exact absurd rfl failed

end Fuel

end BacktrackingSearch
