import Mathlib.Data.List.Basic

/-! # Paths that are resolved by their text alone -/

namespace LexicalPath

variable {α : Type}

inductive Step (α : Type)
  | stay
  | up
  | down (name : α)
  deriving DecidableEq, Repr

/-- So many levels above the start, and from there down through the names, the last of them first. -/
structure Location (α : Type) where
  ups : Nat
  names : List α
  deriving DecidableEq, Repr

def start : Location α := ⟨0, []⟩

def move (rooted : Bool) (here : Location α) : Step α → Location α
  | .stay => here
  | .down name => ⟨here.ups, name :: here.names⟩
  | .up =>
      match here.names with
      | _ :: names => ⟨here.ups, names⟩
      | [] => if rooted then here else ⟨here.ups + 1, []⟩

def follow (rooted : Bool) (steps : List (Step α)) (here : Location α) : Location α :=
  steps.foldl (move rooted) here

def Location.steps (location : Location α) : List (Step α) :=
  List.replicate location.ups .up ++ location.names.reverse.map .down

@[simp] theorem follow_nil (rooted : Bool) (here : Location α) : follow rooted [] here = here := rfl

@[simp] theorem follow_cons (rooted : Bool) (step : Step α) (steps : List (Step α))
    (here : Location α) :
    follow rooted (step :: steps) here = follow rooted steps (move rooted here step) := rfl

theorem follow_append (rooted : Bool) (steps steps' : List (Step α)) (here : Location α) :
    follow rooted (steps ++ steps') here = follow rooted steps' (follow rooted steps here) :=
  List.foldl_append

theorem follow_up (n ups : Nat) :
    follow false (List.replicate n .up) (⟨ups, []⟩ : Location α) = ⟨ups + n, []⟩ := by
  induction n generalizing ups with
  | zero => rfl
  | succ n ih =>
    rw [List.replicate_succ, follow_cons]
    exact (ih (ups + 1)).trans (by rw [Nat.add_right_comm, Nat.add_assoc])

theorem follow_down (rooted : Bool) (names : List α) (here : Location α) :
    follow rooted (names.map .down) here = ⟨here.ups, names.reverse ++ here.names⟩ := by
  induction names generalizing here with
  | nil => rfl
  | cons name names ih =>
    rw [List.map_cons, follow_cons, ih, List.reverse_cons, List.append_assoc]
    rfl

theorem follow_steps {rooted : Bool} {location : Location α} (h : rooted = true → location.ups = 0) :
    follow rooted location.steps start = location := by
  have up : follow rooted (List.replicate location.ups .up) start = (⟨location.ups, []⟩ : Location α) := by
    cases rooted with
    | true =>
      rw [h rfl]
      rfl
    | false => exact (follow_up location.ups 0).trans (by rw [Nat.zero_add])
  rw [Location.steps, follow_append, up, follow_down, List.reverse_reverse, List.append_nil]

theorem follow_rooted (steps : List (Step α)) (here : Location α) :
    follow true steps ⟨0, here.names⟩ = ⟨0, (follow false steps here).names⟩ := by
  induction steps generalizing here with
  | nil => rfl
  | cons step steps ih =>
    rw [follow_cons, follow_cons, ← ih]
    congr 1
    cases step with
    | stay => rfl
    | down name => rfl
    | up =>
      obtain ⟨ups, names⟩ := here
      cases names <;> rfl

end LexicalPath
