import Mathlib.Data.List.Basic
import Mathlib.Tactic.Common

/-!
# Readers

A reader takes characters from any source through a function `getc`.
-/

namespace Reader

abbrev Getc (σ : Type) := σ → Option (Char × σ)

variable {σ : Type} {getc : Getc σ}

/-- The source reads `cs` from `s` and then is at `s'`. -/
def Reads (getc : Getc σ) : List Char → σ → σ → Prop
  | [], s, s' => s = s'
  | c :: cs, s, s' => ∃ m, getc s = some (c, m) ∧ Reads getc cs m s'

variable {s s' : σ}

@[simp] theorem reads_nil : Reads getc [] s s' ↔ s = s' := Iff.rfl

@[simp] theorem reads_cons {c : Char} {cs : List Char} :
    Reads getc (c :: cs) s s' ↔ ∃ m, getc s = some (c, m) ∧ Reads getc cs m s' := Iff.rfl

theorem reads_append {xs ys : List Char} :
    Reads getc (xs ++ ys) s s' ↔ ∃ m, Reads getc xs s m ∧ Reads getc ys m s' := by
  induction xs generalizing s with
  | nil => simp
  | cons x xs ih =>
    simp only [List.cons_append, reads_cons, ih]
    constructor
    · rintro ⟨m, get, m', left, right⟩
      exact ⟨m', ⟨m, get, left⟩, right⟩
    · rintro ⟨m', ⟨m, get, left⟩, right⟩
      exact ⟨m, get, m', left, right⟩

def ofList : Getc (List Char)
  | [] => none
  | c :: cs => some (c, cs)

theorem reads_ofList (cs rest : List Char) : Reads ofList cs (cs ++ rest) rest := by
  induction cs with
  | nil => rfl
  | cons c cs ih => exact ⟨cs ++ rest, rfl, ih⟩

def ofString (cs : List Char) : Getc Nat := fun i => cs[i]?.map fun c => (c, i + 1)

theorem reads_ofString (cs : List Char) : Reads (ofString cs) cs 0 cs.length := by
  suffices ∀ left right, cs = left ++ right → Reads (ofString cs) right left.length cs.length from
    this [] cs rfl
  intro left right
  induction right generalizing left with
  | nil => rintro rfl; simp
  | cons c right ih =>
    intro eq
    refine ⟨left.length + 1, by simp [ofString, eq], ?_⟩
    simpa using ih (left ++ [c]) (by simpa using eq)

def Stops (getc : Getc σ) (wanted : Char → Prop) (s : σ) : Prop :=
  ∀ c s', getc s = some (c, s') → ¬wanted c

variable {α δ ε : Type}

def digits (out : ε) (getc : Getc σ) (digVal : Char → Option δ) (step : α → δ → Except ε α) :
    Nat → α → σ → Except ε (α × σ)
  | 0, _, _ => .error out
  | fuel + 1, a, s =>
      match getc s with
      | none => .ok (a, s)
      | some (c, s') =>
          match digVal c with
          | none => .ok (a, s)
          | some d => do digits out getc digVal step fuel (← step a d) s'

theorem digits_eq (out : ε) (step : α → δ → Except ε α) {digVal : Char → Option δ} {cs : List Char}
    {ds : List δ} {fuel : Nat} (reads : Reads getc cs s s')
    (vals : cs.map digVal = ds.map some) (stops : Stops getc (fun c => (digVal c).isSome) s')
    (enough : cs.length < fuel) (a : α) :
    digits out getc digVal step fuel a s = (ds.foldlM step a).map (·, s') := by
  induction cs generalizing ds s fuel a with
  | nil =>
    obtain rfl : ds = [] := by simpa using vals.symm
    obtain ⟨fuel, rfl⟩ : ∃ n, fuel = n + 1 := ⟨fuel - 1, by simp at enough; omega⟩
    cases reads
    rw [digits]
    rcases get : getc s' with _ | ⟨c, m⟩
    · rfl
    · have none : digVal c = none := by simpa using stops c m get
      simp only [none]
      rfl
  | cons c cs ih =>
    rcases ds with _ | ⟨d, ds⟩
    · simp at vals
    obtain ⟨fuel, rfl⟩ : ∃ n, fuel = n + 1 := ⟨fuel - 1, by simp at enough; omega⟩
    obtain ⟨m, get, rest⟩ := reads
    simp only [List.map_cons, List.cons.injEq] at vals
    simp only [digits, get, vals.1, List.foldlM_cons]
    cases step a d with
    | error e => rfl
    | ok a' => exact ih rest vals.2 (by simpa using enough) a'

def skip (out : ε) (getc : Getc σ) (isWs : Char → Bool) : Nat → σ → Except ε σ
  | 0, _ => .error out
  | fuel + 1, s =>
      match getc s with
      | none => .ok s
      | some (c, s') => if isWs c then skip out getc isWs fuel s' else .ok s

theorem skip_eq {out : ε} {isWs : Char → Bool} {fuel : Nat}
    (stops : Stops getc (fun c => isWs c = true) s) (enough : 0 < fuel) :
    skip out getc isWs fuel s = .ok s := by
  obtain ⟨fuel, rfl⟩ : ∃ n, fuel = n + 1 := ⟨fuel - 1, by omega⟩
  rw [skip]
  rcases get : getc s with _ | ⟨c, m⟩
  · rfl
  · simp [stops c m get]

end Reader
