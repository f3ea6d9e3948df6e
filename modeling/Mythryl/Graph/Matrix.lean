import Mathlib.Algebra.Order.Monoid.Unbundled.WithTop
import Mythryl.Graph.OopDigraph

/-!
# Matrices

`matrix`: the rows stand one after another in a vector.
-/

namespace Mythryl.Graph

structure Matrix (α : Type) where
  data : RwVector α
  nrows : Int
  ncols : Int

namespace Matrix

variable {α : Type}

def maximumVectorLength : Int := 2 ^ (31 - 7) - 1

def checkSize (nrows ncols : Int) : Except Raised Int :=
  if nrows < 0 ∨ ncols < 0 then .error .size
  else if nrows * ncols > maximumVectorLength then .error .size
  else .ok (nrows * ncols)

def makeMatrix (nrows ncols : Int) (v : α) : Except Raised (Matrix α) := do
  let n ← checkSize nrows ncols
  if n = 0 then .ok ⟨RwVector.makeRwVector 0 v, 0, 0⟩
  else .ok ⟨RwVector.makeRwVector n v, nrows, ncols⟩

variable (arr : Matrix α) (i j : Int)

def Within : Prop := (0 ≤ i ∧ i < arr.nrows) ∧ 0 ≤ j ∧ j < arr.ncols

instance : Decidable (arr.Within i j) :=
  inferInstanceAs (Decidable ((0 ≤ i ∧ i < arr.nrows) ∧ 0 ≤ j ∧ j < arr.ncols))

def unsafeIndex : Int := i * arr.ncols + j

def index : Except Raised Int :=
  if arr.Within i j then .ok (arr.unsafeIndex i j) else .error .subscript

def get : Except Raised α := do
  let k ← arr.index i j
  .ok (arr.data.cell k)

def set (v : α) : Except Raised (Matrix α) := do
  let k ← arr.index i j
  .ok { arr with data := arr.data.put k v }

def entry : α := arr.data.cell (arr.unsafeIndex i j)

def enter (v : α) : Matrix α := { arr with data := arr.data.put (arr.unsafeIndex i j) v }

variable {arr i j} {i' j' n : Int} {v : α}

theorem get_of_within (within : arr.Within i j) : arr.get i j = .ok (arr.entry i j) := by
  rw [get, index, if_pos within]
  rfl

theorem get_of_not_within (outside : ¬arr.Within i j) : arr.get i j = .error .subscript := by
  rw [get, index, if_neg outside]
  rfl

theorem set_of_within (within : arr.Within i j) : arr.set i j v = .ok (arr.enter i j v) := by
  rw [set, index, if_pos within]
  rfl

@[simp] theorem enter_nrows : (arr.enter i j v).nrows = arr.nrows := rfl

@[simp] theorem enter_ncols : (arr.enter i j v).ncols = arr.ncols := rfl

@[simp] theorem enter_entry_self : (arr.enter i j v).entry i j = v := RwVector.put_cell_self

theorem unsafeIndex_inj (within : arr.Within i j) (within' : arr.Within i' j')
    (same : arr.unsafeIndex i j = arr.unsafeIndex i' j') : i = i' ∧ j = j' := by
  have column {i j : Int} (within : arr.Within i j) : arr.unsafeIndex i j % arr.ncols = j := by
    rw [unsafeIndex, Int.add_comm, Int.add_mul_emod_self_right]
    exact Int.emod_eq_of_lt within.2.1 within.2.2
  have columns : j = j' := by rw [← column within, same, column within']
  subst columns
  have products : i * arr.ncols = i' * arr.ncols := add_right_cancel same
  have wide : 0 < arr.ncols := Int.lt_of_le_of_lt within.2.1 within.2.2
  exact ⟨Int.eq_of_mul_eq_mul_right (Int.ne_of_gt wide) products, rfl⟩

theorem enter_entry_of_ne (within : arr.Within i j) (within' : arr.Within i' j')
    (other : ¬(i' = i ∧ j' = j)) : (arr.enter i j v).entry i' j' = arr.entry i' j' :=
  RwVector.put_cell_of_ne fun same => other (unsafeIndex_inj within' within same)

structure Square (arr : Matrix α) (n : Int) : Prop where
  nrows : arr.nrows = n
  ncols : arr.ncols = n

theorem Square.within_iff (square : arr.Square n) :
    arr.Within i j ↔ (0 ≤ i ∧ i < n) ∧ 0 ≤ j ∧ j < n := by
  rw [Within, square.nrows, square.ncols]

theorem Square.within (square : arr.Square n) (row : 0 ≤ i ∧ i < n) (column : 0 ≤ j ∧ j < n) :
    arr.Within i j := square.within_iff.mpr ⟨row, column⟩

theorem Square.enter (square : arr.Square n) : (arr.enter i j v).Square n :=
  ⟨square.nrows, square.ncols⟩

theorem makeMatrix_square (pos : 0 < n) (fits : n * n ≤ maximumVectorLength) :
    ∃ arr : Matrix α, makeMatrix n n v = .ok arr ∧ arr.Square n ∧ ∀ i j, arr.entry i j = v := by
  refine ⟨⟨RwVector.makeRwVector (n * n) v, n, n⟩, ?_, ⟨rfl, rfl⟩, fun _ _ => rfl⟩
  have positive : ¬(n < 0 ∨ n < 0) := by omega
  rw [makeMatrix, checkSize, if_neg positive, if_neg (Int.not_lt.mpr fits), ok_bind,
    if_neg (Int.ne_of_gt (Int.mul_pos pos pos))]

theorem makeMatrix_large (large : maximumVectorLength < n * n) :
    makeMatrix n n v = .error .size := by
  have raises : checkSize n n = .error .size := by
    rw [checkSize, if_pos large, ite_self]
  rw [makeMatrix, raises]
  rfl

end Matrix

structure Paths (G : Type) where
  dist : Matrix (WithTop G)
  prior : Matrix Int

structure Paths.Square {G : Type} (paths : Paths G) (n : Int) : Prop where
  dist : paths.dist.Square n
  prior : paths.prior.Square n

end Mythryl.Graph
