import Mythryl.RaisingState
import Mathlib.Data.Multiset.AddSub
import Mathlib.Order.Antisymmetrization

/-!
# Priority queues

What the packages with the api `Priority_Queue` are for.
-/

namespace Mythryl.PriorityQueue
open RaisingState

inductive Raised
  | emptyPriorityQueue
  | indexOutOfBounds

inductive Operation (X : Type)
  | set (x : X)
  | min
  | deleteMin
  | clear
  | fromList (data : List X)

variable {X : Type}

def Least (less : X → X → Bool) (s : Multiset X) (m : X) : Prop := ∀ x ∈ s, less x m = false

def Performs (less : X → X → Bool) (s : Multiset X) (answer : Except Raised (Option X))
    (s' : Multiset X) : Operation X → Prop
  | .set x => answer = .ok none ∧ s' = x ::ₘ s
  | .min => s' = s ∧ ((s = 0 ∧ answer = .error .emptyPriorityQueue) ∨
      ∃ m ∈ s, Least less s m ∧ answer = .ok (some m))
  | .deleteMin => (s = 0 ∧ s' = 0 ∧ answer = .error .emptyPriorityQueue) ∨
      ∃ m, s = m ::ₘ s' ∧ Least less s m ∧ answer = .ok (some m)
  | .clear => answer = .ok none ∧ s' = 0
  | .fromList data => answer = .ok none ∧ s' = data

structure Implementation (X : Type) where
  State : Type
  perform : Operation X → Raising Raised State (Option X)
  items : State → Multiset X
  HeapOrdered : State → Prop
  Fits : State → Operation X → Prop

def Implementation.Refines (Q : Implementation X) (less : X → X → Bool) :
    Q.State → List (Operation X) → Prop
  | _, [] => True
  | q, op :: ops => Q.Fits q op →
      Performs less (Q.items q) (outcome (Q.perform op) q).1
        (Q.items (outcome (Q.perform op) q).2) op ∧
      Q.HeapOrdered (outcome (Q.perform op) q).2 ∧
      Refines Q less (outcome (Q.perform op) q).2 ops

theorem Implementation.refines {Q : Implementation X} {less : X → X → Bool}
    (step : ∀ q op, Q.HeapOrdered q → Q.Fits q op → Performs less (Q.items q)
      (outcome (Q.perform op) q).1 (Q.items (outcome (Q.perform op) q).2) op ∧
        Q.HeapOrdered (outcome (Q.perform op) q).2)
    (q : Q.State) (start : Q.HeapOrdered q) (ops : List (Operation X)) : Q.Refines less q ops := by
  induction ops generalizing q with
  | nil => trivial
  | cons op ops ih =>
    intro fits
    obtain ⟨performs, ordered⟩ := step q op start fits
    exact ⟨performs, ordered, ih _ ordered⟩

/-! Taking all elements. -/

def Implementation.answers (Q : Implementation X) :
    Q.State → List (Operation X) → List (Except Raised (Option X))
  | _, [] => []
  | q, op :: ops =>
      (outcome (Q.perform op) q).1 :: Q.answers (outcome (Q.perform op) q).2 ops

/-- `deleteMin` answers all elements in ascending order, and then raises. -/
def Implementation.Drains (Q : Implementation X) (less : X → X → Bool) (q : Q.State) : Prop :=
  ∃ sorted : List X, (sorted : Multiset X) = Q.items q ∧
    sorted.Pairwise (fun x y => less y x = false) ∧
    Q.answers q (List.replicate (sorted.length + 1) .deleteMin) =
      (sorted.map fun x => .ok (some x)) ++ [.error .emptyPriorityQueue]

theorem Implementation.drains {Q : Implementation X} {less : X → X → Bool}
    (step : ∀ q, Q.HeapOrdered q → Performs less (Q.items q) (outcome (Q.perform .deleteMin) q).1
      (Q.items (outcome (Q.perform .deleteMin) q).2) .deleteMin ∧
        Q.HeapOrdered (outcome (Q.perform .deleteMin) q).2)
    (q : Q.State) (ordered : Q.HeapOrdered q) : Q.Drains less q := by
  induction size : (Q.items q).card generalizing q with
  | zero =>
    rcases (step q ordered).1 with ⟨none, -, raised⟩ | ⟨m, whole, -⟩
    · exact ⟨[], none.symm, .nil, by simp [answers, raised]⟩
    · simp [whole] at size
  | succ n ih =>
    obtain ⟨⟨none, -⟩ | ⟨m, whole, least, answer⟩, ordered'⟩ := step q ordered
    · simp [none] at size
    obtain ⟨sorted, all, ascends, answers⟩ := ih _ ordered' (by simpa [whole] using size)
    refine ⟨m :: sorted, ?_, List.pairwise_cons.mpr ⟨fun x mem => least x ?_, ascends⟩, ?_⟩
    · rw [whole, ← all, Multiset.cons_coe]
    · rw [whole, ← all]
      exact Multiset.mem_cons_of_mem mem
    · rw [List.length_cons, List.replicate_succ, Implementation.answers, answer, answers]
      rfl

theorem exists_rank (less : X → X → Bool) [order : IsStrictWeakOrder X fun x y => less x y] :
    ∃ (M : Type) (_ : LinearOrder M) (rank : X → M),
      ∀ x y, less x y = decide (rank x < rank y) := by
  classical
  have asymm (x y : X) (lower : less x y) : ¬less y x := fun upper =>
    order.irrefl x (order.trans x y x lower upper)
  let preorder : Preorder X := {
    le := fun x y => ¬less y x
    lt := fun x y => less x y
    le_refl := order.irrefl
    le_trans := by
      intro x y z yx zy zx
      by_cases xy : less x y
      · exact zy (order.trans z x y zx xy)
      by_cases yz : less y z
      · exact yx (order.trans y z x yz zx)
      · exact (order.incomp_trans x y z ⟨xy, yx⟩ ⟨yz, zy⟩).2 zx
    lt_iff_le_not_ge := by
      intro x y
      simpa using fun lower => by simpa using asymm x y lower }
  have total : @Std.Total X (· ≤ ·) := ⟨fun x y => by
    by_cases lower : less y x
    · exact .inr (asymm y x lower)
    · exact .inl lower⟩
  refine ⟨Antisymmetrization X (· ≤ ·), inferInstance, toAntisymmetrization (· ≤ ·), ?_⟩
  intro x y
  rw [Bool.eq_iff_iff, decide_eq_true_iff]
  exact (@toAntisymmetrization_lt_toAntisymmetrization_iff X x y preorder).symm

end Mythryl.PriorityQueue
