import Mythryl.CoreTwoWordInt.Arithmetic

/-!
# The order of two-word integers

The four relations of `core_two_word_int`, and `compare` of `two_word_int`, which is written apart
from them.
-/

namespace Mythryl.CoreTwoWordInt
open Nat Numeral CoreMultiwordInt

def lt64 (x y : TwoWord) : Bool :=
  let normal := decide (x.hi < y.hi) || (x.hi == y.hi && decide (x.lo < y.lo))
  if isneg x.hi then
    if isneg y.hi then normal else true
  else normal

def gt64 (x y : TwoWord) : Bool := lt64 y x
def le64 (x y : TwoWord) : Bool := !gt64 x y
def ge64 (x y : TwoWord) : Bool := !lt64 x y

def abs64 (x : TwoWord) : Outcome TwoWord := if isneg x.hi then neg64 x else return x

end Mythryl.CoreTwoWordInt

namespace Mythryl.TwoWordInt
open CoreMultiwordInt CoreTwoWordInt

def compare (x y : TwoWord) : Ordering :=
  let normal : Ordering :=
    if x.hi < y.hi then .lt
    else if y.hi < x.hi then .gt
    else if x.lo < y.lo then .lt
    else if y.lo < x.lo then .gt
    else .eq
  if isneg x.hi then
    if isneg y.hi then normal else .lt
  else if isneg y.hi then .gt
  else normal

end Mythryl.TwoWordInt

namespace Mythryl.CoreTwoWordInt
open Nat Numeral CoreMultiwordInt

section Words

variable (x y : TwoWordInt)

theorem isneg_eq : isneg x.hi = decide (x.toInt < 0) := by
  have sign := hi_lt_iff x
  rw [isneg, negbit_eq x.hi_lt]
  split
  case isTrue low =>
    have nonneg := sign.mp low
    simp [nonneg]
  case isFalse high =>
    have negative : x.toInt < 0 := not_le.mp (mt sign.mpr high)
    simp [negative]

theorem toInt_lt_iff (same : x.toInt < 0 ↔ y.toInt < 0) :
    x.toInt < y.toInt ↔ x.hi < y.hi ∨ x.hi = y.hi ∧ x.lo < y.lo := by
  have signs := hi_lt_iff x
  have signs' := hi_lt_iff y
  have low := x.lo_lt
  have low' := y.lo_lt
  simp only [TwoWord.toInt, TwoWord.toNat] at *
  split at * <;> split at * <;> omega

theorem hi_lt_of_signs (nonneg : 0 ≤ x.toInt) (neg : y.toInt < 0) : x.hi < y.hi := by
  have low := (hi_lt_iff x).mpr nonneg
  have high := mt (hi_lt_iff y).mp (not_le.mpr neg)
  omega

theorem normal_eq (same : x.toInt < 0 ↔ y.toInt < 0) :
    (decide (x.hi < y.hi) || (x.hi == y.hi && decide (x.lo < y.lo))) = decide (x.toInt < y.toInt) := by
  simp only [toInt_lt_iff x y same, Bool.decide_or, Bool.decide_and]
  rfl

theorem lt64_eq (same : x.toInt < 0 ↔ y.toInt < 0) :
    lt64 x.toTwoWord y.toTwoWord = decide (x.toInt < y.toInt) := by
  rw [lt64, isneg_eq, isneg_eq, normal_eq x y same]
  simp only [same, decide_eq_true_eq]
  split <;> rfl

theorem lt64_of_signs (other : ¬(x.toInt < 0 ↔ y.toInt < 0)) :
    lt64 x.toTwoWord y.toTwoWord = true := by
  rw [lt64, isneg_eq, isneg_eq]
  by_cases neg : x.toInt < 0
  · have nonneg : ¬y.toInt < 0 := fun neg' => other (iff_of_true neg neg')
    simp [neg, nonneg]
  · have neg' : y.toInt < 0 := by
      by_contra nonneg'
      exact other (iff_of_false neg nonneg')
    simp [neg, hi_lt_of_signs x y (not_lt.mp neg) neg']

theorem normal_compare (same : x.toInt < 0 ↔ y.toInt < 0) :
    (if x.hi < y.hi then .lt else if y.hi < x.hi then .gt
      else if x.lo < y.lo then .lt else if y.lo < x.lo then .gt else .eq : Ordering) =
    Ord.compare x.toInt y.toInt := by
  have less := toInt_lt_iff x y same
  have greater := toInt_lt_iff y x same.symm
  split
  case isTrue hi => exact (compare_lt_iff_lt.mpr (less.mpr (.inl hi))).symm
  case isFalse notLess =>
  split
  case isTrue hi => exact (compare_gt_iff_gt.mpr (greater.mpr (.inl hi))).symm
  case isFalse notGreater =>
  have top : x.hi = y.hi := le_antisymm (not_lt.mp notGreater) (not_lt.mp notLess)
  split
  case isTrue lo => exact (compare_lt_iff_lt.mpr (less.mpr (.inr ⟨top, lo⟩))).symm
  case isFalse notLess' =>
  split
  case isTrue lo => exact (compare_gt_iff_gt.mpr (greater.mpr (.inr ⟨top.symm, lo⟩))).symm
  case isFalse notGreater' =>
  have equal : x.toInt = y.toInt := by omega
  exact (compare_eq_iff_eq.mpr equal).symm

theorem compare_eq : TwoWordInt.compare x.toTwoWord y.toTwoWord = Ord.compare x.toInt y.toInt := by
  rw [TwoWordInt.compare, isneg_eq, isneg_eq]
  by_cases neg : x.toInt < 0 <;> by_cases neg' : y.toInt < 0
  · simpa [neg, neg'] using normal_compare x y (iff_of_true neg neg')
  · have less : x.toInt < y.toInt := by omega
    simpa [neg, neg'] using (compare_lt_iff_lt.mpr less).symm
  · have greater : y.toInt < x.toInt := by omega
    simpa [neg, neg'] using (compare_gt_iff_gt.mpr greater).symm
  · simpa [neg, neg'] using normal_compare x y (iff_of_false neg neg')

structure Ordered (x y : TwoWord) : Prop where
  lt : lt64 x y = decide (x.toInt < y.toInt)
  le : le64 x y = decide (x.toInt ≤ y.toInt)
  gt : gt64 x y = decide (x.toInt > y.toInt)
  ge : ge64 x y = decide (x.toInt ≥ y.toInt)
  compare : TwoWordInt.compare x y = Ord.compare x.toInt y.toInt
  lt_compare : lt64 x y = (TwoWordInt.compare x y == .lt)
  gt_compare : gt64 x y = (TwoWordInt.compare x y == .gt)

theorem order_exact_iff : Ordered x.toTwoWord y.toTwoWord ↔ (x.toInt < 0 ↔ y.toInt < 0) := by
  constructor
  · intro ordered
    by_contra other
    have less := lt64_of_signs x y other
    have greater := lt64_of_signs y x (fun same => other same.symm)
    rw [ordered.lt, decide_eq_true_eq] at less
    have swapped : gt64 x.toTwoWord y.toTwoWord = true := greater
    rw [ordered.gt, decide_eq_true_eq] at swapped
    omega
  · intro same
    have less := lt64_eq x y same
    have greater := lt64_eq y x same.symm
    have order := compare_eq x y
    constructor
    · exact less
    · simp only [le64, gt64, greater, ← decide_not, not_lt]
    · exact greater
    · simp only [ge64, less, ← decide_not, not_lt, ge_iff_le]
    · exact order
    · rw [less, order, Bool.eq_iff_iff, decide_eq_true_eq, beq_iff_eq, compare_lt_iff_lt]
    · rw [gt64, greater, order, Bool.eq_iff_iff, decide_eq_true_eq, beq_iff_eq, compare_gt_iff_gt]

end Words

theorem lt64_zero_minusOne : lt64 ⟨0, 0⟩ ⟨0xffffffff, 0xffffffff⟩ = true ∧
    lt64 ⟨0xffffffff, 0xffffffff⟩ ⟨0, 0⟩ = true ∧
    TwoWordInt.compare ⟨0, 0⟩ ⟨0xffffffff, 0xffffffff⟩ = .gt := by decide

end Mythryl.CoreTwoWordInt
