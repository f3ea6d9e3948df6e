import Mathlib.Logic.Equiv.Basic
import Mathlib.Order.Lattice
import Mathlib.Order.Nat

/-! # The order of a binary heap -/

namespace BinaryHeap

variable {M : Type} [LinearOrder M]

def parent (i : Nat) : Nat := (i - 1) / 2

def Child (i c : Nat) : Prop := 0 < c ∧ parent c = i

def Ordered (f : Nat → M) (n : Nat) : Prop := ∀ i, 0 < i → i < n → f (parent i) ≤ f i

def Spans (f : Nat → M) (n i : Nat) : Prop :=
  0 < i → ∀ c, Child i c → c < n → f (parent i) ≤ f c

structure UpOrder (f : Nat → M) (n i : Nat) : Prop where
  except : ∀ k, 0 < k → k < n → k ≠ i → f (parent k) ≤ f k
  spans : Spans f n i

structure DownOrder (f : Nat → M) (n i : Nat) : Prop where
  except : ∀ k, 0 < k → k < n → parent k ≠ i → f (parent k) ≤ f k
  spans : Spans f n i

def swapped (f : Nat → M) (i j : Nat) : Nat → M := fun k => f (Equiv.swap i j k)

section Order

variable {f : Nat → M} {n i j k c : Nat}

theorem parent_lt (pos : 0 < i) : parent i < i := by
  unfold parent
  omega

theorem Child.lt (child : Child i c) : i < c := by
  rw [← child.2]
  exact parent_lt child.1

theorem child_iff : Child i c ↔ c = 2 * i + 1 ∨ c = 2 * i + 2 := by
  unfold Child parent
  omega

omit [LinearOrder M] in
@[simp] theorem swapped_left : swapped f i j i = f j := by simp [swapped]

omit [LinearOrder M] in
@[simp] theorem swapped_right : swapped f i j j = f i := by simp [swapped]

omit [LinearOrder M] in
theorem swapped_of_ne (left : k ≠ i) (right : k ≠ j) : swapped f i j k = f k := by
  rw [swapped, Equiv.swap_apply_of_ne_of_ne left right]

theorem Ordered.min (ordered : Ordered f n) (less : i < n) : f 0 ≤ f i := by
  induction i using Nat.strongRecOn with
  | ind i ih =>
    by_cases pos : 0 < i
    · have lower := parent_lt pos
      exact (ih _ lower (lower.trans less)).trans (ordered i pos less)
    · rw [Nat.eq_zero_of_not_pos pos]

theorem Ordered.upOrder (ordered : Ordered f n) : UpOrder f n i := by
  constructor
  · exact fun k pos less _ => ordered k pos less
  · intro pos c child less
    have iLess := child.lt.trans less
    have upper := ordered c child.1 less
    rw [child.2] at upper
    exact (ordered i pos iLess).trans upper

theorem UpOrder.ordered (order : UpOrder f n i) (here : 0 < i → f (parent i) ≤ f i) :
    Ordered f n := by
  intro k pos less
  by_cases same : k = i
  · rw [same] at pos ⊢
    exact here pos
  · exact order.except k pos less same

theorem UpOrder.step (order : UpOrder f n i) (pos : 0 < i) (less : i < n)
    (lower : f i < f (parent i)) : UpOrder (swapped f i (parent i)) n (parent i) := by
  have parentLt := parent_lt pos
  have above (p : 0 < parent i) : f (parent (parent i)) ≤ f (parent i) :=
    order.except _ p (parentLt.trans less) parentLt.ne
  constructor
  · intro k posK lessK other
    by_cases same : k = i
    · rw [same, swapped_left, swapped_right]
      exact lower.le
    rw [swapped_of_ne same other]
    by_cases below : parent k = i
    · rw [below, swapped_left]
      exact order.spans pos k ⟨posK, below⟩ lessK
    by_cases beside : parent k = parent i
    · rw [beside, swapped_right]
      have upper := order.except k posK lessK same
      rw [beside] at upper
      exact lower.le.trans upper
    · rw [swapped_of_ne below beside]
      exact order.except k posK lessK same
  · intro posP c child lessC
    have higher := parent_lt posP
    rw [swapped_of_ne (higher.trans parentLt).ne higher.ne]
    by_cases same : c = i
    · rw [same, swapped_left]
      exact above posP
    · rw [swapped_of_ne same child.lt.ne']
      have upper := order.except c child.1 lessC same
      rw [child.2] at upper
      exact (above posP).trans upper

theorem DownOrder.ordered (order : DownOrder f n i) (here : ∀ c, Child i c → c < n → f i ≤ f c) :
    Ordered f n := by
  intro k pos less
  by_cases same : parent k = i
  · rw [same]
    exact here k ⟨pos, same⟩ less
  · exact order.except k pos less same

theorem DownOrder.step (order : DownOrder f n i) (child : Child i c) (less : c < n)
    (lower : f c < f i) (least : ∀ c', Child i c' → c' < n → f c ≤ f c') :
    DownOrder (swapped f i c) n c := by
  have iLt := child.lt
  constructor
  · intro k pos lessK other
    by_cases below : parent k = i
    · rw [below, swapped_left]
      by_cases same : k = c
      · rw [same, swapped_right]
        exact lower.le
      · have kLt : i < k := Child.lt ⟨pos, below⟩
        rw [swapped_of_ne kLt.ne' same]
        exact least k ⟨pos, below⟩ lessK
    · rw [swapped_of_ne below other]
      by_cases same : k = i
      · rw [same, swapped_left]
        rw [same] at pos
        exact order.spans pos c child less
      · have notC : k ≠ c := fun eq => below (eq ▸ child.2)
        rw [swapped_of_ne same notC]
        exact order.except k pos lessK below
  · intro _ c' child' less'
    have cLt := child'.lt
    rw [child.2, swapped_left, swapped_of_ne (iLt.trans cLt).ne' cLt.ne']
    have upper := order.except c' child'.1 less' (by rw [child'.2]; exact iLt.ne')
    rw [child'.2] at upper
    exact upper

end Order

end BinaryHeap
