import Mathlib.Algebra.BigOperators.Ring.Finset
import Mathlib.Algebra.Order.BigOperators.Group.Finset
import Mathlib.Algebra.Order.Group.Defs
import Mathlib.Data.Int.Interval
import Mathlib.Logic.Relation
import Mathlib.Tactic.Abel

/-! # Flow networks -/

namespace FlowNetworks

variable {N K G : Type}

structure Network (N K G : Type) where
  arcs : List K
  source : K → N
  target : K → N
  capacity : K → G

namespace Network

variable [AddCommGroup G]

section Definitions

variable (network : Network N K G)

def netOut [DecidableEq N] (flow : K → G) (x : N) : G :=
  (network.arcs.map fun k =>
    (if network.source k = x then flow k else 0) - if network.target k = x then flow k else 0).sum

def leaving (f : K → G) (X : N → Prop) [DecidablePred X] : G :=
  (network.arcs.map fun k => if X (network.source k) ∧ ¬X (network.target k) then f k else 0).sum

def entering (f : K → G) (X : N → Prop) [DecidablePred X] : G :=
  (network.arcs.map fun k => if ¬X (network.source k) ∧ X (network.target k) then f k else 0).sum

def Bounded [LinearOrder G] (flow : K → G) : Prop :=
  ∀ k ∈ network.arcs, 0 ≤ flow k ∧ flow k ≤ network.capacity k

def Residual [LinearOrder G] (flow : K → G) (x y : N) : Prop :=
  ∃ k ∈ network.arcs, network.source k = x ∧ network.target k = y ∧ flow k < network.capacity k ∨
    network.source k = y ∧ network.target k = x ∧ 0 < flow k

def Within (V : Finset N) : Prop :=
  ∀ k ∈ network.arcs, network.source k ∈ V ∧ network.target k ∈ V

end Definitions

section Cuts

variable {network : Network N K G} {flow : K → G} {V X : Finset N} {s t x y : N}

theorem sum_netOut [DecidableEq N] (X : Finset N) : ∑ x ∈ X, network.netOut flow x =
    network.leaving flow (· ∈ X) - network.entering flow (· ∈ X) := by
  unfold netOut leaving entering
  induction network.arcs with
  | nil => simp
  | cons k arcs ih =>
    simp only [List.map_cons, List.sum_cons, Finset.sum_add_distrib, ih, Finset.sum_sub_distrib,
      Finset.sum_ite_eq]
    by_cases inS : network.source k ∈ X
    · by_cases inT : network.target k ∈ X
      · simp [inS, inT]
      · simp [inS, inT]
        abel
    · by_cases inT : network.target k ∈ X
      · simp [inS, inT]
        abel
      · simp [inS, inT]

variable [LinearOrder G] [IsOrderedAddMonoid G]

omit [IsOrderedAddMonoid G] in
theorem Residual.mem (residual : network.Residual flow x y) (within : network.Within V) :
    x ∈ V ∧ y ∈ V := by
  obtain ⟨k, mem, ⟨rfl, rfl, _⟩ | ⟨rfl, rfl, _⟩⟩ := residual
  · exact within k mem
  · exact (within k mem).symm

omit [IsOrderedAddMonoid G] in
theorem cut_of_closed (bounded : network.Bounded flow) (X : N → Prop) [DecidablePred X]
    (closed : ∀ x y, X x → network.Residual flow x y → X y) :
    network.leaving flow X = network.leaving network.capacity X ∧ network.entering flow X = 0 := by
  constructor
  · unfold leaving
    congr 1
    apply List.map_congr_left
    intro k mem
    split
    next apart =>
      apply le_antisymm (bounded k mem).2
      by_contra room
      exact apart.2 (closed _ _ apart.1 ⟨k, mem, .inl ⟨rfl, rfl, not_le.mp room⟩⟩)
    · rfl
  · unfold entering
    apply List.sum_eq_zero
    intro w memW
    obtain ⟨k, mem, rfl⟩ := List.mem_map.mp memW
    split
    next apart =>
      apply le_antisymm _ (bounded k mem).1
      by_contra room
      exact apart.1 (closed _ _ apart.2 ⟨k, mem, .inr ⟨rfl, rfl, not_le.mp room⟩⟩)
    · rfl

theorem reaches_source [DecidableEq N] (bounded : network.Bounded flow) (within : network.Within V)
    (mem : x ∈ V) (more : network.netOut flow x < 0)
    (others : ∀ y ∈ V, y ≠ s → network.netOut flow y ≤ 0) :
    Relation.ReflTransGen (network.Residual flow) x s := by
  classical
  by_contra unreachable
  let X := V.filter fun y => Relation.ReflTransGen (network.Residual flow) x y
  have inX (y : N) : y ∈ X ↔ y ∈ V ∧ Relation.ReflTransGen (network.Residual flow) x y :=
    Finset.mem_filter
  have closed (y z : N) (memY : y ∈ X) (residual : network.Residual flow y z) : z ∈ X :=
    (inX z).mpr ⟨(residual.mem within).2, ((inX y).mp memY).2.tail residual⟩
  obtain ⟨fills, nothing⟩ := cut_of_closed bounded (· ∈ X) closed
  have least : ∑ y ∈ X, network.netOut flow y < ∑ y ∈ X, 0 := by
    apply Finset.sum_lt_sum
    · intro y memY
      obtain ⟨memV, reaches⟩ := (inX y).mp memY
      apply others y memV
      rintro rfl
      exact unreachable reaches
    · exact ⟨x, (inX x).mpr ⟨mem, .refl⟩, more⟩
  rw [sum_netOut, nothing, sub_zero, Finset.sum_const_zero] at least
  refine least.not_ge (List.sum_nonneg fun w memW => ?_)
  obtain ⟨k, memK, rfl⟩ := List.mem_map.mp memW
  split
  · exact (bounded k memK).1
  · exact le_rfl

omit [LinearOrder G] [IsOrderedAddMonoid G] in
theorem netOut_eq [DecidableEq N] {X : Finset N} (memS : s ∈ X)
    (conserved : ∀ x ∈ X, x ≠ s → network.netOut flow x = 0) : network.netOut flow s =
      network.leaving flow (· ∈ X) - network.entering flow (· ∈ X) := by
  rw [← sum_netOut, ← Finset.sum_erase_add X _ memS, Finset.sum_eq_zero, zero_add]
  exact fun x mem => conserved x (Finset.mem_of_mem_erase mem) (Finset.ne_of_mem_erase mem)

theorem netOut_le [DecidableEq N] (bounded : network.Bounded flow) {X : Finset N} (memS : s ∈ X)
    (conserved : ∀ x ∈ X, x ≠ s → network.netOut flow x = 0) :
    network.netOut flow s ≤ network.leaving network.capacity (· ∈ X) := by
  rw [netOut_eq memS conserved]
  calc network.leaving flow (· ∈ X) - network.entering flow (· ∈ X)
      ≤ network.leaving flow (· ∈ X) := by
        apply sub_le_self
        apply List.sum_nonneg
        intro w memW
        obtain ⟨k, memK, rfl⟩ := List.mem_map.mp memW
        split
        · exact (bounded k memK).1
        · exact le_rfl
    _ ≤ network.leaving network.capacity (· ∈ X) := by
        apply List.sum_le_sum
        intro k memK
        split
        · exact (bounded k memK).2
        · exact le_rfl

theorem exists_cut [DecidableEq N] (bounded : network.Bounded flow) (within : network.Within V)
    (memS : s ∈ V) (conserved : ∀ x ∈ V, x ≠ s → x ≠ t → network.netOut flow x = 0)
    (unreachable : ¬Relation.ReflTransGen (network.Residual flow) s t) : ∃ X ⊆ V, s ∈ X ∧ t ∉ X ∧
      network.netOut flow s = network.leaving network.capacity (· ∈ X) := by
  classical
  let X := V.filter fun y => Relation.ReflTransGen (network.Residual flow) s y
  have inX (y : N) : y ∈ X ↔ y ∈ V ∧ Relation.ReflTransGen (network.Residual flow) s y :=
    Finset.mem_filter
  have closed (y z : N) (memY : y ∈ X) (residual : network.Residual flow y z) : z ∈ X :=
    (inX z).mpr ⟨(residual.mem within).2, ((inX y).mp memY).2.tail residual⟩
  have memX : s ∈ X := (inX s).mpr ⟨memS, .refl⟩
  have notT : t ∉ X := fun mem => unreachable ((inX t).mp mem).2
  obtain ⟨fills, nothing⟩ := cut_of_closed bounded (· ∈ X) closed
  refine ⟨X, Finset.filter_subset _ V, memX, notT, ?_⟩
  rw [netOut_eq memX fun x mem other => conserved x ((inX x).mp mem).1 other ?_, nothing, sub_zero,
    fills]
  rintro rfl
  exact notT mem

end Cuts

end Network

section Heights

variable {residual : N → N → Prop} {height : N → Int} {V : Finset N} {x y : N}

def Gentle (residual : N → N → Prop) (height : N → Int) : Prop :=
  ∀ x y, residual x y → height x ≤ height y + 1

theorem Gentle.passes (gentle : Gentle residual height)
    (path : Relation.ReflTransGen residual x y) (within : ∀ x y, residual x y → x ∈ V)
    (mem : y ∈ V) (h : Int) (low : height y ≤ h) (high : h ≤ height x) : ∃ z ∈ V, height z = h := by
  induction path using Relation.ReflTransGen.head_induction_on with
  | refl => exact ⟨y, mem, le_antisymm low high⟩
  | @head x w step _ ih =>
    by_cases below : h ≤ height w
    · exact ih below
    · have fall := gentle x w step
      exact ⟨x, within x w step, by omega⟩

theorem Gentle.lt_add_card (gentle : Gentle residual height)
    (path : Relation.ReflTransGen residual x y) (within : ∀ x y, residual x y → x ∈ V)
    (mem : y ∈ V) : height x < height y + V.card := by
  have passed : Finset.Icc (height y) (height x) ⊆ V.image height := by
    intro h between
    obtain ⟨low, high⟩ := Finset.mem_Icc.mp between
    obtain ⟨z, memZ, rfl⟩ := gentle.passes path within mem h low high
    exact Finset.mem_image_of_mem height memZ
  have fewer := (Finset.card_le_card passed).trans Finset.card_image_le
  rw [Int.card_Icc] at fewer
  omega

end Heights

end FlowNetworks
