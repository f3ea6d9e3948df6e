import Mathlib.Algebra.Order.Group.Multiset
import Mathlib.Data.Multiset.Filter
import Mathlib.Logic.Function.Basic
import Mathlib.Tactic.Common

/-! # Indexes -/

variable {α κ : Type} [DecidableEq κ]

def Indexes (key : α → κ) (table : κ → List α) (items : Multiset α) : Prop :=
  ∀ k, (table k : Multiset α) = items.filter fun a => key a = k

namespace Indexes

variable {key other : α → κ} {table : κ → List α} {items : Multiset α} {k : κ}

theorem empty : Indexes key (fun _ => []) 0 := fun _ => (Multiset.filter_zero _).symm

theorem mem_iff (indexes : Indexes key table items) {a : α} : a ∈ table k ↔ a ∈ items ∧ key a = k := by
  rw [← Multiset.mem_coe, indexes k, Multiset.mem_filter]

theorem length (indexes : Indexes key table items) :
    (table k).length = (items.filter fun a => key a = k).card := by
  rw [← indexes k, Multiset.coe_card]

theorem perm {table' : κ → List α} (indexes : Indexes key table items)
    (indexes' : Indexes other table' items) (i j : κ) :
    ((table i).filter fun a => other a = j).Perm ((table' j).filter fun a => key a = i) := by
  rw [← Multiset.coe_eq_coe, ← Multiset.filter_coe, ← Multiset.filter_coe, indexes i, indexes' j,
    Multiset.filter_comm]

theorem cons (indexes : Indexes key table items) (a : α) :
    Indexes key (Function.update table (key a) (a :: table (key a))) (a ::ₘ items) := by
  intro k
  by_cases same : key a = k
  · subst same
    have here : (a ::ₘ items).filter (fun b => key b = key a) = a ::ₘ items.filter fun b => key b = key a :=
      Multiset.filter_cons_of_pos items rfl
    rw [Function.update_self, here, ← indexes, Multiset.cons_coe]
  · have elsewhere : (a ::ₘ items).filter (fun b => key b = k) = items.filter fun b => key b = k :=
      Multiset.filter_cons_of_neg items same
    rw [Function.update_of_ne (Ne.symm same), elsewhere, indexes]

theorem append (indexes : Indexes key table items) (added : List α) :
    Indexes key (added.foldl (fun table a => Function.update table (key a) (a :: table (key a))) table)
      (added + items) := by
  induction added generalizing table items with
  | nil => simpa using indexes
  | cons a added ih =>
    rw [List.foldl_cons, ← Multiset.cons_coe, Multiset.cons_add, ← Multiset.add_cons]
    exact ih (indexes.cons a)

theorem replace (indexes : Indexes key table items) (added : List α) (keys : ∀ a ∈ added, key a = k) :
    Indexes key (Function.update table k added) (added + items.filter fun a => key a ≠ k) := by
  intro k'
  rw [Multiset.filter_add, Multiset.filter_filter]
  by_cases same : k' = k
  · subst same
    have none : (items.filter fun a => key a = k' ∧ key a ≠ k') = 0 := by simp
    rw [Function.update_self, none, add_zero, Multiset.filter_eq_self.mpr]
    exact keys
  · have none : ((added : Multiset α).filter fun a => key a = k') = 0 := by
      rw [Multiset.filter_eq_nil]
      intro a mem
      rw [keys a mem]
      exact Ne.symm same
    rw [Function.update_of_ne same, none, zero_add, indexes]
    apply Multiset.filter_congr
    intro a mem
    constructor
    · intro eq
      exact ⟨eq, eq ▸ same⟩
    · exact And.left

theorem remove {table' table'' : κ → List α} (indexes : Indexes key table items)
    (indexes' : Indexes other table' items)
    (removed : ∀ j, (table'' j : Multiset α) =
      if j ∈ (table k).map other then (table' j : Multiset α).filter (fun a => key a ≠ k) else table' j) :
    Indexes other table'' (items.filter fun a => key a ≠ k) := by
  intro j
  rw [removed j, Multiset.filter_comm, indexes']
  split
  case isTrue => rfl
  case isFalse none =>
    apply Eq.symm
    rw [Multiset.filter_eq_self]
    intro a mem same
    obtain ⟨mem, listed⟩ := Multiset.mem_filter.mp mem
    exact none (List.mem_map.mpr ⟨a, indexes.mem_iff.mpr ⟨mem, same⟩, listed⟩)

end Indexes
