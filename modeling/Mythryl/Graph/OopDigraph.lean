import Mythryl.Exceptions
import Mathlib.Algebra.BigOperators.Group.List.Basic
import Mathlib.Data.List.Nodup
import Mathlib.Logic.Function.Basic
import Mathlib.Tactic.Abel
import Mathlib.Tactic.Common

/-!
# Directed graphs

`oop_digraph` as its clients see it, and the mutable vectors in which they keep what they know of
its nodes.
-/

namespace Mythryl.Graph

attribute [scoped simp] ok_bind

inductive Raised
  | indexOutOfBounds | subscript | size | negativeCycle | emptyPriorityQueue
  | badGraph (message : String)
  deriving DecidableEq, Repr

structure RwVector (α : Type) where
  length : Int
  cell : Int → α

namespace RwVector

variable {α : Type}

def makeRwVector (len : Int) (x : α) : RwVector α := ⟨len, fun _ => x⟩

def Within (v : RwVector α) (i : Int) : Prop := 0 ≤ i ∧ i < v.length

instance (v : RwVector α) (i : Int) : Decidable (v.Within i) :=
  inferInstanceAs (Decidable (0 ≤ i ∧ i < v.length))

def get (v : RwVector α) (i : Int) : Except Raised α :=
  if v.Within i then .ok (v.cell i) else .error .indexOutOfBounds

def put (v : RwVector α) (i : Int) (x : α) : RwVector α :=
  { v with cell := Function.update v.cell i x }

def set (v : RwVector α) (i : Int) (x : α) : Except Raised (RwVector α) :=
  if v.Within i then .ok (v.put i x) else .error .indexOutOfBounds

variable {v : RwVector α} {i j : Int} {x : α}

theorem get_of_within (within : v.Within i) : v.get i = .ok (v.cell i) := if_pos within

theorem set_of_within (within : v.Within i) : v.set i x = .ok (v.put i x) := if_pos within

@[simp] theorem put_length : (v.put i x).length = v.length := rfl

@[simp] theorem put_cell_self : (v.put i x).cell i = x := Function.update_self ..

theorem put_cell_of_ne (other : j ≠ i) : (v.put i x).cell j = v.cell j :=
  Function.update_of_ne other ..

end RwVector

theorem sum_map_update {G : Type} [AddCommGroup G] {value : Nat → G} {c : Nat} {d : G}
    {l : List Nat} (nodup : l.Nodup) : (l.map (Function.update value c (value c + d))).sum =
      (l.map value).sum + if c ∈ l then d else 0 := by
  induction l with
  | nil => simp
  | cons a l ih =>
    obtain ⟨fresh, nodup⟩ := List.nodup_cons.mp nodup
    rw [List.map_cons, List.sum_cons, ih nodup, List.map_cons, List.sum_cons]
    by_cases here : c = a
    · subst here
      rw [Function.update_self, if_neg fresh, if_pos List.mem_cons_self]
      abel
    · rw [Function.update_of_ne (Ne.symm here), add_assoc]
      simp [here]

structure Edge (E : Type) where
  source : Int
  target : Int
  info : E
  deriving DecidableEq, Repr

structure Digraph (E : Type) where
  capacity : Int
  nodes : List Int
  outEdges : Int → List (Edge E)
  inEdges : Int → List (Edge E)
  nodes_nodup : nodes.Nodup
  nodes_bound : ∀ u ∈ nodes, 0 ≤ u ∧ u < capacity
  outEdges_source : ∀ u, ∀ e ∈ outEdges u, e.source = u
  outEdges_ends : ∀ u, ∀ e ∈ outEdges u, u ∈ nodes ∧ e.target ∈ nodes
  mem_inEdges : ∀ v e, e ∈ inEdges v ↔ e.target = v ∧ e ∈ outEdges e.source

namespace Digraph

variable {E : Type} (g : Digraph E)

def order : Int := g.nodes.length

def next (u : Int) : List Int := (g.outEdges u).map Edge.target

def prior (u : Int) : List Int := (g.inEdges u).map Edge.source

def edges : List (Edge E) := g.nodes.flatMap g.outEdges

variable {g} {e : Edge E} {u v : Int}

theorem mem_edges : e ∈ g.edges ↔ e ∈ g.outEdges e.source := by
  rw [edges, List.mem_flatMap]
  constructor
  · rintro ⟨u, _, mem⟩
    rw [g.outEdges_source u e mem]
    exact mem
  · intro mem
    exact ⟨e.source, (g.outEdges_ends _ e mem).1, mem⟩

theorem mem_outEdges : e ∈ g.outEdges u ↔ e.source = u ∧ e ∈ g.edges := by
  rw [mem_edges]
  constructor
  · intro mem
    have source := g.outEdges_source u e mem
    rw [source]
    exact ⟨rfl, mem⟩
  · rintro ⟨rfl, mem⟩
    exact mem

theorem source_mem (mem : e ∈ g.edges) : e.source ∈ g.nodes :=
  (g.outEdges_ends _ e (mem_edges.mp mem)).1

theorem target_mem (mem : e ∈ g.edges) : e.target ∈ g.nodes :=
  (g.outEdges_ends _ e (mem_edges.mp mem)).2

end Digraph

def opposite : Digraph Unit where
  capacity := 2
  nodes := [0, 1]
  outEdges := fun u => if u = 0 then [⟨0, 1, ()⟩] else if u = 1 then [⟨1, 0, ()⟩] else []
  inEdges := fun v => if v = 0 then [⟨1, 0, ()⟩] else if v = 1 then [⟨0, 1, ()⟩] else []
  nodes_nodup := by decide
  nodes_bound := by decide
  outEdges_source := by
    intro u e mem
    split at mem
    · simp_all
    · split at mem <;> simp_all
  outEdges_ends := by
    intro u e mem
    split at mem
    · simp_all
    · split at mem <;> simp_all
  mem_inEdges := by
    rintro v ⟨source, target, info⟩
    constructor
    · intro mem
      split at mem
      · simp_all
      · split at mem <;> simp_all
    · rintro ⟨rfl, mem⟩
      dsimp only at mem
      split at mem
      · simp_all
      · split at mem <;> simp_all

end Mythryl.Graph
