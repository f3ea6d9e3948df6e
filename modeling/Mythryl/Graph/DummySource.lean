import Mathlib.Data.Prod.Lex
import Mythryl.Graph.OopDigraph
import Mythryl.ListMergesort

/-!
# A source of all nodes

`union_graph_view` of a graph and of one that has edges from a node of its own to all nodes.
-/

namespace Mythryl.Graph
open ListMergesort

structure SparseRwVector (α : Type) where
  entries : List (Int × α)
  default : α
  length : Int

namespace SparseRwVector

variable {α : Type}

def makeRwVector (n : Int) (d : α) : SparseRwVector α := ⟨[], d, n⟩

def get (v : SparseRwVector α) (i : Int) : α := (v.entries.lookup i).getD v.default

def set (v : SparseRwVector α) (i : Int) (x : α) : SparseRwVector α :=
  { v with
    entries := (i, x) :: v.entries.filter fun entry => entry.1 ≠ i
    length := if i ≥ v.length then i + 1 else v.length }

variable {v : SparseRwVector α} {i j : Int} {x : α}

@[simp] theorem set_get_self : (v.set i x).get i = x := by simp [set, get]

theorem set_get_of_ne (other : j ≠ i) : (v.set i x).get j = v.get j := by
  have misses : (j == i) = false := by simpa using other
  simp only [get, set, List.lookup_cons, misses]
  congr 1
  induction v.entries with
  | nil => rfl
  | cons entry entries ih =>
    obtain ⟨k, y⟩ := entry
    by_cases here : k = i
    · have misses' : (j == k) = false := by simpa [here] using other
      rw [List.filter_cons_of_neg (by simpa using here), List.lookup_cons, misses']
      exact ih
    · rw [List.filter_cons_of_pos (by simpa using here), List.lookup_cons, List.lookup_cons, ih]

end SparseRwVector

structure SparseDigraph (N E : Type) where
  next : SparseRwVector (List (Edge E))
  nodes : SparseRwVector (Option N)

namespace SparseDigraph

variable {N E : Type}

def makeEmptyGraph (expectedNodeCount : Int) : SparseDigraph N E where
  next := SparseRwVector.makeRwVector expectedNodeCount []
  nodes := SparseRwVector.makeRwVector expectedNodeCount none

variable (g : SparseDigraph N E)

def addNode (i : Int) (n : N) : SparseDigraph N E := { g with nodes := g.nodes.set i (some n) }

def addEdge (e : Edge E) : SparseDigraph N E :=
  { g with next := g.next.set e.source (e :: g.next.get e.source) }

def capacity : Int := g.nodes.length

def getNodes : List Int := g.nodes.entries.filterMap fun (i, n) => n.map fun _ => i

def outEdges (i : Int) : List (Edge E) := g.next.get i

end SparseDigraph

structure View (E : Type) where
  capacity : Int
  nodes : List Int
  outEdges : Int → List (Edge E)

variable {N E : Type}

def Digraph.view (g : Digraph E) : View E := ⟨g.capacity, g.nodes, g.outEdges⟩

def SparseDigraph.view (g : SparseDigraph N E) : View E := ⟨g.capacity, g.getNodes, g.outEdges⟩

def compareEdges (e e' : Edge E) : Ordering :=
  if e.source < e'.source then .lt
  else if e.source = e'.source then
    if e.target < e'.target then .lt
    else if e.target = e'.target then .eq
    else .gt
  else .gt

def mergeNodes : List Int → List Int := sortListAndDropDuplicates compare

def mergeEdges : List (Edge E) → List (Edge E) := sortListAndDropDuplicates compareEdges

def unionView (a b : View E) : View E where
  capacity := a.capacity + b.capacity
  nodes := mergeNodes (a.nodes ++ b.nodes)
  outEdges i := mergeEdges (a.outEdges i ++ b.outEdges i)

def dummySource (g : Digraph E) (info : E) : SparseDigraph Unit E :=
  let s := g.capacity
  let g' := g.nodes.foldl (fun g' v => g'.addEdge ⟨s, v, info⟩) (SparseDigraph.makeEmptyGraph 1)
  g'.addNode s ()

def sourceView (g : Digraph E) (info : E) : View E := unionView g.view (dummySource g info).view

section Merging

variable {es : List (Edge E)} {e : Edge E} {ns : List Int} {n : Int}

def ends (e : Edge E) : Int ×ₗ Int := toLex (e.source, e.target)

theorem compareEdges_eq (e e' : Edge E) : compareEdges e e' = compare (ends e) (ends e') := by
  unfold compareEdges
  symm
  split
  · next less => exact compare_lt_iff_lt.mpr (Prod.Lex.toLex_lt_toLex.mpr (.inl less))
  split
  · next same =>
      split
      · next less => exact compare_lt_iff_lt.mpr (Prod.Lex.toLex_lt_toLex.mpr (.inr ⟨same, less⟩))
      split
      · next same' => exact compare_eq_iff_eq.mpr (congrArg toLex (Prod.ext same same'))
      · exact compare_gt_iff_gt.mpr (Prod.Lex.toLex_lt_toLex.mpr (.inr ⟨same.symm, by omega⟩))
  · exact compare_gt_iff_gt.mpr (Prod.Lex.toLex_lt_toLex.mpr (.inl (by omega)))

theorem mem_of_mem_mergeEdges (mem : e ∈ mergeEdges es) : e ∈ es :=
  (sort_spec compareEdges_eq es).1.mem e mem

theorem exists_mem_mergeEdges (mem : e ∈ es) :
    ∃ e' ∈ mergeEdges es, e'.source = e.source ∧ e'.target = e.target := by
  obtain ⟨e', mem', same⟩ := (sort_spec compareEdges_eq es).1.key e mem
  have both := toLex.injective same
  exact ⟨e', mem', congrArg Prod.fst both, congrArg Prod.snd both⟩

theorem mem_mergeNodes : n ∈ mergeNodes ns ↔ n ∈ ns := by
  obtain ⟨picks, -⟩ := @sort_spec Int Int _ compare id (fun _ _ => rfl) ns
  constructor
  · exact picks.mem n
  · intro mem
    obtain ⟨m, mem', same⟩ := picks.key n mem
    have same : m = n := same
    rw [← same]
    exact mem'

theorem mergeNodes_nodup : (mergeNodes ns).Nodup :=
  (@sort_spec Int Int _ compare id (fun _ _ => rfl) ns).2.imp fun less => less.ne

end Merging

section Source

variable (g : Digraph E) (info : E)

theorem addEdges_spec (s : Int) (ns : List Int) (g' : SparseDigraph Unit E) :
    (ns.foldl (fun g' v => g'.addEdge ⟨s, v, info⟩) g').nodes = g'.nodes ∧
      ∀ e i, e ∈ (ns.foldl (fun g' v => g'.addEdge ⟨s, v, info⟩) g').outEdges i ↔
        (i = s ∧ ∃ v ∈ ns, e = ⟨s, v, info⟩) ∨ e ∈ g'.outEdges i := by
  induction ns generalizing g' with
  | nil => simp
  | cons v ns ih =>
    obtain ⟨nodes, mem⟩ := ih (g'.addEdge ⟨s, v, info⟩)
    refine ⟨nodes, fun e i => ?_⟩
    rw [List.foldl_cons, mem]
    by_cases here : i = s
    · subst here
      simp only [SparseDigraph.outEdges, SparseDigraph.addEdge, SparseRwVector.set_get_self]
      simp only [List.mem_cons, exists_eq_or_imp, true_and]
      rw [or_left_comm, ← or_assoc]
    · simp only [SparseDigraph.outEdges, SparseDigraph.addEdge,
        SparseRwVector.set_get_of_ne here, here, false_and]

theorem dummySource_nodes : (dummySource g info).nodes =
    (SparseRwVector.makeRwVector 1 none).set g.capacity (some ()) := by
  unfold dummySource
  dsimp only [SparseDigraph.addNode]
  rw [(addEdges_spec info g.capacity g.nodes _).1]
  rfl

theorem dummySource_capacity (nonneg : 0 ≤ g.capacity) :
    (dummySource g info).capacity = g.capacity + 1 := by
  rw [SparseDigraph.capacity, dummySource_nodes]
  simp only [SparseRwVector.set, SparseRwVector.makeRwVector]
  omega

theorem dummySource_getNodes : (dummySource g info).getNodes = [g.capacity] := by
  rw [SparseDigraph.getNodes, dummySource_nodes]
  rfl

variable {e : Edge E} {u : Int}

theorem mem_dummySource_outEdges {i : Int} : e ∈ (dummySource g info).outEdges i ↔
      i = g.capacity ∧ ∃ v ∈ g.nodes, e = ⟨g.capacity, v, info⟩ := by
  have edges := (addEdges_spec info g.capacity g.nodes (SparseDigraph.makeEmptyGraph 1)).2 e i
  have none : e ∉ (SparseDigraph.makeEmptyGraph 1 : SparseDigraph Unit E).outEdges i :=
    List.not_mem_nil
  rw [or_iff_left none] at edges
  exact edges

theorem sourceView_capacity (nonneg : 0 ≤ g.capacity) :
    (sourceView g info).capacity = g.capacity + (g.capacity + 1) := by
  have capacity := dummySource_capacity g info nonneg
  rw [← capacity]
  rfl

theorem mem_sourceView_nodes : u ∈ (sourceView g info).nodes ↔ u ∈ g.nodes ∨ u = g.capacity := by
  change u ∈ mergeNodes (g.nodes ++ (dummySource g info).getNodes) ↔ _
  rw [mem_mergeNodes, dummySource_getNodes, List.mem_append, List.mem_singleton]

theorem mem_of_mem_sourceView_outEdges {i : Int} (mem : e ∈ (sourceView g info).outEdges i) :
    e ∈ g.outEdges i ∨ i = g.capacity ∧ ∃ v ∈ g.nodes, e = ⟨g.capacity, v, info⟩ := by
  have mem : e ∈ g.outEdges i ++ (dummySource g info).outEdges i := mem_of_mem_mergeEdges mem
  rw [List.mem_append, mem_dummySource_outEdges] at mem
  exact mem

theorem exists_mem_sourceView_outEdges {v : Int} (mem : v ∈ g.nodes) :
    ∃ e ∈ (sourceView g info).outEdges g.capacity, e.source = g.capacity ∧ e.target = v := by
  apply exists_mem_mergeEdges (e := ⟨g.capacity, v, info⟩)
  apply List.mem_append_right
  exact (mem_dummySource_outEdges g info).mpr ⟨rfl, v, mem, rfl⟩

theorem sourceView_outEdges_source (mem : e ∈ (sourceView g info).outEdges u) : e.source = u := by
  rcases mem_of_mem_sourceView_outEdges g info mem with edge | ⟨rfl, v, _, rfl⟩
  · exact g.outEdges_source u e edge
  · rfl

theorem sourceView_outEdges_ends (mem : e ∈ (sourceView g info).outEdges u) :
    u ∈ (sourceView g info).nodes ∧ e.target ∈ (sourceView g info).nodes := by
  rw [mem_sourceView_nodes, mem_sourceView_nodes]
  rcases mem_of_mem_sourceView_outEdges g info mem with edge | ⟨rfl, v, node, rfl⟩
  · exact (g.outEdges_ends u e edge).imp .inl .inl
  · exact ⟨.inr rfl, .inl node⟩

/-- The view of a graph and its source as a graph. Since a view merges parallel edges at each end
for itself, the edges at targets are here those that are there at the sources. -/
def withSource (nonneg : 0 ≤ g.capacity) : Digraph E where
  capacity := (sourceView g info).capacity
  nodes := (sourceView g info).nodes
  outEdges := (sourceView g info).outEdges
  inEdges v := ((sourceView g info).nodes.flatMap (sourceView g info).outEdges).filter
    fun e => e.target = v
  nodes_nodup := mergeNodes_nodup
  nodes_bound := by
    intro u mem
    rw [sourceView_capacity g info nonneg]
    rcases (mem_sourceView_nodes g info).mp mem with node | rfl
    · have bound := g.nodes_bound u node
      omega
    · omega
  outEdges_source := fun _ _ => sourceView_outEdges_source g info
  outEdges_ends := fun _ _ => sourceView_outEdges_ends g info
  mem_inEdges := by
    intro v e
    rw [List.mem_filter, List.mem_flatMap, decide_eq_true_eq, and_comm]
    refine and_congr_right fun _ => ⟨?_, ?_⟩
    · rintro ⟨u, _, mem⟩
      rw [sourceView_outEdges_source g info mem]
      exact mem
    · exact fun mem => ⟨e.source, (sourceView_outEdges_ends g info mem).1, mem⟩

end Source

end Mythryl.Graph
