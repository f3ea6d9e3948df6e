import Mathlib.Data.Finset.Card
import Mythryl.Graph.OopDigraph
import Mythryl.Indexes

/-!
# Digraphs by adjacency lists

The graphs of `digraph_by_adjacency_list_g`: an edge is listed under its source in one table and
under its target in another.
-/

namespace Mythryl.Graph.AdjacencyList

variable {N E : Type}

abbrev Edge (E : Type) := Nat × Nat × E

def source (e : Edge E) : Nat := e.1
def target (e : Edge E) : Nat := e.2.1

abbrev Adjlist (E : Type) := Nat → List (Edge E)

structure Digraph (N E : Type) where
  next : Adjlist E
  prior : Adjlist E
  nodes : Nat → Option N
  nodeCount : Int
  edgeCount : Int
  garbageNodes : List Nat

def makeEmptyGraph : Digraph N E := ⟨fun _ => [], fun _ => [], fun _ => none, 0, 0, []⟩

/-- `remove_pred` and `remove_succ`: the edges of another node than `i`, in reverse order. -/
def removeAt (here : Edge E → Nat) (i : Nat) : List (Edge E) → List (Edge E) → List (Edge E)
  | [], es' => es'
  | e :: es, es' => removeAt here i es (if here e = i then es' else e :: es')

def removeEdge (message : String) (here there : Edge E → Nat) (i : Nat) (table : Adjlist E)
    (e : Edge E) : Except Raised (Adjlist E) := do
  if i ≠ here e then throw (.badGraph message)
  return Function.update table (there e) (removeAt here i (table (there e)) [])

def addAt (there : Edge E → Nat) (table : Adjlist E) (e : Edge E) : Adjlist E :=
  Function.update table (there e) (e :: table (there e))

def replaceEdges (message : String) (here there : Edge E → Nat) (i : Nat) (edges : List (Edge E))
    (own other : Adjlist E) : Except Raised (Adjlist E × Adjlist E) := do
  let other ← (own i).foldlM (removeEdge message here there i) other
  return (Function.update own i edges, edges.foldl (addAt there) other)

namespace Digraph

variable (g : Digraph N E)

def addNode (i : Nat) (n : N) : Digraph N E :=
  { g with
    nodeCount := match g.nodes i with
      | none => 1 + g.nodeCount
      | some _ => g.nodeCount
    nodes := Function.update g.nodes i (some n) }

def addEdge (e : Edge E) : Digraph N E :=
  { g with
    next := addAt source g.next e
    prior := addAt target g.prior e
    edgeCount := 1 + g.edgeCount }

def setOutEdges (i : Nat) (edges : List (Edge E)) : Except Raised (Digraph N E) := do
  let oldEdges := g.next i
  let (next, prior) ← replaceEdges "set_out_edges" source target i edges g.next g.prior
  return { g with
    next := next
    prior := prior
    edgeCount := g.edgeCount + edges.length - oldEdges.length }

def setInEdges (j : Nat) (edges : List (Edge E)) : Except Raised (Digraph N E) := do
  let oldEdges := g.prior j
  let (prior, next) ← replaceEdges "set_in_edges" target source j edges g.prior g.next
  return { g with
    next := next
    prior := prior
    edgeCount := g.edgeCount + edges.length - oldEdges.length }

def removeNode (i : Nat) : Except Raised (Digraph N E) :=
  match g.nodes i with
  | none => return g
  | some _ => do
      let g ← g.setOutEdges i []
      let g ← g.setInEdges i []
      return { g with
        nodes := Function.update g.nodes i none
        nodeCount := g.nodeCount - 1
        garbageNodes := i :: g.garbageNodes }

def order : Int := g.nodeCount
def size : Int := g.edgeCount
def outEdges (n : Nat) : List (Edge E) := g.next n
def inEdges (n : Nat) : List (Edge E) := g.prior n

def hasNode (n : Nat) : Bool :=
  match g.nodes n with
  | some _ => true
  | none => false

end Digraph

section Replace

variable {here there : Edge E → Nat} {i : Nat} {own other : Adjlist E} {items : Multiset (Edge E)}

theorem removeAt_eq (es es' : List (Edge E)) :
    (removeAt here i es es' : Multiset (Edge E)) =
      (es : Multiset (Edge E)).filter (fun e => here e ≠ i) + es' := by
  induction es generalizing es' with
  | nil => simp [removeAt]
  | cons e es ih =>
    rw [removeAt, ih, ← Multiset.cons_coe]
    by_cases same : here e = i
    · simp [same]
    · simp [same, ← Multiset.cons_coe]

theorem removeEdge_eq (message : String) {e : Edge E} (table : Adjlist E) (same : here e = i) :
    removeEdge message here there i table e =
      .ok (Function.update table (there e) (removeAt here i (table (there e)) [])) := by
  rw [removeEdge, if_neg (not_not.mpr same.symm)]
  rfl

theorem removeEdges_eq (message : String) {es : List (Edge E)} (ends : ∀ e ∈ es, here e = i)
    (table : Adjlist E) :
    ∃ table', es.foldlM (removeEdge message here there i) table = .ok table' ∧
      ∀ j, (table' j : Multiset (Edge E)) =
        if j ∈ es.map there then (table j : Multiset (Edge E)).filter (fun e => here e ≠ i)
        else table j := by
  induction es generalizing table with
  | nil => exact ⟨table, rfl, fun j => rfl⟩
  | cons e es ih =>
    obtain ⟨same, rest⟩ := List.forall_mem_cons.mp ends
    obtain ⟨table', run, removed⟩ :=
      ih rest (Function.update table (there e) (removeAt here i (table (there e)) []))
    refine ⟨table', ?_, fun j => ?_⟩
    · rw [List.foldlM_cons, removeEdge_eq message table same]
      exact run
    · rw [removed, List.map_cons]
      by_cases first : j = there e
      · subst first
        rw [Function.update_self, removeAt_eq, if_pos List.mem_cons_self]
        simp
      · rw [Function.update_of_ne first]
        simp only [List.mem_cons, first, false_or]

theorem replaceEdges_indexes (message : String) (indexes : Indexes here own items)
    (indexes' : Indexes there other items) {edges : List (Edge E)} (ends : ∀ e ∈ edges, here e = i) :
    ∃ own' other', replaceEdges message here there i edges own other = .ok (own', other') ∧
      Indexes here own' (edges + items.filter fun e => here e ≠ i) ∧
      Indexes there other' (edges + items.filter fun e => here e ≠ i) := by
  have olds : ∀ e ∈ own i, here e = i := fun e mem => (indexes.mem_iff.mp mem).2
  obtain ⟨cleared, run, removed⟩ := removeEdges_eq message olds other
  refine ⟨_, _, ?_, indexes.replace edges ends, (indexes.remove indexes' removed).append edges⟩
  rw [replaceEdges, run]
  rfl

end Replace

structure Contents (E : Type) where
  nodes : Finset Nat
  edges : Multiset (Edge E)

/-- The tables list the edges by source and by target, and the counters count them. -/
structure Digraph.Holds (g : Digraph N E) (c : Contents E) : Prop where
  next : Indexes source g.next c.edges
  prior : Indexes target g.prior c.edges
  nodes : ∀ i, (g.nodes i).isSome ↔ i ∈ c.nodes
  order : g.nodeCount = c.nodes.card
  size : g.edgeCount = c.edges.card

namespace Contents

variable (c : Contents E)

def addNode (i : Nat) : Contents E := { c with nodes := insert i c.nodes }
def addEdge (e : Edge E) : Contents E := { c with edges := e ::ₘ c.edges }

def setOutEdges (i : Nat) (edges : List (Edge E)) : Contents E :=
  { c with edges := edges + c.edges.filter fun e => source e ≠ i }

def setInEdges (j : Nat) (edges : List (Edge E)) : Contents E :=
  { c with edges := edges + c.edges.filter fun e => target e ≠ j }

def removeNode (i : Nat) : Contents E :=
  if i ∈ c.nodes then ⟨c.nodes.erase i, c.edges.filter fun e => source e ≠ i ∧ target e ≠ i⟩ else c

end Contents

namespace Digraph.Holds

variable {g : Digraph N E} {c : Contents E}

theorem addNode (holds : g.Holds c) (i : Nat) (n : N) : (g.addNode i n).Holds (c.addNode i) where
  __ := holds
  nodes := by
    intro k
    have here := holds.nodes k
    by_cases same : k = i
    · simp [Digraph.addNode, Contents.addNode, same]
    · simp only [Digraph.addNode, Contents.addNode, Function.update_of_ne same, Finset.mem_insert, same,
        false_or]
      exact here
  order := by
    have here := holds.nodes i
    rw [Digraph.addNode, Contents.addNode, holds.order]
    split
    case h_1 absent =>
      rw [absent] at here
      have fresh : i ∉ c.nodes := fun mem => by simpa using here.mpr mem
      rw [Finset.card_insert_of_notMem fresh, Int.natCast_succ, Int.add_comm]
    case h_2 present =>
      rw [present] at here
      rw [Finset.insert_eq_of_mem (here.mp rfl)]

theorem addEdge (holds : g.Holds c) (e : Edge E) : (g.addEdge e).Holds (c.addEdge e) where
  next := holds.next.cons e
  prior := holds.prior.cons e
  __ := holds
  size := by
    rw [Digraph.addEdge, Contents.addEdge, Multiset.card_cons, holds.size, Int.natCast_succ, Int.add_comm]

theorem size_replace {here : Edge E → Nat} {own : Adjlist E} {items : Multiset (Edge E)}
    (indexes : Indexes here own items) (i : Nat) (edges : List (Edge E)) :
    (items.card : Int) + edges.length - (own i).length =
      ((edges + items.filter fun e => here e ≠ i : Multiset (Edge E)).card : Int) := by
  have parts : (items.filter fun e => here e = i).card + (items.filter fun e => here e ≠ i).card =
      items.card := by rw [← Multiset.card_add, Multiset.filter_add_not]
  rw [indexes.length, Multiset.card_add, Multiset.coe_card]
  omega

theorem setOutEdges (holds : g.Holds c) {i : Nat} {edges : List (Edge E)}
    (ends : ∀ e ∈ edges, source e = i) :
    ∃ g', g.setOutEdges i edges = .ok g' ∧ g'.Holds (c.setOutEdges i edges) := by
  obtain ⟨own, other, run, next, prior⟩ :=
    replaceEdges_indexes "set_out_edges" holds.next holds.prior ends
  have size := size_replace holds.next i edges
  rw [← holds.size] at size
  rw [Digraph.setOutEdges, run]
  exact ⟨_, rfl, next, prior, holds.nodes, holds.order, size⟩

theorem setInEdges (holds : g.Holds c) {j : Nat} {edges : List (Edge E)}
    (ends : ∀ e ∈ edges, target e = j) :
    ∃ g', g.setInEdges j edges = .ok g' ∧ g'.Holds (c.setInEdges j edges) := by
  obtain ⟨own, other, run, prior, next⟩ :=
    replaceEdges_indexes "set_in_edges" holds.prior holds.next ends
  have size := size_replace holds.prior j edges
  rw [← holds.size] at size
  rw [Digraph.setInEdges, run]
  exact ⟨_, rfl, next, prior, holds.nodes, holds.order, size⟩

theorem removeNode (holds : g.Holds c) (i : Nat) :
    ∃ g', g.removeNode i = .ok g' ∧ g'.Holds (c.removeNode i) := by
  have here := holds.nodes i
  rw [Digraph.removeNode, Contents.removeNode]
  split
  case h_1 absent =>
    rw [absent] at here
    have fresh : i ∉ c.nodes := fun mem => by simpa using here.mpr mem
    rw [if_neg fresh]
    exact ⟨g, rfl, holds⟩
  case h_2 present =>
    rw [present] at here
    have mem := here.mp rfl
    obtain ⟨g1, out, holds1⟩ := holds.setOutEdges (List.forall_mem_nil fun e => source e = i)
    obtain ⟨g2, into, holds2⟩ := holds1.setInEdges (List.forall_mem_nil fun e => target e = i)
    rw [if_pos mem, out, ok_bind, into]
    have left : ((c.setOutEdges i []).setInEdges i []).edges =
        c.edges.filter fun e => source e ≠ i ∧ target e ≠ i := by
      simp only [Contents.setOutEdges, Contents.setInEdges, Multiset.coe_nil, zero_add,
        Multiset.filter_filter, and_comm]
    refine ⟨_, rfl, ?_, ?_, ?_, ?_, ?_⟩
    · exact left ▸ holds2.next
    · exact left ▸ holds2.prior
    · intro k
      have others := holds2.nodes k
      by_cases same : k = i
      · simp [same]
      · simp only [Function.update_of_ne same, Finset.mem_erase, Ne, same, not_false_eq_true, true_and]
        exact others
    · rw [holds2.order, Finset.card_erase_of_mem mem]
      have pos := Finset.card_pos.mpr ⟨i, mem⟩
      change (c.nodes.card : Int) - 1 = _
      omega
    · rw [← left]
      exact holds2.size

theorem empty : (makeEmptyGraph : Digraph N E).Holds ⟨∅, 0⟩ :=
  ⟨Indexes.empty, Indexes.empty, by simp [makeEmptyGraph], rfl, rfl⟩

end Digraph.Holds

inductive Operation (N E : Type)
  | addNode (i : Nat) (n : N)
  | addEdge (e : Edge E)
  | setOutEdges (i : Nat) (edges : List (Edge E)) (ends : ∀ e ∈ edges, source e = i)
  | setInEdges (j : Nat) (edges : List (Edge E)) (ends : ∀ e ∈ edges, target e = j)
  | removeNode (i : Nat)

def Digraph.apply (g : Digraph N E) : Operation N E → Except Raised (Digraph N E)
  | .addNode i n => return g.addNode i n
  | .addEdge e => return g.addEdge e
  | .setOutEdges i edges _ => g.setOutEdges i edges
  | .setInEdges j edges _ => g.setInEdges j edges
  | .removeNode i => g.removeNode i

def Contents.apply (c : Contents E) : Operation N E → Contents E
  | .addNode i _ => c.addNode i
  | .addEdge e => c.addEdge e
  | .setOutEdges i edges _ => c.setOutEdges i edges
  | .setInEdges j edges _ => c.setInEdges j edges
  | .removeNode i => c.removeNode i

variable {c : Contents E} {g : Digraph N E}

theorem Digraph.Holds.apply (holds : g.Holds c) (operation : Operation N E) :
    ∃ g', g.apply operation = .ok g' ∧ g'.Holds (c.apply operation) := by
  cases operation with
  | addNode i n => exact ⟨_, rfl, holds.addNode i n⟩
  | addEdge e => exact ⟨_, rfl, holds.addEdge e⟩
  | setOutEdges i edges ends => exact holds.setOutEdges ends
  | setInEdges j edges ends => exact holds.setInEdges ends
  | removeNode i => exact holds.removeNode i

theorem Digraph.Holds.run (holds : g.Holds c) (operations : List (Operation N E)) :
    ∃ g', operations.foldlM Digraph.apply g = .ok g' ∧
      g'.Holds (operations.foldl Contents.apply c) := by
  induction operations generalizing g c with
  | nil => exact ⟨g, rfl, holds⟩
  | cons operation operations ih =>
    obtain ⟨g1, step, holds1⟩ := holds.apply operation
    obtain ⟨g', run, holds'⟩ := ih holds1
    refine ⟨g', ?_, holds'⟩
    rw [List.foldlM_cons, step]
    exact run

theorem Digraph.hasNode_eq (g : Digraph N E) (i : Nat) : g.hasNode i = (g.nodes i).isSome := by
  rw [Digraph.hasNode]
  cases g.nodes i <;> rfl

theorem removed_isolated {i : Nat} (holds : g.Holds c) (present : g.hasNode i = true) :
    ∃ g', g.removeNode i = .ok g' ∧ g'.outEdges i = [] ∧ g'.inEdges i = [] ∧
      ∀ k, ∀ e ∈ g'.outEdges k ++ g'.inEdges k, source e ≠ i ∧ target e ≠ i := by
  obtain ⟨g', run, holds'⟩ := holds.removeNode i
  have mem : i ∈ c.nodes := (holds.nodes i).mp (by rw [← g.hasNode_eq, present])
  have next := holds'.next
  have prior := holds'.prior
  rw [Contents.removeNode, if_pos mem] at next prior
  have out (k : Nat) (e : Edge E) (listed : e ∈ g'.outEdges k) : source e ≠ i ∧ target e ≠ i :=
    (Multiset.mem_filter.mp (next.mem_iff.mp listed).1).2
  have into (k : Nat) (e : Edge E) (listed : e ∈ g'.inEdges k) : source e ≠ i ∧ target e ≠ i :=
    (Multiset.mem_filter.mp (prior.mem_iff.mp listed).1).2
  refine ⟨g', run, ?_, ?_, ?_⟩
  · apply List.eq_nil_iff_forall_not_mem.mpr
    intro e listed
    exact (out i e listed).1 (next.mem_iff.mp listed).2
  · apply List.eq_nil_iff_forall_not_mem.mpr
    intro e listed
    exact (into i e listed).2 (prior.mem_iff.mp listed).2
  · intro k e listed
    rcases List.mem_append.mp listed with first | second
    · exact out k e first
    · exact into k e second

/-- After every run the two tables list the edges added and not since removed, each as often as the
other does; the counters count the edges and the nodes that are present; and no edge is left at a node
that is removed. -/
theorem tables_in_step (operations : List (Operation N E)) :
    let c := operations.foldl Contents.apply (⟨∅, 0⟩ : Contents E)
    ∃ g : Digraph N E, operations.foldlM Digraph.apply makeEmptyGraph = .ok g ∧
      (∀ i j, ((g.next i).filter fun e => target e = j).Perm
        ((g.prior j).filter fun e => source e = i)) ∧
      (∀ i, (g.outEdges i : Multiset (Edge E)) = c.edges.filter fun e => source e = i) ∧
      (∀ j, (g.inEdges j : Multiset (Edge E)) = c.edges.filter fun e => target e = j) ∧
      g.size = c.edges.card ∧ g.order = c.nodes.card ∧ (∀ i, g.hasNode i = true ↔ i ∈ c.nodes) ∧
      ∀ i, g.hasNode i = true → ∃ g', g.removeNode i = .ok g' ∧ g'.outEdges i = [] ∧
        g'.inEdges i = [] ∧ ∀ k, ∀ e ∈ g'.outEdges k ++ g'.inEdges k, source e ≠ i ∧ target e ≠ i := by
  intro c
  obtain ⟨g, run, holds⟩ := Digraph.Holds.empty.run operations
  refine ⟨g, run, holds.next.perm holds.prior, holds.next, holds.prior, holds.size, holds.order,
    fun i => ?_, fun i present => removed_isolated holds present⟩
  rw [g.hasNode_eq]
  exact holds.nodes i

end Mythryl.Graph.AdjacencyList
