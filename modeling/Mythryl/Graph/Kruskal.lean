import Mythryl.DisjointSets.Forest
import Mythryl.Graph.OopDigraph
import Mythryl.PriorityQueue.Leftist
import Mathlib.Data.Finset.Card

/-!
# Minimum cost spanning trees

`kruskals_minimum_cost_spanning_tree`, which takes the edges from a leftist tree and asks a
`node_partition` whether they join two classes.
-/

namespace Mythryl.Graph.Kruskal
open DisjointSets PriorityQueue RaisingState

/-- `UNCONNECTED`, or the `NOT_FOUND` of the table of the nodes. -/
inductive Raised
  | unconnected | notFound
  deriving DecidableEq, Repr

variable {E T W : Type}

def nodePartition (nodes : List Int) (ppp : Int → Option Cell) : Calling Int (Int → Option Cell) :=
  nodes.foldlM (fun ppp i => do
    return Function.update ppp i (some (← makeSingletonDisjointSet i))) ppp

/-- `delete_min` leaves the merged subtrees of the queue. -/
def makeTree (less : Edge E → Edge E → Bool) (addEdge : Edge E → T → T) (ppp : Int → Option Cell)
    (fuel : Nat) (pq : Leftist (Edge E)) (m : Int) (u : T) : Calling Int (Except Raised T) :=
  if m = 1 then return .ok u
  else
    match pq with
    | .empty => return .error .unconnected
    | .node e _ l r =>
        match ppp e.source, ppp e.target with
        | some p, some q => do
            if ← equal fuel p q then
              makeTree less addEdge ppp fuel (Leftist.mergeTrees less l r) m u
            else
              let _ ← union fuel p q
              makeTree less addEdge ppp fuel (Leftist.mergeTrees less l r) (m - 1) (addEdge e u)
        | _, _ => return .error .notFound
termination_by (Leftist.items pq).card
decreasing_by all_goals simp [Leftist.mergeTrees_items]

def spanningTree (weight : Edge E → W) (lt : W → W → Bool) (g : Digraph E)
    (addEdge : Edge E → T → T) (fuel : Nat) (u : T) : Calling Int (Except Raised T) := do
  let less (e1 e2 : Edge E) := lt (weight e1) (weight e2)
  let pq := g.edges.foldl (fun pq e => (outcome (Leftist.set less e) pq).2) .empty
  let ppp ← nodePartition g.nodes fun _ => none
  makeTree less addEdge ppp fuel pq g.order u

def ends (es : List (Edge E)) : List (Int × Int) := es.map fun e => (e.source, e.target)

section Partition

/-- A node of each class. -/
structure Representatives (nodes : List Int) (R : List (Int × Int)) (reps : Finset Int) : Prop where
  covers : ∀ u ∈ nodes, ∃ r ∈ reps, Related R u r
  apart : ∀ r ∈ reps, ∀ r' ∈ reps, Related R r r' → r = r'
  within : ∀ r ∈ reps, r ∈ nodes

/-- The cells of the nodes are in the classes of the nodes. -/
structure Table (ppp : Int → Option Cell) (nodes : List Int) (R : List (Int × Int))
    (heap : Heap Int) (s : Classes Int) : Prop where
  represents : Represents heap s
  found : ∀ u ∈ nodes, ∃ p < heap.length, ppp u = some p
  agrees : ∀ {u v p q}, ppp u = some p → ppp v = some q → (Related s.calls p q ↔ Related R u v)

variable {nodes : List Int} {R R' : List (Int × Int)} {reps : Finset Int} {i j : Int}
  {heap : Heap Int} {s : Classes Int} {ppp : Int → Option Cell} {p q : Cell}

theorem related_lift {α : Type} {R : List (α × α)} {r : α → α → Prop} {a b : α}
    (equivalence : Equivalence r) (all : ∀ pair ∈ R, r pair.1 pair.2) (related : Related R a b) :
    r a b :=
  equivalence.eqvGen_iff.mp (related.mono fun a b => all (a, b))

theorem related_of_all (all : ∀ pair ∈ R, Related R' pair.1 pair.2) :
    Related R i j → Related R' i j :=
  related_lift (Relation.EqvGen.is_equivalence _) all

theorem related_nil {α : Type} {a b : α} : Related [] a b ↔ a = b :=
  ⟨related_lift eq_equivalence nofun, fun same => same ▸ .refl⟩

theorem Representatives.one_iff (has : Representatives nodes R reps) :
    reps.card = 1 ↔ ∃ r ∈ nodes, ∀ a ∈ nodes, Related R r a := by
  rw [Finset.card_eq_one]
  constructor
  · rintro ⟨r, rfl⟩
    refine ⟨r, has.within r (by simp), fun a mem => ?_⟩
    obtain ⟨r', is, related⟩ := has.covers a mem
    rw [Finset.mem_singleton.mp is] at related
    exact related.symm
  · rintro ⟨r, mem, all⟩
    obtain ⟨r', memR, related⟩ := has.covers r mem
    refine ⟨r', Finset.eq_singleton_iff_unique_mem.mpr ⟨memR, fun x memX => ?_⟩⟩
    exact has.apart x memX r' memR ((all x (has.within x memX)).symm.trans related)

theorem Representatives.join (has : Representatives nodes R reps) (left : i ∈ nodes)
    (right : j ∈ nodes) (apart : ¬Related R i j) :
    ∃ reps', Representatives nodes ((i, j) :: R) reps' ∧ reps'.card + 1 = reps.card := by
  obtain ⟨ri, memI, byI⟩ := has.covers i left
  obtain ⟨rj, memJ, byJ⟩ := has.covers j right
  refine ⟨reps.erase rj, ⟨fun u mem => ?_, fun r mem r' mem' related => ?_, fun r mem =>
    has.within r (Finset.mem_of_mem_erase mem)⟩, Finset.card_erase_add_one memJ⟩
  · obtain ⟨r, memR, byR⟩ := has.covers u mem
    by_cases same : r = rj
    · subst same
      refine ⟨ri, Finset.mem_erase.mpr ⟨?_, memI⟩, related_cons.mpr ?_⟩
      · rintro rfl
        exact apart (byI.trans byJ.symm)
      · exact .inr (.inr ⟨byR.trans byJ.symm, byI⟩)
    · exact ⟨r, Finset.mem_erase.mpr ⟨same, memR⟩, byR.push⟩
  · obtain ⟨other, memR⟩ := Finset.mem_erase.mp mem
    obtain ⟨other', memR'⟩ := Finset.mem_erase.mp mem'
    rcases related_cons.mp related with direct | ⟨_, second⟩ | ⟨first, _⟩
    · exact has.apart r memR r' memR' direct
    · exact absurd (has.apart r' memR' rj memJ (second.symm.trans byJ)) other'
    · exact absurd (has.apart r memR rj memJ (first.trans byJ)) other

theorem returns_of_map {X α β : Type} {m : Nat → Calling X α} {f : α → β} {heap heap' : Heap X}
    {b : β} (inj : f.Injective)
    (returns : Returns (fun fuel => do return f (← m fuel)) heap b heap') :
    ∃ a, b = f a ∧ Returns m heap a heap' := by
  obtain ⟨least, runs⟩ := returns
  have each (fuel : Nat) (enough : fuel ≥ least) :
      ∃ a, b = f a ∧ (m fuel).run heap = .ok (a, heap') := by
    obtain ⟨⟨a, heap1⟩, run, same⟩ :=
      bind_eq_ok.mp ((StateT.run_bind ..).symm.trans (runs fuel enough))
    cases same
    exact ⟨a, rfl, run⟩
  obtain ⟨a, rfl, -⟩ := each least le_rfl
  refine ⟨a, rfl, least, fun fuel enough => ?_⟩
  obtain ⟨a', same, run⟩ := each fuel enough
  rwa [inj same]

section Calls

variable (table : Table ppp nodes R heap s) (left : i ∈ nodes) (right : j ∈ nodes)
  (atI : ppp i = some p) (atJ : ppp j = some q)
include table left right atI atJ

theorem Table.performs (call : Call Int) (cells : call.cells = [p, q]) :
    ∃ reply heap' s', Returns (fun fuel => perform fuel call) heap reply heap' ∧
      s.Step call reply s' ∧ Represents heap' s' ∧
        ∀ u ∈ nodes, ∃ p < heap'.length, ppp u = some p := by
  obtain ⟨p', inside, at_p⟩ := table.found i left
  obtain ⟨q', inside', at_q⟩ := table.found j right
  cases at_p.symm.trans atI
  cases at_q.symm.trans atJ
  obtain ⟨reply, heap', s', returns, step, represents⟩ :=
    table.represents.performs call (by simp [cells, inside, inside'])
  refine ⟨reply, heap', s', returns, step, represents, ?_⟩
  have length : heap'.length = heap.length := by
    rw [← represents.cells, step.cells, table.represents.cells]
    cases call <;> first | rfl | cases cells
  rw [length]
  exact table.found

theorem Table.equal : ∃ b heap', Returns (fun fuel => equal fuel p q) heap b heap' ∧
      (b = true ↔ Related R i j) ∧ Table ppp nodes R heap' s := by
  obtain ⟨_, heap', _, returns, ⟨b, rfl, iff, rfl⟩, represents, found⟩ :=
    table.performs left right atI atJ (.equal p q) rfl
  obtain ⟨_, ⟨⟩, returns⟩ := returns_of_map (fun _ _ => Reply.bool.inj) returns
  exact ⟨b, heap', returns, iff.trans (table.agrees atI atJ), represents, found, table.agrees⟩

theorem Table.union : ∃ b heap' s', Returns (fun fuel => union fuel p q) heap b heap' ∧
    Table ppp nodes ((i, j) :: R) heap' s' := by
  obtain ⟨_, heap', _, returns, ⟨b, x, rfl, -, -, rfl⟩, represents, found⟩ :=
    table.performs left right atI atJ (.union p q) rfl
  obtain ⟨_, ⟨⟩, returns⟩ := returns_of_map (fun _ _ => Reply.bool.inj) returns
  refine ⟨b, heap', _, returns, represents, found, fun {u v a b} atU atV => ?_⟩
  have agrees {x y : Int} {a b : Cell} := @Table.agrees _ _ _ _ _ table x y a b
  simp only [Classes.merge, related_cons, agrees atU atV, agrees atU atI, agrees atJ atV,
    agrees atU atJ, agrees atI atV]

end Calls

theorem nodePartition_table (nodes done : List Int) (ppp : Int → Option Cell)
    (represents : Represents heap s) (calls : s.calls = []) (found : ∀ u ∈ done, (ppp u).isSome)
    (inside : ∀ u p, ppp u = some p → p < heap.length)
    (inj : ∀ u v p, ppp u = some p → ppp v = some p → u = v) :
    ∃ ppp' heap' s', Returns (fun _ => nodePartition nodes ppp) heap ppp' heap' ∧
      Table ppp' (done ++ nodes) [] heap' s' := by
  induction nodes generalizing done ppp heap s with
  | nil =>
    refine ⟨ppp, heap, s, .pure, represents, fun u mem => ?_, fun {u v p q} atU atV => ?_⟩
    · obtain ⟨p, atU⟩ := Option.isSome_iff_exists.mp (found u (by simpa using mem))
      exact ⟨p, inside u p atU, atU⟩
    · rw [calls, related_nil, related_nil]
      grind
  | cons i nodes ih =>
    obtain ⟨ppp', heap', s', returns, table⟩ := ih (done ++ [i])
      (Function.update ppp i (some heap.length)) (represents.make (x := i)) calls
      (by grind [Function.update_apply]) (by grind [Function.update_apply])
      (by grind [Function.update_apply])
    rw [List.append_assoc] at table
    exact ⟨ppp', heap', s', .bind (.bind ⟨0, fun _ _ => rfl⟩ .pure) returns, table⟩

end Partition

section Trees

variable [LinearOrder W] (weight : Edge E → W) (g : Digraph E)

/-- The edges of the graph are joined by edges of the tree that are no heavier. -/
structure LeastTree (tree : List (Edge E)) : Prop where
  within : tree ⊆ g.edges
  size : tree.length + 1 = g.nodes.length
  spans : ∃ r ∈ g.nodes, ∀ a ∈ g.nodes, Related (ends tree) r a
  least : ∀ e ∈ g.edges,
    Related (ends (tree.filter fun t => weight t ≤ weight e)) e.source e.target

/-- The tree of the edges taken so far, while others are still in the queue. -/
structure Growing (queue : Multiset (Edge E)) (reps : Finset Int) (tree : List (Edge E)) :
    Prop where
  has : Representatives g.nodes (ends tree) reps
  size : tree.length + reps.card = g.nodes.length
  within : tree ⊆ g.edges
  queued : ∀ e ∈ queue, e ∈ g.edges
  lower : ∀ t ∈ tree, ∀ e ∈ queue, weight t ≤ weight e
  least : ∀ e ∈ g.edges, e ∈ queue ∨
    Related (ends (tree.filter fun t => weight t ≤ weight e)) e.source e.target

def Result (addEdge : Edge E → T → T) (u : T) (reply : Except Raised T) : Prop :=
  (∃ tree, LeastTree weight g tree ∧ reply = .ok (tree.foldr addEdge u)) ∨
    (reply = .error .unconnected ∧
      ∀ r ∈ g.nodes, ∃ a ∈ g.nodes, ¬Related (ends g.edges) r a)

variable {weight g} {queue : Multiset (Edge E)} {reps : Finset Int} {tree : List (Edge E)}
  {e : Edge E}

theorem Growing.served (growing : Growing weight g queue reps tree) (mem : e ∈ queue)
    (joins : Related (ends tree) e.source e.target) :
    Related (ends (tree.filter fun t => weight t ≤ weight e)) e.source e.target := by
  rwa [List.filter_eq_self.mpr]
  simpa using fun t memT => growing.lower t memT e mem

theorem Growing.done (growing : Growing weight g queue reps tree) (one : reps.card = 1) :
    LeastTree weight g tree := by
  obtain ⟨r, memR, spans⟩ := growing.has.one_iff.mp one
  refine ⟨growing.within, one ▸ growing.size, ⟨r, memR, spans⟩, fun e mem => ?_⟩
  rcases growing.least e mem with waits | related
  · exact growing.served waits ((spans _ (Digraph.source_mem mem)).symm.trans
      (spans _ (Digraph.target_mem mem)))
  · exact related

theorem Growing.skip (growing : Growing weight g (e ::ₘ queue) reps tree)
    (joins : Related (ends tree) e.source e.target) : Growing weight g queue reps tree where
  __ := growing
  queued x mem := growing.queued x (Multiset.mem_cons_of_mem mem)
  lower t memT x mem := growing.lower t memT x (Multiset.mem_cons_of_mem mem)
  least x mem := by
    rcases growing.least x mem with waits | related
    · rcases Multiset.mem_cons.mp waits with rfl | waits
      · exact .inr (growing.served (Multiset.mem_cons_self ..) joins)
      · exact .inl waits
    · exact .inr related

theorem Growing.take {reps' : Finset Int} (growing : Growing weight g (e ::ₘ queue) reps tree)
    (lowest : ∀ x ∈ queue, weight e ≤ weight x)
    (has : Representatives g.nodes ((e.source, e.target) :: ends tree) reps')
    (fewer : reps'.card + 1 = reps.card) : Growing weight g queue reps' (e :: tree) where
  has := has
  size := by
    have := growing.size
    simp only [List.length_cons]
    omega
  within := List.cons_subset.mpr ⟨growing.queued e (Multiset.mem_cons_self ..), growing.within⟩
  queued x mem := growing.queued x (Multiset.mem_cons_of_mem mem)
  lower := by
    rintro t (_ | ⟨_, memT⟩) x mem
    · exact lowest x mem
    · exact growing.lower t memT x (Multiset.mem_cons_of_mem mem)
  least x mem := by
    rcases growing.least x mem with waits | related
    · rcases Multiset.mem_cons.mp waits with rfl | waits
      · exact .inr (.rel _ _ (by simp [ends]))
      · exact .inl waits
    · refine .inr (related_of_all (fun pair memP => .rel _ _ ?_) related)
      exact ((List.sublist_cons_self e tree).filter _).map _ |>.subset memP

theorem makeTree_result {less : Edge E → Edge E → Bool} {heap : Heap Int} {s : Classes Int}
    {ppp : Int → Option Cell} (addEdge : Edge E → T → T) (u : T)
    (decides : ∀ e1 e2, less e1 e2 = decide (weight e1 < weight e2)) {pq : Leftist (Edge E)}
    (ordered : Leftist.HeapOrdered less pq)
    (growing : Growing weight g (Leftist.items pq) reps tree)
    (table : Table ppp g.nodes (ends tree) heap s) :
    ∃ reply heap', Returns (fun fuel => makeTree less addEdge ppp fuel pq reps.card
        (tree.foldr addEdge u)) heap reply heap' ∧ Result weight g addEdge u reply := by
  induction size : (Leftist.items pq).card using Nat.strong_induction_on
    generalizing pq tree reps heap s with
  | _ n ih =>
    by_cases one : reps.card = 1
    · refine ⟨_, heap, ?_, .inl ⟨tree, growing.done one, rfl⟩⟩
      unfold makeTree
      rw [one]
      exact .pure
    have more : (reps.card : Int) ≠ 1 := by exact_mod_cast one
    cases pq with
    | empty =>
      refine ⟨_, heap, ?_, .inr ⟨rfl, fun r memR => ?_⟩⟩
      · unfold makeTree
        simp only [if_neg more]
        exact .pure
      · by_contra all
        push Not at all
        refine one (growing.has.one_iff.mpr ⟨r, memR, fun a memA =>
          related_of_all (fun pair mem => ?_) (all a memA)⟩)
        obtain ⟨e, memE, rfl⟩ := List.mem_map.mp mem
        have related := (growing.least e memE).resolve_left (Multiset.notMem_zero e)
        exact related_of_all (fun pair mem => .rel _ _ ((List.filter_sublist.map _).subset mem))
          related
    | node e d l r =>
      have items : Leftist.items (.node e d l r) =
          e ::ₘ Leftist.items (Leftist.mergeTrees less l r) := by
        rw [Leftist.items_node, Leftist.mergeTrees_items]
      have lowest (x : Edge E) (mem : x ∈ Leftist.items (Leftist.mergeTrees less l r)) :
          weight e ≤ weight x := by
        simpa [decides] using Leftist.least_of_root decides le_rfl ordered x
          (items ▸ Multiset.mem_cons_of_mem mem)
      have ordered' := Leftist.mergeTrees_ordered decides l r ordered.2.2.1 ordered.2.2.2
      rw [items] at growing size
      have smaller : (Leftist.items (Leftist.mergeTrees less l r)).card < n := by
        simp [← size]
      have mem := growing.queued e (Multiset.mem_cons_self ..)
      obtain ⟨p, -, atI⟩ := table.found _ (Digraph.source_mem mem)
      obtain ⟨q, -, atJ⟩ := table.found _ (Digraph.target_mem mem)
      obtain ⟨b, heap1, asks, iff, table1⟩ :=
        table.equal (Digraph.source_mem mem) (Digraph.target_mem mem) atI atJ
      unfold makeTree
      simp only [if_neg more, atI, atJ]
      by_cases joins : Related (ends tree) e.source e.target
      · obtain ⟨reply, heap', returns, result⟩ :=
          ih _ smaller ordered' (growing.skip joins) table1 rfl
        rw [iff.mpr joins] at asks
        exact ⟨reply, heap', asks.bind returns, result⟩
      · obtain ⟨b', heap2, s2, unites, table2⟩ :=
          table1.union (Digraph.source_mem mem) (Digraph.target_mem mem) atI atJ
        obtain ⟨reps', has, fewer⟩ :=
          growing.has.join (Digraph.source_mem mem) (Digraph.target_mem mem) joins
        obtain ⟨reply, heap', returns, result⟩ :=
          ih _ smaller ordered' (growing.take lowest has fewer) table2 rfl
        obtain rfl : b = false := by simpa [joins] using iff
        have less_one : (reps.card : Int) - 1 = reps'.card := by omega
        exact ⟨reply, heap', asks.bind (unites.bind (less_one ▸ returns)), result⟩

/-- A tree of the lightest edges is made of a connected graph, and `UNCONNECTED` is raised for any
other. -/
theorem spanningTree_result (weight : Edge E → W) (g : Digraph E) (addEdge : Edge E → T → T)
    (u : T) : ∃ reply heap, Returns
        (fun fuel => spanningTree weight (fun x y => decide (x < y)) g addEdge fuel u) [] reply heap ∧
      Result weight g addEdge u reply := by
  let less (e1 e2 : Edge E) := decide (weight e1 < weight e2)
  have decides (e1 e2 : Edge E) : less e1 e2 = decide (weight e1 < weight e2) := rfl
  have queue (edges : List (Edge E)) (pq : Leftist (Edge E)) :
      edges.foldl (fun pq e => (outcome (Leftist.set less e) pq).2) pq =
        Leftist.mergeElems less pq edges := by
    induction edges generalizing pq with
    | nil => rfl
    | cons e edges ih => exact ih _
  obtain ⟨items, ordered⟩ := Leftist.mergeElems_spec decides .empty g.edges trivial
  obtain ⟨ppp, heap, s, partition, table⟩ := nodePartition_table g.nodes [] (fun _ => none)
    represents_empty rfl nofun nofun nofun
  have growing : Growing weight g (Leftist.items (Leftist.mergeElems less .empty g.edges))
      g.nodes.toFinset [] := by
    refine ⟨⟨fun u mem => ⟨u, by simpa using mem, .refl⟩, fun _ _ _ _ => related_nil.mp, by simp⟩,
      ?_, List.nil_subset _, ?_, nofun, ?_⟩
    · simp [List.toFinset_card_of_nodup g.nodes_nodup]
    · simp [items]
    · exact fun e mem => .inl (by simpa [items] using mem)
  obtain ⟨reply, heap', returns, result⟩ := makeTree_result addEdge u decides ordered growing table
  refine ⟨reply, heap', partition.bind ?_, result⟩
  rw [List.toFinset_card_of_nodup g.nodes_nodup, ← queue] at returns
  exact returns

end Trees

end Mythryl.Graph.Kruskal
