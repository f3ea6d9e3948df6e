import Mythryl.Graph.SingleSource
import Mythryl.Loop
import Mythryl.Graph.QueueFromGraph
import Mathlib.Algebra.Order.Group.Int

/-!
# Dijkstra's single source shortest paths

`dijkstras_single_source_shortest_paths_g`, for an ordered abelian group with infinity: the node
with the least distance is taken from a queue of all nodes and its edges are relaxed, until the
queue raises an exception.
-/

namespace Mythryl.Graph.Dijkstra
open Loop NodePriorityQueue

variable {E G : Type} [AddCommGroup G] [LinearOrder G]

structure Search (G : Type) where
  labels : Labels G
  queue : NodePriorityQueue

def nearer (dist : RwVector (WithTop G)) : Less := fun i j => do
  let di ← dist.get i
  let dj ← dist.get j
  .ok (di < dj)

variable (weight : Edge E → WithTop G)

def relax (search : Search G) (e : Edge E) : Except Raised (Search G) := do
  let dV ← search.labels.dist.get e.target
  let dX := (← search.labels.dist.get e.source) + weight e
  if dX < dV then
    let dist ← search.labels.dist.set e.target dX
    let prior ← search.labels.prior.set e.target e.source
    let queue ← decreaseWeight (nearer dist) search.queue e.target
    .ok ⟨⟨dist, prior⟩, queue⟩
  else .ok search

variable (g : Digraph E)

def turn (search : Search G) : Except Raised (Turn (Search G) (Labels G)) :=
  match deleteMin (nearer search.labels.dist) search.queue with
  | .error .emptyPriorityQueue => .ok (.done search.labels)
  | .error e => .error e
  | .ok (u, queue) => do
      let search ← (g.outEdges u).foldlM (relax weight) { search with queue }
      .ok (.next search)

def start (s : Int) : Except Raised (Search G) := do
  let dist := RwVector.makeRwVector g.capacity ⊤
  let prior := RwVector.makeRwVector g.capacity (-1)
  let queue ← fromGraph (nearer dist) g
  let dist ← dist.set s 0
  let queue ← decreaseWeight (nearer dist) queue s
  .ok ⟨⟨dist, prior⟩, queue⟩

def SingleSourceShortestPaths (s : Int) (result : Except Raised (Labels G)) : Prop :=
  match start g s with
  | .ok search => Ends (turn weight g) search result
  | .error e => result = .error e

theorem SingleSourceShortestPaths.unique {weight : Edge E → WithTop G} {g : Digraph E} {s : Int}
    {result result' : Except Raised (Labels G)} (ends : SingleSourceShortestPaths weight g s result)
    (ends' : SingleSourceShortestPaths weight g s result') : result = result' := by
  unfold SingleSourceShortestPaths at ends ends'
  split at ends
  · next starts =>
      rw [starts] at ends'
      exact ends.unique ends'
  · next starts =>
      rw [starts] at ends'
      exact ends.trans ends'.symm

end Mythryl.Graph.Dijkstra

/-! # Shortest paths, if there is more than one node -/

namespace Mythryl.Graph.Dijkstra
open Loop ShortestPaths NodePriorityQueue BinaryHeap

variable {E G : Type} [AddCommGroup G] [LinearOrder G] [IsOrderedAddMonoid G]

structure Queued (search : Search G) (S : Set Int) : Prop where
  valid : Valid search.queue search.queue.size S
  ordered : Ordered (ranks search.labels.dist.cell search.queue) search.queue.size

structure Invariant (weight : Edge E → WithTop G) (g : Digraph E) (s : Int) (search : Search G)
    (S : Set Int) : Prop where
  sound : Sound weight g s S ∅ search.labels
  queued : Queued search S
  settled : ∀ x ∈ g.nodes, x ∉ S → ∀ y ∈ S, search.labels.dist.cell x ≤ search.labels.dist.cell y

structure Settling (weight : Edge E → WithTop G) (g : Digraph E) (s : Int) (search : Search G)
    (S : Set Int) (u : Int) (es : List (Edge E)) : Prop where
  sound : Sound weight g s S { e | e ∈ es } search.labels
  queued : Queued search S
  out : u ∉ S
  before : ∀ x ∈ g.nodes, x ∉ S → search.labels.dist.cell x ≤ search.labels.dist.cell u
  after : ∀ y ∈ S, search.labels.dist.cell u ≤ search.labels.dist.cell y

section Steps

variable {weight : Edge E → WithTop G} {g : Digraph E} {s u : Int} {search : Search G}
  {S : Set Int} {es : List (Edge E)} {e : Edge E} {dist : RwVector (WithTop G)}

omit [AddCommGroup G] [IsOrderedAddMonoid G] in
theorem nearer_decides (nodes : ∀ x ∈ S, x ∈ g.nodes) (length : dist.length = g.capacity) :
    Decides (nearer dist) dist.cell S := by
  have within {x : Int} (mem : x ∈ S) : dist.Within x := by
    have bound := g.nodes_bound x (nodes x mem)
    rw [← length] at bound
    exact bound
  intro x memX y memY
  rw [nearer, RwVector.get_of_within (within memX), RwVector.get_of_within (within memY), ok_bind,
    ok_bind]

theorem Settling.target_mem (settling : Settling weight g s search S e.source (e :: es))
    (nonneg : ∀ e ∈ g.edges, 0 ≤ weight e) (mem : e ∈ g.edges)
    (less : search.labels.dist.cell e.source + weight e < search.labels.dist.cell e.target) :
    e.target ∈ S := by
  by_contra out
  have le := settling.before e.target (Digraph.target_mem mem) out
  have more : search.labels.dist.cell e.source ≤ search.labels.dist.cell e.source + weight e :=
    le_add_of_nonneg_right (nonneg e mem)
  exact absurd (le.trans more) (not_le.mpr less)

theorem relax_spec (settling : Settling weight g s search S e.source (e :: es))
    (nonneg : ∀ e ∈ g.edges, 0 ≤ weight e) (mem : e ∈ g.edges) :
    ∃ search', relax weight search e = .ok search' ∧ search'.queue.size = search.queue.size ∧
      Settling weight g s search' S e.source es := by
  have source := Digraph.source_mem mem
  have target := Digraph.target_mem mem
  have withinSource := settling.sound.within_dist source
  have withinTarget := settling.sound.within_dist target
  by_cases less : search.labels.dist.cell e.source + weight e < search.labels.dist.cell e.target
  · have memS := settling.target_mem nonneg mem less
    have other : e.source ≠ e.target := fun same => settling.out (same ▸ memS)
    have hit := settling.sound.hit mem (.inl rfl) less
    rw [Set.insert_eq_of_mem memS] at hit
    obtain ⟨queue, decreases, size, valid, ordered⟩ := decreaseWeight_spec
      (nearer_decides hit.waiting_nodes hit.dist_length) settling.queued.valid memS
      (settling.queued.valid.lowered settling.queued.ordered memS
        (by rw [RwVector.put_cell_self]; exact less.le)
        fun y _ different => RwVector.put_cell_of_ne different)
    have stays {x : Int} (out : x ≠ e.target) : (search.labels.dist.put e.target
        (search.labels.dist.cell e.source + weight e)).cell x = search.labels.dist.cell x :=
      RwVector.put_cell_of_ne out
    refine ⟨⟨⟨search.labels.dist.put e.target (search.labels.dist.cell e.source + weight e),
      search.labels.prior.put e.target e.source⟩, queue⟩, ?_, size, ?_⟩
    · simp only [relax, RwVector.get_of_within withinSource, RwVector.get_of_within withinTarget,
        RwVector.set_of_within withinTarget, ok_bind, if_pos less,
        RwVector.set_of_within (settling.sound.within_prior target), decreases]
    · rw [← size] at valid ordered
      constructor
      case sound => exact hit
      case queued => exact ⟨valid, ordered⟩
      case out => exact settling.out
      case before =>
        intro x memX out
        have notTarget : x ≠ e.target := by
          rintro rfl
          exact out memS
        rw [stays other, stays notTarget]
        exact settling.before x memX out
      case after =>
        intro y memY
        rw [stays other]
        by_cases same : y = e.target
        · rw [same, RwVector.put_cell_self]
          exact le_add_of_nonneg_right (nonneg e mem)
        · rw [stays same]
          exact settling.after y memY
  · refine ⟨search, ?_, rfl, ?_⟩
    · simp only [relax, RwVector.get_of_within withinSource, RwVector.get_of_within withinTarget,
        ok_bind, if_neg less]
    · exact { settling with sound := settling.sound.skip (.inl rfl) less }

theorem relaxAll_spec (settling : Settling weight g s search S u es)
    (nonneg : ∀ e ∈ g.edges, 0 ≤ weight e) (edges : ∀ e ∈ es, e ∈ g.outEdges u) :
    ∃ search', es.foldlM (relax weight) search = .ok search' ∧
      search'.queue.size = search.queue.size ∧ Settling weight g s search' S u [] := by
  induction es generalizing search with
  | nil => exact ⟨search, rfl, rfl, settling⟩
  | cons e es ih =>
    obtain ⟨here, later⟩ := List.forall_mem_cons.mp edges
    obtain ⟨rfl, mem⟩ := Digraph.mem_outEdges.mp here
    obtain ⟨search₁, relaxes, size₁, settling₁⟩ := relax_spec settling nonneg mem
    obtain ⟨search₂, rest, size₂, settling₂⟩ := ih settling₁ later
    refine ⟨search₂, ?_, size₂.trans size₁, settling₂⟩
    rw [List.foldlM_cons, relaxes, ok_bind]
    exact rest

omit [IsOrderedAddMonoid G] in
theorem Settling.invariant (settling : Settling weight g s search S u []) :
    Invariant weight g s search S := by
  constructor
  · simpa using settling.sound
  · exact settling.queued
  · intro x memX out y memY
    exact (settling.before x memX out).trans (settling.after y memY)

omit [IsOrderedAddMonoid G] in
theorem Invariant.settle {q : NodePriorityQueue} (inv : Invariant weight g s search S) (mem : u ∈ S)
    (least : ∀ x ∈ S, search.labels.dist.cell u ≤ search.labels.dist.cell x)
    (queued : Queued ⟨search.labels, q⟩ (S \ {u})) :
    Settling weight g s ⟨search.labels, q⟩ (S \ {u}) u (g.outEdges u) := by
  constructor
  case sound =>
    refine { inv.sound with
      waiting_nodes := fun x mem => inv.sound.waiting_nodes x mem.1, relaxed := fun e memE => ?_ }
    rcases inv.sound.relaxed e memE with relaxed | waits | isDue
    · exact .inl relaxed
    · by_cases same : e.source = u
      · exact .inr (.inr (Digraph.mem_outEdges.mpr ⟨same, memE⟩))
      · exact .inr (.inl ⟨waits, same⟩)
    · exact isDue.elim
  case queued => exact queued
  case out => exact fun mem => mem.2 rfl
  case before =>
    intro x memX out
    by_cases inS : x ∈ S
    · have same : x = u := by
        by_contra different
        exact out ⟨inS, different⟩
      rw [same]
    · exact inv.settled x memX inS u mem
  case after => exact fun y memY => least y memY.1

def Post (weight : Edge E → WithTop G) (g : Digraph E) (s : Int)
    (result : Except Raised (Labels G)) : Prop :=
  ∃ labels, result = .ok labels ∧ Sound weight g s ∅ ∅ labels

theorem turn_turns (nonneg : ∀ e ∈ g.edges, 0 ≤ weight e) (search : Search G)
    (inv : ∃ S, Invariant weight g s search S) :
    TurnsTo (turn weight g) (fun search' => (∃ S, Invariant weight g s search' S) ∧
      search'.queue.size < search.queue.size) (Post weight g s) search := by
  obtain ⟨S, inv⟩ := inv
  obtain ⟨valid, ordered⟩ := inv.queued
  have decides := nearer_decides inv.sound.waiting_nodes inv.sound.dist_length
  cases size : search.queue.size with
  | zero =>
    have step : turn weight g search = .ok (.done search.labels) := by
      rw [turn, deleteMin, if_pos size]
      rfl
    refine .done step ⟨_, rfl, ?_⟩
    rw [size] at valid
    have empty : S = ∅ := by
      ext x
      constructor
      · exact fun mem => (Nat.not_lt_zero _ (valid.pos_lt x mem)).elim
      · exact False.elim
    rw [← empty]
    exact inv.sound
  | succ n =>
    rw [size] at valid ordered
    obtain ⟨u, q, deletes, mem, least, size', valid', ordered'⟩ :=
      deleteMin_spec decides valid size ordered
    rw [← size'] at valid' ordered'
    obtain ⟨search', relaxes, size₂, settling⟩ :=
      relaxAll_spec (inv.settle mem least ⟨valid', ordered'⟩) nonneg fun _ => id
    have step : turn weight g search = .ok (.next search') := by
      rw [turn, deletes]
      dsimp only
      rw [relaxes, ok_bind]
    refine .next step ⟨⟨_, settling.invariant⟩, ?_⟩
    rw [size₂, size']
    exact Nat.lt_succ_self n

omit [IsOrderedAddMonoid G] in
theorem start_spec (weight : Edge E → WithTop G) (mem : s ∈ g.nodes) (several : 2 ≤ g.nodes.length) :
    ∃ search, start (G := G) g s = .ok search ∧
      Invariant weight g s search { u | u ∈ g.nodes } := by
  have decides : Decides (nearer (RwVector.makeRwVector g.capacity (⊤ : WithTop G))) (fun _ => ⊤)
      { u | u ∈ g.nodes } := nearer_decides (fun _ => id) rfl
  obtain ⟨q, makes, size, valid, ordered⟩ := fromGraph_spec decides several
  have within : (RwVector.makeRwVector g.capacity (⊤ : WithTop G)).Within s := g.nodes_bound s mem
  have sound : Sound weight g s { u | u ∈ g.nodes } ∅ (startLabels g s) :=
    sound_start mem fun _ => id
  obtain ⟨q', decreases, size', valid', ordered'⟩ := decreaseWeight_spec
    (nearer_decides (fun _ => id) sound.dist_length) valid mem
    (valid.lowered ordered mem le_top fun y _ different => RwVector.put_cell_of_ne different)
  refine ⟨⟨startLabels g s, q'⟩, ?_, sound, ?_, fun x memX out => (out memX).elim⟩
  · simp only [start, makes, ok_bind, RwVector.set_of_within within]
    change decreaseWeight (nearer (startLabels g s).dist) q s >>= _ = _
    rw [decreases]
    rfl
  · rw [← size, ← size'] at valid' ordered'
    exact ⟨valid', ordered'⟩

theorem distances_iff (mem : s ∈ g.nodes) (nonneg : ∀ e ∈ g.edges, 0 ≤ weight e) :
    (∃ labels, SingleSourceShortestPaths weight g s (.ok labels) ∧ Distances weight g s labels) ↔
      2 ≤ g.order := by
  unfold SingleSourceShortestPaths Digraph.order
  constructor
  · rintro ⟨labels, ends, _⟩
    by_contra few
    have raises : start (G := G) g s = .error .indexOutOfBounds := by
      rw [start, fromGraph_few (by omega)]
      rfl
    rw [raises] at ends
    cases ends
  · intro several
    obtain ⟨search, starts, inv⟩ :=
      start_spec weight mem (Int.ofNat_le.mp several)
    obtain ⟨_, ends, labels, rfl, sound⟩ := ends_of_descent
      (fun search : Search G => search.queue.size) (turn_turns (s := s) nonneg) ⟨_, inv⟩
    rw [starts]
    exact ⟨labels, ends, sound.distances (no_negativeCycle_of_nonneg nonneg)⟩

end Steps

def unconnected : Digraph Unit where
  capacity := 2
  nodes := [0, 1]
  outEdges := fun _ => []
  inEdges := fun _ => []
  nodes_nodup := opposite.nodes_nodup
  nodes_bound := opposite.nodes_bound
  outEdges_source := lone.outEdges_source
  outEdges_ends := by simp
  mem_inEdges := lone.mem_inEdges

theorem distances_unconnected : ∃ labels,
    SingleSourceShortestPaths (fun _ => (0 : WithTop Int)) unconnected 0 (.ok labels) ∧
      Distances (fun _ => 0) unconnected 0 labels :=
  (@distances_iff Unit Int _ _ _ (fun _ => 0) unconnected 0 (by decide) fun _ _ => le_rfl).mpr
    (by decide)

theorem lone_raises :
    SingleSourceShortestPaths (fun _ => (0 : WithTop Int)) lone 0 (.error .indexOutOfBounds) ∧
      ¬∃ labels, SingleSourceShortestPaths (fun _ => (0 : WithTop Int)) lone 0 (.ok labels) := by
  have raises : start (G := Int) lone 0 = .error .indexOutOfBounds := by
    rw [start, fromGraph_few (by decide)]
    rfl
  unfold SingleSourceShortestPaths
  rw [raises]
  simp

end Mythryl.Graph.Dijkstra
