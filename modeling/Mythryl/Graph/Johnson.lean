import Mathlib.Algebra.Order.AddGroupWithTop
import Mythryl.Graph.BellmanFord
import Mythryl.Graph.DummySource
import Mythryl.Graph.FloydWarshall
import Mythryl.Graph.StaleQueues

/-!
# Johnson's all pairs shortest paths

`johnsons_all_pairs_shortest_paths_g`, for an ordered abelian group with infinity.
-/

namespace Mythryl.Graph.Johnson

variable {E G : Type} [AddCommGroup G] [LinearOrder G]

def Then {α β : Type} (first : Except Raised α → Prop) (next : α → Except Raised β → Prop)
    (result : Except Raised β) : Prop :=
  (∃ a, first (.ok a) ∧ next a result) ∨ ∃ e, first (.error e) ∧ result = .error e

def emptyPaths (n : Int) : Except Raised (Paths G) := do
  let dist ← Matrix.makeMatrix n n ⊤
  let prior ← Matrix.makeMatrix n n (-1)
  .ok ⟨dist, prior⟩

def arbEdge (g : Digraph E) : Option { e // e ∈ g.edges } := g.edges.attach.head?

def arbNode (g : Digraph E) : Option Int := g.nodes.head?

theorem capacity_nonneg {g : Digraph E} {e : Edge E} (mem : e ∈ g.edges) : 0 ≤ g.capacity := by
  have bound := g.nodes_bound _ (Digraph.source_mem mem)
  omega

section Algorithm

variable (weight : Edge E → WithTop G)

def sourceWeight (s : Int) (e : Edge E) : WithTop G := if e.source = s then 0 else weight e

def potentialWeight (h : RwVector (WithTop G)) (e : Edge E) : WithTop G :=
  weight e + (h.cell e.source - h.cell e.target)

def enter (h : RwVector (WithTop G)) (u : Int) (hU : WithTop G) (labels : Labels G) (paths : Paths G)
    (v : Int) : Except Raised (Paths G) := do
  let dist ← paths.dist.set u v ((← labels.dist.get v) + (← h.get v) - hU)
  let prior ← paths.prior.set u v (← labels.prior.get v)
  .ok ⟨dist, prior⟩

variable (g : Digraph E)

def enterRow (h : RwVector (WithTop G)) (u : Int) (labels : Labels G) (paths : Paths G) :
    Except Raised (Paths G) := do
  let hU ← h.get u
  g.nodes.foldlM (enter h u hU labels) paths

def fromNodes (h : RwVector (WithTop G)) : List Int → Paths G → Except Raised (Paths G) → Prop
  | [], paths => fun result => result = .ok paths
  | u :: us, paths =>
      Then (BellmanFord.SingleSourceShortestPaths (potentialWeight weight h) g u) fun labels =>
        Then (fun row => row = enterRow g h u labels paths) (fromNodes h us)

def AllPairsShortestPaths : Except Raised (Paths G) → Prop :=
  Then (fun made => made = emptyPaths g.capacity) fun paths =>
    match arbEdge g, arbNode g with
    | some ⟨e, mem⟩, some _ =>
        Then (Dijkstra.SingleSourceShortestPaths (sourceWeight weight g.capacity)
          (withSource g e.info (capacity_nonneg mem)) g.capacity) fun labels =>
            fromNodes weight g labels.dist g.nodes paths
    | _, _ => fun result => result = .ok paths

end Algorithm

end Mythryl.Graph.Johnson

/-! # Potentials -/

namespace Mythryl.Graph.BellmanFord
open ShortestPaths

variable {E G : Type} [AddCommGroup G] [LinearOrder G]

structure Shifted (g : Digraph E) (h : Int → G) (s : Int) (labels labels' : Labels G) : Prop where
  prior : labels'.prior = labels.prior
  prior_length : labels.prior.length = g.capacity
  dist_length : labels.dist.length = g.capacity
  dist_length' : labels'.dist.length = g.capacity
  dist : ∀ v, labels'.dist.cell v = labels.dist.cell v + ↑(h s - h v)

variable {weight weight' : Edge E → WithTop G} {g : Digraph E} {h : Int → G} {s u : Int}
  {labels labels' : Labels G} {b taken a : List Int} {du du' : WithTop G} {es : List (Edge E)}

omit [LinearOrder G] in
theorem startLabels_shifted : Shifted g h s (startLabels g s) (startLabels g s) := by
  refine ⟨rfl, rfl, rfl, rfl, fun v => ?_⟩
  by_cases here : v = s
  · simp [startLabels, here]
  · have far : (startLabels g s : Labels G).dist.cell v = ⊤ := RwVector.put_cell_of_ne here
    rw [far, WithTop.top_add]

variable [IsOrderedAddMonoid G]

theorem relax_shifted (reweighted : Reweighted (network weight g) (network weight' g) h)
    (edges : ∀ e ∈ es, e ∈ g.outEdges u) (shifted : Shifted g h s labels labels')
    (current : du' = du + ↑(h s - h u)) :
    ∃ b' next next', relax weight u du es b labels = .ok (b', next) ∧
      relax weight' u du' es b labels' = .ok (b', next') ∧ Shifted g h s next next' := by
  induction es generalizing b labels labels' with
  | nil => exact ⟨b, labels, labels', rfl, rfl, shifted⟩
  | cons e es ih =>
    obtain ⟨here, later⟩ := List.forall_mem_cons.mp edges
    obtain ⟨rfl, mem⟩ := Digraph.mem_outEdges.mp here
    have bound := g.nodes_bound _ (Digraph.target_mem mem)
    have within : labels.dist.Within e.target := by
      rw [← shifted.dist_length] at bound
      exact bound
    have within' : labels'.dist.Within e.target := by
      rw [← shifted.dist_length'] at bound
      exact bound
    have withinPrior : labels.prior.Within e.target := by
      rw [← shifted.prior_length] at bound
      exact bound
    have sum : du' + weight' e = du + weight e + ↑(h s - h e.target) := by
      have changed : weight' e = weight e + ↑(h e.source - h e.target) := reweighted.weight e mem
      rw [changed, current, add_add_add_comm, ← WithTop.coe_add, sub_add_sub_cancel]
    have alike : du' + weight' e < labels'.dist.cell e.target ↔
        du + weight e < labels.dist.cell e.target := by
      rw [sum, shifted.dist, WithTop.add_lt_add_iff_right WithTop.coe_ne_top]
    simp only [relax, RwVector.get_of_within within, RwVector.get_of_within within', ok_bind,
      alike]
    by_cases less : du + weight e < labels.dist.cell e.target
    · simp only [if_pos less, RwVector.set_of_within within, RwVector.set_of_within within',
        shifted.prior, RwVector.set_of_within withinPrior, ok_bind]
      apply ih later
      refine ⟨rfl, shifted.prior_length, shifted.dist_length, shifted.dist_length', fun v => ?_⟩
      by_cases same : v = e.target
      · rw [same, RwVector.put_cell_self, RwVector.put_cell_self, sum]
      · rw [RwVector.put_cell_of_ne same, RwVector.put_cell_of_ne same]
        exact shifted.dist v
    · simp only [if_neg less]
      exact ih later shifted

theorem Taken.shifted (reweighted : Reweighted (network weight g) (network weight' g) h)
    (is : Taken weight g s taken a b labels) :
    ∃ labels', Taken weight' g s taken a b labels' ∧ Shifted g h s labels labels' := by
  induction is with
  | start => exact ⟨_, .start, startLabels_shifted⟩
  | turn _ front ih =>
    obtain ⟨labels', is', shifted⟩ := ih
    exact ⟨labels', .turn is' front, shifted⟩
  | take _ relaxes ih =>
    obtain ⟨labels', is', shifted⟩ := ih
    obtain ⟨b', next, next', relaxes', relaxes'', shifted'⟩ :=
      relax_shifted reweighted (fun _ => id) shifted (shifted.dist _)
    cases relaxes.symm.trans relaxes'
    exact ⟨next', .take is' relaxes'', shifted'⟩

theorem seldom_iff (reweighted : Reweighted (network weight g) (network weight' g) h) :
    Seldom weight' g s ↔ Seldom weight g s := by
  constructor
  · intro seldom taken a b labels is
    obtain ⟨labels', is', -⟩ := is.shifted reweighted
    exact seldom taken a b labels' is'
  · intro seldom taken a b labels is
    obtain ⟨labels', is', -⟩ := is.shifted reweighted.symm
    exact seldom taken a b labels' is'

end Mythryl.Graph.BellmanFord

/-! # Agreement -/

namespace Mythryl.Graph.Johnson
open ShortestPaths

variable {E G : Type} [AddCommGroup G] [LinearOrder G]

/-- The entries for nodes are their distances in both results; the matrices are equal if all their
indices are nodes. -/
structure Agree (weight : Edge E → WithTop G) (g : Digraph E) (johnson floyd : Paths G) : Prop where
  square : johnson.dist.Square g.capacity ∧ floyd.dist.Square g.capacity
  distances : ∀ u ∈ g.nodes, ∀ v ∈ g.nodes, ∃ x, johnson.dist.get u v = .ok x ∧
    floyd.dist.get u v = .ok x ∧ IsDistance (network weight g) u v x
  equal : (∀ i, 0 ≤ i → i < g.capacity → i ∈ g.nodes) →
    ∀ i j, johnson.dist.get i j = floyd.dist.get i j

structure Entered (weight : Edge E → WithTop G) (g : Digraph E) (made : Int → Int → Prop)
    (paths : Paths G) : Prop where
  square : paths.Square g.capacity
  distance : ∀ u ∈ g.nodes, ∀ v ∈ g.nodes, made u v →
    IsDistance (network weight g) u v (paths.dist.entry u v)

structure Potential (g : Digraph E) (h : RwVector (WithTop G)) (p : Int → G) : Prop where
  within : ∀ v ∈ g.nodes, h.Within v
  cell : ∀ v ∈ g.nodes, h.cell v = ↑(p v)

section Passes

variable {weight : Edge E → WithTop G} {g : Digraph E} {h : RwVector (WithTop G)} {p : Int → G}
  {u v : Int} {us vs : List Int} {labels : Labels G} {paths paths' : Paths G}
  {made : Int → Int → Prop}

theorem then_ok {α β : Type} {first : Except Raised α → Prop} {next : α → Except Raised β → Prop}
    {b : β} (ends : Then first next (.ok b)) : ∃ a, first (.ok a) ∧ next a (.ok b) := by
  rcases ends with returns | ⟨e, _, raises⟩
  · exact returns
  · cases raises

omit [LinearOrder G] in
theorem Potential.reweighted (potential : Potential g h p) :
    Reweighted (network weight g) (network (potentialWeight weight h) g) p := by
  refine ⟨rfl, rfl, rfl, fun e mem => ?_⟩
  change weight e + (h.cell e.source - h.cell e.target) = _
  rw [potential.cell _ (Digraph.source_mem mem), potential.cell _ (Digraph.target_mem mem)]
  rfl

omit [LinearOrder G] in
theorem add_potentials (x : WithTop G) (a b : G) : x + ↑a - ↑b = x + ↑(a - b) := by
  cases x with
  | top => rfl
  | coe x => exact congrArg WithTop.some (add_sub_assoc x a b)

omit [AddCommGroup G] [LinearOrder G] in
theorem two_le_length {ns : List Int} {a b : Int} (memA : a ∈ ns) (memB : b ∈ ns) (other : a ≠ b) :
    2 ≤ ns.length := by
  match ns with
  | [] => cases memA
  | [n] => exact (other ((List.mem_singleton.mp memA).trans (List.mem_singleton.mp memB).symm)).elim
  | _ :: _ :: ns => exact Nat.le_add_left 2 ns.length

theorem firstSearch_potential [IsOrderedAddMonoid G] (weight : Edge E → WithTop G) {e : Edge E}
    (mem : e ∈ g.edges) :
    ∃ labels p, Dijkstra.SingleSourceShortestPaths (sourceWeight weight g.capacity)
        (withSource g e.info (capacity_nonneg mem)) g.capacity (.ok labels) ∧
      Potential g labels.dist p := by
  have nonneg := capacity_nonneg mem
  have node {v : Int} (mem : v ∈ g.nodes) : v ∈ (withSource g e.info nonneg).nodes :=
    (mem_sourceView_nodes g e.info).mpr (.inl mem)
  have source : g.capacity ∈ (withSource g e.info nonneg).nodes :=
    (mem_sourceView_nodes g e.info).mpr (.inr rfl)
  have several : 2 ≤ (withSource g e.info nonneg).nodes.length :=
    two_le_length (node (Digraph.source_mem mem)) source
      (g.nodes_bound _ (Digraph.source_mem mem)).2.ne
  obtain ⟨labels, ends, length, near⟩ :=
    Dijkstra.ends_below (sourceWeight weight g.capacity) source several
  have finite (v : Int) (memV : v ∈ g.nodes) : labels.dist.cell v ≠ ⊤ := by
    obtain ⟨e', mem', from', rfl⟩ := exists_mem_sourceView_outEdges g e.info memV
    have le := near e' mem'
    rw [sourceWeight, if_pos from'] at le
    exact ne_top_of_le_ne_top WithTop.zero_ne_top le
  refine ⟨labels, fun v => (labels.dist.cell v).untopD 0, ends, ?_, fun v memV => ?_⟩
  · intro v memV
    have bound := (withSource g e.info nonneg).nodes_bound v (node memV)
    rw [← length] at bound
    exact bound
  · obtain ⟨x, is⟩ := WithTop.ne_top_iff_exists.mp (finite v memV)
    rw [← is]
    rfl

theorem enter_spec (entered : Entered weight g made paths) (potential : Potential g h p)
    (dist_length : labels.dist.length = g.capacity)
    (prior_length : labels.prior.length = g.capacity) (memU : u ∈ g.nodes) (memV : v ∈ g.nodes)
    (distance : IsDistance (network weight g) u v (labels.dist.cell v + ↑(p v - p u))) :
    ∃ paths', enter h u (h.cell u) labels paths v = .ok paths' ∧
      Entered weight g (fun u' v' => made u' v' ∨ u' = u ∧ v' = v) paths' := by
  have boundU := g.nodes_bound u memU
  have boundV := g.nodes_bound v memV
  have withinD : labels.dist.Within v := by
    rw [← dist_length] at boundV
    exact boundV
  have withinP : labels.prior.Within v := by
    rw [← prior_length] at boundV
    exact boundV
  have within := entered.square.dist.within boundU boundV
  refine ⟨⟨paths.dist.enter u v (labels.dist.cell v + h.cell v - h.cell u),
    paths.prior.enter u v (labels.prior.cell v)⟩, ?_,
    ⟨entered.square.dist.enter, entered.square.prior.enter⟩, ?_⟩
  · rw [enter, RwVector.get_of_within withinD, ok_bind,
      RwVector.get_of_within (potential.within v memV), ok_bind, Matrix.set_of_within within,
      ok_bind, RwVector.get_of_within withinP, ok_bind,
      Matrix.set_of_within (entered.square.prior.within boundU boundV), ok_bind]
  · intro u' memU' v' memV' is
    by_cases here : u' = u ∧ v' = v
    · obtain ⟨rfl, rfl⟩ := here
      rw [Matrix.enter_entry_self, potential.cell v' memV, potential.cell u' memU, add_potentials]
      exact distance
    · rw [Matrix.enter_entry_of_ne within
        (entered.square.dist.within (g.nodes_bound u' memU') (g.nodes_bound v' memV')) here]
      exact entered.distance u' memU' v' memV' (is.resolve_right here)

section Row

variable (entered : Entered weight g made paths) (potential : Potential g h p)
  (dist_length : labels.dist.length = g.capacity) (prior_length : labels.prior.length = g.capacity)
  (memU : u ∈ g.nodes) (distances : ∀ v ∈ g.nodes,
    IsDistance (network weight g) u v (labels.dist.cell v + ↑(p v - p u)))
include entered potential dist_length prior_length memU distances

theorem enterAll_spec (vs : List Int) (nodes : ∀ v ∈ vs, v ∈ g.nodes) :
    ∃ paths', vs.foldlM (enter h u (h.cell u) labels) paths = .ok paths' ∧
      Entered weight g (fun u' v' => made u' v' ∨ u' = u ∧ v' ∈ vs) paths' := by
  induction vs generalizing paths made with
  | nil => exact ⟨paths, rfl, by simpa using entered⟩
  | cons v vs ih =>
    obtain ⟨memV, later⟩ := List.forall_mem_cons.mp nodes
    obtain ⟨paths₁, enters, entered₁⟩ :=
      enter_spec entered potential dist_length prior_length memU memV (distances v memV)
    obtain ⟨paths₂, rest, entered₂⟩ := ih entered₁ later
    refine ⟨paths₂, ?_, { entered₂ with distance := fun u' memU' v' memV' is => ?_ }⟩
    · rw [List.foldlM_cons, enters, ok_bind]
      exact rest
    · apply entered₂.distance u' memU' v' memV'
      rcases is with before | ⟨same, mem⟩
      · exact .inl (.inl before)
      · rcases List.mem_cons.mp mem with here | after
        · exact .inl (.inr ⟨same, here⟩)
        · exact .inr ⟨same, after⟩

theorem enterRow_spec :
    ∃ paths', enterRow g h u labels paths = .ok paths' ∧
      Entered weight g (fun u' v' => made u' v' ∨ u' = u ∧ v' ∈ g.nodes) paths' := by
  obtain ⟨paths', enters, entered'⟩ := enterAll_spec entered potential dist_length prior_length
    memU distances g.nodes fun _ => id
  refine ⟨paths', ?_, entered'⟩
  rw [enterRow, RwVector.get_of_within (potential.within u memU), ok_bind]
  exact enters

end Row

theorem search_distances [IsOrderedAddMonoid G] (potential : Potential g h p)
    (conservative : Conservative (network weight g)) (memU : u ∈ g.nodes)
    (seldom : BellmanFord.Seldom weight g u) :
    ∃ labels, BellmanFord.SingleSourceShortestPaths (potentialWeight weight h) g u (.ok labels) ∧
      labels.dist.length = g.capacity ∧ labels.prior.length = g.capacity ∧ ∀ v ∈ g.nodes,
        IsDistance (network weight g) u v (labels.dist.cell v + ↑(p v - p u)) := by
  have reweighted : Reweighted (network weight g) (network (potentialWeight weight h) g) p :=
    potential.reweighted
  have conservative' := reweighted.conservative conservative
  obtain ⟨result, ends, ⟨labels, rfl, sound⟩ | ⟨rfl, often⟩⟩ :=
    BellmanFord.ends_with_post (potentialWeight weight h) memU
  · refine ⟨labels, ends, sound.dist_length, sound.prior_length, fun v memV => ?_⟩
    exact reweighted.isDistance
      (sound.distances conservative'.no_negativeCycle v memV).1
  · exact (often ((BellmanFord.seldom_iff reweighted).mpr seldom)).elim

theorem fromNodes_ends [IsOrderedAddMonoid G] (us : List Int) (nodes : ∀ u ∈ us, u ∈ g.nodes)
    (potential : Potential g h p) (conservative : Conservative (network weight g))
    (seldom : ∀ u ∈ us, BellmanFord.Seldom weight g u) (entered : Entered weight g made paths) :
    ∃ paths', fromNodes weight g h us paths (.ok paths') ∧
      Entered weight g (fun u v => made u v ∨ u ∈ us ∧ v ∈ g.nodes) paths' := by
  induction us generalizing paths made with
  | nil => exact ⟨paths, rfl, by simpa using entered⟩
  | cons u us ih =>
    obtain ⟨memU, later⟩ := List.forall_mem_cons.mp nodes
    obtain ⟨seldomU, seldomLater⟩ := List.forall_mem_cons.mp seldom
    obtain ⟨labels, ends, dist_length, prior_length, distances⟩ :=
      search_distances potential conservative memU seldomU
    obtain ⟨paths₁, enters, entered₁⟩ :=
      enterRow_spec entered potential dist_length prior_length memU distances
    obtain ⟨paths₂, rest, entered₂⟩ := ih later seldomLater entered₁
    refine ⟨paths₂, .inl ⟨labels, ends, .inl ⟨paths₁, enters.symm, rest⟩⟩,
      { entered₂ with distance := fun u' memU' v' memV' is => ?_ }⟩
    apply entered₂.distance u' memU' v' memV'
    rcases is with before | ⟨mem, memV⟩
    · exact .inl (.inl before)
    · rcases List.mem_cons.mp mem with here | after
      · exact .inl (.inr ⟨here, memV⟩)
      · exact .inr ⟨after, memV⟩

theorem fromNodes_seldom [IsOrderedAddMonoid G] (us : List Int) (nodes : ∀ u ∈ us, u ∈ g.nodes)
    (potential : Potential g h p) (ends : fromNodes weight g h us paths (.ok paths')) :
    ∀ u ∈ us, BellmanFord.Seldom weight g u := by
  induction us generalizing paths with
  | nil => simp
  | cons u us ih =>
    obtain ⟨memU, later⟩ := List.forall_mem_cons.mp nodes
    obtain ⟨labels, searches, ends⟩ := then_ok ends
    obtain ⟨paths₁, _, rest⟩ := then_ok ends
    refine List.forall_mem_cons.mpr ⟨?_, ih later rest⟩
    apply (BellmanFord.seldom_iff potential.reweighted).mp
    exact fun _ _ _ _ is => (is.counted memU searches).2.1

theorem emptyPaths_spec (weight : Edge E → WithTop G) (pos : 0 < g.capacity)
    (fits : g.capacity * g.capacity ≤ Matrix.maximumVectorLength) :
    ∃ paths, emptyPaths g.capacity = .ok paths ∧ Entered weight g (fun _ _ => False) paths := by
  obtain ⟨dist, makes, squareD, -⟩ := Matrix.makeMatrix_square (v := (⊤ : WithTop G)) pos fits
  obtain ⟨prior, makes', squareP, -⟩ := Matrix.makeMatrix_square (v := (-1 : Int)) pos fits
  refine ⟨⟨dist, prior⟩, ?_, ⟨⟨squareD, squareP⟩, fun _ _ _ _ => False.elim⟩⟩
  rw [emptyPaths, makes, ok_bind, makes', ok_bind]

omit [AddCommGroup G] [LinearOrder G] in
theorem fits_of_emptyPaths (makes : emptyPaths g.capacity = .ok paths) :
    g.capacity * g.capacity ≤ Matrix.maximumVectorLength := by
  by_contra large
  rw [emptyPaths, Matrix.makeMatrix_large (not_le.mp large)] at makes
  cases makes

omit [AddCommGroup G] [LinearOrder G] in
theorem arb_some (edges : g.edges ≠ []) :
    ∃ e mem u, arbEdge g = some ⟨e, mem⟩ ∧ arbNode g = some u := by
  obtain ⟨⟨e, mem⟩, es, is⟩ := List.exists_cons_of_ne_nil (mt List.attach_eq_nil_iff.mp edges)
  obtain ⟨u, us, isNodes⟩ := List.exists_cons_of_ne_nil (List.ne_nil_of_mem (Digraph.source_mem mem))
  refine ⟨e, mem, u, ?_, ?_⟩
  · rw [arbEdge, is]
    rfl
  · rw [arbNode, isNodes]
    rfl

variable [IsOrderedAddMonoid G]

theorem allPairs_ends (edges : g.edges ≠ []) (conservative : Conservative (network weight g))
    (fits : g.capacity * g.capacity ≤ Matrix.maximumVectorLength)
    (seldom : ∀ u ∈ g.nodes, BellmanFord.Seldom weight g u) :
    ∃ paths, AllPairsShortestPaths weight g (.ok paths) ∧
      Entered weight g (fun u v => u ∈ g.nodes ∧ v ∈ g.nodes) paths := by
  obtain ⟨e, mem, n, arb, arb'⟩ := arb_some edges
  have bound := g.nodes_bound _ (Digraph.source_mem mem)
  obtain ⟨paths, makes, entered⟩ := emptyPaths_spec weight (bound.1.trans_lt bound.2) fits
  obtain ⟨labels, p, searches, potential⟩ := firstSearch_potential weight mem
  obtain ⟨paths', rest, entered'⟩ :=
    fromNodes_ends g.nodes (fun _ => id) potential conservative seldom entered
  refine ⟨paths', .inl ⟨paths, makes.symm, ?_⟩, by simpa using entered'⟩
  rw [arb, arb']
  exact .inl ⟨labels, searches, rest⟩

theorem seldom_of_allPairs (edges : g.edges ≠ [])
    (ends : AllPairsShortestPaths weight g (.ok paths')) :
    g.capacity * g.capacity ≤ Matrix.maximumVectorLength ∧
      ∀ u ∈ g.nodes, BellmanFord.Seldom weight g u := by
  obtain ⟨paths, makes, ends⟩ := then_ok ends
  refine ⟨fits_of_emptyPaths makes.symm, ?_⟩
  obtain ⟨e, mem, n, arb, arb'⟩ := arb_some edges
  rw [arb, arb'] at ends
  obtain ⟨labels, searches, rest⟩ := then_ok ends
  obtain ⟨labels', p, searches', potential⟩ := firstSearch_potential weight mem
  have same : (.ok labels : Except Raised (Labels G)) = .ok labels' := searches.unique searches'
  cases same
  exact fromNodes_seldom g.nodes (fun _ => id) potential rest

theorem allPairs_agree_iff (edges : g.edges ≠ []) (conservative : Conservative (network weight g)) :
    (∃ johnson floyd, AllPairsShortestPaths weight g (.ok johnson) ∧
        FloydWarshall.allPairsShortestPaths weight g = .ok floyd ∧ Agree weight g johnson floyd) ↔
      g.capacity * g.capacity ≤ Matrix.maximumVectorLength ∧
        ∀ u ∈ g.nodes, BellmanFord.Seldom weight g u := by
  constructor
  · rintro ⟨johnson, _, ends, _, _⟩
    exact seldom_of_allPairs edges ends
  · rintro ⟨fits, seldom⟩
    obtain ⟨e, mem, -⟩ := arb_some edges
    have bound := g.nodes_bound _ (Digraph.source_mem mem)
    obtain ⟨johnson, ends, entered⟩ := allPairs_ends edges conservative fits seldom
    obtain ⟨floyd, returns, square, distances⟩ :=
      FloydWarshall.allPairs_distances conservative (bound.1.trans_lt bound.2) fits
    have agree (u : Int) (memU : u ∈ g.nodes) (v : Int) (memV : v ∈ g.nodes) :
        ∃ x, johnson.dist.get u v = .ok x ∧ floyd.dist.get u v = .ok x ∧
          IsDistance (network weight g) u v x := by
      have boundU := g.nodes_bound u memU
      have boundV := g.nodes_bound v memV
      have distance := entered.distance u memU v memV ⟨memU, memV⟩
      refine ⟨johnson.dist.entry u v, ?_, ?_, distance⟩
      · exact Matrix.get_of_within (entered.square.dist.within boundU boundV)
      · rw [Matrix.get_of_within (square.dist.within boundU boundV)]
        exact congrArg _ ((distances u v boundU boundV).unique distance)
    refine ⟨johnson, floyd, ends, returns, ⟨entered.square.dist, square.dist⟩, agree,
      fun all i j => ?_⟩
    by_cases within : (0 ≤ i ∧ i < g.capacity) ∧ 0 ≤ j ∧ j < g.capacity
    · obtain ⟨⟨lowI, highI⟩, lowJ, highJ⟩ := within
      obtain ⟨x, left, right, _⟩ := agree i (all i lowI highI) j (all j lowJ highJ)
      rw [left, right]
    · rw [Matrix.get_of_not_within (mt entered.square.dist.within_iff.mp within),
        Matrix.get_of_not_within (mt square.dist.within_iff.mp within)]

end Passes

def looped : Digraph Unit where
  capacity := 1
  nodes := [0]
  outEdges := fun u => if u = 0 then [⟨0, 0, ()⟩] else []
  inEdges := fun v => if v = 0 then [⟨0, 0, ()⟩] else []
  nodes_nodup := lone.nodes_nodup
  nodes_bound := lone.nodes_bound
  outEdges_source := by
    intro u e mem
    split at mem <;> simp_all
  outEdges_ends := by
    intro u e mem
    split at mem <;> simp_all
  mem_inEdges := by
    rintro v ⟨source, target, info⟩
    constructor
    · intro mem
      split at mem <;> simp_all
    · rintro ⟨rfl, mem⟩
      dsimp only at mem
      split at mem <;> simp_all

theorem conservative_noWeight (g : Digraph Unit) : Conservative (network BellmanFord.noWeight g) :=
  fun _ _ cycle => cycle.total_nonneg fun _ _ => le_rfl

theorem allPairs_agree_iff_opposite :
    (∃ johnson floyd, AllPairsShortestPaths BellmanFord.noWeight opposite (.ok johnson) ∧
        FloydWarshall.allPairsShortestPaths BellmanFord.noWeight opposite = .ok floyd ∧
          Agree BellmanFord.noWeight opposite johnson floyd) ↔
      opposite.capacity * opposite.capacity ≤ Matrix.maximumVectorLength ∧
        ∀ u ∈ opposite.nodes, BellmanFord.Seldom BellmanFord.noWeight opposite u :=
  allPairs_agree_iff (by decide) (conservative_noWeight opposite)

/-- Where no edge has a negative weight, both searches from one source find the same distances,
unless one node is taken too often. -/
theorem singleSource_agree [IsOrderedAddMonoid G] {weight : Edge E → WithTop G} {g : Digraph E}
    {s : Int} (mem : s ∈ g.nodes) (nonneg : ∀ e ∈ g.edges, 0 ≤ weight e)
    (several : 2 ≤ g.nodes.length) : ∃ labels result,
    Dijkstra.SingleSourceShortestPaths weight g s (.ok labels) ∧
      BellmanFord.SingleSourceShortestPaths weight g s result ∧
        ((∃ labels', result = .ok labels' ∧
            ∀ v ∈ g.nodes, labels'.dist.cell v = labels.dist.cell v) ∨
          result = .error .negativeCycle ∧ ¬BellmanFord.Seldom weight g s) := by
  have none : ¬NegativeCycle (network weight g) s := no_negativeCycle_of_nonneg nonneg
  obtain ⟨search, starts, inv⟩ := Dijkstra.start_spec weight mem several
  obtain ⟨_, ends, labels, rfl, sound⟩ := Loop.ends_of_descent
    (fun search : Dijkstra.Search G => search.queue.size) (Dijkstra.turn_turns nonneg) ⟨_, inv⟩
  obtain ⟨result, ends', post⟩ := BellmanFord.ends_with_post weight mem
  refine ⟨labels, result, by rwa [Dijkstra.SingleSourceShortestPaths, starts], ends', post.imp ?_ id⟩
  rintro ⟨labels', rfl, sound'⟩
  refine ⟨labels', rfl, fun v memV => ?_⟩
  exact (sound'.distances none v memV).1.unique (sound.distances none v memV).1

theorem singleSource_agree_opposite : ∃ labels result,
    Dijkstra.SingleSourceShortestPaths BellmanFord.noWeight opposite 0 (.ok labels) ∧
      BellmanFord.SingleSourceShortestPaths BellmanFord.noWeight opposite 0 result ∧
        ((∃ labels', result = .ok labels' ∧
            ∀ v ∈ opposite.nodes, labels'.dist.cell v = labels.dist.cell v) ∨
          result = .error .negativeCycle ∧ ¬BellmanFord.Seldom BellmanFord.noWeight opposite 0) :=
  singleSource_agree (by decide) (fun _ _ => le_rfl) (by decide)

theorem looped_disagree : looped.edges ≠ [] ∧ Conservative (network BellmanFord.noWeight looped) ∧
    (∀ i, i ∈ looped.nodes ↔ 0 ≤ i ∧ i < looped.capacity) ∧
    ¬∃ johnson floyd, AllPairsShortestPaths BellmanFord.noWeight looped (.ok johnson) ∧
      FloydWarshall.allPairsShortestPaths BellmanFord.noWeight looped = .ok floyd ∧
        Agree BellmanFord.noWeight looped johnson floyd := by
  refine ⟨by decide, conservative_noWeight looped, fun i => ?_, ?_⟩
  · simp only [looped, List.mem_singleton]
    omega
  · rintro ⟨johnson, _, ends, _, _⟩
    obtain ⟨-, seldom⟩ := seldom_of_allPairs (by decide) ends
    have taken : BellmanFord.Taken BellmanFord.noWeight looped 0 [0] [] [] (startLabels looped 0) :=
      .take .start rfl
    exact absurd (seldom 0 (by decide) _ _ _ _ taken 0) (by decide)

end Mythryl.Graph.Johnson
