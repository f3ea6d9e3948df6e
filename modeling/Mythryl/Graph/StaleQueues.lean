import Mythryl.Graph.Dijkstra

/-! # Shortest paths with negative weights -/

namespace Mythryl.Graph.NodePriorityQueue

structure Housed (q : NodePriorityQueue) (n : Nat) (S : Set Int) : Prop where
  fits : (n : Int) ≤ q.heap.length
  size : q.size ≤ n
  mem : ∀ k < n, q.heap.cell (k : Nat) ∈ S
  within : ∀ x ∈ S, q.pos.Within x
  pos_lt : ∀ x ∈ S, q.pos.cell x < n

def Answers (less : Less) (S : Set Int) : Prop := ∀ x ∈ S, ∀ y ∈ S, ∃ b, less x y = .ok b

variable {q q' : NodePriorityQueue} {m n i : Nat} {S : Set Int} {x y : Int} {less : Less}

theorem Valid.housed (valid : Valid q n S) (size : q.size ≤ n) : Housed q n S :=
  ⟨valid.fits, size, valid.mem, valid.within, valid.pos_lt⟩

theorem Housed.within_heap (housed : Housed q n S) (inside : i < n) : q.heap.Within i :=
  ⟨Int.natCast_nonneg i, (Int.ofNat_lt.mpr inside).trans_le housed.fits⟩

theorem Housed.place (housed : Housed q n S) (inside : i < n) (mem : y ∈ S) :
    ∃ q', place q i y = .ok q' ∧ Housed q' n S ∧ q'.size = q.size := by
  refine ⟨placed q i y, ?_, ?_, rfl⟩
  · rw [NodePriorityQueue.place, RwVector.set_of_within (housed.within_heap inside), ok_bind,
      RwVector.set_of_within (housed.within y mem), ok_bind]
    rfl
  constructor
  case fits => exact housed.fits
  case size => exact housed.size
  case mem =>
    intro k less
    by_cases here : k = i
    · rw [here, placed_at]
      exact mem
    · rw [placed_at_of_ne here]
      exact housed.mem k less
  case within => exact housed.within
  case pos_lt =>
    intro x memX
    by_cases here : x = y
    · rw [here, placed_pos]
      exact inside
    · rw [placed_pos_of_ne here]
      exact housed.pos_lt x memX

theorem Housed.siftup (housed : Housed q n S) (answers : Answers less S) (mem : x ∈ S)
    (inside : i < n) : ∃ j q', siftup less x q i = .ok (j, q') ∧ j < n ∧ Housed q' n S ∧
      q'.size = q.size := by
  induction i using Nat.strongRecOn generalizing q with
  | ind i ih =>
    rw [NodePriorityQueue.siftup]
    by_cases root : i = 0
    · exact ⟨0, q, if_pos root, Nat.zero_lt_of_lt inside, housed, rfl⟩
    have parent : (i - 1) / 2 < i := by omega
    have insideP := parent.trans inside
    have memY := housed.mem _ insideP
    obtain ⟨lesser, asks⟩ := answers x mem _ memY
    rw [if_neg root]
    simp only [RwVector.get_of_within (housed.within_heap insideP), ok_bind, asks]
    cases lesser with
    | false => exact ⟨i, q, rfl, inside, housed, rfl⟩
    | true =>
      obtain ⟨q₁, places, housed₁, size₁⟩ := housed.place inside memY
      obtain ⟨j, q₂, sifts, insideJ, housed₂, size₂⟩ := ih _ parent housed₁ insideP
      refine ⟨j, q₂, ?_, insideJ, housed₂, size₂.trans size₁⟩
      simp only [if_true, places, ok_bind]
      exact sifts

theorem Housed.decreaseWeight (housed : Housed q n S) (answers : Answers less S) (mem : x ∈ S) :
    ∃ q', decreaseWeight less q x = .ok q' ∧ Housed q' n S ∧ q'.size = q.size := by
  obtain ⟨j, q₁, sifts, inside, housed₁, size₁⟩ :=
    housed.siftup answers mem (housed.pos_lt x mem)
  obtain ⟨q₂, places, housed₂, size₂⟩ := housed₁.place inside mem
  refine ⟨q₂, ?_, housed₂, size₂.trans size₁⟩
  rw [NodePriorityQueue.decreaseWeight, RwVector.get_of_within (housed.within x mem), ok_bind,
    sifts, ok_bind]
  exact places

theorem Housed.siftdown (housed : Housed q n S) (answers : Answers less S) (mem : x ∈ S)
    (bound : m ≤ n) (inside : i < n) : ∃ j q', siftdown less m x q i = .ok (j, q') ∧ j < n ∧
      Housed q' n S ∧ q'.size = q.size := by
  induction left : m - i using Nat.strongRecOn generalizing q i with
  | ind d ih =>
    have goes {c : Nat} (below : i < c) (insideC : c < m) :
        ∃ j q', (NodePriorityQueue.place q i (q.heap.cell c) >>= fun q₁ =>
          NodePriorityQueue.siftdown less m x q₁ c) = .ok (j, q') ∧ j < n ∧ Housed q' n S ∧
            q'.size = q.size := by
      obtain ⟨q₁, places, housed₁, size₁⟩ :=
        housed.place inside (housed.mem c (insideC.trans_le bound))
      obtain ⟨j, q₂, sifts, insideJ, housed₂, size₂⟩ :=
        @ih (m - c) (by omega) q₁ c housed₁ (insideC.trans_le bound) rfl
      refine ⟨j, q₂, ?_, insideJ, housed₂, size₂.trans size₁⟩
      rw [places, ok_bind]
      exact sifts
    have stays : ∃ j q', (Except.ok (i, q) : Except Raised _) = .ok (j, q') ∧ j < n ∧
        Housed q' n S ∧ q'.size = q.size := ⟨i, q, rfl, inside, housed, rfl⟩
    rw [NodePriorityQueue.siftdown]
    by_cases none : i + i + 1 ≥ m
    · simp only [if_pos none]
      exact stays
    have insideJ : i + i + 1 < n := by omega
    have memY := housed.mem _ insideJ
    obtain ⟨lessYX, asksYX⟩ := answers _ memY x mem
    simp only [if_neg none, RwVector.get_of_within (housed.within_heap insideJ), ok_bind]
    by_cases single : i + i + 1 + 1 ≥ m
    · simp only [if_pos single, asksYX, ok_bind]
      cases lessYX with
      | true => exact goes (by omega) (by omega)
      | false => exact stays
    have insideK : i + i + 1 + 1 < n := by omega
    have memZ := housed.mem _ insideK
    obtain ⟨lessZX, asksZX⟩ := answers _ memZ x mem
    obtain ⟨lessZY, asksZY⟩ := answers _ memZ _ memY
    simp only [if_neg single, RwVector.get_of_within (housed.within_heap insideK), ok_bind, asksYX]
    cases lessYX with
    | true =>
      simp only [if_true, asksZY, ok_bind]
      cases lessZY with
      | true => exact goes (by omega) (by omega)
      | false => exact goes (by omega) (by omega)
    | false =>
      simp only [Bool.false_eq_true, if_false, asksZX, ok_bind]
      cases lessZX with
      | true => exact goes (by omega) (by omega)
      | false => exact stays

theorem Housed.deleteMin (housed : Housed q n S) (answers : Answers less S) (some : q.size ≠ 0) :
    ∃ u q', deleteMin less q = .ok (u, q') ∧ u ∈ S ∧ Housed q' n S ∧ q'.size = q.size - 1 := by
  have size := housed.size
  have first : 0 < n := by omega
  have last : q.size - 1 < n := by omega
  have memX := housed.mem _ last
  obtain ⟨j, q₁, sifts, inside, housed₁, size₁⟩ :=
    housed.siftdown answers memX last.le first
  obtain ⟨q₂, places, housed₂, size₂⟩ := housed₁.place inside memX
  refine ⟨q.heap.cell (0 : Nat), { q₂ with size := q.size - 1 }, ?_, housed.mem 0 first,
    { housed₂ with size := last.le }, rfl⟩
  simp only [NodePriorityQueue.deleteMin, if_neg some,
    RwVector.get_of_within (housed.within_heap first),
    RwVector.get_of_within (housed.within_heap last), ok_bind, sifts, places]

end Mythryl.Graph.NodePriorityQueue

namespace Mythryl.Graph.Dijkstra
open Loop NodePriorityQueue

variable {E G : Type} [AddCommGroup G] [LinearOrder G]

structure Steady (g : Digraph E) (n : Nat) (bound : Int → WithTop G) (search : Search G) : Prop where
  dist_length : search.labels.dist.length = g.capacity
  prior_length : search.labels.prior.length = g.capacity
  queue : Housed search.queue n { u | u ∈ g.nodes }
  below : ∀ v, search.labels.dist.cell v ≤ bound v

variable {weight : Edge E → WithTop G} {g : Digraph E} {n : Nat} {s u v : Int} {search : Search G}
  {bound : Int → WithTop G} {e : Edge E} {dist : RwVector (WithTop G)}

omit [AddCommGroup G] in
theorem nearer_answers (length : dist.length = g.capacity) :
    Answers (nearer dist) { u | u ∈ g.nodes } := by
  intro x memX y memY
  exact ⟨_, nearer_decides (fun _ => id) length x memX y memY⟩

omit [AddCommGroup G] in
theorem Steady.within_dist (steady : Steady g n bound search) (mem : v ∈ g.nodes) :
    search.labels.dist.Within v := by
  have inside := g.nodes_bound v mem
  rw [← steady.dist_length] at inside
  exact inside

omit [AddCommGroup G] in
theorem Steady.within_prior (steady : Steady g n bound search) (mem : v ∈ g.nodes) :
    search.labels.prior.Within v := by
  have inside := g.nodes_bound v mem
  rw [← steady.prior_length] at inside
  exact inside

structure Relaxes (g : Digraph E) (n : Nat) (bound : Int → WithTop G) (search search' : Search G) :
    Prop where
  steady : Steady g n bound search'
  size : search'.queue.size = search.queue.size
  lower : ∀ v, search'.labels.dist.cell v ≤ search.labels.dist.cell v

theorem relax_steady (weight : Edge E → WithTop G) (steady : Steady g n bound search) (mem : e ∈ g.edges) :
    ∃ search', relax weight search e = .ok search' ∧ Relaxes g n bound search search' ∧
      search'.labels.dist.cell e.target ≤ search.labels.dist.cell e.source + weight e := by
  have source := steady.within_dist (Digraph.source_mem mem)
  have target := Digraph.target_mem mem
  have within := steady.within_dist target
  by_cases less : search.labels.dist.cell e.source + weight e < search.labels.dist.cell e.target
  · have lower (v : Int) : (search.labels.dist.put e.target
        (search.labels.dist.cell e.source + weight e)).cell v ≤ search.labels.dist.cell v := by
      by_cases here : v = e.target
      · rw [here, RwVector.put_cell_self]
        exact less.le
      · rw [RwVector.put_cell_of_ne here]
    have answers : Answers (nearer (search.labels.dist.put e.target
        (search.labels.dist.cell e.source + weight e))) { u | u ∈ g.nodes } :=
      nearer_answers steady.dist_length
    obtain ⟨queue, decreases, housed, size⟩ := steady.queue.decreaseWeight answers target
    refine ⟨⟨⟨search.labels.dist.put e.target (search.labels.dist.cell e.source + weight e),
      search.labels.prior.put e.target e.source⟩, queue⟩, ?_, ?_, RwVector.put_cell_self.le⟩
    · simp only [relax, RwVector.get_of_within source, RwVector.get_of_within within,
        RwVector.set_of_within within, ok_bind, if_pos less,
        RwVector.set_of_within (steady.within_prior target), decreases]
    · exact ⟨⟨steady.dist_length, steady.prior_length, housed, fun v =>
        (lower v).trans (steady.below v)⟩, size, lower⟩
  · refine ⟨search, ?_, ⟨steady, rfl, fun _ => le_rfl⟩, not_lt.mp less⟩
    simp only [relax, RwVector.get_of_within source, RwVector.get_of_within within, ok_bind,
      if_neg less]

variable [IsOrderedAddMonoid G]

theorem relaxAll_steady (weight : Edge E → WithTop G) (es : List (Edge E)) (steady : Steady g n bound search)
    (edges : ∀ e ∈ es, e ∈ g.edges) :
    ∃ search', es.foldlM (relax weight) search = .ok search' ∧ Relaxes g n bound search search' ∧
      ∀ e ∈ es, search'.labels.dist.cell e.target ≤
        search.labels.dist.cell e.source + weight e := by
  induction es generalizing search with
  | nil => exact ⟨search, rfl, ⟨steady, rfl, fun _ => le_rfl⟩, by simp⟩
  | cons e es ih =>
    obtain ⟨mem, later⟩ := List.forall_mem_cons.mp edges
    obtain ⟨search₁, relaxes, after₁, here⟩ := relax_steady weight steady mem
    obtain ⟨search₂, rest, after₂, others⟩ := ih after₁.steady later
    refine ⟨search₂, ?_, ⟨after₂.steady, after₂.size.trans after₁.size, fun v =>
      (after₂.lower v).trans (after₁.lower v)⟩, ?_⟩
    · rw [List.foldlM_cons, relaxes, ok_bind]
      exact rest
    · refine List.forall_mem_cons.mpr ⟨(after₂.lower _).trans here, fun e' mem' => ?_⟩
      calc search₂.labels.dist.cell e'.target
          ≤ search₁.labels.dist.cell e'.source + weight e' := others e' mem'
        _ ≤ search.labels.dist.cell e'.source + weight e' := by
          gcongr
          exact after₁.lower _

theorem turn_steady (weight : Edge E → WithTop G) (search : Search G)
    (steady : Steady g n bound search) :
    TurnsTo (turn weight g) (fun search' => Steady g n bound search' ∧
      search'.queue.size < search.queue.size) (fun result => ∃ labels, result = .ok labels ∧
        labels.dist.length = g.capacity ∧ ∀ v, labels.dist.cell v ≤ bound v) search := by
  by_cases none : search.queue.size = 0
  · have step : turn weight g search = .ok (.done search.labels) := by
      rw [turn, deleteMin, if_pos none]
      rfl
    exact .done step ⟨_, rfl, steady.dist_length, steady.below⟩
  · obtain ⟨u, q, deletes, _, housed, size⟩ :=
      steady.queue.deleteMin (nearer_answers steady.dist_length) none
    have steady' : Steady g n bound ⟨search.labels, q⟩ := { steady with queue := housed }
    obtain ⟨search', relaxes, after, _⟩ := relaxAll_steady weight (g.outEdges u) steady'
      fun e mem => (Digraph.mem_outEdges.mp mem).2
    have step : turn weight g search = .ok (.next search') := by
      rw [turn, deletes]
      dsimp only
      rw [relaxes, ok_bind]
    refine .next step ⟨after.steady, ?_⟩
    rw [after.size, size]
    omega

omit [IsOrderedAddMonoid G] in
theorem start_labels (starts : start g s = .ok search) : search.labels = startLabels g s := by
  obtain ⟨queue, _, starts⟩ := bind_eq_ok.mp starts
  obtain ⟨dist, sets, starts⟩ := bind_eq_ok.mp starts
  obtain ⟨queue', _, rfl⟩ := bind_pure_eq_ok.mp starts
  unfold RwVector.set at sets
  split at sets
  · cases sets
    rfl
  · cases sets

theorem first_turn (weight : Edge E → WithTop G) (mem : s ∈ g.nodes)
    (several : 2 ≤ g.nodes.length) :
    ∃ search search' n, start g s = .ok search ∧ turn weight g search = .ok (.next search') ∧
      Steady g n search'.labels.dist.cell search' ∧
        ∀ e ∈ g.outEdges s, search'.labels.dist.cell e.target ≤ weight e := by
  obtain ⟨search, starts, inv⟩ := start_spec weight mem several
  have labels := start_labels starts
  have size : search.queue.size ≠ 0 := by
    have some := inv.queued.valid.pos_lt s mem
    omega
  obtain ⟨m, is⟩ := Nat.exists_eq_succ_of_ne_zero size
  have decides := nearer_decides inv.sound.waiting_nodes inv.sound.dist_length
  obtain ⟨valid, ordered⟩ := inv.queued
  have housed := valid.housed le_rfl
  obtain ⟨u, q, deletes, _, housed', _⟩ :=
    housed.deleteMin (nearer_answers inv.sound.dist_length) size
  rw [is] at valid ordered
  obtain ⟨u', q', deletes', _, least, -⟩ := deleteMin_spec decides valid is ordered
  cases deletes.symm.trans deletes'
  have first : u = s := by
    by_contra other
    have far : search.labels.dist.cell u = ⊤ := by
      rw [labels]
      exact RwVector.put_cell_of_ne other
    have near : search.labels.dist.cell s = 0 := by simp [labels, startLabels]
    have le := least s mem
    rw [far, near] at le
    exact WithTop.zero_ne_top (top_le_iff.mp le)
  subst first
  have steady : Steady g search.queue.size search.labels.dist.cell ⟨search.labels, q⟩ :=
    ⟨inv.sound.dist_length, inv.sound.prior_length, housed', fun _ => le_rfl⟩
  obtain ⟨search', relaxes, after, edges⟩ := relaxAll_steady weight (g.outEdges u)
    steady fun e mem => (Digraph.mem_outEdges.mp mem).2
  refine ⟨search, search', _, starts, ?_, { after.steady with below := fun _ => le_rfl }, ?_⟩
  · rw [turn, deletes]
    dsimp only
    rw [relaxes, ok_bind]
  · intro e memE
    have source := (Digraph.mem_outEdges.mp memE).1
    have le := edges e memE
    rw [source] at le
    simpa [labels, startLabels] using le

theorem ends_below (weight : Edge E → WithTop G) (mem : s ∈ g.nodes)
    (several : 2 ≤ g.nodes.length) : ∃ labels, SingleSourceShortestPaths weight g s (.ok labels) ∧
      labels.dist.length = g.capacity ∧
        ∀ e ∈ g.outEdges s, labels.dist.cell e.target ≤ weight e := by
  obtain ⟨search, search', n, starts, step, steady, edges⟩ := first_turn weight mem several
  obtain ⟨_, ends, labels, rfl, length, below⟩ := ends_of_descent
    (fun search : Search G => search.queue.size) (turn_steady weight) steady
  refine ⟨labels, ?_, length, fun e memE => (below _).trans (edges e memE)⟩
  unfold SingleSourceShortestPaths
  rw [starts]
  exact (ends_next step).mpr ends

end Mythryl.Graph.Dijkstra
