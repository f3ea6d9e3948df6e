import Mythryl.Graph.LiftToFront
import Mathlib.Algebra.Order.Group.Int

/-!
# Flows and cuts

From the preflow at the beginning to the calls of `flows`.
-/

namespace Mythryl.Graph.MaximumFlow
open FlowNetworks Loop

variable {E G : Type} [AddCommGroup G]

section Definitions

def outflow (calls : List (Edge E × G)) (x : Int) : G :=
  (calls.map fun c => if c.1.source = x then c.2 else 0).sum

def inflow (calls : List (Edge E × G)) (x : Int) : G :=
  (calls.map fun c => if c.1.target = x then c.2 else 0).sum

def cutCapacity (g : Digraph E) (capacity : Edge E → G) (X : Finset Int) : G :=
  (g.edges.map fun e => if e.source ∈ X ∧ e.target ∉ X then capacity e else 0).sum

/-- The calls of `flows` are made for the edges, once each, and report a flow of this value. -/
structure Reports [LinearOrder G] (g : Digraph E) (s t : Int) (capacity : Edge E → G)
    (calls : List (Edge E × G)) (value : G) : Prop where
  edges : (calls.map Prod.fst).Perm g.edges
  bounded : ∀ c ∈ calls, 0 ≤ c.2 ∧ c.2 ≤ capacity c.1
  conserved : ∀ x, x ≠ s → x ≠ t → outflow calls x = inflow calls x
  value : value = outflow calls s - inflow calls s

end Definitions

section Beginning

variable {g : Digraph E} {s t : Int} {capacity : Edge E → G} {vs : Vectors E G}
  {es : List (Edge E)} {us : List Int}

def blank (n : Int) : Vectors E G where
  neighbors := RwVector.makeRwVector n []
  dist := RwVector.makeRwVector n 0
  excess := RwVector.makeRwVector n 0
  current := RwVector.makeRwVector n []
  refs := 0
  value := fun _ => 0

theorem saturated_blank (n : Int) : Saturated capacity s n [] (blank n) := by
  constructor
  case lengths => exact ⟨rfl, rfl, rfl, rfl⟩
  case arcs => exact ⟨by simp [blank, RwVector.makeRwVector], by simp [blank, RwVector.makeRwVector],
    by simp [blank, RwVector.makeRwVector], by simp [blank, RwVector.makeRwVector]⟩
  case refs => rfl
  case forth => simp
  case back => simp
  case excess => simp [blank, RwVector.makeRwVector]

theorem setUpEdges_spec {es' : List (Edge E)} (saturated : Saturated capacity s g.capacity es vs)
    (ends : ∀ e ∈ es', e.source ∈ g.nodes ∧ e.target ∈ g.nodes) : ∃ vs',
    es'.foldlM (setUpEdge capacity s) vs = .ok vs' ∧
      Saturated capacity s g.capacity (es ++ es') vs' ∧
      vs'.dist = vs.dist ∧ vs'.current = vs.current := by
  induction es' generalizing es vs with
  | nil => exact ⟨vs, rfl, by rwa [List.append_nil], rfl, rfl⟩
  | cons e es' ih =>
    obtain ⟨⟨memS, memT⟩, later⟩ := List.forall_mem_cons.mp ends
    obtain ⟨vs₁, sets, saturated₁, dist₁, current₁⟩ :=
      setUpEdge_spec saturated (g.nodes_bound _ memS) (g.nodes_bound _ memT)
    obtain ⟨vs₂, sets₂, saturated₂, dist₂, current₂⟩ := ih saturated₁ later
    refine ⟨vs₂, ?_, ?_, dist₂.trans dist₁, current₂.trans current₁⟩
    · rw [List.foldlM_cons, sets, ok_bind, sets₂]
    · rw [← List.append_cons] at saturated₂
      exact saturated₂

omit [AddCommGroup G] in
theorem start_spec (lengths : Lengths g.capacity vs) (nodes : ∀ u ∈ us, u ∈ g.nodes) :
    ∃ current : RwVector (List (Arc E G)), start vs s t us =
        .ok (us.filter fun u => u ≠ s ∧ u ≠ t, { vs with current }) ∧
      current.length = g.capacity ∧
      ∀ x, current.cell x = vs.current.cell x ∨ current.cell x = vs.neighbors.cell x := by
  induction us with
  | nil => exact ⟨vs.current, rfl, lengths.current, fun _ => .inl rfl⟩
  | cons u us ih =>
    obtain ⟨memU, later⟩ := List.forall_mem_cons.mp nodes
    obtain ⟨current, starts, length, cells⟩ := ih later
    by_cases isEnd : u = s ∨ u = t
    · refine ⟨current, ?_, length, cells⟩
      rw [start, starts, ok_bind, List.filter_cons_of_neg]
      · exact if_pos isEnd
      · simpa [← not_or] using isEnd
    · refine ⟨current.put u (vs.neighbors.cell u), ?_, length, fun x => ?_⟩
      · rw [start, starts, ok_bind, List.filter_cons_of_pos]
        · dsimp only
          rw [if_neg isEnd, RwVector.get_of_within (within_nodes lengths.neighbors memU), ok_bind,
            RwVector.set_of_within (within_nodes length memU), ok_bind]
        · simpa [← not_or] using isEnd
      · by_cases isU : x = u
        · rw [isU, RwVector.put_cell_self]
          exact .inr rfl
        · rw [RwVector.put_cell_of_ne isU]
          exact cells x

variable [LinearOrder G] [IsOrderedAddMonoid G]

omit [IsOrderedAddMonoid G] in
theorem Saturated.value_nonneg (saturated : Saturated capacity s g.capacity g.edges vs)
    (nonneg : ∀ e ∈ g.edges, 0 ≤ capacity e) {k : Edge E × Nat} (mem : k ∈ g.edges.zipIdx) :
    0 ≤ vs.value (2 * k.2) := by
  rw [saturated.forth k mem]
  split
  · exact nonneg k.1 (List.fst_mem_of_mem_zipIdx mem)
  · exact le_rfl

theorem Saturated.flowing (saturated : Saturated capacity s g.capacity g.edges vs)
    (nonneg : ∀ e ∈ g.edges, 0 ≤ capacity e) : Flowing vs.neighbors.cell vs.value := by
  constructor
  · intro x a mem
    obtain ⟨k, memK, ⟨_, rfl⟩ | ⟨_, rfl⟩⟩ := (saturated.arcs.mem_iff x a).mp mem
    · exact saturated.back k memK
    · exact (neg_eq_iff_eq_neg.mpr (saturated.back k memK)).symm
  · intro x a mem
    obtain ⟨k, memK, ⟨_, rfl⟩ | ⟨_, rfl⟩⟩ := (saturated.arcs.mem_iff x a).mp mem
    · refine (saturated.forth k memK).trans_le ?_
      split
      · exact le_rfl
      · exact nonneg k.1 (List.fst_mem_of_mem_zipIdx memK)
    · refine (saturated.back k memK).trans_le ?_
      exact neg_nonpos.mpr (saturated.value_nonneg nonneg memK)

omit [IsOrderedAddMonoid G] in
theorem Saturated.residual (saturated : Saturated capacity s g.capacity g.edges vs) {y : Int}
    (residual : Residual vs.neighbors.cell vs.value s y) : y = s := by
  obtain ⟨a, mem, rfl, room⟩ := residual
  obtain ⟨k, memK, ⟨isSource, rfl⟩ | ⟨_, rfl⟩⟩ := (saturated.arcs.mem_iff s a).mp mem
  · have full := saturated.forth k memK
    rw [if_pos isSource] at full
    exact (room.ne full).elim
  · by_contra other
    have empty := saturated.forth k memK
    rw [if_neg (show k.1.source ≠ s from other)] at empty
    change vs.value (2 * k.2 + 1) < 0 at room
    rw [saturated.back k memK, empty, neg_zero] at room
    exact room.false

theorem Saturated.share_nonpos (saturated : Saturated capacity s g.capacity g.edges vs)
    (nonneg : ∀ e ∈ g.edges, 0 ≤ capacity e) {x : Int} (other : x ≠ s) {k : Edge E × Nat}
    (mem : k ∈ g.edges.zipIdx) : share vs.value x k ≤ 0 := by
  have pos := saturated.value_nonneg nonneg mem
  have forth := saturated.forth k mem
  have back : (if k.1.target = x then vs.value (2 * k.2 + 1) else 0) ≤ 0 := by
    rw [saturated.back k mem]
    split
    · exact neg_nonpos.mpr pos
    · exact le_rfl
  unfold share
  split
  next isSource =>
    rw [if_neg (isSource.trans_ne other)] at forth
    rw [forth, zero_add]
    exact back
  · rw [zero_add]
    exact back

theorem Saturated.excess_nonneg (saturated : Saturated capacity s g.capacity g.edges vs)
    (nonneg : ∀ e ∈ g.edges, 0 ≤ capacity e) {x : Int} (other : x ≠ s) : 0 ≤ vs.excess.cell x := by
  rw [saturated.excess x other, neg_nonneg]
  have least : ∀ w ∈ g.edges.zipIdx.map (share vs.value x), w ≤ 0 := by
    intro w mem
    obtain ⟨k, memK, rfl⟩ := List.mem_map.mp mem
    exact saturated.share_nonpos nonneg other memK
  exact (List.sum_le_card_nsmul _ 0 least).trans_eq (nsmul_zero _)

theorem Saturated.preflow (saturated : Saturated capacity s g.capacity g.edges vs)
    (zero : ∀ x, vs.dist.cell x = 0) {current : RwVector (List (Arc E G))}
    (length : current.length = g.capacity)
    (cells : ∀ x, current.cell x = [] ∨ current.cell x = vs.neighbors.cell x)
    (nonneg : ∀ e ∈ g.edges, 0 ≤ capacity e) (memS : s ∈ g.nodes) (other : s ≠ t) :
    Preflow g s t capacity { vs with dist := vs.dist.put s g.order, current } vs.excess.cell := by
  have order : 0 < g.order := Int.natCast_pos.mpr (List.length_pos_of_mem memS)
  have low (x : Int) (notS : x ≠ s) : (vs.dist.put s g.order).cell x = 0 :=
    (RwVector.put_cell_of_ne notS).trans (zero x)
  have top : (vs.dist.put s g.order).cell s = g.order := RwVector.put_cell_self
  constructor
  case lengths => exact { saturated.lengths with current := length }
  case arcs => exact saturated.arcs
  case flowing => exact saturated.flowing nonneg
  case excess =>
    intro x _ notS
    rw [saturated.excess x notS]
    exact congrArg Neg.neg (saturated.arcs.sums vs.value x).symm
  case nonneg => exact fun x _ notS => saturated.excess_nonneg nonneg notS
  case gentle =>
    intro x y residual
    by_cases isS : x = s
    · subst isS
      rw [saturated.residual residual]
      omega
    · rw [low x isS]
      by_cases isS' : y = s
      · rw [isS', top]
        omega
      · rw [low y isS']
        omega
  case top => exact top
  case bottom => exact low t other.symm
  case high =>
    intro x _
    by_cases isS : x = s
    · rw [isS, top]
      omega
    · rw [low x isS]
      omega
  case current =>
    intro x _ a mem
    rcases cells x with isEmpty | isAll
    · rw [isEmpty] at mem
      exact (List.not_mem_nil mem).elim
    · rwa [isAll] at mem

theorem makeRwVector_ok {α : Type} (small : g.capacity ≤ maximumVectorLength) (x : α) :
    makeRwVector g.capacity x = .ok (RwVector.makeRwVector g.capacity x) :=
  if_neg small.not_gt

theorem liftToFront_spec (memS : s ∈ g.nodes) (other : s ≠ t)
    (nonneg : ∀ e ∈ g.edges, 0 ≤ capacity e) (small : g.capacity ≤ maximumVectorLength) :
    ∃ l vs, liftToFront g s t capacity = .ok ⟨.iterate [] l, vs⟩ ∧
      Iterating g s t capacity [] l vs := by
  obtain ⟨vs, sets, saturated, dist, current⟩ :=
    @setUpEdges_spec E G _ g s capacity (blank g.capacity) [] g.edges (saturated_blank g.capacity)
      fun e mem => ⟨Digraph.source_mem mem, Digraph.target_mem mem⟩
  have setUp : setUpPreflow capacity g s (blank g.capacity) =
      .ok { vs with dist := vs.dist.put s g.order } := by
    rw [setUpPreflow, sets, ok_bind,
      RwVector.set_of_within (within_nodes saturated.lengths.dist memS), ok_bind]
  obtain ⟨current', starts, length, cells⟩ :=
    @start_spec E G g s t { vs with dist := vs.dist.put s g.order } g.nodes
      { saturated.lengths with dist := saturated.lengths.dist } fun _ => id
  let vs' : Vectors E G := { vs with dist := vs.dist.put s g.order, current := current' }
  have zero (x : Int) : vs.dist.cell x = 0 := by
    rw [dist]
    rfl
  have empty (x : Int) : vs.current.cell x = [] := by
    rw [current]
    rfl
  have preflow : Preflow g s t capacity vs' vs.excess.cell :=
    saturated.preflow zero length (fun x => by rw [← empty x]; exact cells x) nonneg memS other
  have listed (x : Int) : x ∈ g.nodes.filter (fun u => u ≠ s ∧ u ≠ t) ↔
      x ∈ g.nodes ∧ x ≠ s ∧ x ≠ t := by
    rw [List.mem_filter, decide_eq_true_iff]
  refine ⟨_, vs', ?_, preflow, ⟨g.nodes_nodup.filter _, listed⟩, ?_, by simp⟩
  · rw [liftToFront, if_neg other]
    simp only [makeRwVector_ok small, ok_bind]
    change (setUpPreflow capacity g s (blank g.capacity) >>= _) = _
    rw [setUp, ok_bind, starts, ok_bind]
  · apply List.pairwise_of_forall_mem_list
    intro x memX y memY admissible
    have lowX : vs'.dist.cell x = 0 :=
      (RwVector.put_cell_of_ne ((listed x).mp memX).2.1).trans (zero x)
    have lowY : vs'.dist.cell y = 0 :=
      (RwVector.put_cell_of_ne ((listed y).mp memY).2.1).trans (zero y)
    have fall := admissible.2
    omega

end Beginning

section Calls

variable {g : Digraph E} {s t : Int} {capacity : Edge E → G} {vs : Vectors E G} {is : List Int}
  {calls : List (Edge E × G)} {x : Int}

def forwardCalls (vs : Vectors E G) (i : Int) : List (Edge E × G) :=
  ((vs.neighbors.cell i).filter Arc.forward).map fun a => (⟨i, a.target, a.info⟩, vs.value a.flow)

def flowCalls (g : Digraph E) (value : Nat → G) : List (Edge E × G) :=
  g.edges.zipIdx.map fun k => (k.1, flowOf value k)

omit [AddCommGroup G] in
theorem reportFlows_ok (lengths : Lengths g.capacity vs) (nodes : ∀ i ∈ is, i ∈ g.nodes) :
    reportFlows vs is = .ok (is.flatMap (forwardCalls vs)) := by
  induction is with
  | nil => rfl
  | cons i is ih =>
    obtain ⟨here, later⟩ := List.forall_mem_cons.mp nodes
    rw [reportFlows, RwVector.get_of_within (within_nodes lengths.neighbors here), ok_bind, ih later,
      ok_bind]
    rfl

theorem flatMap_filter_perm {α κ : Type} [DecidableEq κ] {key : α → κ} {keys : List κ}
    (nodup : keys.Nodup) {l : List α} (mem : ∀ a ∈ l, key a ∈ keys) :
    (keys.flatMap fun x => l.filter fun a => key a = x).Perm l := by
  induction l with
  | nil => simp
  | cons a l ih =>
    obtain ⟨here, later⟩ := List.forall_mem_cons.mp mem
    have none {keys : List κ} (absent : key a ∉ keys) :
        (keys.flatMap fun x => if key a = x then [a] else []) = [] := by
      rw [List.flatMap_eq_nil_iff]
      exact fun x memX => if_neg (ne_of_mem_of_not_mem memX absent).symm
    have one : (keys.flatMap fun x => if key a = x then [a] else []) = [a] := by
      obtain ⟨before, after, rfl⟩ := List.append_of_mem here
      obtain ⟨absent, _⟩ := List.nodup_cons.mp (List.perm_middle.nodup_iff.mp nodup)
      rw [List.mem_append, not_or] at absent
      rw [List.flatMap_append, List.flatMap_cons, none absent.1, none absent.2, if_pos rfl]
      rfl
    have each (x : κ) : ((a :: l).filter fun a => key a = x) =
        (if key a = x then [a] else []) ++ l.filter fun a => key a = x := by
      by_cases isKey : key a = x
      · simp [isKey]
      · simp [isKey]
    simp only [each]
    refine (List.flatMap_append_perm keys _ _).symm.trans ?_
    rw [one]
    exact (ih later).cons a

theorem forwardCalls_perm (arcs : Arcs capacity g.edges vs.neighbors.cell) (x : Int) :
    (forwardCalls vs x).Perm ((g.edges.zipIdx.filter fun k => k.1.source = x).map fun k =>
      (k.1, flowOf vs.value k)) := by
  refine ((arcs.forwards x).map _).trans (.of_eq ?_)
  rw [List.map_map]
  apply List.map_congr_left
  intro k mem
  have isSource : k.1.source = x := of_decide_eq_true (List.mem_filter.mp mem).2
  subst isSource
  rfl

theorem flowCalls_perm (arcs : Arcs capacity g.edges vs.neighbors.cell) :
    (g.nodes.flatMap (forwardCalls vs)).Perm (flowCalls g vs.value) := by
  refine (List.Perm.flatMap_left _ fun x _ => forwardCalls_perm arcs x).trans ?_
  rw [← List.map_flatMap]
  apply List.Perm.map
  exact flatMap_filter_perm g.nodes_nodup fun k mem =>
    Digraph.source_mem (List.fst_mem_of_mem_zipIdx mem)

theorem flows_eq (perm : calls.Perm (flowCalls g vs.value)) (x : Int) :
    outflow calls x - inflow calls x = (network capacity g.edges).netOut (flowOf vs.value) x := by
  have out : outflow calls x = outflow (flowCalls g vs.value) x := (perm.map _).sum_eq
  have into : inflow calls x = inflow (flowCalls g vs.value) x := (perm.map _).sum_eq
  rw [out, into]
  unfold outflow inflow flowCalls Network.netOut
  rw [List.map_map, List.map_map, sub_eq_add_neg, List.sum_neg, List.map_map, ← List.sum_map_add]
  simp only [sub_eq_add_neg]
  rfl

theorem leaving_eq (X : Finset Int) :
    (network capacity g.edges).leaving (network capacity g.edges).capacity (· ∈ X) =
      cutCapacity g capacity X := by
  have edges : g.edges.zipIdx.map Prod.fst = g.edges := List.zipIdx_map_fst 0 g.edges
  refine Eq.trans ?_ (congrArg (fun es => (es.map fun e =>
    if e.source ∈ X ∧ e.target ∉ X then capacity e else 0).sum) edges)
  rw [List.map_map]
  rfl

theorem report_ok (lengths : Lengths g.capacity vs) (memS : s ∈ g.nodes) : report g s vs =
    .ok (g.nodes.flatMap (forwardCalls vs), ((vs.neighbors.cell s).map fun a => vs.value a.flow).sum) := by
  rw [report, reportFlows_ok lengths fun _ => id, ok_bind,
    RwVector.get_of_within (within_nodes lengths.neighbors memS), ok_bind, List.sum_eq_foldr,
    List.foldr_map]

variable [LinearOrder G] [IsOrderedAddMonoid G]

omit [IsOrderedAddMonoid G] in
theorem Preflow.conserved (preflow : Preflow g s t capacity vs vs.excess.cell)
    (zero : ∀ x ∈ g.nodes, x ≠ s → x ≠ t → vs.excess.cell x = 0) (notS : x ≠ s) (notT : x ≠ t) :
    (network capacity g.edges).netOut (flowOf vs.value) x = 0 := by
  rw [preflow.flowing.netOut_eq preflow.arcs]
  by_cases mem : x ∈ g.nodes
  · have balance := preflow.excess x mem notS
    rw [zero x mem notS notT, zero_eq_neg] at balance
    exact balance
  · have isolated : vs.neighbors.cell x = [] := by
      rw [List.eq_nil_iff_forall_not_mem]
      exact fun a isArc => mem (preflow.target_mem isArc).1
    rw [isolated]
    rfl

theorem Preflow.reports (preflow : Preflow g s t capacity vs vs.excess.cell)
    (zero : ∀ x ∈ g.nodes, x ≠ s → x ≠ t → vs.excess.cell x = 0)
    (perm : calls.Perm (flowCalls g vs.value)) :
    Reports g s t capacity calls ((network capacity g.edges).netOut (flowOf vs.value) s) := by
  constructor
  case edges =>
    refine (perm.map Prod.fst).trans (.of_eq ?_)
    rw [flowCalls, List.map_map]
    exact List.zipIdx_map_fst 0 g.edges
  case bounded =>
    intro c mem
    obtain ⟨k, memK, rfl⟩ := List.mem_map.mp (perm.mem_iff.mp mem)
    exact preflow.flowing.network_bounded preflow.arcs k memK
  case conserved =>
    intro x notS notT
    rw [← sub_eq_zero, flows_eq perm, preflow.conserved zero notS notT]
  case value => exact (flows_eq perm s).symm

theorem Preflow.unreachable (preflow : Preflow g s t capacity vs vs.excess.cell)
    (memT : t ∈ g.nodes) :
    ¬Relation.ReflTransGen ((network capacity g.edges).Residual (flowOf vs.value)) s t := by
  intro path
  have residual : Relation.ReflTransGen (Residual vs.neighbors.cell vs.value) s t :=
    Relation.ReflTransGen.mono (fun x y => (preflow.flowing.residual_iff preflow.arcs).mp) s t path
  have less := preflow.gentle.lt_add_card residual
    (fun x y step => (preflow.residual_mem step).1) (List.mem_toFinset.mpr memT)
  rw [preflow.top, preflow.bottom, card_nodeSet, zero_add] at less
  exact less.false

end Calls

variable [LinearOrder G] [IsOrderedAddMonoid G]

theorem maxFlow_eq_minCut {g : Digraph E} {s t : Int} {capacity : Edge E → G} (memS : s ∈ g.nodes)
    (memT : t ∈ g.nodes) (other : s ≠ t) (nonneg : ∀ e ∈ g.edges, 0 ≤ capacity e)
    (small : g.capacity ≤ maximumVectorLength) : ∃ calls value,
      MaxFlow g s t capacity (.ok (calls, value)) ∧ Reports g s t capacity calls value ∧
      (∃ X : Finset Int, s ∈ X ∧ t ∉ X ∧ cutCapacity g capacity X = value) ∧
      ∀ X : Finset Int, s ∈ X → t ∉ X → value ≤ cutCapacity g capacity X := by
  obtain ⟨l, vs₀, begins, iterating⟩ := liftToFront_spec memS other nonneg small
  obtain ⟨_, ends, vs, rfl, preflow, zero⟩ :=
    ends_of_ranks (ranked_turns memS small) (.iterate iterating)
  let flow : Edge E × Nat → G := flowOf vs.value
  have bounded := preflow.flowing.network_bounded preflow.arcs
  have value : ((vs.neighbors.cell s).map fun a => vs.value a.flow).sum =
      (network capacity g.edges).netOut flow s := (preflow.flowing.netOut_eq preflow.arcs s).symm
  refine ⟨g.nodes.flatMap (forwardCalls vs), (network capacity g.edges).netOut flow s, ?_,
    preflow.reports zero (flowCalls_perm preflow.arcs), ?_, fun X memX notX => ?_⟩
  · rw [MaxFlow, begins]
    refine ⟨_, ends, ?_⟩
    change _ = report g s vs
    rw [report_ok preflow.lengths memS, value]
  · obtain ⟨X, _, memX, notX, isCut⟩ := Network.exists_cut bounded (network_within g capacity)
      (List.mem_toFinset.mpr memS) (fun x _ => preflow.conserved zero) (preflow.unreachable memT)
    exact ⟨X, memX, notX, by rw [← leaving_eq, isCut]⟩
  · rw [← leaving_eq]
    apply Network.netOut_le bounded memX
    intro x mem notS
    refine preflow.conserved zero notS ?_
    rintro rfl
    exact notX mem

theorem maxFlow_opposite : ∃ calls value,
    MaxFlow opposite 0 1 (fun _ => (5 : Int)) (.ok (calls, value)) ∧
      Reports opposite 0 1 (fun _ => 5) calls value ∧
      (∃ X : Finset Int, 0 ∈ X ∧ 1 ∉ X ∧ cutCapacity opposite (fun _ => (5 : Int)) X = value) ∧
      ∀ X : Finset Int, 0 ∈ X → 1 ∉ X → value ≤ cutCapacity opposite (fun _ => 5) X :=
  maxFlow_eq_minCut (by decide) (by decide) (by decide) (by decide) (by decide)

end Mythryl.Graph.MaximumFlow
