import Mythryl.Graph.MaximumFlow

/-! # Preflows -/

namespace Mythryl.Graph.MaximumFlow
open FlowNetworks

variable {E G : Type} [AddCommGroup G]

structure Lengths (n : Int) (vs : Vectors E G) : Prop where
  neighbors : vs.neighbors.length = n
  dist : vs.dist.length = n
  excess : vs.excess.length = n
  current : vs.current.length = n

section Beginning

variable {capacity : Edge E → G} {es : List (Edge E)} {vs : Vectors E G} {s n : Int} {e : Edge E}
  {a : Arc E G} {x : Int}

structure Saturated (capacity : Edge E → G) (s n : Int) (es : List (Edge E)) (vs : Vectors E G) :
    Prop where
  lengths : Lengths n vs
  arcs : Arcs capacity es vs.neighbors.cell
  refs : vs.refs = 2 * es.length
  forth : ∀ k ∈ es.zipIdx, vs.value (2 * k.2) = if k.1.source = s then capacity k.1 else 0
  back : ∀ k ∈ es.zipIdx, vs.value (2 * k.2 + 1) = -vs.value (2 * k.2)
  excess : ∀ x, x ≠ s → vs.excess.cell x = -(es.zipIdx.map (share vs.value x)).sum

omit [AddCommGroup G] in
@[simp] theorem ref_neighbors (w : G) : (ref vs w).neighbors = vs.neighbors := rfl

omit [AddCommGroup G] in
theorem addEdge_ok (within : vs.neighbors.Within a.source) : addEdge vs a = .ok { vs with
    neighbors := vs.neighbors.put a.source (a :: vs.neighbors.cell a.source) } := by
  rw [addEdge, RwVector.get_of_within within, ok_bind, RwVector.set_of_within within, ok_bind]

def added (capacity : Edge E → G) (vs : Vectors E G) (e : Edge E) (n : Nat) (w : G) : Vectors E G :=
  { vs with
    neighbors := ⟨vs.neighbors.length, extended capacity vs.neighbors.cell (e, n)⟩
    refs := vs.refs + 2
    value := Function.update (Function.update vs.value (2 * n) w) (2 * n + 1) (-w) }

theorem addEdges_ok (lengths : Lengths n vs) (refs : vs.refs = 2 * es.length) (w : G)
    (boundS : 0 ≤ e.source ∧ e.source < n) (boundT : 0 ≤ e.target ∧ e.target < n) :
    (addEdge (ref (ref vs w) (-w)) ⟨e.source, e.target, vs.refs, capacity e, vs.refs + 1, true,
      e.info⟩ >>= fun vs₁ => addEdge vs₁ ⟨e.target, e.source, vs.refs + 1, 0, vs.refs, false, e.info⟩) =
      .ok (added capacity vs e es.length w) := by
  have within {x : Int} (bound : 0 ≤ x ∧ x < n) : vs.neighbors.Within x := by
    rw [← lengths.neighbors] at bound
    exact bound
  have withinT : (vs.neighbors.put e.source (forwardArc capacity (e, es.length) ::
    vs.neighbors.cell e.source)).Within e.target := within boundT
  have withinS : (ref (ref vs w) (-w)).neighbors.Within e.source := within boundS
  rw [addEdge_ok withinS, ok_bind, refs]
  refine (addEdge_ok withinT).trans ?_
  unfold added
  congr 2
  · unfold RwVector.put
    congr 1
    funext x
    unfold extended
    by_cases isTarget : e.target = x
    · subst isTarget
      rw [Function.update_self]
      by_cases isSource : e.source = e.target
      · simp [isSource, backwardArc, forwardArc]
      · simp [isSource, Function.update_of_ne (Ne.symm isSource), backwardArc]
    · rw [Function.update_of_ne (Ne.symm isTarget)]
      by_cases isSource : e.source = x
      · subst isSource
        simp [isTarget, forwardArc]
      · simp [isTarget, isSource, Function.update_of_ne (Ne.symm isSource)]
  · simp [ref, refs]

theorem setUpEdge_spec (saturated : Saturated capacity s n es vs)
    (boundS : 0 ≤ e.source ∧ e.source < n) (boundT : 0 ≤ e.target ∧ e.target < n) : ∃ vs',
    setUpEdge capacity s vs e = .ok vs' ∧ Saturated capacity s n (es ++ [e]) vs' ∧
      vs'.dist = vs.dist ∧ vs'.current = vs.current := by
  let w := if e.source = s then capacity e else 0
  let value := (added capacity vs e es.length w).value
  have forth : value (2 * es.length) = w := by
    simp [value, added]
  have back : value (2 * es.length + 1) = -w := by
    simp [value, added]
  have old (c : Nat) (less : c < 2 * es.length) : value c = vs.value c := by
    unfold value added
    dsimp only
    rw [Function.update_of_ne (by omega), Function.update_of_ne (by omega)]
  have shares (x : Int) : ((es ++ [e]).zipIdx.map (share value x)).sum =
      (es.zipIdx.map (share vs.value x)).sum +
        ((if e.source = x then w else 0) + if e.target = x then -w else 0) := by
    rw [zipIdx_concat, List.map_append, List.sum_append, share_congr old]
    congr 1
    simp [share, forth, back]
  have oldNumber {k : Edge E × Nat} (mem : k ∈ es.zipIdx) : k.2 < es.length :=
    List.snd_lt_of_mem_zipIdx mem
  have finish (excess : RwVector G) (length : excess.length = n)
      (cells : ∀ x, x ≠ s → excess.cell x = vs.excess.cell x + if e.target = x then w else 0) :
      Saturated capacity s n (es ++ [e]) { added capacity vs e es.length w with excess } := by
    constructor
    case lengths => exact { saturated.lengths with excess := length }
    case arcs => exact saturated.arcs.extend e
    case refs =>
      change vs.refs + 2 = _
      rw [saturated.refs, List.length_append, List.length_singleton, Nat.mul_add]
    case forth =>
      intro k mem
      rw [zipIdx_concat] at mem
      rcases List.mem_append.mp mem with before | new
      · have less := oldNumber before
        exact (old _ (by omega)).trans (saturated.forth k before)
      · rw [List.mem_singleton.mp new]
        exact forth
    case back =>
      intro k mem
      rw [zipIdx_concat] at mem
      rcases List.mem_append.mp mem with before | new
      · have less := oldNumber before
        refine (old _ (by omega)).trans ((saturated.back k before).trans ?_)
        exact congrArg Neg.neg (old _ (by omega)).symm
      · rw [List.mem_singleton.mp new]
        exact back.trans (congrArg Neg.neg forth.symm)
    case excess =>
      intro x notS
      refine (cells x notS).trans ?_
      rw [saturated.excess x notS]
      refine Eq.trans ?_ (congrArg Neg.neg (shares x)).symm
      have noShare : (if e.source = x then w else 0) = 0 := by
        split
        next isSource => exact if_neg fun isS => notS (isSource.symm.trans isS)
        · rfl
      rw [noShare, zero_add, neg_add]
      congr 1
      split
      · rw [neg_neg]
      · rw [neg_zero]
  by_cases isSource : e.source = s
  · have isW : w = capacity e := if_pos isSource
    have within : vs.excess.Within e.target := by
      rw [← saturated.lengths.excess] at boundT
      exact boundT
    let excess := vs.excess.put e.target (capacity e + vs.excess.cell e.target)
    refine ⟨_, ?_, finish excess saturated.lengths.excess fun x _ => ?_, rfl, rfl⟩
    · have adds := @addEdges_ok E G _ capacity es vs n e saturated.lengths saturated.refs w
        boundS boundT
      rw [isW] at adds
      rw [setUpEdge, if_pos isSource, ← bind_assoc, adds, ok_bind]
      have within' : (added capacity vs e es.length (capacity e)).excess.Within e.target := within
      rw [RwVector.get_of_within within', ok_bind, RwVector.set_of_within within', ok_bind, isW]
      rfl
    · by_cases isTarget : e.target = x
      · subst isTarget
        rw [RwVector.put_cell_self, if_pos rfl, isW, add_comm]
      · rw [RwVector.put_cell_of_ne (Ne.symm isTarget), if_neg isTarget, add_zero]
  · have isW : w = 0 := if_neg isSource
    refine ⟨_, ?_, finish vs.excess saturated.lengths.excess fun x _ => ?_, rfl, rfl⟩
    · have adds := @addEdges_ok E G _ capacity es vs n e saturated.lengths saturated.refs w
        boundS boundT
      rw [isW, neg_zero] at adds
      rw [setUpEdge, if_neg isSource, isW]
      exact adds
    · rw [isW, ite_self, add_zero]

end Beginning

variable [LinearOrder G]

structure Preflow (g : Digraph E) (s t : Int) (capacity : Edge E → G) (vs : Vectors E G)
    (ex : Int → G) : Prop where
  lengths : Lengths g.capacity vs
  arcs : Arcs capacity g.edges vs.neighbors.cell
  flowing : Flowing vs.neighbors.cell vs.value
  excess : ∀ x ∈ g.nodes, x ≠ s →
    ex x = -((vs.neighbors.cell x).map fun a => vs.value a.flow).sum
  nonneg : ∀ x ∈ g.nodes, x ≠ s → 0 ≤ ex x
  gentle : Gentle (Residual vs.neighbors.cell vs.value) vs.dist.cell
  top : vs.dist.cell s = g.order
  bottom : vs.dist.cell t = 0
  high : ∀ x ∈ g.nodes, vs.dist.cell x < 2 * g.order
  current : ∀ x ∈ g.nodes, ∀ a ∈ vs.current.cell x, a ∈ vs.neighbors.cell x

section Preflows

variable {g : Digraph E} {s t u x y : Int} {capacity : Edge E → G} {vs : Vectors E G} {ex : Int → G}
  {a : Arc E G} {eU : G} {es : List (Arc E G)} {neighbors : Int → List (Arc E G)}

theorem within_nodes {α : Type} {v : RwVector α} (length : v.length = g.capacity)
    (mem : x ∈ g.nodes) : v.Within x := by
  have bound := g.nodes_bound x mem
  rw [← length] at bound
  exact bound

theorem Preflow.target_mem (preflow : Preflow g s t capacity vs ex)
    (mem : a ∈ vs.neighbors.cell x) : x ∈ g.nodes ∧ a.target ∈ g.nodes :=
  preflow.arcs.ends (S := (· ∈ g.nodes))
    (fun _ member => ⟨Digraph.source_mem member, Digraph.target_mem member⟩) mem

omit [LinearOrder G] in
theorem Arcs.flow_mem_iff (arcs : Arcs capacity g.edges neighbors) (mem : a ∈ neighbors u) :
    a.flow ∈ (neighbors x).map Arc.flow ↔ x = u := by
  constructor
  · intro member
    obtain ⟨b, memB, same⟩ := List.mem_map.mp member
    exact (arcs.eq_of_flow memB mem same).1
  · rintro rfl
    exact List.mem_map_of_mem mem

omit [LinearOrder G] in
theorem Arcs.flow'_mem_iff (arcs : Arcs capacity g.edges neighbors) (mem : a ∈ neighbors u) :
    a.flow' ∈ (neighbors x).map Arc.flow ↔ x = a.target := by
  obtain ⟨b, memB, _, same, _⟩ := arcs.opposite mem
  rw [← same]
  exact arcs.flow_mem_iff memB

def pushed (value : Nat → G) (a : Arc E G) (d : G) : Nat → G :=
  Function.update (Function.update value a.flow (value a.flow + d)) a.flow' (-(value a.flow + d))

omit [LinearOrder G] in
theorem pushed_flow (arcs : Arcs capacity g.edges neighbors) (mem : a ∈ neighbors u) {value : Nat → G}
    (d : G) : pushed value a d a.flow = value a.flow + d := by
  rw [pushed, Function.update_of_ne (arcs.flow_ne mem), Function.update_self]

omit [LinearOrder G] in
theorem pushed_flow' {value : Nat → G} (d : G) :
    pushed value a d a.flow' = -(value a.flow + d) := by
  rw [pushed, Function.update_self]

omit [LinearOrder G] in
theorem pushed_of_ne {value : Nat → G} {c : Nat} (d : G) (notFlow : c ≠ a.flow)
    (notFlow' : c ≠ a.flow') : pushed value a d c = value c := by
  rw [pushed, Function.update_of_ne notFlow', Function.update_of_ne notFlow]

theorem sum_pushed (arcs : Arcs capacity g.edges neighbors) (mem : a ∈ neighbors u) {value : Nat → G}
    (flowing : Flowing neighbors value) (d : G) (x : Int) :
    ((neighbors x).map fun b => pushed value a d b.flow).sum =
      ((neighbors x).map fun b => value b.flow).sum + (if x = u then d else 0) +
        if x = a.target then -d else 0 := by
  have cells (value : Nat → G) : ((neighbors x).map fun b => value b.flow).sum =
      (((neighbors x).map Arc.flow).map value).sum := by
    rw [List.map_map]
    rfl
  let value₁ := Function.update value a.flow (value a.flow + d)
  have twice : pushed value a d =
      Function.update value₁ a.flow' (value₁ a.flow' + -d) := by
    unfold pushed value₁
    rw [Function.update_of_ne (arcs.flow_ne mem).symm, flowing.opposite u a mem, neg_add]
  rw [cells, cells, twice, sum_map_update (arcs.nodup x), sum_map_update (arcs.nodup x)]
  simp only [arcs.flow_mem_iff mem, arcs.flow'_mem_iff mem]

structure Pushed (g : Digraph E) (s t : Int) (capacity : Edge E → G) (vs : Vectors E G) (u : Int)
    (a : Arc E G) (eU : G) (value : Nat → G) (excess : RwVector G) : Prop where
  preflow : Preflow g s t capacity { vs with value, excess } (Function.update excess.cell u eU)
  spent : eU = 0 ∨ value a.flow = a.cap
  residual : ∀ x y, Residual vs.neighbors.cell value x y →
    Residual vs.neighbors.cell vs.value x y ∨ x = a.target ∧ y = u
  others : ∀ b ∈ vs.neighbors.cell u, b ≠ a → value b.flow = vs.value b.flow
  excess : ∀ x, x ≠ a.target → excess.cell x = vs.excess.cell x

variable [IsOrderedAddMonoid G]

theorem push_spec (preflow : Preflow g s t capacity vs (Function.update vs.excess.cell u eU))
    (mem : a ∈ vs.neighbors.cell u) (notS : u ≠ s) (room : vs.value a.flow < a.cap)
    (down : vs.dist.cell u = vs.dist.cell a.target + 1) (pos : 0 < eU) : ∃ eU' value excess,
    push eU a vs = .ok (eU', { vs with value, excess }) ∧
      Pushed g s t capacity vs u a eU' value excess := by
  have arcs := preflow.arcs
  obtain ⟨memU, memW⟩ := preflow.target_mem mem
  have other : a.target ≠ u := by
    intro same
    rw [same] at down
    omega
  let d := min' eU (a.cap - vs.value a.flow)
  have dPos : 0 < d := by
    unfold d min'
    split
    · exact pos
    · exact sub_pos.mpr room
  have dCap : d ≤ a.cap - vs.value a.flow := by
    unfold d min'
    split
    next less => exact less.le
    · exact le_rfl
  have dExcess : d ≤ eU := by
    unfold d min'
    split
    · exact le_rfl
    next notLess => exact not_lt.mp notLess
  have dEither : d = eU ∨ d = a.cap - vs.value a.flow := by
    unfold d min'
    split
    · exact .inl rfl
    · exact .inr rfl
  let value := pushed vs.value a d
  let excess := vs.excess.put a.target (vs.excess.cell a.target + d)
  have within := within_nodes preflow.lengths.excess memW
  have flow : value a.flow = vs.value a.flow + d := pushed_flow arcs mem d
  have flow' : value a.flow' = -(vs.value a.flow + d) := pushed_flow' d
  -- An arc is the one along which is pushed, its other end, or has the flow that it had.
  have cases (x : Int) (b : Arc E G) (memB : b ∈ vs.neighbors.cell x) :
      b = a ∧ x = u ∨ (b.flow = a.flow' ∧ b.flow' = a.flow ∧ x = a.target ∧ b.target = u) ∨
        value b.flow = vs.value b.flow ∧ value b.flow' = vs.value b.flow' := by
    by_cases same : b.flow = a.flow
    · exact .inl ((arcs.eq_of_flow memB mem same).symm)
    by_cases back : b.flow = a.flow'
    · obtain ⟨b', memB', target, flowB', flowB''⟩ := arcs.opposite mem
      obtain ⟨isTarget, rfl⟩ := arcs.eq_of_flow memB memB' (back.trans flowB'.symm)
      exact .inr (.inl ⟨back, flowB'', isTarget, target⟩)
    · refine .inr (.inr ⟨pushed_of_ne d same back, pushed_of_ne d ?_ ?_⟩)
      · intro isFlow
        obtain ⟨b', memB', _, flowB', flowB''⟩ := arcs.opposite memB
        have isA := (arcs.eq_of_flow memB' mem (flowB'.trans isFlow)).2
        rw [isA] at flowB''
        exact back flowB''.symm
      · intro isFlow
        obtain ⟨b', memB', _, flowB', flowB''⟩ := arcs.opposite memB
        obtain ⟨c, memC, _, flowC, flowC'⟩ := arcs.opposite mem
        have isC := (arcs.eq_of_flow memB' memC (flowB'.trans (isFlow.trans flowC.symm))).2
        rw [isC] at flowB''
        exact same (flowB''.symm.trans flowC')
  have sums := sum_pushed arcs mem preflow.flowing d
  have balance (x : Int) (memX : x ∈ g.nodes) (notSource : x ≠ s) :
      Function.update excess.cell u (eU - d) x =
        -((vs.neighbors.cell x).map fun b => value b.flow).sum := by
    have before := preflow.excess x memX notSource
    rw [sums x]
    by_cases isU : x = u
    · subst isU
      rw [Function.update_self] at before ⊢
      rw [if_pos rfl, if_neg other.symm, before]
      abel
    · rw [Function.update_of_ne isU] at before ⊢
      rw [if_neg isU]
      by_cases isW : x = a.target
      · subst isW
        rw [if_pos rfl]
        refine RwVector.put_cell_self.trans ?_
        rw [before]
        abel
      · rw [if_neg isW]
        refine (RwVector.put_cell_of_ne isW).trans ?_
        rw [before]
        abel
  refine ⟨eU - d, value, excess, ?_, ?_⟩
  · rw [push, RwVector.get_of_within within, ok_bind, RwVector.set_of_within within, ok_bind]
    rw [Function.update_self]
    rfl
  constructor
  case preflow =>
    constructor
    case lengths => exact { preflow.lengths with excess := preflow.lengths.excess }
    case arcs => exact arcs
    case flowing =>
      constructor
      · intro x b memB
        rcases cases x b memB with ⟨rfl, rfl⟩ | ⟨isFlow, isFlow', _⟩ | ⟨sameFlow, sameFlow'⟩
        · exact flow'.trans (congrArg Neg.neg flow.symm)
        · dsimp only
          rw [isFlow, isFlow', flow, flow', neg_neg]
        · exact sameFlow'.trans ((preflow.flowing.opposite x b memB).trans
            (congrArg Neg.neg sameFlow.symm))
      · intro x b memB
        have before := preflow.flowing.bounded x b memB
        rcases cases x b memB with ⟨rfl, rfl⟩ | ⟨isFlow, isFlow', _⟩ | ⟨sameFlow, _⟩
        · dsimp only
          rw [flow, add_comm]
          exact le_sub_iff_add_le.mp dCap
        · dsimp only
          rw [isFlow, flow']
          rw [isFlow, preflow.flowing.opposite u a mem] at before
          exact (neg_le_neg (le_add_of_nonneg_right dPos.le)).trans before
        · exact sameFlow.trans_le before
    case excess => exact balance
    case nonneg =>
      intro x memX notSource
      have before := preflow.nonneg x memX notSource
      by_cases isU : x = u
      · subst isU
        rw [Function.update_self]
        exact sub_nonneg.mpr dExcess
      · rw [Function.update_of_ne isU] at before ⊢
        by_cases isW : x = a.target
        · rw [isW] at before ⊢
          exact (add_nonneg before dPos.le).trans_eq RwVector.put_cell_self.symm
        · exact before.trans_eq (RwVector.put_cell_of_ne isW).symm
    case gentle =>
      rintro x y ⟨b, memB, rfl, roomB⟩
      rcases cases x b memB with ⟨rfl, rfl⟩ | ⟨_, _, isW, isU⟩ | ⟨sameFlow, _⟩
      · exact down.le
      · rw [isW, isU]
        dsimp only
        omega
      · refine preflow.gentle x b.target ⟨b, memB, rfl, ?_⟩
        rw [← sameFlow]
        exact roomB
    case top => exact preflow.top
    case bottom => exact preflow.bottom
    case high => exact preflow.high
    case current => exact preflow.current
  case spent =>
    rcases dEither with isExcess | isCap
    · exact .inl (sub_eq_zero.mpr isExcess.symm)
    · right
      rw [flow, isCap, add_sub_cancel]
  case residual =>
    rintro x y ⟨b, memB, rfl, roomB⟩
    rcases cases x b memB with ⟨rfl, rfl⟩ | ⟨_, _, isW, isU⟩ | ⟨sameFlow, _⟩
    · exact .inl ⟨b, memB, rfl, room⟩
    · exact .inr ⟨isW, isU⟩
    · refine .inl ⟨b, memB, rfl, ?_⟩
      rw [← sameFlow]
      exact roomB
  case others =>
    intro b memB notA
    rcases cases u b memB with ⟨isA, _⟩ | ⟨_, _, isW, _⟩ | ⟨sameFlow, _⟩
    · exact (notA isA).elim
    · exact (other isW.symm).elim
    · exact sameFlow
  case excess => exact fun x notW => RwVector.put_cell_of_ne notW

omit [AddCommGroup G] [IsOrderedAddMonoid G] in
theorem liftLoop_spec (lengths : Lengths g.capacity vs) (targets : ∀ a ∈ es, a.target ∈ g.nodes)
    (dV : Int) : ∃ d, liftLoop vs es dV = .ok d ∧ d ≤ dV ∧
      (∀ a ∈ es, vs.value a.flow < a.cap → d ≤ vs.dist.cell a.target) ∧
      (d = dV ∨ ∃ a ∈ es, vs.value a.flow < a.cap ∧ d = vs.dist.cell a.target) := by
  induction es generalizing dV with
  | nil => exact ⟨dV, rfl, Int.le_refl dV, by simp, .inl rfl⟩
  | cons a es ih =>
    obtain ⟨here, later⟩ := List.forall_mem_cons.mp targets
    have read := RwVector.get_of_within (within_nodes lengths.dist here)
    by_cases room : vs.value a.flow < a.cap
    · obtain ⟨d, lifts, le, least, found⟩ := ih later (min (vs.dist.cell a.target) dV)
      refine ⟨d, ?_, le.trans (min_le_right _ _), ?_, ?_⟩
      · rw [liftLoop, if_pos room, read, ok_bind, lifts]
      · rw [List.forall_mem_cons]
        exact ⟨fun _ => le.trans (min_le_left _ _), least⟩
      · rcases found with rfl | ⟨b, memB, roomB, rfl⟩
        · rcases min_choice (vs.dist.cell a.target) dV with isA | isV
          · exact .inr ⟨a, List.mem_cons_self, room, isA⟩
          · exact .inl isV
        · exact .inr ⟨b, List.mem_cons_of_mem a memB, roomB, rfl⟩
    · obtain ⟨d, lifts, le, least, found⟩ := ih later dV
      refine ⟨d, ?_, le, ?_, ?_⟩
      · rw [liftLoop, if_neg room, lifts]
      · rw [List.forall_mem_cons]
        exact ⟨fun room' => (room room').elim, least⟩
      · rcases found with rfl | ⟨b, memB, roomB, rfl⟩
        · exact .inl rfl
        · exact .inr ⟨b, List.mem_cons_of_mem a memB, roomB, rfl⟩

def nodeSet (g : Digraph E) : Finset Int := g.nodes.toFinset

omit [AddCommGroup G] [LinearOrder G] [IsOrderedAddMonoid G] in
theorem card_nodeSet (g : Digraph E) : ((nodeSet g).card : Int) = g.order := by
  rw [nodeSet, List.toFinset_card_of_nodup g.nodes_nodup]
  rfl

omit [AddCommGroup G] [LinearOrder G] [IsOrderedAddMonoid G] in
theorem network_within (g : Digraph E) (capacity : Edge E → G) :
    (network capacity g.edges).Within (nodeSet g) := by
  intro k mem
  have isEdge := List.fst_mem_of_mem_zipIdx mem
  exact ⟨List.mem_toFinset.mpr (Digraph.source_mem isEdge),
    List.mem_toFinset.mpr (Digraph.target_mem isEdge)⟩

theorem Preflow.reaches_source (preflow : Preflow g s t capacity vs ex) (mem : x ∈ g.nodes)
    (pos : 0 < ex x) (notS : x ≠ s) :
    Relation.ReflTransGen (Residual vs.neighbors.cell vs.value) x s := by
  have arcs := preflow.arcs
  have netOut (y : Int) (memY : y ∈ g.nodes) (other : y ≠ s) :
      (network capacity g.edges).netOut (flowOf vs.value) y = -ex y := by
    rw [preflow.flowing.netOut_eq arcs, preflow.excess y memY other, neg_neg]
  have reaches := Network.reaches_source (preflow.flowing.network_bounded arcs)
    (network_within g capacity) (List.mem_toFinset.mpr mem)
    (by rw [netOut x mem notS]; exact neg_lt_zero.mpr pos) fun y memY other => by
      have memY := List.mem_toFinset.mp memY
      rw [netOut y memY other]
      exact neg_nonpos.mpr (preflow.nonneg y memY other)
  exact Relation.ReflTransGen.mono (fun y z => (preflow.flowing.residual_iff arcs).mp) x s reaches

omit [IsOrderedAddMonoid G] in
theorem Preflow.residual_mem (preflow : Preflow g s t capacity vs ex)
    (residual : Residual vs.neighbors.cell vs.value x y) : x ∈ nodeSet g ∧ y ∈ nodeSet g := by
  obtain ⟨a, mem, rfl, _⟩ := residual
  obtain ⟨memX, memY⟩ := preflow.target_mem mem
  exact ⟨List.mem_toFinset.mpr memX, List.mem_toFinset.mpr memY⟩

structure Lifted (g : Digraph E) (s t : Int) (capacity : Edge E → G) (vs : Vectors E G)
    (ex : Int → G) (u d : Int) : Prop where
  preflow : Preflow g s t capacity { vs with dist := vs.dist.put u d } ex
  le : vs.dist.cell u ≤ d
  least : ∃ a ∈ vs.neighbors.cell u, vs.value a.flow < a.cap ∧ d = vs.dist.cell a.target + 1

theorem lift_spec (preflow : Preflow g s t capacity vs ex) (memU : u ∈ g.nodes)
    (memS : s ∈ g.nodes) (notS : u ≠ s) (notT : u ≠ t) (pos : 0 < ex u)
    (small : g.capacity ≤ maximumVectorLength) : ∃ d,
    lift u vs = .ok (d, { vs with dist := vs.dist.put u d }) ∧ Lifted g s t capacity vs ex u d := by
  have order : g.order ≤ maximumVectorLength := by
    have inside : nodeSet g ⊆ Finset.Ico 0 g.capacity := by
      intro x mem
      rw [Finset.mem_Ico]
      exact g.nodes_bound x (List.mem_toFinset.mp mem)
    have less := Finset.card_le_card inside
    rw [Int.card_Ico] at less
    have bound := g.nodes_bound s memS
    have card := card_nodeSet g
    omega
  have targets (a : Arc E G) (mem : a ∈ vs.neighbors.cell u) : a.target ∈ g.nodes :=
    (preflow.target_mem mem).2
  obtain ⟨d, lifts, _, least, found⟩ := liftLoop_spec preflow.lengths targets 1000000000
  -- There is an arc along which more can flow, and its target is lower than the bound.
  obtain ⟨a, mem, room, isD⟩ : ∃ a ∈ vs.neighbors.cell u, vs.value a.flow < a.cap ∧
      d = vs.dist.cell a.target := by
    rcases found with isBound | found
    · rcases Relation.ReflTransGen.cases_head (preflow.reaches_source memU pos notS) with same | ⟨y,
        ⟨a, mem, rfl, room⟩, _⟩
      · exact (notS same).elim
      · have high := preflow.high a.target (targets a mem)
        have low := least a mem room
        unfold maximumVectorLength at order
        omega
    · exact found
  have up : vs.dist.cell u ≤ d + 1 := by
    rw [isD]
    exact preflow.gentle u a.target ⟨a, mem, rfl, room⟩
  have notLower (x : Int) : vs.dist.cell x ≤ (vs.dist.put u (d + 1)).cell x := by
    by_cases isU : x = u
    · rw [isU, RwVector.put_cell_self]
      exact up
    · exact (RwVector.put_cell_of_ne isU).ge
  have gentle : Gentle (Residual vs.neighbors.cell vs.value) (vs.dist.put u (d + 1)).cell := by
    rintro x y ⟨b, memB, rfl, roomB⟩
    by_cases isU : x = u
    · subst isU
      have lower := (least b memB roomB).trans (notLower b.target)
      rw [RwVector.put_cell_self]
      omega
    · rw [RwVector.put_cell_of_ne isU]
      have fall := preflow.gentle x b.target ⟨b, memB, rfl, roomB⟩
      have higher := notLower b.target
      omega
  have top : (vs.dist.put u (d + 1)).cell s = g.order :=
    (RwVector.put_cell_of_ne notS.symm).trans preflow.top
  refine ⟨d + 1, ?_, ⟨?_, up, a, mem, room, congrArg (· + 1) isD⟩⟩
  · rw [lift, RwVector.get_of_within (within_nodes preflow.lengths.neighbors memU), ok_bind, lifts,
      ok_bind]
    dsimp only
    rw [RwVector.set_of_within (within_nodes preflow.lengths.dist memU), ok_bind]
  · refine { preflow with
      lengths := { preflow.lengths with dist := preflow.lengths.dist }
      gentle := gentle
      top := top
      bottom := (RwVector.put_cell_of_ne notT.symm).trans preflow.bottom
      high := fun x memX => ?_ }
    by_cases isU : x = u
    · subst isU
      have bounded := gentle.lt_add_card (preflow.reaches_source memX pos notS)
        (fun _ _ residual => (preflow.residual_mem residual).1) (List.mem_toFinset.mpr memS)
      rw [top, card_nodeSet] at bounded
      exact bounded.trans_eq (Int.two_mul _).symm
    · exact (RwVector.put_cell_of_ne isU).trans_lt (preflow.high x memX)

end Preflows

end Mythryl.Graph.MaximumFlow
