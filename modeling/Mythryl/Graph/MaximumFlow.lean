import Mythryl.Graph.OopDigraph
import Mythryl.Loop
import Mythryl.FlowNetworks

/-!
# Maximum flow

`maximum_flow_g`, for an ordered abelian group: nodes that more has flowed into than out of are
discharged, the one in front of the list first, and a node that has been lifted goes to the front.
-/

namespace Mythryl.Graph.MaximumFlow
open Loop

variable {E G : Type} [AddCommGroup G] [LinearOrder G]

structure Arc (E G : Type) where
  source : Int
  target : Int
  flow : Nat
  cap : G
  flow' : Nat
  forward : Bool
  info : E

structure Vectors (E G : Type) where
  neighbors : RwVector (List (Arc E G))
  dist : RwVector Int
  excess : RwVector G
  current : RwVector (List (Arc E G))
  refs : Nat
  value : Nat → G

/-- `iterate` with the nodes before the current one, in reverse, and those from it on; or the loop of
`discharge u`, which `dist` was `dU` at its beginning, in the midst of it. -/
inductive Search (E G : Type)
  | iterate (f b : List Int)
  | loop (f b : List Int) (u dU dV : Int) (eV : G) (es : List (Arc E G))

structure State (E G : Type) where
  search : Search E G
  vectors : Vectors E G

section Preflow

variable (capacity : Edge E → G)

def ref (vs : Vectors E G) (x : G) : Vectors E G :=
  { vs with refs := vs.refs + 1, value := Function.update vs.value vs.refs x }

def addEdge (vs : Vectors E G) (a : Arc E G) : Except Raised (Vectors E G) := do
  let neighbors ← vs.neighbors.set a.source (a :: (← vs.neighbors.get a.source))
  .ok { vs with neighbors }

def setUpEdge (s : Int) (vs : Vectors E G) (e : Edge E) : Except Raised (Vectors E G) := do
  let c := capacity e
  let f := vs.refs
  let f' := vs.refs + 1
  if e.source = s then
    let vs ← addEdge (ref (ref vs c) (-c)) ⟨e.source, e.target, f, c, f', true, e.info⟩
    let vs ← addEdge vs ⟨e.target, e.source, f', 0, f, false, e.info⟩
    let excess ← vs.excess.set e.target (c + (← vs.excess.get e.target))
    .ok { vs with excess }
  else
    let vs ← addEdge (ref (ref vs 0) 0) ⟨e.source, e.target, f, c, f', true, e.info⟩
    addEdge vs ⟨e.target, e.source, f', 0, f, false, e.info⟩

def setUpPreflow (g : Digraph E) (s : Int) (vs : Vectors E G) : Except Raised (Vectors E G) := do
  let vs ← g.edges.foldlM (setUpEdge capacity s) vs
  let dist ← vs.dist.set s g.order
  .ok { vs with dist }

end Preflow

def min' (a b : G) : G := if a < b then a else b

def push (eU : G) (a : Arc E G) (vs : Vectors E G) : Except Raised (G × Vectors E G) := do
  let cF := a.cap - vs.value a.flow
  let dF := min' eU cF
  let eV ← vs.excess.get a.target
  let value := Function.update vs.value a.flow (vs.value a.flow + dF)
  let value := Function.update value a.flow' (-value a.flow)
  let excess ← vs.excess.set a.target (eV + dF)
  .ok (eU - dF, { vs with value, excess })

def liftLoop (vs : Vectors E G) : List (Arc E G) → Int → Except Raised Int
  | [], dV => .ok dV
  | a :: es, dV => do
      if vs.value a.flow < a.cap then liftLoop vs es (min (← vs.dist.get a.target) dV)
      else liftLoop vs es dV

def lift (v : Int) (vs : Vectors E G) : Except Raised (Int × Vectors E G) := do
  let dV := (← liftLoop vs (← vs.neighbors.get v) 1000000000) + 1
  let dist ← vs.dist.set v dV
  .ok (dV, { vs with dist })

def admissible (vs : Vectors E G) (dV : Int) (a : Arc E G) : Except Raised Bool := do
  if vs.value a.flow < a.cap then .ok (dV = (← vs.dist.get a.target) + 1) else .ok false

def discharged (f b : List Int) (u dU dV : Int) (es : List (Arc E G)) (vs : Vectors E G) :
    Except Raised (State E G) := do
  let excess ← vs.excess.set u 0
  let current ← vs.current.set u es
  .ok ⟨if dU ≠ dV then .iterate [u] (f.reverse ++ b) else .iterate (u :: f) b,
    { vs with excess, current }⟩

def turn : State E G → Except Raised (Turn (State E G) (Vectors E G))
  | ⟨.iterate _ [], vs⟩ => .ok (.done vs)
  | ⟨.iterate f (u :: b), vs⟩ => do
      let eV ← vs.excess.get u
      if eV = 0 then .ok (.next ⟨.iterate (u :: f) b, vs⟩)
      else
        let dV ← vs.dist.get u
        let es ← vs.current.get u
        .ok (.next ⟨.loop f b u dV dV eV es, vs⟩)
  | ⟨.loop f b u dU dV eV (a :: es), vs⟩ => do
      if ← admissible vs dV a then
        let (eV, vs) ← push eV a vs
        if eV = 0 then .ok (.next (← discharged f b u dU dV es vs))
        else .ok (.next ⟨.loop f b u dU dV eV es, vs⟩)
      else .ok (.next ⟨.loop f b u dU dV eV es, vs⟩)
  | ⟨.loop f b u dU _ eV [], vs⟩ => do
      let (dV, vs) ← lift u vs
      let es ← vs.neighbors.get u
      .ok (.next ⟨.loop f b u dU dV eV es, vs⟩)

def maximumVectorLength : Int := 2 ^ (31 - 7) - 1

def makeRwVector {α : Type} (n : Int) (x : α) : Except Raised (RwVector α) :=
  if n > maximumVectorLength then .error .size else .ok (RwVector.makeRwVector n x)

def start (vs : Vectors E G) (s t : Int) : List Int → Except Raised (List Int × Vectors E G)
  | [] => .ok ([], vs)
  | u :: us => do
      let (l, vs) ← start vs s t us
      if u = s ∨ u = t then .ok (l, vs)
      else
        let current ← vs.current.set u (← vs.neighbors.get u)
        .ok (u :: l, { vs with current })

def liftToFront (g : Digraph E) (s t : Int) (capacity : Edge E → G) :
    Except Raised (State E G) := do
  if s = t then throw (.badGraph "maxflow")
  let n := g.capacity
  let neighbors ← makeRwVector n []
  let dist ← makeRwVector n 0
  let excess ← makeRwVector n 0
  let current ← makeRwVector n []
  let vs ← setUpPreflow capacity g s ⟨neighbors, dist, excess, current, 0, fun _ => 0⟩
  let (l, vs) ← start vs s t g.nodes
  .ok ⟨.iterate [] l, vs⟩

def reportFlows (vs : Vectors E G) : List Int → Except Raised (List (Edge E × G))
  | [] => .ok []
  | i :: is => do
      let arcs ← vs.neighbors.get i
      let calls := (arcs.filter Arc.forward).map fun a => (⟨i, a.target, a.info⟩, vs.value a.flow)
      .ok (calls ++ (← reportFlows vs is))

def report (g : Digraph E) (s : Int) (vs : Vectors E G) :
    Except Raised (List (Edge E × G) × G) := do
  let calls ← reportFlows vs g.nodes
  .ok (calls, (← vs.neighbors.get s).foldr (fun a n => vs.value a.flow + n) 0)

def MaxFlow (g : Digraph E) (s t : Int) (capacity : Edge E → G)
    (result : Except Raised (List (Edge E × G) × G)) : Prop :=
  match liftToFront g s t capacity with
  | .error e => result = .error e
  | .ok state => ∃ searched, Ends turn state searched ∧ result = searched >>= report g s

end Mythryl.Graph.MaximumFlow

/-! # The arcs of a flow network -/

namespace Mythryl.Graph.MaximumFlow

variable {E G : Type} [AddCommGroup G]

section Definitions

variable (capacity : Edge E → G)

def forwardArc (k : Edge E × Nat) : Arc E G :=
  ⟨k.1.source, k.1.target, 2 * k.2, capacity k.1, 2 * k.2 + 1, true, k.1.info⟩

def backwardArc (k : Edge E × Nat) : Arc E G :=
  ⟨k.1.target, k.1.source, 2 * k.2 + 1, 0, 2 * k.2, false, k.1.info⟩

def share (value : Nat → G) (x : Int) (k : Edge E × Nat) : G :=
  (if k.1.source = x then value (2 * k.2) else 0) + if k.1.target = x then value (2 * k.2 + 1) else 0

structure Arcs (es : List (Edge E)) (neighbors : Int → List (Arc E G)) : Prop where
  mem_iff : ∀ x a, a ∈ neighbors x ↔ ∃ k ∈ es.zipIdx,
    k.1.source = x ∧ a = forwardArc capacity k ∨ k.1.target = x ∧ a = backwardArc k
  nodup : ∀ x, ((neighbors x).map Arc.flow).Nodup
  sums : ∀ (value : Nat → G) x, ((neighbors x).map fun a => value a.flow).sum =
    (es.zipIdx.map (share value x)).sum
  forwards : ∀ x, ((neighbors x).filter Arc.forward).Perm
    ((es.zipIdx.filter fun k => k.1.source = x).map (forwardArc capacity))

def extended (neighbors : Int → List (Arc E G)) (k : Edge E × Nat) (x : Int) : List (Arc E G) :=
  (if k.1.target = x then [backwardArc k] else []) ++
    (if k.1.source = x then [forwardArc capacity k] else []) ++ neighbors x

end Definitions

section Edges

variable {capacity : Edge E → G} {es : List (Edge E)} {neighbors : Int → List (Arc E G)}
  {value value' : Nat → G} {x y : Int} {a b : Arc E G} {k l : Edge E × Nat} {e : Edge E}

omit [AddCommGroup G] in
theorem number_eq (memK : k ∈ es.zipIdx) (memL : l ∈ es.zipIdx) (same : k.2 = l.2) : k = l := by
  rw [List.mem_zipIdx_iff_getElem?] at memK memL
  rw [same, memL] at memK
  exact Prod.ext (Option.some.inj memK).symm same

theorem zipIdx_concat (es : List (Edge E)) (e : Edge E) :
    (es ++ [e]).zipIdx = es.zipIdx ++ [(e, es.length)] := by
  simp [List.zipIdx_append]

theorem Arcs.flow_lt (arcs : Arcs capacity es neighbors) (mem : a ∈ neighbors x) :
    a.flow < 2 * es.length := by
  obtain ⟨k, memK, ⟨_, rfl⟩ | ⟨_, rfl⟩⟩ := (arcs.mem_iff x a).mp mem
  · have less := List.snd_lt_of_mem_zipIdx memK
    unfold forwardArc
    dsimp only
    omega
  · have less := List.snd_lt_of_mem_zipIdx memK
    unfold backwardArc
    dsimp only
    omega

theorem share_congr (old : ∀ c < 2 * es.length, value' c = value c) :
    (es.zipIdx.map (share value' x)).sum = (es.zipIdx.map (share value x)).sum := by
  congr 1
  apply List.map_congr_left
  intro k mem
  have less := List.snd_lt_of_mem_zipIdx mem
  unfold share
  rw [old (2 * k.2) (by omega), old (2 * k.2 + 1) (by omega)]

theorem Arcs.extend (arcs : Arcs capacity es neighbors) (e : Edge E) :
    Arcs capacity (es ++ [e]) (extended capacity neighbors (e, es.length)) := by
  constructor
  case mem_iff =>
    intro x a
    rw [zipIdx_concat, extended, List.mem_append, List.mem_append, arcs.mem_iff]
    constructor
    · rintro ((isBack | isForth) | ⟨k, mem, isArc⟩)
      · by_cases isTarget : e.target = x
        · rw [if_pos isTarget] at isBack
          exact ⟨_, List.mem_append_right _ List.mem_cons_self,
            .inr ⟨isTarget, List.mem_singleton.mp isBack⟩⟩
        · rw [if_neg isTarget] at isBack
          exact (List.not_mem_nil isBack).elim
      · by_cases isSource : e.source = x
        · rw [if_pos isSource] at isForth
          exact ⟨_, List.mem_append_right _ List.mem_cons_self,
            .inl ⟨isSource, List.mem_singleton.mp isForth⟩⟩
        · rw [if_neg isSource] at isForth
          exact (List.not_mem_nil isForth).elim
      · exact ⟨k, List.mem_append_left _ mem, isArc⟩
    · rintro ⟨k, mem, isArc⟩
      rcases List.mem_append.mp mem with old | new
      · exact .inr ⟨k, old, isArc⟩
      · rw [List.mem_singleton] at new
        subst new
        rcases isArc with ⟨isSource, rfl⟩ | ⟨isTarget, rfl⟩
        · refine .inl (.inr ?_)
          rw [if_pos isSource]
          exact List.mem_cons_self
        · refine .inl (.inl ?_)
          rw [if_pos isTarget]
          exact List.mem_cons_self
  case nodup =>
    intro x
    have fresh (c : Nat) (new : 2 * es.length ≤ c) : c ∉ (neighbors x).map Arc.flow := by
      intro mem
      obtain ⟨a, isArc, rfl⟩ := List.mem_map.mp mem
      exact (arcs.flow_lt isArc).not_ge new
    have freshForth := fresh (2 * es.length) le_rfl
    have freshBack := fresh (2 * es.length + 1) (Nat.le_succ _)
    unfold extended
    rw [List.map_append]
    by_cases isTarget : e.target = x
    · by_cases isSource : e.source = x
      · simpa [isTarget, isSource, backwardArc, forwardArc, arcs.nodup x] using
          ⟨by simpa using freshBack, by simpa using freshForth⟩
      · simpa [isTarget, isSource, backwardArc, arcs.nodup x] using freshBack
    · by_cases isSource : e.source = x
      · simpa [isTarget, isSource, forwardArc, arcs.nodup x] using freshForth
      · simpa [isTarget, isSource] using arcs.nodup x
  case sums =>
    intro value x
    rw [zipIdx_concat, List.map_append, List.sum_append, ← arcs.sums, extended, List.map_append,
      List.sum_append, add_comm]
    congr 1
    unfold share
    by_cases isTarget : e.target = x
    · by_cases isSource : e.source = x
      · simp [isTarget, isSource, backwardArc, forwardArc, add_comm]
      · simp [isTarget, isSource, backwardArc]
    · by_cases isSource : e.source = x
      · simp [isTarget, isSource, forwardArc]
      · simp [isTarget, isSource]
  case forwards =>
    intro x
    rw [zipIdx_concat, List.filter_append, List.map_append, extended, List.filter_append]
    refine List.Perm.trans ?_ List.perm_append_comm
    apply List.Perm.append _ (arcs.forwards x)
    by_cases isTarget : e.target = x
    · by_cases isSource : e.source = x
      · simp [isTarget, isSource, backwardArc, forwardArc]
      · simp [isTarget, isSource, backwardArc]
    · by_cases isSource : e.source = x
      · simp [isTarget, isSource, forwardArc]
      · simp [isTarget, isSource]

theorem Arcs.source (arcs : Arcs capacity es neighbors) (mem : a ∈ neighbors x) : a.source = x := by
  obtain ⟨k, _, ⟨source, rfl⟩ | ⟨target, rfl⟩⟩ := (arcs.mem_iff x a).mp mem
  · exact source
  · exact target

theorem Arcs.eq_of_flow (arcs : Arcs capacity es neighbors) (memA : a ∈ neighbors x)
    (memB : b ∈ neighbors y) (same : a.flow = b.flow) : x = y ∧ a = b := by
  have isSame : a = b := by
    obtain ⟨k, memK, ⟨_, rfl⟩ | ⟨_, rfl⟩⟩ := (arcs.mem_iff x a).mp memA
    · obtain ⟨l, memL, ⟨_, rfl⟩ | ⟨_, rfl⟩⟩ := (arcs.mem_iff y b).mp memB
      · have number : 2 * k.2 = 2 * l.2 := same
        rw [number_eq memK memL (by omega)]
      · have number : 2 * k.2 = 2 * l.2 + 1 := same
        omega
    · obtain ⟨l, memL, ⟨_, rfl⟩ | ⟨_, rfl⟩⟩ := (arcs.mem_iff y b).mp memB
      · have number : 2 * k.2 + 1 = 2 * l.2 := same
        omega
      · have number : 2 * k.2 + 1 = 2 * l.2 + 1 := same
        rw [number_eq memK memL (by omega)]
  refine ⟨?_, isSame⟩
  rw [← arcs.source memA, isSame, arcs.source memB]

theorem Arcs.opposite (arcs : Arcs capacity es neighbors) (mem : a ∈ neighbors x) :
    ∃ b ∈ neighbors a.target, b.target = x ∧ b.flow = a.flow' ∧ b.flow' = a.flow := by
  obtain ⟨k, memK, ⟨source, rfl⟩ | ⟨target, rfl⟩⟩ := (arcs.mem_iff x a).mp mem
  · exact ⟨backwardArc k, (arcs.mem_iff _ _).mpr ⟨k, memK, .inr ⟨rfl, rfl⟩⟩, source, rfl, rfl⟩
  · exact ⟨forwardArc capacity k, (arcs.mem_iff _ _).mpr ⟨k, memK, .inl ⟨rfl, rfl⟩⟩, target, rfl, rfl⟩

theorem Arcs.flow_ne (arcs : Arcs capacity es neighbors) (mem : a ∈ neighbors x) :
    a.flow ≠ a.flow' := by
  obtain ⟨k, _, ⟨_, rfl⟩ | ⟨_, rfl⟩⟩ := (arcs.mem_iff x a).mp mem
  · exact (Nat.succ_ne_self _).symm
  · exact Nat.succ_ne_self _

theorem Arcs.ends {S : Int → Prop} (arcs : Arcs capacity es neighbors)
    (ends : ∀ e ∈ es, S e.source ∧ S e.target) (mem : a ∈ neighbors x) : S x ∧ S a.target := by
  obtain ⟨k, memK, ⟨rfl, rfl⟩ | ⟨rfl, rfl⟩⟩ := (arcs.mem_iff x a).mp mem
  · exact ends k.1 (List.fst_mem_of_mem_zipIdx memK)
  · exact (ends k.1 (List.fst_mem_of_mem_zipIdx memK)).symm

end Edges

section Networks

variable [LinearOrder G]

def network (capacity : Edge E → G) (es : List (Edge E)) : FlowNetworks.Network Int (Edge E × Nat) G where
  arcs := es.zipIdx
  source := fun k => k.1.source
  target := fun k => k.1.target
  capacity := fun k => capacity k.1

def flowOf (value : Nat → G) (k : Edge E × Nat) : G := value (2 * k.2)

structure Flowing (neighbors : Int → List (Arc E G)) (value : Nat → G) : Prop where
  opposite : ∀ x, ∀ a ∈ neighbors x, value a.flow' = -value a.flow
  bounded : ∀ x, ∀ a ∈ neighbors x, value a.flow ≤ a.cap

def Residual (neighbors : Int → List (Arc E G)) (value : Nat → G) (x y : Int) : Prop :=
  ∃ a ∈ neighbors x, a.target = y ∧ value a.flow < a.cap

variable {capacity : Edge E → G} {es : List (Edge E)} {neighbors : Int → List (Arc E G)}
  {value : Nat → G} {x y : Int} {k : Edge E × Nat}

omit [LinearOrder G] in
theorem Arcs.forth (arcs : Arcs capacity es neighbors) (mem : k ∈ es.zipIdx) :
    forwardArc capacity k ∈ neighbors k.1.source :=
  (arcs.mem_iff _ _).mpr ⟨k, mem, .inl ⟨rfl, rfl⟩⟩

omit [LinearOrder G] in
theorem Arcs.back (arcs : Arcs capacity es neighbors) (mem : k ∈ es.zipIdx) :
    backwardArc k ∈ neighbors k.1.target :=
  (arcs.mem_iff _ _).mpr ⟨k, mem, .inr ⟨rfl, rfl⟩⟩

theorem Flowing.back (flowing : Flowing neighbors value) (arcs : Arcs capacity es neighbors)
    (mem : k ∈ es.zipIdx) : value (2 * k.2 + 1) = -flowOf value k :=
  flowing.opposite _ _ (arcs.forth mem)

theorem Flowing.netOut_eq (flowing : Flowing neighbors value) (arcs : Arcs capacity es neighbors)
    (x : Int) : (network capacity es).netOut (flowOf value) x =
      ((neighbors x).map fun a => value a.flow).sum := by
  rw [arcs.sums]
  unfold FlowNetworks.Network.netOut
  congr 1
  apply List.map_congr_left
  intro k mem
  unfold share
  rw [flowing.back arcs mem]
  change (if k.1.source = x then flowOf value k else 0) -
    (if k.1.target = x then flowOf value k else 0) = _
  by_cases isTarget : k.1.target = x
  · rw [if_pos isTarget, if_pos isTarget, sub_eq_add_neg]
    rfl
  · rw [if_neg isTarget, if_neg isTarget, sub_zero, add_zero]
    rfl

variable [IsOrderedAddMonoid G]

theorem Flowing.network_bounded (flowing : Flowing neighbors value)
    (arcs : Arcs capacity es neighbors) : (network capacity es).Bounded (flowOf value) := by
  intro k mem
  refine ⟨?_, flowing.bounded _ _ (arcs.forth mem)⟩
  have least := flowing.bounded _ _ (arcs.back mem)
  change value (2 * k.2 + 1) ≤ 0 at least
  rw [flowing.back arcs mem] at least
  exact neg_nonpos.mp least

theorem Flowing.residual_iff (flowing : Flowing neighbors value)
    (arcs : Arcs capacity es neighbors) :
    (network capacity es).Residual (flowOf value) x y ↔ Residual neighbors value x y := by
  have negative {k : Edge E × Nat} (mem : k ∈ es.zipIdx) :
      value (2 * k.2 + 1) < 0 ↔ 0 < flowOf value k := by
    rw [flowing.back arcs mem]
    exact neg_lt_zero
  constructor
  · rintro ⟨k, mem, ⟨rfl, rfl, room⟩ | ⟨rfl, rfl, room⟩⟩
    · exact ⟨forwardArc capacity k, arcs.forth mem, rfl, room⟩
    · exact ⟨backwardArc k, arcs.back mem, rfl, (negative mem).mpr room⟩
  · rintro ⟨a, mem, rfl, room⟩
    obtain ⟨k, memK, ⟨source, rfl⟩ | ⟨target, rfl⟩⟩ := (arcs.mem_iff x a).mp mem
    · exact ⟨k, memK, .inl ⟨source, rfl, room⟩⟩
    · exact ⟨k, memK, .inr ⟨rfl, target, (negative memK).mp room⟩⟩

end Networks

end Mythryl.Graph.MaximumFlow
