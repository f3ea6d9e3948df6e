import Mythryl.StronglyConnected.TopologicalOrder
import Mathlib.Data.Finset.Dedup
import Mathlib.Data.Finset.SDiff
import Mathlib.Data.List.Sort

/-!
# A minimum feedback vertex set by branch and bound

`compute_minimum_feedback_vertex_set_of_digraph`.
-/

namespace Mythryl.ComputeMinimumFeedbackVertexSetOfDigraph

open DigraphStronglyConnectedComponents (Component Raised topologicalOrder')

/-- What the search for components raises, `the` of nothing, and an error of the compiler. -/
inductive Failure
  | scc (raised : Raised)
  | the
  | impossible (message : String)
  deriving DecidableEq

abbrev Outcome := Except Failure

abbrev Vertex := Int
abbrev VertexSet := Finset Int

abbrev Node := Vertex × VertexSet
abbrev Graph := List Node

def maxdepth : Nat := 3

def bug {A : Type} (s : String) : Outcome A :=
  .error (.impossible ("Feedback::feedback: " ++ s))

def l2s (l : List Vertex) : VertexSet := l.toFinset

theorem sorted_perm {l l' : List Vertex} (perm : l.Perm l') :
    l.insertionSort (· ≤ ·) = l'.insertionSort (· ≤ ·) := by
  apply List.Perm.eq_of_pairwise' (List.pairwise_insertionSort ..) (List.pairwise_insertionSort ..)
  exact ((List.perm_insertionSort ..).trans perm).trans (List.perm_insertionSort ..).symm

def s2l (s : VertexSet) : List Vertex :=
  Quot.liftOn s.val (List.insertionSort (· ≤ ·)) fun _ _ => sorted_perm

def the {A : Type} : Option A → Outcome A
  | some a => .ok a
  | none => .error .the

def normalize (g : Graph) : Graph :=
  let vs := l2s (g.map Prod.fst)
  g.map fun (v, e) => (v, e ∩ vs)

def set {A : Type} (map : Vertex → Option A) (v : Vertex) (a : A) : Vertex → Option A :=
  Function.update map v (some a)

def add (maps : (Vertex → Option VertexSet) × (Vertex → Option (List Vertex))) (node : Node) :
    (Vertex → Option VertexSet) × (Vertex → Option (List Vertex)) :=
  (set maps.1 node.1 node.2, set maps.2 node.1 (s2l node.2))

def toNode (setMap : Vertex → Option VertexSet) (v : Vertex) : Outcome Node := do
  let e ← the (setMap v)
  pure (v, e)

def nontrivial (setMap : Vertex → Option VertexSet) :
    List (Component Vertex) → Outcome (List Graph)
  | [] => pure []
  | .simple _ :: r => nontrivial setMap r
  | .recursive l :: r => do
      let a ← nontrivial setMap r
      let c ← l.mapM (toNode setMap)
      pure (c :: a)

/-- `follow` is called for each vertex of the result, and fails where the map has none. The search
goes no deeper than there are vertices. -/
def searched (followMap : Vertex → Option (List Vertex)) (roots : List Vertex) :
    Outcome (List (Component Vertex)) :=
  match topologicalOrder' (fun v => (followMap v).getD []) (roots.length + 1) roots with
  | .error raised => .error (.scc raised)
  | .ok sccres =>
      if (sccres.flatMap Component.nodes).all fun v => (followMap v).isSome then .ok sccres
      else .error .the

def scc (g : Graph) : Outcome (List Graph) := do
  let roots := g.map Prod.fst
  let (setMap, followMap) := g.foldl add (fun _ => none, fun _ => none)
  let sccres ← searched followMap roots
  let ntcomps ← nontrivial setMap sccres
  pure (ntcomps.map normalize)

def prune (x : Vertex) (node : Node) : Node := (node.1, node.2.erase x)

@[grind =] def tryF (feedb : Int → Graph → Outcome (Option VertexSet)) :
    Option VertexSet → Int → List Node → List Node → Outcome (Option VertexSet)
  | best, _, _, [] => pure best
  | best, lim, left, (x, e) :: right =>
      -- A node with one edge out is passed over, save the first.
      if ¬left.isEmpty ∧ e.card = 1 then tryF feedb best lim ((x, e) :: left) right
      else do
        let reduced := (left.reverseAux right).map (prune x)
        match ← feedb (lim - 1) reduced with
        | some vs => tryF feedb (some (insert x vs)) vs.card ((x, e) :: left) right
        | none => tryF feedb best lim ((x, e) :: left) right

def try' (feedb : Int → Graph → Outcome (Option VertexSet)) (limit : Int) (nodes : Graph) :
    Outcome (Option VertexSet) :=
  tryF feedb none (min limit nodes.length) [] nodes

@[grind =] def feedbG (try' : Int → Graph → Outcome (Option VertexSet)) :
    Int → VertexSet → List Graph → Outcome (Option VertexSet)
  | lim, set, c :: comps =>
      if lim ≤ 0 then pure none
      else do
        match ← try' lim c with
        | some vs => feedbG try' (lim - vs.card + 1) (vs ∪ set) comps
        | none => pure none
  | _, set, [] => pure (some set)

@[grind =] def feedb : Nat → Int → Graph → Outcome (Option VertexSet)
  | 0, limit, graph =>
      if limit ≥ graph.length then pure (some (l2s (graph.map Prod.fst))) else pure none
  | depth+1, limit, graph => do
      let comps ← scc graph
      feedbG (try' (feedb depth)) (limit - comps.length + 1) ∅ comps

def bab (g : Graph) : Outcome VertexSet := do
  match ← feedb maxdepth g.length g with
  | some solution => pure solution
  | none => bug "no solution"

def hasSelfLoop (node : Node) : Bool := decide (node.1 ∈ node.2)

def computeMinimumFeedbackVertexSetOfDigraph (graph0 : List (Vertex × List Vertex)) :
    Outcome (List Vertex) := do
  let graph := graph0.map fun (v, e) => (v, l2s e)
  let (selfnodes, rest) := graph.partition hasSelfLoop
  let selfvertices := l2s (selfnodes.map Prod.fst)
  let rest := normalize rest
  let solution ← bab rest
  pure (s2l (selfvertices ∪ solution))

end Mythryl.ComputeMinimumFeedbackVertexSetOfDigraph

/-! # Feedback vertex sets -/

namespace FeedbackVertexSet

open Relation

variable {V : Type} (E : V → V → Prop)

def Edge (W : Finset V) (a b : V) : Prop := a ∈ W ∧ b ∈ W ∧ E a b

def Acyclic (W : Finset V) : Prop := ∀ v, ¬TransGen (Edge E W) v v

def Strong (U C : Finset V) : Prop :=
  ∀ x ∈ C, ∀ y, y ∈ C ↔ ReflTransGen (Edge E U) x y ∧ ReflTransGen (Edge E U) y x

structure Component (U C : Finset V) : Prop where
  subset : C ⊆ U
  strong : Strong E U C
  cyclic : ¬Acyclic E C

def OnlyTo (C : Finset V) (x y : V) : Prop := ∀ w, w ∈ C ∧ E x w ↔ w = y

section Parts

variable {E} {U W W' C : Finset V} {v w x y : V}

theorem Edge.mono (sub : W ⊆ W') (edge : Edge E W v w) : Edge E W' v w :=
  ⟨sub edge.1, sub edge.2.1, edge.2.2⟩

theorem path_mono (sub : W ⊆ W') (path : TransGen (Edge E W) v w) : TransGen (Edge E W') v w :=
  path.lift id fun _ _ => Edge.mono sub

theorem Acyclic.mono (sub : W ⊆ W') (acyclic : Acyclic E W') : Acyclic E W := fun v cycle =>
  acyclic v (path_mono sub cycle)

theorem acyclic_of_alone (alone : ∀ v ∈ W, ∀ w ∈ W, ¬E v w) : Acyclic E W := by
  intro v cycle
  obtain ⟨w, edge, -⟩ := TransGen.head'_iff.mp cycle
  exact alone v edge.1 w edge.2.1 edge.2.2

theorem Strong.reach_inside (strong : Strong E U C) (mem : v ∈ C)
    (there : ReflTransGen (Edge E U) v w) (back : ReflTransGen (Edge E U) w v) :
    ReflTransGen (Edge E C) v w := by
  induction there with
  | refl => exact .refl
  | @tail b c there edge ih =>
    have back' : ReflTransGen (Edge E U) b v := .head edge back
    have memB := (strong v mem b).mpr ⟨there, back'⟩
    have memC := (strong v mem c).mpr ⟨there.tail edge, back⟩
    exact (ih back').tail ⟨memB, memC, edge.2.2⟩

theorem Strong.connected (strong : Strong E U C) (memX : x ∈ C) (memY : y ∈ C) :
    ReflTransGen (Edge E C) x y := by
  obtain ⟨there, back⟩ := (strong x memX y).mp memY
  exact strong.reach_inside memX there back

theorem Strong.cyclic (strong : Strong E U C) (memX : x ∈ C) (memY : y ∈ C) (other : y ≠ x) :
    ¬Acyclic E C := by
  intro acyclic
  rcases reflTransGen_iff_eq_or_transGen.mp (strong.connected memX memY) with same | there
  · exact other same
  · exact acyclic x (there.trans_left (strong.connected memY memX))

theorem Component.cycle_inside [DecidableEq V] {S : Finset V} (part : Component E U C) (mem : v ∈ C)
    (there : TransGen (Edge E (U \ S)) v w) (back : ReflTransGen (Edge E U) w v) :
    w ∈ C ∧ TransGen (Edge E (C \ S)) v w := by
  have up {a b : V} (edge : Edge E (U \ S) a b) : Edge E U a b := edge.mono Finset.sdiff_subset
  have outside {a : V} (left : a ∈ U \ S) (inside : a ∈ C) : a ∈ C \ S :=
    Finset.mem_sdiff.mpr ⟨inside, (Finset.mem_sdiff.mp left).2⟩
  induction there with
  | single edge =>
    have memW := (part.strong v mem _).mpr ⟨.single (up edge), back⟩
    exact ⟨memW, .single ⟨outside edge.1 mem, outside edge.2.1 memW, edge.2.2⟩⟩
  | @tail b c there edge ih =>
    obtain ⟨memB, path⟩ := ih (.head (up edge) back)
    have reach : ReflTransGen (Edge E U) v b :=
      (path_mono Finset.sdiff_subset there).to_reflTransGen
    have memC := (part.strong v mem c).mpr ⟨reach.tail (up edge), back⟩
    exact ⟨memC, path.tail ⟨outside edge.1 memB, outside edge.2.1 memC, edge.2.2⟩⟩

end Parts

variable [DecidableEq V]

structure Feeds (U S : Finset V) : Prop where
  subset : S ⊆ U
  acyclic : Acyclic E (U \ S)

structure Split (U : Finset V) (parts : List (Finset V)) : Prop where
  part : ∀ C ∈ parts, Component E U C
  disjoint : parts.Pairwise Disjoint
  covers : ∀ v, TransGen (Edge E U) v v → ∃ C ∈ parts, v ∈ C

section Sets

variable {E} {U S C : Finset V} {parts : List (Finset V)} {x y : V}

theorem Feeds.inter (feeds : Feeds E U S) (sub : C ⊆ U) : Feeds E C (S ∩ C) where
  subset := Finset.inter_subset_right
  acyclic := by
    apply feeds.acyclic.mono
    intro v mem
    obtain ⟨inside, outside⟩ := Finset.mem_sdiff.mp mem
    rw [Finset.mem_sdiff]
    exact ⟨sub inside, fun mem => outside (Finset.mem_inter.mpr ⟨mem, inside⟩)⟩

theorem Split.acyclic (split : Split E U parts) (each : ∀ C ∈ parts, Acyclic E (C \ S)) :
    Acyclic E (U \ S) := by
  intro v cycle
  have whole : TransGen (Edge E U) v v := path_mono Finset.sdiff_subset cycle
  obtain ⟨C, mem, inside⟩ := split.covers v whole
  exact each C mem v ((split.part C mem).cycle_inside inside cycle .refl).2

theorem Component.feeds_nonempty (part : Component E U C) (feeds : Feeds E C S) : 1 ≤ S.card := by
  apply Finset.card_pos.mpr
  apply Finset.nonempty_iff_ne_empty.mpr
  rintro rfl
  exact part.cyclic (by simpa using feeds.acyclic)

theorem Feeds.insert (feeds : Feeds E (U.erase x) S) (mem : x ∈ U) : Feeds E U (insert x S) where
  subset := by
    apply Finset.insert_subset mem
    exact feeds.subset.trans (Finset.erase_subset ..)
  acyclic := by
    apply feeds.acyclic.mono
    intro v
    simp only [Finset.mem_sdiff, Finset.mem_insert, Finset.mem_erase]
    tauto

theorem Feeds.erase (feeds : Feeds E U S) (x : V) : Feeds E (U.erase x) (S.erase x) where
  subset := Finset.erase_subset_erase x feeds.subset
  acyclic := by
    apply feeds.acyclic.mono
    intro v
    simp only [Finset.mem_sdiff, Finset.mem_erase]
    tauto

theorem feeds_all (U : Finset V) : Feeds E U U where
  subset := Finset.Subset.refl U
  acyclic := by
    intro v cycle
    rw [Finset.sdiff_self] at cycle
    obtain ⟨w, edge, -⟩ := TransGen.head'_iff.mp cycle
    exact absurd edge.1 (Finset.notMem_empty v)

theorem Feeds.replace (feeds : Feeds E C S) (only : OnlyTo E C x y) (loopless : ¬E x x) :
    Feeds E C (Insert.insert y (S.erase x)) where
  subset := Finset.insert_subset ((only y).mpr rfl).1 ((Finset.erase_subset ..).trans feeds.subset)
  acyclic := by
    intro v cycle
    let W := C \ Insert.insert y (S.erase x)
    have left {a b : V} (edge : Edge E W a b) : a ∈ C \ S := by
      obtain ⟨memA, memB, edge⟩ := edge
      simp only [W, Finset.mem_sdiff, Finset.mem_insert, Finset.mem_erase, not_or] at memA memB
      have other : a ≠ x := by
        rintro rfl
        exact memB.2.1 ((only b).mp ⟨memB.1, edge⟩)
      exact Finset.mem_sdiff.mpr ⟨memA.1, fun mem => memA.2.2 ⟨other, mem⟩⟩
    have narrow {a b c : V} (there : TransGen (Edge E W) a b) (edge : Edge E W b c) :
        TransGen (Edge E (C \ S)) a b := by
      induction there generalizing c with
      | single first => exact .single ⟨left first, left edge, first.2.2⟩
      | tail there next ih => exact (ih next).tail ⟨left next, left edge, next.2.2⟩
    obtain ⟨w, first, -⟩ := TransGen.head'_iff.mp cycle
    exact feeds.acyclic v (narrow cycle first)

theorem card_replace (S : Finset V) (mem : x ∈ S) :
    (Insert.insert y (S.erase x)).card ≤ S.card := by
  have smaller := Finset.card_erase_of_mem mem
  have positive := Finset.card_pos.mpr ⟨x, mem⟩
  have grown := Finset.card_insert_le y (S.erase x)
  omega

theorem Component.feeds_chosen (part : Component E U C) (loopless : ∀ v ∈ C, ¬E v v) {first : V}
    (inside : first ∈ C) (feeds : Feeds E C S) :
    ∃ S' x, Feeds E C S' ∧ S'.card ≤ S.card ∧ x ∈ S' ∧ (x = first ∨ ¬∃ y, OnlyTo E C x y) := by
  obtain ⟨x, mem⟩ := Finset.card_pos.mp (part.feeds_nonempty feeds)
  have path := part.strong.connected (feeds.subset mem) inside
  induction path using ReflTransGen.head_induction_on generalizing S with
  | refl => exact ⟨S, first, feeds, le_rfl, mem, .inl rfl⟩
  | @head a b edge path ih =>
    by_cases single : ∃ y, OnlyTo E C a y
    · obtain ⟨y, only⟩ := single
      obtain rfl := (only b).mp edge.2
      obtain ⟨S', x, feeds', less, chosen⟩ :=
        ih (feeds.replace only (loopless a edge.1)) (Finset.mem_insert_self ..)
      exact ⟨S', x, feeds', less.trans (card_replace S mem), chosen⟩
    · exact ⟨S, a, feeds, le_rfl, mem, .inr single⟩

theorem sum_card_inter (disjoint : parts.Pairwise Disjoint) (S : Finset V) :
    (parts.map fun C => (S ∩ C).card).sum ≤ S.card := by
  induction parts generalizing S with
  | nil => exact Nat.zero_le _
  | cons C parts ih =>
    obtain ⟨apart, disjoint⟩ := List.pairwise_cons.mp disjoint
    have rest : ∀ D ∈ parts, (S ∩ D).card = ((S \ C) ∩ D).card := by
      intro D mem
      congr 1
      ext v
      have exclusive : v ∈ D → v ∉ C := fun inD inC => Finset.disjoint_left.mp (apart D mem) inC inD
      simp only [Finset.mem_inter, Finset.mem_sdiff]
      tauto
    have whole := Finset.card_inter_add_card_sdiff S C
    have others := ih disjoint (S \ C)
    rw [List.map_cons, List.sum_cons, List.map_congr_left rest]
    omega

end Sets

end FeedbackVertexSet

/-! # The graphs of the search -/

namespace Mythryl.ComputeMinimumFeedbackVertexSetOfDigraph

open DigraphStronglyConnectedComponents (Component topologicalOrder' topologicalOrder'_ends
  topologicalOrder'_mono TopologicalOrder)
open FeedbackVertexSet Relation

section Sets

variable {s : VertexSet} {l : List Vertex} {v : Vertex}

@[simp] theorem mem_l2s : v ∈ l2s l ↔ v ∈ l := List.mem_toFinset

theorem s2l_perm (s : VertexSet) : (s2l s : Multiset Vertex) = s.val := by
  obtain ⟨val, nodup⟩ := s
  induction val using Quot.inductionOn with
  | h l => exact Multiset.coe_eq_coe.mpr (List.perm_insertionSort ..)

@[simp] theorem mem_s2l : v ∈ s2l s ↔ v ∈ s := by
  rw [← Multiset.mem_coe, s2l_perm]
  rfl

theorem nodup_s2l (s : VertexSet) : (s2l s).Nodup := by
  rw [← Multiset.coe_nodup, s2l_perm]
  exact s.nodup

theorem length_s2l (s : VertexSet) : (s2l s).length = s.card := by
  rw [← Multiset.coe_card, s2l_perm]
  rfl

end Sets

structure Shows (E : Vertex → Vertex → Prop) (U : VertexSet) (g : Graph) : Prop where
  nodup : (g.map Prod.fst).Nodup
  vertices : l2s (g.map Prod.fst) = U
  edges : ∀ v e, (v, e) ∈ g → ∀ w, w ∈ e ↔ w ∈ U ∧ E v w

section Graphs

variable {E : Vertex → Vertex → Prop} {U : VertexSet} {g : Graph}

theorem Shows.mem_iff (shows_ : Shows E U g) {v : Vertex} : v ∈ U ↔ ∃ e, (v, e) ∈ g := by
  simp [← shows_.vertices]

theorem Shows.length_eq (shows_ : Shows E U g) : g.length = U.card := by
  rw [← shows_.vertices, l2s, List.toFinset_card_of_nodup shows_.nodup, List.length_map]

theorem shows_normalize (nodup : (g.map Prod.fst).Nodup)
    (edges : ∀ v e, (v, e) ∈ g → ∀ w ∈ l2s (g.map Prod.fst), w ∈ e ↔ E v w) :
    Shows E (l2s (g.map Prod.fst)) (normalize g) where
  nodup := by simpa [normalize, Function.comp_def] using nodup
  vertices := by simp [normalize, Function.comp_def]
  edges := by
    intro v e mem w
    obtain ⟨⟨v', e'⟩, member, same⟩ := List.mem_map.mp mem
    cases same
    rw [Finset.mem_inter, and_comm]
    exact and_congr_right fun inside => edges v _ member w inside

theorem foldl_add {maps : (Vertex → Option VertexSet) × (Vertex → Option (List Vertex))}
    (nodup : (g.map Prod.fst).Nodup) (v : Vertex) :
    (∀ e, (v, e) ∈ g → (g.foldl add maps).1 v = some e ∧ (g.foldl add maps).2 v = some (s2l e)) ∧
    (v ∉ g.map Prod.fst →
      (g.foldl add maps).1 v = maps.1 v ∧ (g.foldl add maps).2 v = maps.2 v) := by
  induction g generalizing maps with
  | nil => simp
  | cons node g ih =>
    obtain ⟨v', e'⟩ := node
    rw [List.map_cons, List.nodup_cons] at nodup
    obtain ⟨found, kept⟩ := @ih (add maps (v', e')) nodup.2
    constructor
    · intro e mem
      rcases List.mem_cons.mp mem with same | mem
      · cases same
        obtain ⟨first, second⟩ := kept nodup.1
        rw [List.foldl_cons, first, second]
        simp [add, set]
      · exact found e mem
    · intro absent
      rw [List.map_cons, List.mem_cons, not_or] at absent
      obtain ⟨first, second⟩ := kept absent.2
      rw [List.foldl_cons, first, second]
      simp [add, set, absent.1]

structure Maps (E : Vertex → Vertex → Prop) (U : VertexSet) (setMap : Vertex → Option VertexSet)
    (followMap : Vertex → Option (List Vertex)) : Prop where
  inside : ∀ v ∈ U, ∃ e, setMap v = some e ∧ followMap v = some (s2l e) ∧
    ∀ w, w ∈ e ↔ w ∈ U ∧ E v w
  outside : ∀ v, v ∉ U → followMap v = none

theorem Shows.maps (shows_ : Shows E U g) :
    Maps E U (g.foldl add (fun _ => none, fun _ => none)).1
      (g.foldl add (fun _ => none, fun _ => none)).2 where
  inside := by
    intro v mem
    obtain ⟨e, member⟩ := shows_.mem_iff.mp mem
    obtain ⟨first, second⟩ := (foldl_add shows_.nodup v).1 e member
    exact ⟨e, first, second, shows_.edges v e member⟩
  outside := by
    intro v absent
    rw [← shows_.vertices, mem_l2s] at absent
    exact ((foldl_add shows_.nodup v).2 absent).2

variable {setMap : Vertex → Option VertexSet} {followMap : Vertex → Option (List Vertex)}
  {sccres : List (Component Vertex)}

theorem Maps.follow (maps : Maps E U setMap followMap) :
    (fun v w => w ∈ (followMap v).getD []) = Edge E U := by
  funext v w
  apply propext
  by_cases mem : v ∈ U
  · obtain ⟨e, -, found, edges⟩ := maps.inside v mem
    simp [found, Edge, edges, mem]
  · simp [maps.outside v mem, Edge, mem]

theorem reach_inside {v w : Vertex} (mem : v ∈ U) (path : ReflTransGen (Edge E U) v w) : w ∈ U := by
  cases path with
  | refl => exact mem
  | tail path edge => exact edge.2.1

theorem Maps.searched (maps : Maps E U setMap followMap) {roots : List Vertex}
    (nodup : roots.Nodup) (all : l2s roots = U) :
    ∃ sccres, searched followMap roots = .ok sccres ∧
      TopologicalOrder (fun v => (followMap v).getD []) roots sccres := by
  let follow : Vertex → List Vertex := fun v => (followMap v).getD []
  have reached : { x | ∃ r ∈ roots, StronglyConnected.Reaches follow r x } = (U : Set Vertex) := by
    ext x
    rw [Set.mem_ofPred, Finset.mem_coe]
    constructor
    · rintro ⟨r, mem, path⟩
      rw [StronglyConnected.Reaches, maps.follow] at path
      exact reach_inside (all ▸ mem_l2s.mpr mem) path
    · intro mem
      rw [← all, mem_l2s] at mem
      exact ⟨x, mem, .refl⟩
  have finite : Set.Finite { x | ∃ r ∈ roots, StronglyConnected.Reaches follow r x } := by
    rw [reached]
    exact U.finite_toSet
  have card : finite.toFinset.card = roots.length := by
    have same : finite.toFinset = U := by
      ext x
      rw [Set.Finite.mem_toFinset, reached, Finset.mem_coe]
    rw [same, ← all, l2s, List.toFinset_card_of_nodup nodup]
  obtain ⟨sccres, result, order⟩ := topologicalOrder'_ends follow roots finite
  rw [card] at result
  refine ⟨sccres, ?_, order⟩
  have known : (sccres.flatMap Component.nodes).all fun v => (followMap v).isSome := by
    rw [List.all_eq_true]
    intro v mem
    have member : v ∈ (U : Set Vertex) := reached ▸ (order.reached v).mp mem
    obtain ⟨e, -, found, -⟩ := maps.inside v member
    rw [found]
    rfl
  simp only [ComputeMinimumFeedbackVertexSetOfDigraph.searched, follow] at result ⊢
  rw [result]
  exact if_pos known

def recursives : List (Component Vertex) → List (List Vertex)
  | [] => []
  | .simple _ :: r => recursives r
  | .recursive l :: r => l :: recursives r

variable {l : List Vertex}

theorem mem_recursives : l ∈ recursives sccres ↔ .recursive l ∈ sccres := by
  induction sccres with
  | nil => simp [recursives]
  | cons c r ih => cases c <;> simp [recursives, ih]

def graphOf (setMap : Vertex → Option VertexSet) (l : List Vertex) : Graph :=
  l.map fun v => (v, (setMap v).getD ∅)

theorem mapM_toNode (known : ∀ v ∈ l, ∃ e, setMap v = some e) :
    l.mapM (toNode setMap) = .ok (graphOf setMap l) := by
  induction l with
  | nil => rfl
  | cons v l ih =>
    obtain ⟨⟨e, found⟩, known⟩ := List.forall_mem_cons.mp known
    rw [List.mapM_cons, ih known]
    simp only [toNode, found, the]
    simp [graphOf, found, pure, Except.pure, bind, Except.bind]

theorem nontrivial_eq (known : ∀ c ∈ sccres, ∀ v ∈ c.nodes, ∃ e, setMap v = some e) :
    nontrivial setMap sccres = .ok ((recursives sccres).map (graphOf setMap)) := by
  induction sccres with
  | nil => rfl
  | cons c r ih =>
    obtain ⟨first, known⟩ := List.forall_mem_cons.mp known
    have ih := ih known
    cases c with
    | simple node => exact ih
    | recursive l =>
      rw [nontrivial, ih, recursives, List.map_cons]
      have nodes : ∀ v ∈ l, ∃ e, setMap v = some e := first
      rw [mapM_toNode nodes]
      rfl

theorem recursives_sublist (sccres : List (Component Vertex)) :
    (recursives sccres).flatten.Sublist (sccres.flatMap Component.nodes) := by
  induction sccres with
  | nil => exact .refl _
  | cons c r ih =>
    rw [List.flatMap_cons]
    cases c with
    | simple node => exact ih.trans (List.sublist_append_right ..)
    | recursive l => exact ih.append_left l

theorem recursive_component {roots : List Vertex} (loopless : ∀ v ∈ U, ¬E v v)
    (maps : Maps E U setMap followMap) (all : ∀ r ∈ roots, r ∈ U)
    (order : TopologicalOrder (fun v => (followMap v).getD []) roots sccres)
    (mem : .recursive l ∈ sccres) : FeedbackVertexSet.Component E U (l2s l) := by
  have strong : ∀ x ∈ l, ∀ y, y ∈ l ↔
      ReflTransGen (Edge E U) x y ∧ ReflTransGen (Edge E U) y x := by
    have component := order.component _ mem
    simp only [StronglyConnected.Reaches, maps.follow] at component
    exact component
  have subset : ∀ x ∈ l, x ∈ U := by
    intro x inside
    have listed : x ∈ sccres.flatMap Component.nodes := List.mem_flatMap.mpr ⟨_, mem, inside⟩
    obtain ⟨r, root, path⟩ := (order.reached x).mp listed
    rw [StronglyConnected.Reaches, maps.follow] at path
    exact reach_inside (all r root) path
  have strong' : Strong E U (l2s l) := fun x mem y => by
    rw [mem_l2s] at mem ⊢
    exact strong x mem y
  refine ⟨fun x inside => subset x (mem_l2s.mp inside), strong', ?_⟩
  obtain ⟨x, inside⟩ := List.exists_mem_of_ne_nil l (order.nonempty _ mem)
  by_cases alone : ∀ y ∈ l, y = x
  · have outside : x ∉ (followMap x).getD [] := by
      have edge := congrFun (congrFun maps.follow x) x
      rw [edge]
      exact fun edge => loopless x edge.1 edge.2.2
    have only : ∀ y, y ∈ l ↔ y = x := fun y => ⟨alone y, fun same => same ▸ inside⟩
    cases (order.simple _ mem x).mpr ⟨only, outside⟩
  · push Not at alone
    obtain ⟨y, member, other⟩ := alone
    exact strong'.cyclic (mem_l2s.mpr inside) (mem_l2s.mpr member) other

theorem Shows.scc (loopless : ∀ v ∈ U, ¬E v v) (shows_ : Shows E U g) :
    ∃ comps parts, scc g = .ok comps ∧ List.Forall₂ (Shows E) parts comps ∧ Split E U parts := by
  have maps := shows_.maps
  generalize both : g.foldl add (fun _ => none, fun _ => none) = found at maps
  obtain ⟨setMap, followMap⟩ := found
  dsimp only at maps
  obtain ⟨sccres, result, order⟩ := maps.searched shows_.nodup shows_.vertices
  have roots : ∀ r ∈ g.map Prod.fst, r ∈ U := fun r mem => shows_.vertices ▸ mem_l2s.mpr mem
  have inside : ∀ c ∈ sccres, ∀ v ∈ c.nodes, v ∈ U := by
    intro c mem v member
    have listed : v ∈ sccres.flatMap Component.nodes := List.mem_flatMap.mpr ⟨c, mem, member⟩
    obtain ⟨r, root, path⟩ := (order.reached v).mp listed
    rw [StronglyConnected.Reaches, maps.follow] at path
    exact reach_inside (roots r root) path
  have known : ∀ c ∈ sccres, ∀ v ∈ c.nodes, ∃ e, setMap v = some e := by
    intro c mem v member
    obtain ⟨e, found, -⟩ := maps.inside v (inside c mem v member)
    exact ⟨e, found⟩
  have nodup : (recursives sccres).flatten.Nodup := order.nodup.sublist (recursives_sublist sccres)
  obtain ⟨each, apart⟩ := List.nodup_flatten.mp nodup
  refine ⟨(recursives sccres).map fun l => normalize (graphOf setMap l),
    (recursives sccres).map l2s, ?_, ?_, ?_, ?_, ?_⟩
  · simp only [ComputeMinimumFeedbackVertexSetOfDigraph.scc, both]
    rw [result]
    change (nontrivial setMap sccres >>= _) = _
    rw [nontrivial_eq known]
    change Except.ok _ = Except.ok _
    rw [List.map_map]
    rfl
  · rw [List.forall₂_map_left_iff, List.forall₂_map_right_iff, List.forall₂_same]
    intro l mem
    have keys : (graphOf setMap l).map Prod.fst = l := by simp [graphOf, Function.comp_def]
    have part := shows_normalize (g := graphOf setMap l) (E := E) (keys.symm ▸ each l mem)
    rw [keys] at part
    apply part
    intro v e member w inside'
    obtain ⟨v', listed, same⟩ := List.mem_map.mp member
    cases same
    have nodes := mem_recursives.mp mem
    obtain ⟨e, found, -, edges⟩ := maps.inside v (inside _ nodes v listed)
    rw [found, Option.getD_some, edges]
    exact and_iff_right (inside _ nodes w (mem_l2s.mp inside'))
  · intro C mem
    obtain ⟨l, member, rfl⟩ := List.mem_map.mp mem
    exact recursive_component loopless maps roots order (mem_recursives.mp member)
  · rw [List.pairwise_map]
    apply apart.imp
    intro l l' disjoint
    rw [Finset.disjoint_left]
    intro v mem mem'
    exact disjoint (mem_l2s.mp mem) (mem_l2s.mp mem')
  · intro v cycle
    obtain ⟨w, edge, back⟩ := TransGen.head'_iff.mp cycle
    have root : v ∈ g.map Prod.fst := by simpa [← shows_.vertices] using edge.1
    obtain ⟨c, mem, member⟩ := List.mem_flatMap.mp ((order.reached v).mpr ⟨v, root, .refl⟩)
    have component := order.component c mem v member w
    simp only [StronglyConnected.Reaches, maps.follow] at component
    have memW := component.mpr ⟨.single edge, back⟩
    cases c with
    | simple node =>
      cases List.mem_singleton.mp member
      cases List.mem_singleton.mp memW
      exact absurd edge.2.2 (loopless _ edge.1)
    | recursive l =>
      exact ⟨l2s l, List.mem_map_of_mem (mem_recursives.mpr mem), mem_l2s.mpr member⟩

end Graphs

end Mythryl.ComputeMinimumFeedbackVertexSetOfDigraph
