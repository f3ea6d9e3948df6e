import Mythryl.Graph.OopDigraph
import Mythryl.ShortestPaths

/-!
# Single source shortest paths

What the functions with the api `Single_Source_Shortest_Paths` work on and return: a vector of
distances and one of prior nodes.
-/

namespace Mythryl.Graph
open ShortestPaths

variable {E G : Type} [AddCommGroup G] [LinearOrder G]

structure Labels (G : Type) where
  dist : RwVector (WithTop G)
  prior : RwVector Int

section Specification

variable (weight : Edge E → WithTop G) (g : Digraph E) (s : Int)

def startLabels : Labels G where
  dist := (RwVector.makeRwVector g.capacity ⊤).put s 0
  prior := RwVector.makeRwVector g.capacity (-1)

def network : Network Int (Edge E) G where
  arcs := { e | e ∈ g.edges }
  source := Edge.source
  target := Edge.target
  weight := weight

/-- The labels are the distances, and the prior nodes lead back from each node that is reached. -/
def Distances (labels : Labels G) : Prop :=
  ∀ v ∈ g.nodes, IsDistance (network weight g) s v (labels.dist.cell v) ∧
    (labels.dist.cell v ≠ ⊤ → ∃ p, Back (network weight g) labels.prior.cell s v p ∧
      total (network weight g) p = labels.dist.cell v)

structure Sound (waiting : Set Int) (due : Set (Edge E)) (labels : Labels G) : Prop where
  dist_length : labels.dist.length = g.capacity
  prior_length : labels.prior.length = g.capacity
  waiting_nodes : ∀ u ∈ waiting, u ∈ g.nodes
  start : labels.dist.cell s ≤ 0
  relaxed : ∀ e ∈ g.edges, labels.dist.cell e.target ≤ labels.dist.cell e.source + weight e ∨
    e.source ∈ waiting ∨ e ∈ due
  labelled : ¬NegativeCycle (network weight g) s →
    Labelled (network weight g) s labels.dist.cell labels.prior.cell

end Specification

section Relaxing

variable {weight : Edge E → WithTop G} {g : Digraph E} {s : Int} {waiting : Set Int}
  {due : Set (Edge E)} {labels : Labels G} {v : Int} {du : WithTop G} {e : Edge E}
  {es : List (Edge E)}

theorem Sound.within_dist (sound : Sound weight g s waiting due labels) (mem : v ∈ g.nodes) :
    labels.dist.Within v := by
  have bound := g.nodes_bound v mem
  rw [← sound.dist_length] at bound
  exact bound

theorem Sound.within_prior (sound : Sound weight g s waiting due labels) (mem : v ∈ g.nodes) :
    labels.prior.Within v := by
  have bound := g.nodes_bound v mem
  rw [← sound.prior_length] at bound
  exact bound

theorem sound_start (mem : s ∈ waiting) (nodes : ∀ u ∈ waiting, u ∈ g.nodes) :
    Sound weight g s waiting ∅ (startLabels g s) := by
  constructor
  case dist_length => rfl
  case prior_length => rfl
  case waiting_nodes => exact nodes
  case start => simp [startLabels]
  case relaxed =>
    intro e _
    by_cases same : e.source = s
    · rw [same]
      exact .inr (.inl mem)
    · left
      have unreached : (startLabels g s : Labels G).dist.cell e.source = ⊤ :=
        RwVector.put_cell_of_ne same
      rw [unreached, WithTop.top_add]
      exact le_top
  case labelled =>
    intro _
    constructor
    · simp [startLabels]
    · intro v reached
      by_cases same : v = s
      · rw [same]
        exact ⟨[], .start⟩
      · exact (reached (RwVector.put_cell_of_ne same)).elim

theorem Sound.skip (sound : Sound weight g s waiting { e' | e' ∈ e :: es } labels)
    (current : labels.dist.cell e.source = du ∨ e.source ∈ waiting ∧
      NegativeCycle (network weight g) s) (stays : ¬du + weight e < labels.dist.cell e.target) :
    Sound weight g s waiting { e' | e' ∈ es } labels := by
  refine { sound with relaxed := fun e' mem => ?_ }
  rcases sound.relaxed e' mem with relaxed | waits | isDue
  · exact .inl relaxed
  · exact .inr (.inl waits)
  · rcases List.mem_cons.mp isDue with rfl | later
    · rcases current with rfl | ⟨waits, _⟩
      · exact .inl (not_lt.mp stays)
      · exact .inr (.inl waits)
    · exact .inr (.inr later)

variable [IsOrderedAddMonoid G]

theorem Sound.hit (sound : Sound weight g s waiting { e' | e' ∈ e :: es } labels)
    (mem : e ∈ g.edges) (current : labels.dist.cell e.source = du ∨ e.source ∈ waiting ∧
      NegativeCycle (network weight g) s) (less : du + weight e < labels.dist.cell e.target) :
    Sound weight g s (insert e.target waiting) { e' | e' ∈ es }
      ⟨labels.dist.put e.target (du + weight e), labels.prior.put e.target e.source⟩ := by
  have lower (v : Int) : (labels.dist.put e.target (du + weight e)).cell v ≤
      labels.dist.cell v := by
    by_cases same : v = e.target
    · rw [same, RwVector.put_cell_self]
      exact less.le
    · rw [RwVector.put_cell_of_ne same]
  constructor
  case dist_length => exact sound.dist_length
  case prior_length => exact sound.prior_length
  case waiting_nodes =>
    rintro v (rfl | waits)
    · exact Digraph.target_mem mem
    · exact sound.waiting_nodes v waits
  case start => exact (lower s).trans sound.start
  case relaxed =>
    intro e' mem'
    by_cases source : e'.source = e.target
    · exact .inr (.inl (.inl source))
    rcases sound.relaxed e' mem' with relaxed | waits | isDue
    · left
      rw [RwVector.put_cell_of_ne source]
      exact (lower _).trans relaxed
    · exact .inr (.inl (.inr waits))
    · rcases List.mem_cons.mp isDue with rfl | later
      · rcases current with rfl | ⟨waits, _⟩
        · left
          rw [RwVector.put_cell_self, RwVector.put_cell_of_ne source]
        · exact .inr (.inl (.inr waits))
      · exact .inr (.inr later)
  case labelled =>
    intro none
    rcases current with rfl | ⟨_, cycle⟩
    · exact (sound.labelled none).relax (a := e) mem none less
    · exact (none cycle).elim

theorem Sound.cycle (sound : Sound weight g s waiting due labels) (mem : e ∈ g.edges)
    (loop : e.target = e.source)
    (less : labels.dist.cell e.source + weight e < labels.dist.cell e.source) :
    NegativeCycle (network weight g) s := by
  by_contra none
  have labelled := sound.labelled none
  have reached : labels.dist.cell e.source ≠ ⊤ := by
    intro top
    rw [top, WithTop.top_add] at less
    exact lt_irrefl _ less
  obtain ⟨p, led⟩ := labelled.led e.source reached
  have finite := ne_top_of_le_ne_top reached (led.total_le labelled.start.ge)
  have around : Walk (network weight g) e.source e.source [e] := by
    have walk := @Walk.snoc _ _ _ (network weight g) e.source [] e (.nil e.source) mem
    change Walk _ _ e.target [e] at walk
    rw [loop] at walk
    exact walk
  refine none ⟨e.source, p, [e], led.back.walk, finite, around, ?_⟩
  have whole : total (network weight g) [e] = weight e := by simp [total, network]
  rw [whole, ← WithTop.add_lt_add_iff_left reached, add_zero]
  exact less

omit [IsOrderedAddMonoid G] in
theorem Sound.finished (sound : Sound weight g s ∅ ∅ labels) :
    Relaxed (network weight g) s labels.dist.cell := by
  constructor
  · exact sound.start
  · intro e mem
    rcases sound.relaxed e mem with relaxed | waits | isDue
    · exact relaxed
    · exact waits.elim
    · exact isDue.elim

theorem Sound.distances (sound : Sound weight g s ∅ ∅ labels)
    (none : ¬NegativeCycle (network weight g) s) : Distances weight g s labels := by
  have labelled := sound.labelled none
  exact fun v _ => ⟨labelled.isDistance sound.finished v, labelled.back sound.finished⟩

end Relaxing

def lone : Digraph Unit where
  capacity := 1
  nodes := [0]
  outEdges := fun _ => []
  inEdges := fun _ => []
  nodes_nodup := by decide
  nodes_bound := by decide
  outEdges_source := by simp
  outEdges_ends := by simp
  mem_inEdges := by simp

end Mythryl.Graph
