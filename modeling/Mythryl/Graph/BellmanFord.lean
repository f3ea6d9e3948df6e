import Mythryl.Graph.SingleSource
import Mythryl.Loop
import Mathlib.Algebra.BigOperators.Group.Finset.Basic
import Mathlib.Algebra.Order.BigOperators.Group.Finset
import Mathlib.Algebra.Order.Group.Int
import Mathlib.Data.Prod.Lex

/-!
# Bellman and Ford's single source shortest paths

`bellman_fords_single_source_shortest_paths_g`, for an ordered abelian group with infinity.
-/

namespace Mythryl.Graph.BellmanFord
open Loop

variable {E G : Type} [AddCommGroup G] [LinearOrder G]

structure Driver (G : Type) where
  a : List Int
  b : List Int
  labels : Labels G
  count : RwVector Int

section Algorithm

variable (weight : Edge E → WithTop G)

def relax (u : Int) (du : WithTop G) : List (Edge E) → List Int → Labels G →
    Except Raised (List Int × Labels G)
  | [], b, labels => .ok (b, labels)
  | e :: es, b, labels => do
      let v := e.target
      let c := du + weight e
      if c < (← labels.dist.get v) then
        let dist ← labels.dist.set v c
        let prior ← labels.prior.set v u
        relax u du es (v :: b) ⟨dist, prior⟩
      else relax u du es b labels

variable (g : Digraph E)

def driver : Driver G → Except Raised (Turn (Driver G) (Labels G))
  | ⟨[], [], labels, _⟩ => .ok (.done labels)
  | ⟨[], b, labels, count⟩ => .ok (.next ⟨b.reverse, [], labels, count⟩)
  | ⟨u :: a, b, labels, count⟩ => do
      let n := (← count.get u) + 1
      let count ← count.set u n
      if n ≥ g.capacity then throw .negativeCycle
      let du ← labels.dist.get u
      let (b, labels) ← relax weight u du (g.outEdges u) b labels
      .ok (.next ⟨a, b, labels, count⟩)

def SingleSourceShortestPaths (s : Int) (result : Except Raised (Labels G)) : Prop :=
  Ends (driver weight g) ⟨[s], [], startLabels g s, RwVector.makeRwVector g.capacity 0⟩ result

end Algorithm

/-! # Shortest paths, unless a node is taken too often -/

open ShortestPaths

variable [IsOrderedAddMonoid G] (weight : Edge E → WithTop G) (g : Digraph E)
  (s : Int)

structure Correct (result : Except Raised (Labels G)) : Prop where
  raises : result = .error .negativeCycle ↔ NegativeCycle (network weight g) s
  returns : ¬NegativeCycle (network weight g) s → ∃ labels, result = .ok labels ∧
    Distances weight g s labels

inductive Taken : List Int → List Int → List Int → Labels G → Prop
  | start : Taken [] [s] [] (startLabels g s)
  | turn {taken b : List Int} {labels : Labels G} : Taken taken [] b labels → b ≠ [] →
      Taken taken b.reverse [] labels
  | take {taken a b b' : List Int} {u : Int} {labels labels' : Labels G} :
      Taken taken (u :: a) b labels →
      relax weight u (labels.dist.cell u) (g.outEdges u) b labels = .ok (b', labels') →
      Taken (u :: taken) a b' labels'

def Seldom : Prop :=
  ∀ taken a b labels, Taken weight g s taken a b labels → ∀ u, taken.count u < g.capacity

def waitingIn (a b : List Int) : Set Int := { u | u ∈ a ∨ u ∈ b }

structure Invariant (d : Driver G) : Prop where
  sound : Sound weight g s (waitingIn d.a d.b) ∅ d.labels
  count_length : d.count.length = g.capacity
  taken : ∃ taken, Taken weight g s taken d.a d.b d.labels ∧
    ∀ u, d.count.cell u = taken.count u

def remaining (d : Driver G) : Nat ×ₗ Nat :=
  toLex (∑ u ∈ g.nodes.toFinset, (g.capacity - d.count.cell u).toNat, if d.a = [] then 1 else 0)

def Post (result : Except Raised (Labels G)) : Prop :=
  (∃ labels, result = .ok labels ∧ Sound weight g s ∅ ∅ labels) ∨
    (result = .error .negativeCycle ∧ ¬Seldom weight g s)

section Relaxing

variable {weight g s} {waiting : Set Int} {due : Set (Edge E)} {labels labels' : Labels G}
  {a b b' taken : List Int} {u v : Int} {du : WithTop G} {e : Edge E} {es : List (Edge E)}

theorem waitingIn_cons : insert v (waitingIn a b) = waitingIn a (v :: b) := by
  ext x
  change x = v ∨ x ∈ a ∨ x ∈ b ↔ x ∈ a ∨ x ∈ v :: b
  rw [List.mem_cons, or_left_comm]

theorem relax_sound (edges : ∀ e ∈ es, e ∈ g.outEdges u)
    (sound : Sound weight g s (waitingIn a b) { e | e ∈ es } labels)
    (current : labels.dist.cell u = du ∨ u ∈ waitingIn a b ∧ NegativeCycle (network weight g) s) :
    ∃ b' labels', relax weight u du es b labels = .ok (b', labels') ∧
      Sound weight g s (waitingIn a b') ∅ labels' := by
  induction es generalizing b labels with
  | nil => exact ⟨b, labels, rfl, by simpa using sound⟩
  | cons e es ih =>
    obtain ⟨here, later⟩ := List.forall_mem_cons.mp edges
    obtain ⟨rfl, mem⟩ := Digraph.mem_outEdges.mp here
    have target := Digraph.target_mem mem
    simp only [relax, RwVector.get_of_within (sound.within_dist target), ok_bind]
    split
    · next less =>
        rw [RwVector.set_of_within (sound.within_dist target), ok_bind,
          RwVector.set_of_within (sound.within_prior target), ok_bind]
        have hit := sound.hit mem current less
        rw [waitingIn_cons] at hit
        apply ih later hit
        by_cases loop : e.target = e.source
        · right
          constructor
          · exact .inr (List.mem_cons.mpr (.inl loop.symm))
          · rcases current with rfl | ⟨_, cycle⟩
            · rw [loop] at less
              exact sound.cycle mem loop less
            · exact cycle
        · rcases current with same | ⟨waits, cycle⟩
          · left
            rw [RwVector.put_cell_of_ne (Ne.symm loop)]
            exact same
          · rw [← waitingIn_cons]
            exact .inr ⟨.inr waits, cycle⟩
    · next stays => exact ih later (sound.skip current stays) current

end Relaxing

section Runs

variable {weight g s} {d d' : Driver G} {labels labels' : Labels G} {count : RwVector Int}
  {a b b' taken : List Int} {u : Int} {result : Except Raised (Labels G)}

omit [IsOrderedAddMonoid G] in
theorem sound_start_single (mem : s ∈ g.nodes) :
    Sound weight g s (waitingIn [s] []) ∅ (startLabels g s) := by
  apply sound_start
  · exact .inl List.mem_cons_self
  · rintro u (first | second)
    · rw [List.mem_singleton.mp first]
      exact mem
    · cases second

omit [IsOrderedAddMonoid G] in
theorem Invariant.start (mem : s ∈ g.nodes) : Invariant weight g s
      ⟨[s], [], startLabels g s, RwVector.makeRwVector g.capacity 0⟩ :=
  ⟨sound_start_single mem, rfl, [], .start, fun _ => rfl⟩

omit [AddCommGroup G] [LinearOrder G] [IsOrderedAddMonoid G] in
theorem remaining_turn (front : b ≠ []) : remaining g ⟨b.reverse, [], labels, count⟩ <
      remaining g ⟨[], b, labels, count⟩ := by
  rw [remaining, remaining, Prod.Lex.toLex_lt_toLex]
  right
  simp [front]

omit [AddCommGroup G] [LinearOrder G] [IsOrderedAddMonoid G] in
theorem remaining_take (mem : u ∈ g.nodes) (less : count.cell u + 1 < g.capacity)
    {a b a' b' : List Int} : remaining g ⟨a', b', labels', count.put u (count.cell u + 1)⟩ <
      remaining g ⟨a, b, labels, count⟩ := by
  rw [remaining, remaining, Prod.Lex.toLex_lt_toLex]
  left
  dsimp only
  apply Finset.sum_lt_sum
  · intro v _
    by_cases same : v = u
    · rw [same, RwVector.put_cell_self]
      omega
    · rw [RwVector.put_cell_of_ne same]
  · refine ⟨u, List.mem_toFinset.mpr mem, ?_⟩
    rw [RwVector.put_cell_self]
    omega

omit [IsOrderedAddMonoid G] in
theorem sound_take (sound : Sound weight g s (waitingIn (u :: a) b) ∅ labels) :
    Sound weight g s (waitingIn a b) { e | e ∈ g.outEdges u } labels := by
  constructor
  case dist_length => exact sound.dist_length
  case prior_length => exact sound.prior_length
  case waiting_nodes =>
    rintro v (front | back)
    · exact sound.waiting_nodes v (.inl (List.mem_cons_of_mem u front))
    · exact sound.waiting_nodes v (.inr back)
  case start => exact sound.start
  case relaxed =>
    intro e mem
    rcases sound.relaxed e mem with relaxed | waits | isDue
    · exact .inl relaxed
    · rcases waits with front | back
      · rcases List.mem_cons.mp front with same | front
        · exact .inr (.inr (Digraph.mem_outEdges.mpr ⟨same, mem⟩))
        · exact .inr (.inl (.inl front))
      · exact .inr (.inl (.inr back))
    · exact isDue.elim
  case labelled => exact sound.labelled

omit [IsOrderedAddMonoid G] in
theorem driver_take (sound : Sound weight g s (waitingIn (u :: a) b) ∅ labels)
    (count_length : count.length = g.capacity)
    (relaxes : relax weight u (labels.dist.cell u) (g.outEdges u) b labels = .ok (b', labels')) :
    driver weight g ⟨u :: a, b, labels, count⟩ = if count.cell u + 1 ≥ g.capacity then
      .error .negativeCycle
    else .ok (.next ⟨a, b', labels', count.put u (count.cell u + 1)⟩) := by
  have mem : u ∈ g.nodes := sound.waiting_nodes u (.inl List.mem_cons_self)
  have within : count.Within u := by
    have bound := g.nodes_bound u mem
    rw [← count_length] at bound
    exact bound
  simp only [driver, RwVector.get_of_within within, RwVector.set_of_within within, ok_bind,
    RwVector.get_of_within (sound.within_dist mem), relaxes]
  split <;> rfl

theorem counts_take (counts : ∀ u, count.cell u = taken.count u) (v : Int) :
    (count.put u (count.cell u + 1)).cell v = (u :: taken).count v := by
  by_cases same : v = u
  · rw [same, RwVector.put_cell_self, List.count_cons_self, counts]
    rfl
  · rw [RwVector.put_cell_of_ne same, List.count_cons_of_ne (Ne.symm same)]
    exact counts v

theorem driver_turns (d : Driver G) (inv : Invariant weight g s d) :
    TurnsTo (driver weight g) (fun d' => Invariant weight g s d' ∧
      remaining g d' < remaining g d) (Post weight g s) d := by
  obtain ⟨a, b, labels, count⟩ := d
  obtain ⟨sound, count_length, taken, is, counts⟩ := inv
  cases a with
  | nil =>
    cases b with
    | nil =>
      refine .done rfl (.inl ⟨labels, rfl, ?_⟩)
      have none : waitingIn [] [] = (∅ : Set Int) := by
        ext
        simp [waitingIn]
      rw [← none]
      exact sound
    | cons v b =>
      refine .next rfl ⟨⟨?_, count_length, taken, .turn is (by simp), counts⟩,
        remaining_turn (by simp)⟩
      have same : waitingIn (v :: b).reverse [] = waitingIn [] (v :: b) := by
        ext
        simp [waitingIn, or_comm]
      rw [same]
      exact sound
  | cons u a =>
    have mem : u ∈ g.nodes := sound.waiting_nodes u (.inl List.mem_cons_self)
    obtain ⟨b', labels', relaxes, sound'⟩ := relax_sound (fun _ => id) (sound_take sound) (.inl rfl)
    have is' := Taken.take is relaxes
    have step := driver_take sound count_length relaxes
    by_cases enough : count.cell u + 1 ≥ g.capacity
    · rw [if_pos enough] at step
      refine .error step (.inr ⟨rfl, fun seldom => ?_⟩)
      have less := seldom _ _ _ _ is' u
      rw [← counts_take counts, RwVector.put_cell_self] at less
      exact absurd less (not_lt.mpr enough)
    · rw [if_neg enough] at step
      exact .next step ⟨⟨sound', count_length, _, is', counts_take counts⟩,
        remaining_take mem (not_le.mp enough)⟩

theorem ends_with_post (weight : Edge E → WithTop G) (mem : s ∈ g.nodes) :
    ∃ result, SingleSourceShortestPaths weight g s result ∧ Post weight g s result :=
  ends_of_descent (remaining g) driver_turns (Invariant.start mem)

theorem correct_of_sound (sound : Sound weight g s ∅ ∅ labels) : Correct weight g s (.ok labels) := by
  have none := sound.finished.no_negativeCycle
  constructor
  · simp [none]
  · exact fun _ => ⟨labels, rfl, sound.distances none⟩

theorem Taken.counted (is : Taken weight g s taken a b labels) (mem : s ∈ g.nodes)
    (ends : SingleSourceShortestPaths weight g s (.ok labels')) :
    Sound weight g s (waitingIn a b) ∅ labels ∧ (∀ u, taken.count u < g.capacity) ∧
      ∃ count : RwVector Int, count.length = g.capacity ∧ (∀ u, count.cell u = taken.count u) ∧
        Ends (driver weight g) ⟨a, b, labels, count⟩ (.ok labels') := by
  induction is with
  | start =>
    refine ⟨sound_start_single mem, fun u => ?_, _, rfl, fun _ => rfl, ends⟩
    have bound := g.nodes_bound s mem
    exact bound.1.trans_lt bound.2
  | @turn taken b labels _ front ih =>
    obtain ⟨sound, seldom, count, count_length, counts, ends'⟩ := ih
    obtain ⟨v, b, rfl⟩ := List.exists_cons_of_ne_nil front
    refine ⟨?_, seldom, count, count_length, counts, (ends_next rfl).mp ends'⟩
    have same : waitingIn (v :: b).reverse [] = waitingIn [] (v :: b) := by
      ext
      simp [waitingIn, or_comm]
    rw [same]
    exact sound
  | @take taken a b b' u labels labels₂ _ relaxes ih =>
    obtain ⟨sound, seldom, count, count_length, counts, ends'⟩ := ih
    have step := driver_take sound count_length relaxes
    obtain ⟨b₂, labels₃, relaxes', sound'⟩ := relax_sound (fun _ => id) (sound_take sound) (.inl rfl)
    cases relaxes.symm.trans relaxes'
    by_cases enough : count.cell u + 1 ≥ g.capacity
    · rw [if_pos enough] at step
      cases (ends_error step).mp ends'
    · rw [if_neg enough] at step
      refine ⟨sound', fun v => ?_, count.put u (count.cell u + 1), count_length,
        counts_take counts, (ends_next step).mp ends'⟩
      by_cases same : v = u
      · rw [same, ← counts_take counts, RwVector.put_cell_self]
        exact not_le.mp enough
      · rw [List.count_cons_of_ne (Ne.symm same)]
        exact seldom v

theorem singleSource_correct_iff (mem : s ∈ g.nodes) :
    (∃ result, SingleSourceShortestPaths weight g s result ∧ Correct weight g s result) ↔
      NegativeCycle (network weight g) s ∨ Seldom weight g s := by
  constructor
  · rintro ⟨result, ends, correct⟩
    by_cases cycle : NegativeCycle (network weight g) s
    · exact .inl cycle
    · obtain ⟨labels, rfl, _⟩ := correct.returns cycle
      exact .inr fun _ _ _ _ is => (is.counted mem ends).2.1
  · intro condition
    obtain ⟨result, ends, ⟨labels, rfl, sound⟩ | ⟨rfl, often⟩⟩ := ends_with_post weight mem
    · exact ⟨_, ends, correct_of_sound sound⟩
    · have cycle := condition.resolve_right often
      exact ⟨_, ends, by simp [cycle], fun none => (none cycle).elim⟩

end Runs

def noWeight : Edge Unit → WithTop Int := fun _ => 0

theorem lone_no_cycle : ¬NegativeCycle (network noWeight lone) 0 := by
  rintro ⟨v, p, c, _, _, _, negative⟩
  have zero : total (network noWeight lone) c = 0 := by
    unfold total
    clear * -
    induction c with
    | nil => rfl
    | cons e c ih => simpa [network, noWeight] using ih
  exact absurd negative (by simp [zero])

theorem singleSource_correct_iff_lone :
    (∃ result, SingleSourceShortestPaths noWeight lone 0 result ∧ Correct noWeight lone 0 result) ↔
      NegativeCycle (network noWeight lone) 0 ∨ Seldom noWeight lone 0 :=
  singleSource_correct_iff (by decide)

theorem lone_raises_negativeCycle : ¬∃ result,
    SingleSourceShortestPaths noWeight lone 0 result ∧ Correct noWeight lone 0 result := by
  rintro ⟨result, ends, correct⟩
  have raises : SingleSourceShortestPaths noWeight lone 0 (.error .negativeCycle) := ⟨1, rfl⟩
  cases ends.unique raises
  exact lone_no_cycle (correct.raises.mp rfl)

end Mythryl.Graph.BellmanFord
