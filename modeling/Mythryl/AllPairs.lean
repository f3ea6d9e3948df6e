import Mythryl.ShortestPaths

/-! # Shortest paths between all nodes -/

namespace ShortestPaths

section Paths

variable {N A G : Type} [AddCommGroup G] [LinearOrder G] (net : Network N A G)

def Conservative : Prop := ∀ v c, Walk net v v c → 0 ≤ total net c

inductive Via (S : Set N) : N → N → List A → Prop
  | nil (u : N) : Via S u u []
  | snoc {u : N} {p : List A} {a : A} : Via S u (net.source a) p → p = [] ∨ net.source a ∈ S →
      a ∈ net.arcs → Via S u (net.target a) (p ++ [a])

def Below (T S : Set N) (dist : N → N → WithTop G) : Prop :=
  ∀ u ∈ T, ∀ v ∈ T, ∀ p, Via net S u v p → dist u v ≤ total net p

def Attained (T : Set N) (dist : N → N → WithTop G) : Prop :=
  ∀ u ∈ T, ∀ v ∈ T, dist u v ≠ ⊤ → ∃ p, Walk net u v p ∧ total net p = dist u v

variable {net} {S T : Set N} {s u v w k : N} {p q r : List A} {dist dist' : N → N → WithTop G}

theorem Conservative.no_negativeCycle (conservative : Conservative net) : ¬NegativeCycle net s := by
  rintro ⟨v, _, c, _, _, cycle, negative⟩
  exact absurd (conservative v c cycle) (not_le.mpr negative)

omit [LinearOrder G] in
@[simp] theorem total_append : total net (p ++ q) = total net p + total net q := by simp [total]

omit [AddCommGroup G] [LinearOrder G] in
theorem Via.walk (via : Via net S u v p) : Walk net u v p := by
  induction via with
  | nil => exact .nil _
  | snoc _ _ mem ih => exact .snoc ih mem

omit [AddCommGroup G] [LinearOrder G] in
theorem Walk.via (walk : Walk net u v p) (sources : ∀ a ∈ net.arcs, net.source a ∈ S) :
    Via net S u v p := by
  induction walk with
  | nil => exact .nil _
  | snoc _ mem ih => exact .snoc ih (.inr (sources _ mem)) mem

omit [AddCommGroup G] [LinearOrder G] in
theorem Via.single (none : Via net ∅ u v p) :
    (u = v ∧ p = []) ∨ ∃ a ∈ net.arcs, net.source a = u ∧ net.target a = v ∧ p = [a] := by
  cases none with
  | nil => exact .inl ⟨rfl, rfl⟩
  | @snoc p a via inner mem =>
    rcases inner with rfl | inner
    · right
      refine ⟨a, mem, ?_, rfl, rfl⟩
      generalize source : net.source a = x at via
      generalize empty : ([] : List A) = p at via
      cases via with
      | nil => rfl
      | snoc => simp at empty
    · exact inner.elim

omit [AddCommGroup G] [LinearOrder G] in
theorem Via.split (via : Via net (insert k S) u v r) : Via net S u v r ∨
    ∃ p c q, Via net S u k p ∧ Walk net k k c ∧ Via net S k v q ∧ r = p ++ c ++ q := by
  induction via with
  | nil => exact .inl (.nil _)
  | @snoc r a before inner mem ih =>
    rcases ih with here | ⟨p, c, q, first, cycle, last, rfl⟩
    · rcases inner with empty | rfl | inner
      · exact .inl (.snoc here (.inl empty) mem)
      · exact .inr ⟨r, [], [a], here, .nil _, .snoc (.nil _) (.inl rfl) mem, by simp⟩
      · exact .inl (.snoc here (.inr inner) mem)
    · right
      rcases inner with empty | rfl | inner
      · refine ⟨p, c, q ++ [a], first, cycle, .snoc last (.inl ?_) mem, by simp⟩
        exact (List.append_eq_nil_iff.mp empty).2
      · exact ⟨p, c ++ q, [a], first, cycle.append last.walk,
          .snoc (.nil _) (.inl rfl) mem, by simp⟩
      · exact ⟨p, c, q ++ [a], first, cycle, .snoc last (.inr inner) mem, by simp⟩

variable [IsOrderedAddMonoid G]

theorem Below.pivot (below : Below net T S dist) (conservative : Conservative net) (mem : k ∈ T)
    (le : ∀ u ∈ T, ∀ v ∈ T, dist' u v ≤ dist u v)
    (joined : ∀ u ∈ T, ∀ v ∈ T, dist' u v ≤ dist u k + dist k v) :
    Below net T (insert k S) dist' := by
  intro u memU v memV r via
  rcases via.split with here | ⟨p, c, q, first, cycle, last, rfl⟩
  · exact (le u memU v memV).trans (below u memU v memV r here)
  · rw [total_append, total_append]
    calc dist' u v ≤ dist u k + dist k v := joined u memU v memV
      _ ≤ total net p + total net q := by
        gcongr
        · exact below u memU k mem p first
        · exact below k mem v memV q last
      _ ≤ total net p + total net c + total net q := by
        gcongr
        exact le_add_of_nonneg_right (conservative k c cycle)

omit [IsOrderedAddMonoid G] in
theorem Below.isDistance (below : Below net T S dist) (attained : Attained net T dist)
    (sources : ∀ a ∈ net.arcs, net.source a ∈ S) (memU : u ∈ T) (memV : v ∈ T) :
    IsDistance net u v (dist u v) := by
  constructor
  · by_cases top : dist u v = ⊤
    · exact .inl top
    · obtain ⟨p, walk, is⟩ := attained u memU v memV top
      exact .inr ⟨p, walk, is.symm⟩
  · rintro x (rfl | ⟨p, walk, rfl⟩)
    · exact le_top
    · exact below u memU v memV p (walk.via sources)

end Paths

section Potentials

variable {N A G : Type} [AddCommGroup G]

structure Reweighted (net net' : Network N A G) (h : N → G) : Prop where
  arcs : net'.arcs = net.arcs
  source : net'.source = net.source
  target : net'.target = net.target
  weight : ∀ a ∈ net.arcs, net'.weight a = net.weight a + ↑(h (net.source a) - h (net.target a))

variable {net net' : Network N A G} {h : N → G} {u v : N} {p : List A} {x : WithTop G}

theorem Reweighted.symm (reweighted : Reweighted net net' h) : Reweighted net' net (-h) := by
  obtain ⟨arcs, source, target, weight⟩ := reweighted
  refine ⟨arcs.symm, source.symm, target.symm, fun a mem => ?_⟩
  rw [arcs] at mem
  rw [weight a mem, add_assoc, ← WithTop.coe_add, source, target]
  simp

theorem Reweighted.walk (reweighted : Reweighted net net' h) (walk : Walk net u v p) :
    Walk net' u v p := by
  induction walk with
  | nil => exact .nil _
  | @snoc p a _ mem ih =>
    rw [← reweighted.source] at ih
    rw [← reweighted.arcs] at mem
    rw [← reweighted.target]
    exact .snoc ih mem

theorem Reweighted.total_eq (reweighted : Reweighted net net' h) (walk : Walk net u v p) :
    total net' p = total net p + ↑(h u - h v) := by
  induction walk with
  | nil => simp
  | @snoc p a _ mem ih =>
    rw [total_snoc, total_snoc, ih, reweighted.weight a mem, add_add_add_comm, ← WithTop.coe_add,
      sub_add_sub_cancel]

variable [LinearOrder G] [IsOrderedAddMonoid G]

omit [IsOrderedAddMonoid G] in
theorem Reweighted.conservative (reweighted : Reweighted net net' h)
    (conservative : Conservative net) : Conservative net' := by
  intro v c cycle
  have cycle' := reweighted.symm.walk cycle
  rw [reweighted.total_eq cycle', sub_self, WithTop.coe_zero, add_zero]
  exact conservative v c cycle'

theorem Reweighted.isDistance (reweighted : Reweighted net net' h)
    (distance : IsDistance net' u v x) : IsDistance net u v (x + ↑(h v - h u)) := by
  have back {y : WithTop G} : y + ↑(h u - h v) + ↑(h v - h u) = y := by
    rw [add_assoc, ← WithTop.coe_add, sub_add_sub_cancel, sub_self, WithTop.coe_zero, add_zero]
  obtain ⟨is, least⟩ := distance
  constructor
  · rcases is with rfl | ⟨p, walk, rfl⟩
    · exact .inl (WithTop.top_add _)
    · have walk' := reweighted.symm.walk walk
      refine .inr ⟨p, walk', ?_⟩
      rw [reweighted.total_eq walk', back]
  · rintro y (rfl | ⟨p, walk, rfl⟩)
    · exact le_top
    · have le := least (.inr ⟨p, reweighted.walk walk, rfl⟩)
      rw [reweighted.total_eq walk] at le
      calc x + ↑(h v - h u) ≤ total net p + ↑(h u - h v) + ↑(h v - h u) := by gcongr
        _ = total net p := back

end Potentials

end ShortestPaths
