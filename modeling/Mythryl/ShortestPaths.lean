import Mathlib.Algebra.BigOperators.Group.List.Basic
import Mathlib.Algebra.Order.Group.Defs
import Mathlib.Algebra.Order.Monoid.Unbundled.WithTop
import Mathlib.Order.Bounds.Basic

/-! # Shortest paths by relaxing arcs -/

namespace ShortestPaths

variable {N A G : Type} [AddCommGroup G] [LinearOrder G] [IsOrderedAddMonoid G]

structure Network (N A G : Type) where
  arcs : Set A
  source : A → N
  target : A → N
  weight : A → WithTop G

variable (net : Network N A G)

inductive Walk : N → N → List A → Prop
  | nil (u : N) : Walk u u []
  | snoc {u : N} {p : List A} {a : A} : Walk u (net.source a) p → a ∈ net.arcs →
      Walk u (net.target a) (p ++ [a])

def total (p : List A) : WithTop G := (p.map net.weight).sum

def NegativeCycle (s : N) : Prop :=
  ∃ v p c, Walk net s v p ∧ total net p ≠ ⊤ ∧ Walk net v v c ∧ total net c < 0

def IsDistance (s v : N) (x : WithTop G) : Prop :=
  IsLeast (insert ⊤ { y | ∃ p, Walk net s v p ∧ y = total net p }) x

structure Relaxed (s : N) (dist : N → WithTop G) : Prop where
  start : dist s ≤ 0
  arcs : ∀ a ∈ net.arcs, dist (net.target a) ≤ dist (net.source a) + net.weight a

inductive Back (prior : N → N) (s : N) : N → List A → Prop
  | start : Back prior s s []
  | arc {p : List A} {a : A} : Back prior s (net.source a) p → a ∈ net.arcs →
      prior (net.target a) = net.source a → Back prior s (net.target a) (p ++ [a])

inductive Led (dist : N → WithTop G) (prior : N → N) (s : N) : N → List A → Prop
  | start : Led dist prior s s []
  | arc {p : List A} {a : A} : Led dist prior s (net.source a) p → a ∈ net.arcs →
      prior (net.target a) = net.source a →
      dist (net.source a) + net.weight a ≤ dist (net.target a) →
      Led dist prior s (net.target a) (p ++ [a])

structure Labelled (s : N) (dist : N → WithTop G) (prior : N → N) : Prop where
  start : dist s = 0
  led : ∀ v, dist v ≠ ⊤ → ∃ p, Led net dist prior s v p

section Walks

variable {net} {s u v w : N} {p q : List A} {a : A} {dist dist' : N → WithTop G}
  {prior prior' : N → N}

omit [LinearOrder G] [IsOrderedAddMonoid G] in
@[simp] theorem total_nil : total net ([] : List A) = 0 := rfl

omit [LinearOrder G] [IsOrderedAddMonoid G] in
@[simp] theorem total_snoc : total net (p ++ [a]) = total net p + net.weight a := by simp [total]

omit [AddCommGroup G] [LinearOrder G] [IsOrderedAddMonoid G] in
theorem Walk.append (walk : Walk net u v p) (walk' : Walk net v w q) : Walk net u w (p ++ q) := by
  induction walk' with
  | nil => simpa using walk
  | snoc _ mem ih =>
    rw [← List.append_assoc]
    exact .snoc ih mem

theorem Relaxed.le_total (relaxed : Relaxed net s dist) (walk : Walk net s v p) :
    dist v ≤ total net p := by
  induction walk with
  | nil => exact relaxed.start
  | @snoc p a _ mem ih =>
    rw [total_snoc]
    calc dist (net.target a) ≤ dist (net.source a) + net.weight a := relaxed.arcs a mem
      _ ≤ total net p + net.weight a := by gcongr

theorem Relaxed.along (relaxed : Relaxed net s dist) (walk : Walk net u v p) :
    dist v ≤ dist u + total net p := by
  induction walk with
  | nil => simp
  | @snoc p a _ mem ih =>
    rw [total_snoc, ← add_assoc]
    calc dist (net.target a) ≤ dist (net.source a) + net.weight a := relaxed.arcs a mem
      _ ≤ dist u + total net p + net.weight a := by gcongr

theorem Relaxed.no_negativeCycle (relaxed : Relaxed net s dist) : ¬NegativeCycle net s := by
  rintro ⟨v, p, c, walk, finite, cycle, negative⟩
  have reached : dist v ≠ ⊤ := ne_top_of_le_ne_top finite (relaxed.le_total walk)
  have less : dist v + total net c < dist v + 0 := (WithTop.add_lt_add_iff_left reached).mpr negative
  rw [add_zero] at less
  exact absurd (relaxed.along cycle) (not_le.mpr less)

theorem Walk.total_nonneg (walk : Walk net u v p) (nonneg : ∀ a ∈ net.arcs, 0 ≤ net.weight a) :
    0 ≤ total net p := by
  induction walk with
  | nil => exact le_rfl
  | snoc _ mem ih =>
    rw [total_snoc]
    exact add_nonneg ih (nonneg _ mem)

theorem no_negativeCycle_of_nonneg (nonneg : ∀ a ∈ net.arcs, 0 ≤ net.weight a) :
    ¬NegativeCycle net s := by
  rintro ⟨v, p, c, _, _, cycle, negative⟩
  exact absurd (cycle.total_nonneg nonneg) (not_le.mpr negative)

omit [AddCommGroup G] [LinearOrder G] [IsOrderedAddMonoid G] in
theorem Back.walk (back : Back net prior s v p) : Walk net s v p := by
  induction back with
  | start => exact .nil s
  | arc _ mem _ ih => exact .snoc ih mem

omit [IsOrderedAddMonoid G] in
theorem Led.back (led : Led net dist prior s v p) : Back net prior s v p := by
  induction led with
  | start => exact .start
  | arc _ mem is _ ih => exact .arc ih mem is

theorem Led.total_le (led : Led net dist prior s v p) (start : 0 ≤ dist s) :
    total net p ≤ dist v := by
  induction led with
  | start => exact start
  | @arc p a _ _ _ less ih =>
    rw [total_snoc]
    calc total net p + net.weight a ≤ dist (net.source a) + net.weight a := by gcongr
      _ ≤ dist (net.target a) := less

theorem Labelled.isDistance (labelled : Labelled net s dist prior) (relaxed : Relaxed net s dist)
    (v : N) : IsDistance net s v (dist v) := by
  constructor
  · by_cases top : dist v = ⊤
    · exact .inl top
    · obtain ⟨p, led⟩ := labelled.led v top
      have walk := led.back.walk
      exact .inr ⟨p, walk, le_antisymm (relaxed.le_total walk) (led.total_le labelled.start.ge)⟩
  · rintro x (rfl | ⟨p, walk, rfl⟩)
    · exact le_top
    · exact relaxed.le_total walk

theorem Labelled.back (labelled : Labelled net s dist prior) (relaxed : Relaxed net s dist)
    (reached : dist v ≠ ⊤) : ∃ p, Back net prior s v p ∧ total net p = dist v := by
  obtain ⟨p, led⟩ := labelled.led v reached
  have walk := led.back.walk
  exact ⟨p, led.back, le_antisymm (led.total_le labelled.start.ge) (relaxed.le_total walk)⟩

variable [DecidableEq N]

theorem Led.update (led : Led net dist prior s u p) (c : WithTop G) (w : N) :
    (u ≠ v ∧ Led net (Function.update dist v c) (Function.update prior v w) s u p) ∨
      ∃ r, Walk net v u r ∧ dist v + total net r ≤ dist u := by
  induction led with
  | start =>
    by_cases same : s = v
    · subst same
      exact .inr ⟨[], .nil s, by simp⟩
    · exact .inl ⟨same, .start⟩
  | @arc p a led mem is less ih =>
    by_cases same : net.target a = v
    · subst same
      exact .inr ⟨[], .nil _, by simp⟩
    rcases ih with ⟨other, led'⟩ | ⟨r, walk, passed⟩
    · refine .inl ⟨same, .arc led' mem ?_ ?_⟩
      · rw [Function.update_of_ne same, is]
      · rw [Function.update_of_ne same, Function.update_of_ne other]
        exact less
    · refine .inr ⟨r ++ [a], .snoc walk mem, ?_⟩
      rw [total_snoc, ← add_assoc]
      calc dist v + total net r + net.weight a ≤ dist (net.source a) + net.weight a := by gcongr
        _ ≤ dist (net.target a) := less

theorem Led.redirect {c : WithTop G} {w x : N} {q : List A} (led : Led net dist prior s x q)
    (newer : Led net (Function.update dist v c) (Function.update prior v w) s v p)
    (less : c ≤ dist v) :
    ∃ q', Led net (Function.update dist v c) (Function.update prior v w) s x q' := by
  induction led with
  | start => exact ⟨[], .start⟩
  | @arc q a _ mem is less' ih =>
    by_cases same : net.target a = v
    · rw [same]
      exact ⟨p, newer⟩
    · obtain ⟨q', led'⟩ := ih
      refine ⟨q' ++ [a], .arc led' mem ?_ ?_⟩
      · rw [Function.update_of_ne same, is]
      · have lower : Function.update dist v c (net.source a) ≤ dist (net.source a) := by
          by_cases eq : net.source a = v
          · rw [eq, Function.update_self]
            exact less
          · rw [Function.update_of_ne eq]
        rw [Function.update_of_ne same]
        exact (add_le_add_left lower _).trans less'

theorem Labelled.relax (labelled : Labelled net s dist prior) (mem : a ∈ net.arcs)
    (none : ¬NegativeCycle net s)
    (less : dist (net.source a) + net.weight a < dist (net.target a)) :
    Labelled net s (Function.update dist (net.target a) (dist (net.source a) + net.weight a))
      (Function.update prior (net.target a) (net.source a)) := by
  have finite := less.ne_top
  have reached : dist (net.source a) ≠ ⊤ := by
    intro top
    rw [top, WithTop.top_add] at finite
    exact finite rfl
  obtain ⟨p, led⟩ := labelled.led _ reached
  obtain ⟨other, led'⟩ | ⟨r, walk, passed⟩ :=
    led.update (v := net.target a) (dist (net.source a) + net.weight a) (net.source a)
  · have newer := Led.arc led' mem (Function.update_self ..) (by
      rw [Function.update_of_ne other, Function.update_self])
    have notStart : s ≠ net.target a := by
      intro same
      have start := labelled.start
      -- A smaller label of the start is the weight of a cycle.
      refine none ⟨s, [], p ++ [a], .nil s, by simp, ?_, ?_⟩
      · rw [same] at led ⊢
        exact .snoc led.back.walk mem
      · rw [← same, start] at less
        rw [total_snoc]
        calc total net p + net.weight a ≤ dist (net.source a) + net.weight a := by
              gcongr
              exact led.total_le start.ge
          _ < 0 := less
    constructor
    · rw [Function.update_of_ne notStart]
      exact labelled.start
    · intro x reachedX
      by_cases same : x = net.target a
      · rw [same]
        exact ⟨_, newer⟩
      · rw [Function.update_of_ne same] at reachedX
        obtain ⟨q, ledX⟩ := labelled.led x reachedX
        exact ledX.redirect newer less.le
  · exfalso
    -- The target was passed on the way to the source, and the arc closes a cycle.
    have below : dist (net.target a) + (total net r + net.weight a) < dist (net.target a) := by
      rw [← add_assoc]
      calc dist (net.target a) + total net r + net.weight a
          ≤ dist (net.source a) + net.weight a := by gcongr
        _ < dist (net.target a) := less
    have reachedTarget : dist (net.target a) ≠ ⊤ := by
      intro top
      rw [top, WithTop.top_add] at below
      exact lt_irrefl _ below
    obtain ⟨q, ledTarget⟩ := labelled.led _ reachedTarget
    refine none ⟨net.target a, q, r ++ [a], ledTarget.back.walk, ?_, .snoc walk mem, ?_⟩
    · exact ne_top_of_le_ne_top reachedTarget (ledTarget.total_le labelled.start.ge)
    · rw [total_snoc]
      rw [← WithTop.add_lt_add_iff_left reachedTarget, add_zero]
      exact below

end Walks

end ShortestPaths
