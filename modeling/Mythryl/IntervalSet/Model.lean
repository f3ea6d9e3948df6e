import Mythryl.Exceptions
import Mathlib.Data.Fin.SuccPredOrder
import Mathlib.Order.Bounds.Basic
import Mathlib.Order.Compare
import Mathlib.Tactic.Common

/-!
# Sets of intervals

`interval_set_g`: a set over a discrete ordered domain is a list of intervals, which should be in
order, disjoint and not adjacent.
-/

namespace Mythryl.IntervalSet
open Order

inductive Raised
  | domain | unfinished
  deriving DecidableEq, Repr

/-- `Interval_Domain`: a total order with successors and predecessors, between two bounds. -/
class IntervalDomain (Point : Type) extends
  LinearOrder Point, BoundedOrder Point, SuccOrder Point, PredOrder Point

variable {Point : Type} [IntervalDomain Point]

abbrev Interval (Point : Type) := Point × Point

def isSucc (a b : Point) : Bool := succ a = b ∧ a = pred b

def min' (a b : Point) : Point :=
  match compare a b with
  | .lt => a
  | _ => b

def universe' : List (Interval Point) := [(⊥, ⊤)]

def singleton (x : Point) : List (Interval Point) := [(x, x)]

def interval (a b : Point) : Except Raised (List (Interval Point)) :=
  match compare a b with
  | .gt => throw .domain
  | _ => return [(a, b)]

@[grind =] def addIntIns (a b : Point) : List (Interval Point) → List (Interval Point)
  | [] => [(a, b)]
  | (x, y) :: r =>
      match compare b x with
      | .lt => if isSucc b x then (a, y) :: r else (a, b) :: (x, y) :: r
      | .eq => (a, y) :: r
      | .gt =>
          match compare a y with
          | .gt => if isSucc y a then (x, b) :: r else (x, y) :: addIntIns a b r
          | .eq => addIntIns x b r
          | .lt =>
              match compare b y with
              | .gt => addIntIns (min' a x) b r
              | _ => addIntIns (min' a x) y r

attribute [elab_as_elim] addIntIns.induct_unfolding

def addInt (l : List (Interval Point)) (a b : Point) : Except Raised (List (Interval Point)) :=
  match compare a b with
  | .gt => throw .domain
  | _ => return addIntIns a b l

@[grind =] def add (a : Point) : List (Interval Point) → List (Interval Point)
  | [] => [(a, a)]
  | (x, y) :: r =>
      match compare a x with
      | .lt => if isSucc a x then (a, y) :: r else (a, a) :: (x, y) :: r
      | .eq => (a, y) :: r
      | .gt =>
          match compare a y with
          | .gt => if isSucc y a then (x, a) :: r else (x, y) :: add a r
          | _ => (x, y) :: r

def comp (start : Point) : List (Interval Point) → List (Interval Point) →
    List (Interval Point)
  | (a, b) :: r, l => comp (succ b) r ((start, pred a) :: l)
  | [], l =>
      match compare start ⊤ with
      | .lt => ((start, ⊤) :: l).reverse
      | _ => l.reverse

def complement : List (Interval Point) → List (Interval Point)
  | [] => universe'
  | (a, b) :: r =>
      match compare ⊥ a with
      | .lt => comp (succ b) r [(⊥, pred a)]
      | _ => comp (succ b) r []

def union : List (Interval Point) → List (Interval Point) → List (Interval Point)
  | [], l2 => l2
  | l1, [] => l1
  | (a1, b1) :: r1, (a2, b2) :: r2 =>
      match compare a1 a2 with
      | .lt =>
          match compare b1 b2 with
          | .lt =>
              if isSucc b1 a2 then
                union r1 ((a1, b2) :: r2)
              else
                (a1, b1) :: union r1 ((a2, b2) :: r2)
          | .eq => (a1, b1) :: union r1 r2
          | .gt => union ((a1, b1) :: r1) r2
      | .eq =>
          match compare b1 b2 with
          | .lt => union r1 ((a2, b2) :: r2)
          | .eq => (a1, b1) :: union r1 r2
          | .gt => union ((a1, b1) :: r1) r2
      | .gt =>
          match compare a1 b2 with
          | .lt =>
              match compare b1 b2 with
              | .lt => union r1 ((a2, b2) :: r2)
              | .eq => (a2, b2) :: union r1 r2
              | .gt => union ((a2, b1) :: r1) r2
          | .eq => union ((a2, b1) :: r1) r2
          | .gt =>
              if isSucc b2 a1 then
                union ((a2, b1) :: r1) r2
              else
                (a2, b2) :: union ((a1, b1) :: r1) r2
  termination_by l1 l2 => l1.length + l2.length

def cons (a b : Point) (l : List (Interval Point)) : List (Interval Point) :=
  match compare a b with
  | .gt => l
  | _ => (a, b) :: l

theorem length_cons_le (a b : Point) (l : List (Interval Point)) :
    (cons a b l).length ≤ l.length + 1 := by
  unfold cons
  split <;> simp

def intersect : List (Interval Point) → List (Interval Point) → List (Interval Point)
  | [], _ => []
  | _, [] => []
  | (a1, b1) :: r1, (a2, b2) :: r2 =>
      match compare a1 a2 with
      | .lt =>
          match compare b1 a2 with
          | .lt => intersect r1 ((a2, b2) :: r2)
          | .eq => (b1, b1) :: intersect r1 (cons (succ b1) b2 r2)
          | .gt =>
              match compare b1 b2 with
              | .lt => (a2, b1) :: intersect r1 (cons (succ b1) b2 r2)
              | .eq => (a2, b1) :: intersect r1 r2
              | .gt => (a2, b2) :: intersect (cons (succ b2) b1 r1) r2
      | .eq =>
          match compare b1 b2 with
          | .lt => (a1, b1) :: intersect r1 (cons (succ b1) b2 r2)
          | .eq => (a1, b1) :: intersect r1 r2
          | .gt => (a1, b2) :: intersect ((succ b2, b1) :: r1) r2
      | .gt =>
          match compare b2 a1 with
          | .lt => intersect ((a1, b1) :: r1) r2
          | .eq => (b2, b2) :: intersect (cons (succ b2) b1 r1) r2
          | .gt =>
              match compare b1 b2 with
              | .lt => (a1, b1) :: intersect r1 (cons (succ b1) b2 r2)
              | .eq => (a1, b1) :: intersect r1 r2
              | .gt => (a1, b2) :: intersect (cons (succ b2) b1 r1) r2
  termination_by l1 l2 => l1.length + l2.length
  decreasing_by
    all_goals simp only [List.length_cons]
    all_goals first
      | omega
      | (have le := length_cons_le (succ b1) b2 r2; omega)
      | (have le := length_cons_le (succ b2) b1 r1; omega)

def difference (s1 s2 : List (Interval Point)) : List (Interval Point) :=
  intersect s1 (complement s2)

section Filter

variable (prior : Point → Bool)

mutual

def lp : Nat → Point → Point → Point → List (Interval Point) →
    Except Raised (List (Interval Point))
  | 0, _, _, _, _ => throw .unfinished
  | fuel + 1, start, item, last, l =>
      let next := succ item
      if prior next then
        if compare next last = .eq then return (start, next) :: l else lp fuel start next last l
      else
        scan fuel (succ next) last ((start, item) :: l)

def scan : Nat → Point → Point → List (Interval Point) →
    Except Raised (List (Interval Point))
  | 0, _, _, _ => throw .unfinished
  | fuel + 1, next, last, l =>
      if prior next then
        lp fuel next next last l
      else if compare next last = .eq then
        return l
      else
        scan fuel (succ next) last l

end

def filterInt (fuel : Nat) (i : Interval Point) (l : List (Interval Point)) :
    Except Raised (List (Interval Point)) :=
  scan prior fuel i.1 i.2 l

def filter' (fuel : Nat) : List (Interval Point) → List (Interval Point) →
    Except Raised (List (Interval Point))
  | [], l => return l.reverse
  | i :: r, l => do
      let l ← filterInt prior fuel i l
      filter' fuel r l

def filter (fuel : Nat) (l : List (Interval Point)) : Except Raised (List (Interval Point)) :=
  filter' prior fuel l []

end Filter

def Beyond (b : Point) (l : List (Interval Point)) : Prop := ∀ i ∈ l, succ b < i.1

def Normal : List (Interval Point) → Prop
  | [] => True
  | (a, b) :: r => a ≤ b ∧ Beyond b r ∧ Normal r

section Normal

variable {a b c : Point} {i : Interval Point} {l l' r : List (Interval Point)}

theorem min'_eq (a b : Point) : min' a b = min a b := by
  unfold min'
  split
  · rename_i less
    exact (min_eq_left (compare_lt_iff_lt.mp less).le).symm
  · rename_i less
    exact (min_eq_right (not_lt.mp fun lt => less (compare_lt_iff_lt.mpr lt))).symm

theorem isSucc_iff (less : a < b) : isSucc a b = true ↔ succ a = b := by
  unfold isSucc
  rw [decide_eq_true_eq]
  constructor
  · exact And.left
  · intro equal
    subst equal
    exact ⟨rfl, (pred_succ_of_not_isMax (not_isMax_of_lt less)).symm⟩

theorem eq_of_isSucc (touches : isSucc a b = true) : succ a = b := (of_decide_eq_true touches).1

theorem succ_lt (less : a < b) (apart : ¬isSucc a b = true) : succ a < b :=
  lt_of_le_of_ne (succ_le_of_lt less) fun equal => apart ((isSucc_iff less).mpr equal)

theorem beyond_nil : Beyond b ([] : List (Interval Point)) := by
  intro i mem
  cases mem

@[simp] theorem beyond_cons : Beyond c (i :: l) ↔ succ c < i.1 ∧ Beyond c l :=
  List.forall_mem_cons

theorem Beyond.push (beyond : Beyond c l) (above : succ c < i.1) : Beyond c (i :: l) :=
  List.forall_mem_cons.mpr ⟨above, beyond⟩

theorem Beyond.head (beyond : Beyond c (i :: l)) : succ c < i.1 := beyond i List.mem_cons_self

theorem Beyond.tail (beyond : Beyond c (i :: l)) : Beyond c l :=
  fun j mem => beyond j (List.mem_cons_of_mem i mem)

theorem Beyond.mono (beyond : Beyond b l) (le : c ≤ b) : Beyond c l := by
  intro i mem
  exact (succ_le_succ le).trans_lt (beyond i mem)

theorem Beyond.lt (beyond : Beyond b l) (mem : i ∈ l) : b < i.1 :=
  (le_succ b).trans_lt (beyond i mem)

theorem Beyond.top (beyond : Beyond (⊤ : Point) l) : l = [] := by
  cases l with
  | nil => rfl
  | cons i l => exact absurd (beyond.lt List.mem_cons_self) not_top_lt

theorem Normal.le (normal : Normal l) (mem : i ∈ l) : i.1 ≤ i.2 := by
  induction l with
  | nil => cases mem
  | cons j l ih =>
    cases mem with
    | head => exact normal.1
    | tail _ mem => exact ih normal.2.2 mem

theorem Normal.beyond (normal : Normal ((a, b) :: r)) (above : succ c < a) :
    Beyond c ((a, b) :: r) :=
  (normal.2.1.mono ((le_succ c).trans (above.le.trans normal.1))).push above

end Normal

/-! # Additions and unions -/

def Clear (a b : Point) (l : List (Interval Point)) : Prop :=
  ∀ i ∈ l, i.2 ⋖ a → ∀ j ∈ l, a < j.1 → succ b < j.1

section Add

variable {a b c x y : Point} {l r : List (Interval Point)}

theorem clear_of_le (le : ∀ i ∈ l, a ≤ i.2) : Clear a b l :=
  fun i mem before => absurd before.lt (not_lt.mpr (le i mem))

theorem clear_cons_of_le (normal : Normal ((x, y) :: r)) (le : a ≤ y) :
    Clear a b ((x, y) :: r) := by
  apply clear_of_le
  intro i mem
  cases mem with
  | head => exact le
  | tail _ mem => exact le.trans ((normal.2.1.lt mem).le.trans (normal.2.2.le mem))

theorem not_covBy_of_le (le : a ≤ b) : ¬b ⋖ a := fun before => not_lt.mpr le before.lt

theorem behind {i : Interval Point} (normal : Normal ((x, y) :: r)) (mem : i ∈ r) : y < i.2 :=
  (normal.2.1.lt mem).trans_le (normal.2.2.le mem)

theorem clear_cons_touching (normal : Normal ((x, y) :: r)) (less : y < a) (succ_eq : succ y = a) :
    Clear a b ((x, y) :: r) ↔ Beyond b r := by
  have touches : y ⋖ a := by
    rw [← succ_eq]
    exact covBy_succ_of_not_isMax (not_isMax_of_lt less)
  constructor
  · intro clear j mem
    exact clear (x, y) List.mem_cons_self touches j (List.mem_cons_of_mem _ mem)
      (succ_eq ▸ normal.2.1 j mem)
  · intro beyond i _ _ j mem above
    cases mem with
    | head => exact absurd above (not_lt.mpr (normal.1.trans less.le))
    | tail _ mem => exact beyond j mem

theorem clear_cons_apart (normal : Normal ((x, y) :: r)) (less : y < a) (apart : succ y < a) :
    Clear a b ((x, y) :: r) ↔ Clear a b r := by
  constructor
  · intro clear i mem before j mem'
    exact clear i (List.mem_cons_of_mem _ mem) before j (List.mem_cons_of_mem _ mem')
  · intro clear i mem before j mem' above
    have later : j ∈ r := by
      cases mem' with
      | head => exact absurd above (not_lt.mpr (normal.1.trans less.le))
      | tail _ mem' => exact mem'
    cases mem with
    | head => exact absurd apart (before.2 (lt_succ_of_not_isMax (not_isMax_of_lt less)))
    | tail _ mem => exact clear i mem before j later above

theorem beyond_addIntIns (beyond : Beyond c l) (above : succ c < a) :
    Beyond c (addIntIns a b l) := by
  fun_induction addIntIns a b l with
  | case1 => exact beyond.push above
  | case2 => exact beyond.tail.push above
  | case3 => exact beyond.push above
  | case4 => exact beyond.tail.push above
  | case5 => exact beyond.tail.push beyond.head
  | case6 _ _ _ _ _ _ _ _ ih =>
    exact (ih beyond.tail above).push beyond.head
  | case7 _ _ _ _ _ _ _ ih => exact ih beyond.tail beyond.head
  | case8 _ _ _ _ _ _ _ _ ih =>
    rw [min'_eq] at ih ⊢
    exact ih beyond.tail (lt_min above beyond.head)
  | case9 _ _ _ _ _ _ _ _ ih =>
    rw [min'_eq] at ih ⊢
    exact ih beyond.tail (lt_min above beyond.head)

theorem normal_addIntIns_of_apart (normal : Normal l) (le : a ≤ b)
    (apart : ∀ i ∈ l, ¬i.2 ⋖ a) : Normal (addIntIns a b l) := by
  fun_induction addIntIns a b l with
  | case1 => exact ⟨le, beyond_nil, trivial⟩
  | case2 _ _ _ _ _ less =>
    exact ⟨le.trans ((compare_lt_iff_lt.mp less).le.trans normal.1), normal.2⟩
  | case3 _ _ _ _ _ less succ =>
    exact ⟨le, normal.beyond (succ_lt (compare_lt_iff_lt.mp less) succ), normal⟩
  | case4 _ _ _ _ _ equal =>
    exact ⟨le.trans ((compare_eq_iff_eq.mp equal).le.trans normal.1), normal.2⟩
  | case5 _ _ _ _ _ _ above succ =>
    have less := compare_gt_iff_gt.mp above
    refine absurd ?_ (apart _ List.mem_cons_self)
    rw [← (isSucc_iff less).mp succ]
    exact covBy_succ_of_not_isMax (not_isMax_of_lt less)
  | case6 _ _ _ _ _ _ above succ ih =>
    have less := compare_gt_iff_gt.mp above
    exact ⟨normal.1, beyond_addIntIns normal.2.1 (succ_lt less succ),
      ih normal.2.2 le fun i mem => apart i (List.mem_cons_of_mem _ mem)⟩
  | case7 _ _ _ _ _ above equal ih =>
    refine ih normal.2.2 (compare_gt_iff_gt.mp above).le fun i mem => ?_
    exact not_covBy_of_le (normal.1.trans (behind normal mem).le)
  | case8 _ _ _ _ _ above less _ ih =>
    rw [min'_eq] at ih ⊢
    refine ih normal.2.2 ((min_le_left _ _).trans le) fun i mem => ?_
    exact not_covBy_of_le ((min_le_right _ _).trans (normal.1.trans (behind normal mem).le))
  | case9 _ _ _ _ _ above less _ ih =>
    rw [min'_eq] at ih ⊢
    refine ih normal.2.2 ((min_le_right _ _).trans normal.1) fun i mem => ?_
    exact not_covBy_of_le ((min_le_right _ _).trans (normal.1.trans (behind normal mem).le))

theorem normal_addIntIns_iff (normal : Normal l) (le : a ≤ b) :
    Normal (addIntIns a b l) ↔ Clear a b l := by
  induction l with
  | nil =>
    constructor
    · intro _ i mem
      cases mem
    · intro _
      exact ⟨le, beyond_nil, trivial⟩
  | cons i r ih =>
    obtain ⟨x, y⟩ := i
    by_cases reaches : a ≤ y
    · refine iff_of_true ?_ (clear_cons_of_le normal reaches)
      apply normal_addIntIns_of_apart normal le
      intro i mem
      cases mem with
      | head => exact not_covBy_of_le reaches
      | tail _ mem => exact not_covBy_of_le (reaches.trans (behind normal mem).le)
    · have less : y < a := not_le.mp reaches
      have above : compare b x = .gt :=
        compare_gt_iff_gt.mpr ((normal.1.trans_lt less).trans_le le)
      rw [addIntIns]
      simp only [above, compare_gt_iff_gt.mpr less]
      split
      · rename_i succ
        rw [clear_cons_touching normal less ((isSucc_iff less).mp succ)]
        constructor
        · intro normal'
          exact normal'.2.1
        · intro beyond
          exact ⟨(normal.1.trans less.le).trans le, beyond, normal.2.2⟩
      · rename_i apart
        have far := succ_lt less apart
        rw [clear_cons_apart normal less far, ← ih normal.2.2]
        constructor
        · intro normal'
          exact normal'.2.2
        · intro normal'
          exact ⟨normal.1, beyond_addIntIns normal.2.1 far, normal'⟩

theorem beyond_add (beyond : Beyond c l) (above : succ c < a) : Beyond c (add a l) := by
  fun_induction add a l with
  | case1 => exact beyond.push above
  | case2 => exact beyond.tail.push above
  | case3 => exact beyond.push above
  | case4 => exact beyond.tail.push above
  | case5 => exact beyond.tail.push beyond.head
  | case6 _ _ _ _ _ _ ih =>
    exact (ih beyond.tail).push beyond.head
  | case7 => exact beyond

theorem normal_add_iff (normal : Normal l) : Normal (add a l) ↔ Clear a a l := by
  induction l with
  | nil =>
    constructor
    · intro _ i mem
      cases mem
    · intro _
      exact ⟨le_rfl, beyond_nil, trivial⟩
  | cons i r ih =>
    obtain ⟨x, y⟩ := i
    by_cases reaches : a ≤ y
    · refine iff_of_true ?_ (clear_cons_of_le normal reaches)
      rw [add]
      split
      · rename_i less
        split
        · exact ⟨reaches, normal.2⟩
        · rename_i apart
          exact ⟨le_rfl, normal.beyond (succ_lt (compare_lt_iff_lt.mp less) apart), normal⟩
      · exact ⟨reaches, normal.2⟩
      · split
        · rename_i above
          exact absurd (compare_gt_iff_gt.mp above) (not_lt.mpr reaches)
        · exact normal
    · have less : y < a := not_le.mp reaches
      rw [add]
      simp only [compare_gt_iff_gt.mpr (normal.1.trans_lt less), compare_gt_iff_gt.mpr less]
      split
      · rename_i succ
        rw [clear_cons_touching normal less ((isSucc_iff less).mp succ)]
        constructor
        · intro normal'
          exact normal'.2.1
        · intro beyond
          exact ⟨normal.1.trans less.le, beyond, normal.2.2⟩
      · rename_i apart
        have far := succ_lt less apart
        rw [clear_cons_apart normal less far, ← ih normal.2.2]
        constructor
        · intro normal'
          exact normal'.2.2
        · intro normal'
          exact ⟨normal.1, beyond_add normal.2.1 far, normal'⟩

end Add

def NoneCut (l1 l2 : List (Interval Point)) : Prop :=
  ∀ i ∈ l1, ∀ j ∈ l2, i.1 < j.1 → j.1 ≤ i.2 → j.2 ≤ i.2

section Union

variable {a a' b b' c : Point} {i j : Interval Point} {l1 l2 r1 r2 : List (Interval Point)}

theorem noneCut_cons_left : NoneCut (i :: r1) l2 ↔ NoneCut [i] l2 ∧ NoneCut r1 l2 := by
  simp [NoneCut]

theorem noneCut_cons_right : NoneCut l1 (j :: r2) ↔ NoneCut l1 [j] ∧ NoneCut l1 r2 := by
  simp only [NoneCut, List.forall_mem_cons, List.mem_singleton, forall_eq]
  constructor
  · intro none
    exact ⟨fun i mem => (none i mem).1, fun i mem => (none i mem).2⟩
  · intro none i mem
    exact ⟨none.1 i mem, none.2 i mem⟩

theorem noneCut_left : NoneCut [i] l2 ↔ ∀ j ∈ l2, i.1 < j.1 → j.1 ≤ i.2 → j.2 ≤ i.2 := by
  simp [NoneCut]

theorem noneCut_single : NoneCut [i] [j] ↔ (i.1 < j.1 → j.1 ≤ i.2 → j.2 ≤ i.2) := by
  simp [NoneCut]

theorem noneCut_beyond (beyond : Beyond b' r2) (le : b ≤ succ b') : NoneCut [(a, b)] r2 := by
  intro i mem j mem' _ reaches
  cases List.mem_singleton.mp mem
  exact absurd (reaches.trans le) (not_le.mpr (beyond j mem'))

theorem beyond_noneCut (beyond : Beyond b r1) (le : a' ≤ succ b) : NoneCut r1 [(a', b')] := by
  intro i mem j mem' below _
  cases List.mem_singleton.mp mem'
  exact absurd (below.trans_le le) (not_lt.mpr (beyond i mem).le)

theorem beyond_union : Beyond c (union l1 l2) ↔ Beyond c l1 ∧ Beyond c l2 := by
  fun_induction union l1 l2
  case case1 => simp [beyond_nil]
  case case2 => simp [beyond_nil]
  -- an interval that is dropped or lengthened begins behind one that is left
  all_goals
    simp only [compare_lt_iff_lt, compare_eq_iff_eq, compare_gt_iff_gt, beyond_cons] at *
    grind

section Steps

variable {a1 b1 a2 b2 : Point}

theorem noneCut_drop_left (normal2 : Normal ((a2, b2) :: r2))
    (pair : a1 < a2 → a2 ≤ b1 → b2 ≤ b1) (le : b1 ≤ succ b2) :
    NoneCut ((a1, b1) :: r1) ((a2, b2) :: r2) ↔ NoneCut r1 ((a2, b2) :: r2) := by
  rw [noneCut_cons_left]
  refine and_iff_right ?_
  rw [noneCut_cons_right, noneCut_single]
  exact ⟨pair, noneCut_beyond normal2.2.1 le⟩

theorem noneCut_drop_right (normal1 : Normal ((a1, b1) :: r1))
    (pair : a1 < a2 → a2 ≤ b1 → b2 ≤ b1) (le : a2 ≤ succ b1) :
    NoneCut ((a1, b1) :: r1) ((a2, b2) :: r2) ↔ NoneCut ((a1, b1) :: r1) r2 := by
  rw [noneCut_cons_right]
  refine and_iff_right ?_
  rw [noneCut_cons_left, noneCut_single]
  exact ⟨pair, beyond_noneCut normal1.2.1 le⟩

theorem noneCut_drop_both (normal1 : Normal ((a1, b1) :: r1)) (normal2 : Normal ((a2, b2) :: r2))
    (equal : b1 = b2) : NoneCut ((a1, b1) :: r1) ((a2, b2) :: r2) ↔ NoneCut r1 r2 := by
  subst equal
  rw [noneCut_drop_right normal1 (fun _ _ => le_rfl) (normal2.1.trans (le_succ b1)),
    noneCut_cons_left]
  exact and_iff_right (noneCut_beyond normal2.2.1 (le_succ b1))

theorem noneCut_begin (beyond : Beyond b2 r2) (touches : a1 ≤ succ b2) (touches' : a2 ≤ succ b2) :
    NoneCut [(a1, b1)] r2 ↔ NoneCut [(a2, b1)] r2 := by
  rw [noneCut_left, noneCut_left]
  refine forall₂_congr fun j mem => ?_
  have above := beyond j mem
  rw [imp_iff_right (touches.trans_lt above), imp_iff_right (touches'.trans_lt above)]

theorem noneCut_extend_left (normal1 : Normal ((a1, b1) :: r1))
    (normal2 : Normal ((a2, b2) :: r2)) (less : a2 < a1) (touches : a1 ≤ succ b2) :
    NoneCut ((a1, b1) :: r1) ((a2, b2) :: r2) ↔ NoneCut ((a2, b1) :: r1) r2 := by
  rw [noneCut_drop_right normal1 (fun below => absurd below less.asymm)
    (less.le.trans (normal1.1.trans (le_succ b1))), noneCut_cons_left,
    noneCut_begin normal2.2.1 touches (normal2.1.trans (le_succ b2)), ← noneCut_cons_left]

theorem noneCut_extend_right (normal1 : Normal ((a1, b1) :: r1))
    (normal2 : Normal ((a2, b2) :: r2)) (less : b1 < b2) (touches : succ b1 = a2) :
    NoneCut ((a1, b1) :: r1) ((a2, b2) :: r2) ↔ NoneCut r1 ((a1, b2) :: r2) := by
  have before : b1 < a2 := touches ▸ lt_succ_of_not_isMax (not_isMax_of_lt less)
  rw [noneCut_drop_left normal2 (fun _ reaches => absurd reaches (not_le.mpr before))
    (less.le.trans (le_succ b2)), noneCut_cons_right, noneCut_cons_right (j := (a1, b2))]
  refine and_congr_left fun _ => iff_of_true ?_ ?_
  · exact beyond_noneCut normal1.2.1 touches.ge
  · exact beyond_noneCut normal1.2.1 (normal1.1.trans (le_succ b1))

theorem normal_cons_union_iff (le : a1 ≤ b1) (beyond1 : Beyond b1 l1) (beyond2 : Beyond b1 l2) :
    Normal ((a1, b1) :: union l1 l2) ↔ Normal (union l1 l2) := by
  constructor
  · intro normal
    exact normal.2.2
  · intro normal
    refine ⟨le, ?_, normal⟩
    rw [beyond_union]
    exact ⟨beyond1, beyond2⟩

end Steps

theorem normal_union_iff (normal1 : Normal l1) (normal2 : Normal l2) :
    Normal (union l1 l2) ↔ NoneCut l1 l2 := by
  fun_induction union l1 l2 with
  | case1 l2 =>
    refine iff_of_true normal2 ?_
    intro i mem
    cases mem
  | case2 l1 =>
    refine iff_of_true normal1 ?_
    intro i _ j mem
    cases mem
  | case3 a1 b1 r1 a2 b2 r2 first second touches ih =>
    have less := compare_lt_iff_lt.mp second
    rw [noneCut_extend_right normal1 normal2 less (eq_of_isSucc touches)]
    exact ih normal1.2.2 ⟨normal1.1.trans less.le, normal2.2⟩
  | case4 a1 b1 r1 a2 b2 r2 first second apart ih =>
    have less := compare_lt_iff_lt.mp second
    by_cases before : b1 < a2
    · rw [normal_cons_union_iff normal1.1 normal1.2.1 (normal2.beyond (succ_lt before apart)),
        noneCut_drop_left normal2 (fun _ reaches => absurd reaches (not_le.mpr before))
          (less.le.trans (le_succ b2))]
      exact ih normal1.2.2 normal2
    · -- the first interval is put out although the second begins in it
      refine iff_of_false ?_ ?_
      · intro normal
        have past := normal.2.1
        rw [beyond_union] at past
        exact before (past.2.lt List.mem_cons_self)
      · intro none
        exact absurd (none (a1, b1) List.mem_cons_self (a2, b2) List.mem_cons_self
          (compare_lt_iff_lt.mp first) (not_lt.mp before)) (not_le.mpr less)
  | case5 a1 b1 r1 a2 b2 r2 first second ih =>
    have equal := compare_eq_iff_eq.mp second
    rw [normal_cons_union_iff normal1.1 normal1.2.1 (equal ▸ normal2.2.1),
      noneCut_drop_both normal1 normal2 equal]
    exact ih normal1.2.2 normal2.2.2
  | case6 a1 b1 r1 a2 b2 r2 first second ih =>
    have less := compare_gt_iff_gt.mp second
    rw [noneCut_drop_right normal1 (fun _ _ => less.le)
      (normal2.1.trans (less.le.trans (le_succ b1)))]
    exact ih normal1 normal2.2.2
  | case7 a1 b1 r1 a2 b2 r2 first second ih =>
    have less := compare_lt_iff_lt.mp second
    rw [noneCut_drop_left normal2 (fun below => absurd (compare_eq_iff_eq.mp first) below.ne)
      (less.le.trans (le_succ b2))]
    exact ih normal1.2.2 normal2
  | case8 a1 b1 r1 a2 b2 r2 first second ih =>
    have equal := compare_eq_iff_eq.mp second
    rw [normal_cons_union_iff normal1.1 normal1.2.1 (equal ▸ normal2.2.1),
      noneCut_drop_both normal1 normal2 equal]
    exact ih normal1.2.2 normal2.2.2
  | case9 a1 b1 r1 a2 b2 r2 first second ih =>
    have less := compare_gt_iff_gt.mp second
    rw [noneCut_drop_right normal1 (fun _ _ => less.le)
      (normal2.1.trans (less.le.trans (le_succ b1)))]
    exact ih normal1 normal2.2.2
  | case10 a1 b1 r1 a2 b2 r2 first second third ih =>
    have less := compare_lt_iff_lt.mp third
    rw [noneCut_drop_left normal2 (fun below => absurd (compare_gt_iff_gt.mp first) below.asymm)
      (less.le.trans (le_succ b2))]
    exact ih normal1.2.2 normal2
  | case11 a1 b1 r1 a2 b2 r2 first second third ih =>
    have equal := compare_eq_iff_eq.mp third
    rw [normal_cons_union_iff normal2.1 (equal ▸ normal1.2.1) normal2.2.1,
      noneCut_drop_both normal1 normal2 equal]
    exact ih normal1.2.2 normal2.2.2
  | case12 a1 b1 r1 a2 b2 r2 first second third ih =>
    have below := compare_gt_iff_gt.mp first
    rw [noneCut_extend_left normal1 normal2 below
      ((compare_lt_iff_lt.mp second).le.trans (le_succ b2))]
    exact ih ⟨below.le.trans normal1.1, normal1.2⟩ normal2.2.2
  | case13 a1 b1 r1 a2 b2 r2 first second ih =>
    have below := compare_gt_iff_gt.mp first
    rw [noneCut_extend_left normal1 normal2 below
      ((compare_eq_iff_eq.mp second).le.trans (le_succ b2))]
    exact ih ⟨below.le.trans normal1.1, normal1.2⟩ normal2.2.2
  | case14 a1 b1 r1 a2 b2 r2 first second touches ih =>
    have below := compare_gt_iff_gt.mp first
    rw [noneCut_extend_left normal1 normal2 below (eq_of_isSucc touches).ge]
    exact ih ⟨below.le.trans normal1.1, normal1.2⟩ normal2.2.2
  | case15 a1 b1 r1 a2 b2 r2 first second apart ih =>
    have below := compare_gt_iff_gt.mp first
    have far := succ_lt (compare_gt_iff_gt.mp second) apart
    rw [normal_cons_union_iff normal2.1 (normal1.beyond far) normal2.2.1,
      noneCut_drop_right normal1 (fun above => absurd below above.asymm)
        (below.le.trans (normal1.1.trans (le_succ b1)))]
    exact ih normal1 normal2.2.2

end Union

end Mythryl.IntervalSet
