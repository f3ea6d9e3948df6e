import Mythryl.SortedKeys

/-!
# The map of ordered keys as a sorted list

`list_map_g`: the bindings in ascending order, and two maps gone through in step with a reversed
list of what is kept.
-/

namespace Mythryl.ListMap
open SortedKeys

inductive Raised
  | notFound
  deriving DecidableEq, Repr

section Operations

variable {K X Y Z : Type}

def empty : List (K × X) := []

def isEmpty : List (K × X) → Bool
  | [] => true
  | _ => false

def firstValElseNull : List (K × X) → Option X
  | [] => none
  | (_, value) :: _ => some value

def firstKeyvalElseNull : List (K × X) → Option (K × X)
  | [] => none
  | (key, value) :: _ => some (key, value)

def singleton (key : K) (item : X) : List (K × X) := [(key, item)]

def valsCount (l : List (K × X)) : Nat := l.length

def valsList (l : List (K × X)) : List X := l.map Prod.snd

def keyvalsList (l : List (K × X)) : List (K × X) := l

def keysList (l : List (K × X)) : List K := l.map Prod.fst

def keyedMap (f : K → X → Y) (l : List (K × X)) : List (K × Y) :=
  l.map fun (key, item) => (key, f key item)

def map (f : X → Y) (l : List (K × X)) : List (K × Y) :=
  l.map fun (key, item) => (key, f item)

def keyedFoldForward (f : K → X → Y → Y) (init : Y) (l : List (K × X)) : Y :=
  l.foldl (fun accum (key, item) => f key item accum) init

def foldForward (f : X → Y → Y) (init : Y) (l : List (K × X)) : Y :=
  l.foldl (fun accum (_, item) => f item accum) init

def keyedFoldBackward (f : K → X → Y → Y) (init : Y) (l : List (K × X)) : Y :=
  l.foldr (fun (key, item) accum => f key item accum) init

def foldBackward (f : X → Y → Y) (init : Y) (l : List (K × X)) : Y :=
  l.foldr (fun (_, item) accum => f item accum) init

def filter (predicate : X → Bool) (l : List (K × X)) : List (K × X) :=
  l.filter fun (_, item) => predicate item

def keyedFilter (predicate : K → X → Bool) (l : List (K × X)) : List (K × X) :=
  l.filter fun (key, item) => predicate key item

def keyedMap' (f : K → X → Option Y) (l : List (K × X)) : List (K × Y) :=
  l.filterMap fun (key, item) =>
    match f key item with
    | some y => some (key, y)
    | none => none

def map' (f : X → Option Y) (l : List (K × X)) : List (K × Y) :=
  keyedMap' (fun _ item => f item) l

variable [Ord K]

def set : List (K × X) → K → X → List (K × X)
  | [], key, item => [(key, item)]
  | (key', x) :: r, key, item =>
      match compare key key' with
      | .lt => (key, item) :: (key', x) :: r
      | .eq => (key, item) :: r
      | .gt => (key', x) :: set r key item

def containsKey : List (K × X) → K → Bool
  | (key', _) :: r, key =>
      match compare key key' with
      | .lt => false
      | .eq => true
      | .gt => containsKey r key
  | [], _ => false

def get : List (K × X) → K → Option X
  | (key', x) :: r, key =>
      match compare key key' with
      | .lt => none
      | .eq => some x
      | .gt => get r key
  | [], _ => none

/-- The loop `f` of `drop`, with the bindings passed over in reverse. -/
def dropLoop (key : K) : List (K × X) → List (K × X) → Except Raised (List (K × X) × X)
  | _, [] => .error .notFound
  | front, (key', x) :: r =>
      match compare key key' with
      | .lt => .error .notFound
      | .eq => .ok (front.reverseAux r, x)
      | .gt => dropLoop key ((key', x) :: front) r

def drop (l : List (K × X)) (key : K) : Except Raised (List (K × X) × X) := dropLoop key [] l

def unionLoop (f : K → X → X → X) :
    List (K × X) → List (K × X) → List (K × X) → List (K × X)
  | [], [], l => l.reverse
  | [], m2, l => l.reverseAux m2
  | m1, [], l => l.reverseAux m1
  | (k1, x1) :: r1, (k2, x2) :: r2, l =>
      match compare k1 k2 with
      | .lt => unionLoop f r1 ((k2, x2) :: r2) ((k1, x1) :: l)
      | .eq => unionLoop f r1 r2 ((k1, f k1 x1 x2) :: l)
      | .gt => unionLoop f ((k1, x1) :: r1) r2 ((k2, x2) :: l)
  termination_by m1 m2 => m1.length + m2.length

def unionWith (f : X → X → X) (m1 m2 : List (K × X)) : List (K × X) :=
  unionLoop (fun _ => f) m1 m2 []

def keyedUnionWith (f : K → X → X → X) (m1 m2 : List (K × X)) : List (K × X) :=
  unionLoop f m1 m2 []

def intersectLoop (f : K → X → Y → Z) :
    List (K × X) → List (K × Y) → List (K × Z) → List (K × Z)
  | (k1, x1) :: r1, (k2, x2) :: r2, l =>
      match compare k1 k2 with
      | .lt => intersectLoop f r1 ((k2, x2) :: r2) l
      | .eq => intersectLoop f r1 r2 ((k1, f k1 x1 x2) :: l)
      | .gt => intersectLoop f ((k1, x1) :: r1) r2 l
  | _, _, l => l.reverse
  termination_by m1 m2 => m1.length + m2.length

def intersectWith (f : X → Y → Z) (m1 : List (K × X)) (m2 : List (K × Y)) : List (K × Z) :=
  intersectLoop (fun _ => f) m1 m2 []

def keyedIntersectWith (f : K → X → Y → Z) (m1 : List (K × X)) (m2 : List (K × Y)) :
    List (K × Z) :=
  intersectLoop f m1 m2 []

def mergeLoop (f : K → Option X → Option Y → Option Z) :
    List (K × X) → List (K × Y) → List (K × Z) → List (K × Z)
  | (k1, x1) :: r1, (k2, x2) :: r2, l =>
      match compare k1 k2 with
      | .lt =>
          match f k1 (some x1) none with
          | none => mergeLoop f r1 ((k2, x2) :: r2) l
          | some y => mergeLoop f r1 ((k2, x2) :: r2) ((k1, y) :: l)
      | .eq =>
          match f k1 (some x1) (some x2) with
          | none => mergeLoop f r1 r2 l
          | some y => mergeLoop f r1 r2 ((k1, y) :: l)
      | .gt =>
          match f k2 none (some x2) with
          | none => mergeLoop f ((k1, x1) :: r1) r2 l
          | some y => mergeLoop f ((k1, x1) :: r1) r2 ((k2, y) :: l)
  | [], [], l => l.reverse
  | (k1, x1) :: r1, [], l =>
      match f k1 (some x1) none with
      | none => mergeLoop f r1 [] l
      | some y => mergeLoop f r1 [] ((k1, y) :: l)
  | [], (k2, x2) :: r2, l =>
      match f k2 none (some x2) with
      | none => mergeLoop f [] r2 l
      | some y => mergeLoop f [] r2 ((k2, y) :: l)
  termination_by m1 m2 => m1.length + m2.length

def mergeWith (f : Option X → Option Y → Option Z) (m1 : List (K × X)) (m2 : List (K × Y)) :
    List (K × Z) :=
  mergeLoop (fun _ => f) m1 m2 []

def keyedMergeWith (f : K → Option X → Option Y → Option Z) (m1 : List (K × X))
    (m2 : List (K × Y)) : List (K × Z) :=
  mergeLoop f m1 m2 []

end Operations

section InStep

variable {K X Y Z : Type} [Ord K]

theorem unionLoop_eq (f : K → X → X → X) (m1 m2 l : List (K × X)) :
    unionLoop f m1 m2 l = l.reverse ++ mergeItems Prod.fst Prod.fst
      (Option.merge fun x y => (x.1, f x.1 x.2 y.2)) m1 m2 := by
  fun_induction unionLoop f m1 m2 l with
  | case1 l => simp [mergeItems]
  | case2 m2 l => rw [List.reverseAux_eq, mergeItems_left_rest fun _ => rfl]
  | case3 m1 l => rw [List.reverseAux_eq, mergeItems_right_rest fun _ => rfl]
  | case4 k1 x1 r1 k2 x2 r2 l less ih => simp [ih, mergeItems_lt, less]
  | case5 k1 x1 r1 k2 x2 r2 l same ih => simp [ih, mergeItems_eq, same]
  | case6 k1 x1 r1 k2 x2 r2 l more ih => simp [ih, mergeItems_gt, more]

theorem intersectLoop_eq (f : K → X → Y → Z) (m1 : List (K × X)) (m2 : List (K × Y))
    (l : List (K × Z)) :
    intersectLoop f m1 m2 l = l.reverse ++ mergeItems Prod.fst Prod.fst
      (Option.map₂ fun x y => (x.1, f x.1 x.2 y.2)) m1 m2 := by
  fun_induction intersectLoop f m1 m2 l with
  | case1 k1 x1 r1 k2 x2 r2 l less ih => simp [ih, mergeItems_lt, less]
  | case2 k1 x1 r1 k2 x2 r2 l same ih => simp [ih, mergeItems_eq, same]
  | case3 k1 x1 r1 k2 x2 r2 l more ih => simp [ih, mergeItems_gt, more]
  | case4 m1 m2 l done =>
    cases m1 with
    | nil => simp [mergeItems_left_done]
    | cons kv1 r1 =>
      cases m2 with
      | nil => simp [mergeItems_right_done]
      | cons kv2 r2 => exact (done _ _ _ _ _ _ rfl rfl).elim

theorem mergeLoop_eq (f : K → Option X → Option Y → Option Z) (m1 : List (K × X))
    (m2 : List (K × Y)) (l : List (K × Z)) :
    mergeLoop f m1 m2 l = l.reverse ++ mergeItems Prod.fst Prod.fst (kept f) m1 m2 := by
  fun_induction mergeLoop f m1 m2 l with
  | case1 k1 x1 r1 k2 x2 r2 l less gone ih => simp [ih, mergeItems_lt, less, kept, gone]
  | case2 k1 x1 r1 k2 x2 r2 l less y stays ih => simp [ih, mergeItems_lt, less, kept, stays]
  | case3 k1 x1 r1 k2 x2 r2 l same gone ih => simp [ih, mergeItems_eq, same, kept, gone]
  | case4 k1 x1 r1 k2 x2 r2 l same y stays ih => simp [ih, mergeItems_eq, same, kept, stays]
  | case5 k1 x1 r1 k2 x2 r2 l more gone ih => simp [ih, mergeItems_gt, more, kept, gone]
  | case6 k1 x1 r1 k2 x2 r2 l more y stays ih => simp [ih, mergeItems_gt, more, kept, stays]
  | case7 l => simp [mergeItems]
  | case8 k1 x1 r1 l gone ih => simp [ih, mergeItems, kept, gone]
  | case9 k1 x1 r1 l y stays ih => simp [ih, mergeItems, kept, stays]
  | case10 k2 x2 r2 l gone ih => simp [ih, mergeItems, kept, gone]
  | case11 k2 x2 r2 l y stays ih => simp [ih, mergeItems, kept, stays]

end InStep

section OneKey

variable {K X : Type} [LinearOrder K] {l : List (K × X)}

theorem set_eq (sorted : Sorted Prod.fst l) (k : K) (x : X) :
    set l k x = below Prod.fst k l ++ (k, x) :: above Prod.fst k l := by
  induction l with
  | nil => rfl
  | cons kv r ih =>
    rw [← List.nil_append (kv :: r)] at sorted ⊢
    obtain ⟨-, sortedR, -, -⟩ := sorted.node
    rw [List.nil_append, set]
    split
    · rename_i less
      have less := compare_lt_iff_lt.mp less
      rw [← List.nil_append (kv :: r), below_left sorted less, above_left sorted less]
      rfl
    · rename_i same
      have same := compare_eq_iff_eq.mp same
      rw [← List.nil_append (kv :: r), below_middle sorted same, above_middle sorted same]
      rfl
    · rename_i more
      have more := compare_gt_iff_gt.mp more
      rw [← List.nil_append (kv :: r), below_right sorted more, above_right sorted more,
        ih sortedR]
      rfl

theorem get_eq (sorted : Sorted Prod.fst l) (k : K) :
    get l k = (find Prod.fst k l).map Prod.snd := by
  induction l with
  | nil => rfl
  | cons kv r ih =>
    rw [← List.nil_append (kv :: r)] at sorted
    obtain ⟨-, sortedR, -, -⟩ := sorted.node
    rw [get]
    split
    · rename_i less
      rw [← List.nil_append (kv :: r), find_left sorted (compare_lt_iff_lt.mp less)]
      rfl
    · rename_i same
      rw [← List.nil_append (kv :: r), find_middle sorted (compare_eq_iff_eq.mp same)]
      rfl
    · rename_i more
      rw [← List.nil_append (kv :: r), find_right sorted (compare_gt_iff_gt.mp more), ih sortedR]

theorem containsKey_eq (l : List (K × X)) (k : K) : containsKey l k = (get l k).isSome := by
  induction l with
  | nil => rfl
  | cons kv r ih =>
    rw [containsKey, get]
    split <;> simp [ih]

theorem dropLoop_absent {k : K} (sorted : Sorted Prod.fst l) (absent : find Prod.fst k l = none)
    (front : List (K × X)) : dropLoop k front l = .error .notFound := by
  induction l generalizing front with
  | nil => rfl
  | cons kv r ih =>
    rw [← List.nil_append (kv :: r)] at sorted absent
    obtain ⟨-, sortedR, -, -⟩ := sorted.node
    rw [dropLoop]
    split
    · rfl
    · rename_i same
      rw [find_middle sorted (compare_eq_iff_eq.mp same)] at absent
      cases absent
    · rename_i more
      rw [find_right sorted (compare_gt_iff_gt.mp more)] at absent
      exact ih sortedR absent _

theorem dropLoop_present {k : K} {kv : K × X} (sorted : Sorted Prod.fst l)
    (present : find Prod.fst k l = some kv) (front : List (K × X)) : dropLoop k front l =
      .ok (front.reverse ++ (below Prod.fst k l ++ above Prod.fst k l), kv.2) := by
  induction l generalizing front with
  | nil => cases present
  | cons kv' r ih =>
    rw [← List.nil_append (kv' :: r)] at sorted present
    obtain ⟨-, sortedR, -, -⟩ := sorted.node
    rw [dropLoop]
    split
    · rename_i less
      rw [find_left sorted (compare_lt_iff_lt.mp less)] at present
      cases present
    · rename_i same
      have same := compare_eq_iff_eq.mp same
      rw [find_middle sorted same] at present
      cases present
      rw [← List.nil_append (kv :: r), below_middle sorted same, above_middle sorted same,
        List.reverseAux_eq]
      rfl
    · rename_i more
      have more := compare_gt_iff_gt.mp more
      rw [find_right sorted more] at present
      rw [ih sortedR present, ← List.nil_append (kv' :: r), below_right sorted more,
        above_right sorted more]
      simp

end OneKey

end Mythryl.ListMap
