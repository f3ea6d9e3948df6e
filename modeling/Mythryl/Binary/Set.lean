import Mythryl.Binary.Tree
import Mythryl.SortedKeys
import Mathlib.Data.List.Perm.Subperm
import Mathlib.Order.Compare
import Mathlib.Order.Nat

/-!
# The set of ordered keys as a binary tree

`binary_set_g`, and what its operations make of the ascending items of its trees.
-/

namespace Mythryl.Binary.Set
open SortedKeys

section Operations

variable {K : Type} [Ord K]

def add : Tree K → K → Except Raised (Tree K)
  | .empty, x => .ok (.node x 1 .empty .empty)
  | .node v count l r, x =>
      match compare x v with
      | .lt => do rebalance v (← add l x) r
      | .gt => do rebalance v l (← add r x)
      | .eq => .ok (.node x count l r)

def meld3 : Tree K → K → Tree K → Except Raised (Tree K)
  | .empty, v, r => add r v
  | l, v, .empty => add l v
  | .node v1 n1 l1 r1, v, .node v2 n2 l2 r2 =>
      if wt n1 < n2 then do rebalance v2 (← meld3 (.node v1 n1 l1 r1) v l2) r2
      else if wt n2 < n1 then do rebalance v1 l1 (← meld3 r1 v (.node v2 n2 l2 r2))
      else .ok (nodes v (.node v1 n1 l1 r1) (.node v2 n2 l2 r2))
  termination_by l _ r => sizeOf l + sizeOf r
  decreasing_by
    · exact Nat.add_lt_add_left (Tree.sizeOf_left ..) _
    · exact Nat.add_lt_add_right (Tree.sizeOf_right ..) _

def splitLt : Tree K → K → Except Raised (Tree K)
  | .empty, _ => .ok .empty
  | .node v _ l r, x =>
      match compare v x with
      | .gt => splitLt l x
      | .lt => do meld3 l v (← splitLt r x)
      | _ => .ok l

def splitGt : Tree K → K → Except Raised (Tree K)
  | .empty, _ => .ok .empty
  | .node v _ l r, x =>
      match compare v x with
      | .lt => splitGt r x
      | .gt => do meld3 (← splitGt l x) v r
      | _ => .ok r

def cat : Tree K → Tree K → Except Raised (Tree K)
  | .empty, s => .ok s
  | s, .empty => .ok s
  | .node v1 n1 l1 r1, .node v2 n2 l2 r2 =>
      if wt n1 < n2 then do rebalance v2 (← cat (.node v1 n1 l1 r1) l2) r2
      else if wt n2 < n1 then do rebalance v1 l1 (← cat r1 (.node v2 n2 l2 r2))
      else do
        rebalance (← min (.node v2 n2 l2 r2)) (.node v1 n1 l1 r1) (← delmin (.node v2 n2 l2 r2))
  termination_by t1 t2 => sizeOf t1 + sizeOf t2
  decreasing_by
    · exact Nat.add_lt_add_left (Tree.sizeOf_left ..) _
    · exact Nat.add_lt_add_right (Tree.sizeOf_right ..) _

def trim (lo hi : K) : Tree K → Tree K
  | .empty => .empty
  | .node v n l r =>
      if compare v lo = .gt then
        if compare v hi = .lt then .node v n l r else trim lo hi l
      else trim lo hi r

def uniBd : Tree K → Tree K → K → K → Except Raised (Tree K)
  | s, .empty, _, _ => .ok s
  | .empty, .node v _ l r, lo, hi => do meld3 (← splitGt l lo) v (← splitLt r hi)
  | .node v _ l1 r1, .node v2 n2 l2 r2, lo, hi => do
      let s2 := .node v2 n2 l2 r2
      meld3 (← uniBd l1 (trim lo v s2) lo v) v (← uniBd r1 (trim v hi s2) v hi)

def trimLo (lo : K) : Tree K → Tree K
  | .empty => .empty
  | .node v n l r =>
      match compare v lo with
      | .gt => .node v n l r
      | _ => trimLo lo r

def trimHi (hi : K) : Tree K → Tree K
  | .empty => .empty
  | .node v n l r =>
      match compare v hi with
      | .lt => .node v n l r
      | _ => trimHi hi l

def uniHi : Tree K → Tree K → K → Except Raised (Tree K)
  | s, .empty, _ => .ok s
  | .empty, .node v _ l r, hi => do meld3 l v (← splitLt r hi)
  | .node v _ l1 r1, .node v2 n2 l2 r2, hi => do
      let s2 := .node v2 n2 l2 r2
      meld3 (← uniHi l1 (trimHi v s2) v) v (← uniBd r1 (trim v hi s2) v hi)

def uniLo : Tree K → Tree K → K → Except Raised (Tree K)
  | s, .empty, _ => .ok s
  | .empty, .node v _ l r, lo => do meld3 (← splitGt l lo) v r
  | .node v _ l1 r1, .node v2 n2 l2 r2, lo => do
      let s2 := .node v2 n2 l2 r2
      meld3 (← uniBd l1 (trim lo v s2) lo v) v (← uniLo r1 (trimLo v s2) v)

def uni : Tree K → Tree K → Except Raised (Tree K)
  | s, .empty => .ok s
  | .empty, s => .ok s
  | .node v _ l1 r1, .node v2 n2 l2 r2 => do
      let s2 := .node v2 n2 l2 r2
      meld3 (← uniHi l1 (trimHi v s2) v) v (← uniLo r1 (trimLo v s2) v)

def hedgeUnion : Tree K → Tree K → Except Raised (Tree K) := uni

def oldUnion : Tree K → Tree K → Except Raised (Tree K)
  | .empty, s2 => .ok s2
  | s1, .empty => .ok s1
  | .node v _ l r, s2 => do
      let l2 ← splitLt s2 v
      let r2 ← splitGt s2 v
      meld3 (← oldUnion l l2) v (← oldUnion r r2)

def member : Tree K → K → Bool
  | .empty, _ => false
  | .node v _ l r, x =>
      match compare x v with
      | .lt => member l x
      | .eq => true
      | .gt => member r x

def treeIn (t' : Tree K) : Tree K → Bool
  | .empty => true
  | .node elt _ .empty .empty => member t' elt
  | .node elt _ left .empty => member t' elt && treeIn t' left
  | .node elt _ .empty right => member t' elt && treeIn t' right
  | .node elt _ left right => member t' elt && treeIn t' left && treeIn t' right

def isSubset : Tree K → Tree K → Bool
  | .empty, _ => true
  | _, .empty => false
  | .node e n l r, .node e' n' l' r' =>
      n ≤ n' && treeIn (.node e' n' l' r') (.node e n l r)

def equal : Tree K → Tree K → Bool
  | .empty, .empty => true
  | .node e n l r, .node e' n' l' r' =>
      n == n' && treeIn (.node e' n' l' r') (.node e n l r)
  | _, _ => false

def delete : Tree K → K → Except Raised (Tree K)
  | .empty, _ => .error .notFound
  | .node v _ l r, x =>
      match compare x v with
      | .lt => do rebalance v (← delete l x) r
      | .gt => do rebalance v l (← delete r x)
      | _ => delete' l r

def intersection : Tree K → Tree K → Except Raised (Tree K)
  | .empty, _ => .ok .empty
  | _, .empty => .ok .empty
  | s, .node v _ l r => do
      let l2 ← splitLt s v
      let r2 ← splitGt s v
      if member s v then meld3 (← intersection l2 l) v (← intersection r2 r)
      else cat (← intersection l2 l) (← intersection r2 r)

def difference : Tree K → Tree K → Except Raised (Tree K)
  | .empty, _ => .ok .empty
  | s, .empty => .ok s
  | s, .node v _ l r => do
      let l2 ← splitLt s v
      let r2 ← splitGt s v
      cat (← difference l2 l) (← difference r2 r)

def filter (predicate : K → Bool) (set : Tree K) : Except Raised (Tree K) :=
  foldForward (fun item s => do
    let s ← s
    if predicate item then add s item else return s) set (.ok .empty)

def partition (predicate : K → Bool) (set : Tree K) : Except Raised (Tree K × Tree K) :=
  foldForward (fun item s => do
    let (s1, s2) ← s
    if predicate item then return (← add s1 item, s2)
    else return (s1, ← add s2 item)) set (.ok (.empty, .empty))

end Operations

section Join

variable {K : Type} [LinearOrder K] {t l r s : Tree K} {v x : K}

theorem makes_add (exact : t.Exact) (sorted : Sorted id t.items) (x : K) :
    Makes (add t x) (below id x t.items ++ x :: above id x t.items) := by
  induction t with
  | empty => exact ⟨_, rfl, ⟨rfl, trivial, trivial⟩, rfl⟩
  | node v n l r ihl ihr =>
    obtain ⟨sortedL, sortedR, -, -⟩ := sorted.node
    rw [add]
    split
    · rename_i less
      have less := compare_lt_iff_lt.mp less
      rw [items_node, below_left sorted less, above_left sorted less]
      apply (ihl exact.2.1 sortedL).bind
      intro l' exact' equal
      rw [← List.cons_append, ← List.append_assoc, ← equal]
      exact makes_rebalance v exact' exact.2.2
    · rename_i more
      have more := compare_gt_iff_gt.mp more
      rw [items_node, below_right sorted more, above_right sorted more, List.append_assoc,
        List.cons_append]
      apply (ihr exact.2.2 sortedR).bind
      intro r' exact' equal
      rw [← equal]
      exact makes_rebalance v exact.2.1 exact'
    · rename_i same
      have same := compare_eq_iff_eq.mp same
      rw [items_node, below_middle sorted same, above_middle sorted same]
      exact ⟨_, rfl, exact, rfl⟩

theorem makes_meld3 (exact1 : l.Exact) (exact2 : r.Exact)
    (sorted : Sorted id (l.items ++ v :: r.items)) :
    Makes (meld3 l v r) (l.items ++ v :: r.items) := by
  fun_induction meld3 l v r with
  | case1 v r =>
    obtain ⟨-, sortedR, -, aboveV⟩ := sorted.node
    have none : below id v r.items = [] := below_none fun a mem => (aboveV a mem).le
    have all : above id v r.items = r.items := above_all aboveV
    have makes := makes_add exact2 sortedR v
    rwa [none, all] at makes
  | case2 l v _ =>
    obtain ⟨sortedL, -, belowV, -⟩ := sorted.node
    have all : below id v l.items = l.items := below_all belowV
    have none : above id v l.items = [] := above_none fun a mem => (belowV a mem).le
    have makes := makes_add exact1 sortedL v
    rwa [all, none] at makes
  | case3 v1 n1 l1 r1 v v2 n2 l2 r2 light ih =>
    have shape : (Tree.node v1 n1 l1 r1).items ++ v :: (Tree.node v2 n2 l2 r2).items =
        ((Tree.node v1 n1 l1 r1).items ++ v :: l2.items) ++ v2 :: r2.items := by simp
    rw [shape] at sorted ⊢
    apply (ih exact1 exact2.2.1 sorted.node.1).bind
    intro t exact equal
    rw [← equal]
    exact makes_rebalance v2 exact exact2.2.2
  | case4 v1 n1 l1 r1 v v2 n2 l2 r2 _ light ih =>
    have shape : (Tree.node v1 n1 l1 r1).items ++ v :: (Tree.node v2 n2 l2 r2).items =
        l1.items ++ v1 :: (r1.items ++ v :: (Tree.node v2 n2 l2 r2).items) := by simp
    rw [shape] at sorted ⊢
    apply (ih exact1.2.2 exact2 sorted.node.2.1).bind
    intro t exact equal
    rw [← equal]
    exact makes_rebalance v1 exact1.2.1 exact
  | case5 => exact makes_nodes exact1 exact2

omit [LinearOrder K] in
theorem makes_cat (exact1 : l.Exact) (exact2 : r.Exact) : Makes (cat l r) (l.items ++ r.items) := by
  fun_induction cat l r with
  | case1 => exact makes_ok exact2
  | case2 =>
    rw [items_empty, List.append_nil]
    exact makes_ok exact1
  | case3 v1 n1 l1 r1 v2 n2 l2 r2 light ih =>
    apply (ih exact1 exact2.2.1).bind
    intro t exact equal
    rw [items_node (v := v2), ← List.append_assoc, ← equal]
    exact makes_rebalance v2 exact exact2.2.2
  | case4 v1 n1 l1 r1 v2 n2 l2 r2 _ light ih =>
    apply (ih exact1.2.2 exact2).bind
    intro t exact equal
    rw [items_node (v := v1), List.append_assoc, List.cons_append, ← equal]
    exact makes_rebalance v1 exact1.2.1 exact
  | case5 => exact makes_delete' exact1 exact2

theorem makes_splitLt (exact : t.Exact) (sorted : Sorted id t.items) (x : K) :
    Makes (splitLt t x) (below id x t.items) := by
  induction t with
  | empty => exact makes_ok trivial
  | node v n l r ihl ihr =>
    obtain ⟨sortedL, sortedR, belowV, aboveV⟩ := sorted.node
    rw [splitLt]
    split
    · rename_i more
      rw [items_node, below_left sorted (compare_gt_iff_gt.mp more)]
      exact ihl exact.2.1 sortedL
    · rename_i less
      rw [items_node, below_right sorted (compare_lt_iff_lt.mp less)]
      apply (ihr exact.2.2 sortedR).bind
      intro r' exact' equal
      rw [← equal]
      apply makes_meld3 exact.2.1 exact'
      rw [equal]
      exact sorted_node.mpr ⟨sortedL, sortedR.filter _, belowV,
        fun b mem => aboveV b (mem_below.mp mem).1⟩
    · rename_i less more
      rw [items_node, below_middle sorted (eq_of_compare more less).symm]
      exact makes_ok exact.2.1

theorem makes_splitGt (exact : t.Exact) (sorted : Sorted id t.items) (x : K) :
    Makes (splitGt t x) (above id x t.items) := by
  induction t with
  | empty => exact makes_ok trivial
  | node v n l r ihl ihr =>
    obtain ⟨sortedL, sortedR, belowV, aboveV⟩ := sorted.node
    rw [splitGt]
    split
    · rename_i less
      rw [items_node, above_right sorted (compare_lt_iff_lt.mp less)]
      exact ihr exact.2.2 sortedR
    · rename_i more
      rw [items_node, above_left sorted (compare_gt_iff_gt.mp more)]
      apply (ihl exact.2.1 sortedL).bind
      intro l' exact' equal
      rw [← equal]
      apply makes_meld3 exact' exact.2.2
      rw [equal]
      exact sorted_node.mpr ⟨sortedL.filter _, sortedR,
        fun a mem => belowV a (mem_above.mp mem).1, aboveV⟩
    · rename_i less more
      rw [items_node, above_middle sorted (eq_of_compare less more).symm]
      exact makes_ok exact.2.2

theorem member_iff (sorted : Sorted id t.items) : member t x = true ↔ x ∈ t.items := by
  induction t with
  | empty => simp [member]
  | node v n l r ihl ihr =>
    obtain ⟨sortedL, sortedR, belowV, aboveV⟩ := sorted.node
    rw [member]
    split
    · rename_i less
      have less := compare_lt_iff_lt.mp less
      rw [ihl sortedL]
      exact ⟨List.mem_append_left _, fun mem => mem_left sorted mem less⟩
    · rename_i same
      simp [compare_eq_iff_eq.mp same]
    · rename_i more
      have more := compare_gt_iff_gt.mp more
      rw [ihr sortedR]
      exact ⟨fun mem => List.mem_append_right _ (List.mem_cons_of_mem _ mem),
        fun mem => mem_right sorted mem more⟩

theorem makes_delete (exact : t.Exact) (sorted : Sorted id t.items) (mem : x ∈ t.items) :
    Makes (delete t x) (below id x t.items ++ above id x t.items) := by
  induction t with
  | empty => cases mem
  | node v n l r ihl ihr =>
    obtain ⟨sortedL, sortedR, -, -⟩ := sorted.node
    rw [delete]
    split
    · rename_i less
      have less := compare_lt_iff_lt.mp less
      rw [items_node, below_left sorted less, above_left sorted less]
      apply (ihl exact.2.1 sortedL (mem_left sorted mem less)).bind
      intro l' exact' equal
      rw [← List.append_assoc, ← equal]
      exact makes_rebalance v exact' exact.2.2
    · rename_i more
      have more := compare_gt_iff_gt.mp more
      rw [items_node, below_right sorted more, above_right sorted more, List.append_assoc,
        List.cons_append]
      apply (ihr exact.2.2 sortedR (mem_right sorted mem more)).bind
      intro r' exact' equal
      rw [← equal]
      exact makes_rebalance v exact.2.1 exact'
    · rename_i less more
      have same := eq_of_compare less more
      rw [items_node, below_middle sorted same, above_middle sorted same]
      exact makes_delete' exact.2.1 exact.2.2

theorem delete_absent (sorted : Sorted id t.items) (absent : x ∉ t.items) :
    delete t x = .error .notFound := by
  induction t with
  | empty => rfl
  | node v n l r ihl ihr =>
    obtain ⟨sortedL, sortedR, -, -⟩ := sorted.node
    rw [items_node, List.mem_append, List.mem_cons, not_or, not_or] at absent
    rw [delete]
    split
    · rw [ihl sortedL absent.1]
      rfl
    · rw [ihr sortedR absent.2.2]
      rfl
    · rename_i less more
      exact absurd (eq_of_compare less more) absent.2.1

end Join

/-! # Unions, intersections and comparisons -/

variable {K : Type} [LinearOrder K]

structure Valid (t : Tree K) : Prop where
  exact : t.Exact
  sorted : Sorted id t.items

def Gives (m : Except Raised (Tree K)) (members : K → Prop) : Prop :=
  ∃ t, m = .ok t ∧ Valid t ∧ ∀ x, x ∈ t.items ↔ members x

section Gives

variable {t l r s s1 s2 : Tree K} {v lo hi x : K} {m : Except Raised (Tree K)}
  {p q inside : K → Prop} {n : Nat}

theorem valid_empty : Valid (.empty : Tree K) := ⟨trivial, .nil⟩

theorem Valid.left (valid : Valid (.node v n l r)) : Valid l :=
  ⟨valid.exact.2.1, valid.sorted.node.1⟩

theorem Valid.right (valid : Valid (.node v n l r)) : Valid r :=
  ⟨valid.exact.2.2, valid.sorted.node.2.1⟩

theorem Valid.below (valid : Valid (.node v n l r)) (mem : x ∈ l.items) : x < v :=
  valid.sorted.node.2.2.1 x mem

theorem Valid.above (valid : Valid (.node v n l r)) (mem : x ∈ r.items) : v < x :=
  valid.sorted.node.2.2.2 x mem

theorem Valid.mem_node (valid : Valid (.node v n l r)) :
    x ∈ (Tree.node v n l r).items ↔ x ∈ l.items ∧ x < v ∨ x = v ∨ x ∈ r.items ∧ v < x := by
  rw [items_node, List.mem_append, List.mem_cons, and_iff_left_of_imp valid.below,
    and_iff_left_of_imp valid.above]

theorem gives_ok (valid : Valid t) : Gives (.ok t) (· ∈ t.items) := ⟨t, rfl, valid, fun _ => .rfl⟩

theorem Gives.congr (gives : Gives m p) (same : ∀ x, p x ↔ q x) : Gives m q := by
  obtain ⟨t, made, valid, members⟩ := gives
  exact ⟨t, made, valid, fun x => (members x).trans (same x)⟩

theorem Gives.bind {f : Tree K → Except Raised (Tree K)} (gives : Gives m p)
    (rest : ∀ t, Valid t → (∀ x, x ∈ t.items ↔ p x) → Gives (f t) q) : Gives (m >>= f) q := by
  obtain ⟨t, rfl, valid, members⟩ := gives
  exact rest t valid members

theorem gives_of_makes {items : List K} (makes : Makes m items) (sorted : Sorted id items) :
    Gives m (· ∈ items) := by
  obtain ⟨t, rfl, exact, rfl⟩ := makes
  exact ⟨t, rfl, ⟨exact, sorted⟩, fun _ => .rfl⟩

theorem gives_add (valid : Valid t) (x : K) : Gives (add t x) (fun y => y = x ∨ y ∈ t.items) := by
  apply (gives_of_makes (makes_add valid.exact valid.sorted x)
    (sorted_around valid.sorted x)).congr
  intro y
  have around : y ∈ below id x t.items ++ x :: above id x t.items ↔
      y = x ∨ y ∈ t.items ∧ y ≠ x := mem_around
  rw [around]
  by_cases same : y = x <;> simp [same]

theorem gives_splitLt (valid : Valid t) (x : K) :
    Gives (splitLt t x) (fun y => y ∈ t.items ∧ y < x) :=
  (gives_of_makes (makes_splitLt valid.exact valid.sorted x) (valid.sorted.filter _)).congr
    fun _ => mem_below

theorem gives_splitGt (valid : Valid t) (x : K) :
    Gives (splitGt t x) (fun y => y ∈ t.items ∧ x < y) :=
  (gives_of_makes (makes_splitGt valid.exact valid.sorted x) (valid.sorted.filter _)).congr
    fun _ => mem_above

theorem gives_delete (valid : Valid t) (mem : x ∈ t.items) :
    Gives (delete t x) (fun y => y ∈ t.items ∧ y ≠ x) :=
  (gives_of_makes (makes_delete valid.exact valid.sorted mem)
    (sorted_without valid.sorted x)).congr fun _ => mem_without

theorem gives_meld3 (valid1 : Valid l) (valid2 : Valid r) (below : ∀ x ∈ l.items, x < v)
    (above : ∀ x ∈ r.items, v < x) :
    Gives (meld3 l v r) (fun x => x ∈ l.items ∨ x = v ∨ x ∈ r.items) := by
  have sorted : Sorted id (l.items ++ v :: r.items) :=
    sorted_node.mpr ⟨valid1.sorted, valid2.sorted, below, above⟩
  apply (gives_of_makes (makes_meld3 valid1.exact valid2.exact sorted) sorted).congr
  intro x
  rw [List.mem_append, List.mem_cons]

theorem gives_cat (valid1 : Valid l) (valid2 : Valid r)
    (between : ∀ x ∈ l.items, ∀ y ∈ r.items, x < y) :
    Gives (cat l r) (fun x => x ∈ l.items ∨ x ∈ r.items) := by
  have sorted : Sorted id (l.items ++ r.items) :=
    List.pairwise_append.mpr ⟨valid1.sorted, valid2.sorted, between⟩
  apply (gives_of_makes (makes_cat valid1.exact valid2.exact) sorted).congr
  intro x
  rw [List.mem_append]

def Rooted (inside : K → Prop) : Tree K → Prop
  | .empty => True
  | .node v _ _ _ => inside v

def Trims (inside : K → Prop) (s s' : Tree K) : Prop :=
  Valid s' ∧ Rooted inside s' ∧ ∀ x, inside x → (x ∈ s'.items ↔ x ∈ s.items)

theorem trims_self (valid : Valid s) (rooted : Rooted inside s) : Trims inside s s :=
  ⟨valid, rooted, fun _ _ => .rfl⟩

theorem Trims.of_left (trims : Trims inside l s) (valid : Valid (.node v n l r))
    (below : ∀ x, inside x → x < v) : Trims inside (.node v n l r) s := by
  obtain ⟨valid', rooted, same⟩ := trims
  refine ⟨valid', rooted, fun x within => (same x within).trans ?_⟩
  rw [items_node, List.mem_append, List.mem_cons]
  constructor
  · exact Or.inl
  · rintro (mem | rfl | mem)
    · exact mem
    · exact absurd (below x within) (lt_irrefl x)
    · exact absurd (below x within) (valid.above mem).asymm

theorem Trims.of_right (trims : Trims inside r s) (valid : Valid (.node v n l r))
    (above : ∀ x, inside x → v < x) : Trims inside (.node v n l r) s := by
  obtain ⟨valid', rooted, same⟩ := trims
  refine ⟨valid', rooted, fun x within => (same x within).trans ?_⟩
  rw [items_node, List.mem_append, List.mem_cons]
  constructor
  · exact fun mem => .inr (.inr mem)
  · rintro (mem | rfl | mem)
    · exact absurd (above x within) (valid.below mem).asymm
    · exact absurd (above x within) (lt_irrefl x)
    · exact mem

theorem trims_trim (lo hi : K) (valid : Valid s) : Trims (fun x => lo < x ∧ x < hi) s (trim lo hi s) := by
  induction s with
  | empty => exact trims_self valid trivial
  | node v n l r ihl ihr =>
    rw [trim]
    split
    · rename_i above
      split
      · rename_i below
        exact trims_self valid ⟨compare_gt_iff_gt.mp above, compare_lt_iff_lt.mp below⟩
      · rename_i beyond
        have beyond : hi ≤ v := not_lt.mp fun less => beyond (compare_lt_iff_lt.mpr less)
        exact (ihl valid.left).of_left valid fun x within => within.2.trans_le beyond
    · rename_i before
      have before : v ≤ lo := not_lt.mp fun less => before (compare_gt_iff_gt.mpr less)
      exact (ihr valid.right).of_right valid fun x within => before.trans_lt within.1

theorem trims_trimLo (lo : K) (valid : Valid s) : Trims (lo < ·) s (trimLo lo s) := by
  induction s with
  | empty => exact trims_self valid trivial
  | node v n l r _ ihr =>
    rw [trimLo]
    split
    · rename_i above
      exact trims_self valid (compare_gt_iff_gt.mp above)
    · rename_i before
      have before : v ≤ lo := not_lt.mp fun less => before (compare_gt_iff_gt.mpr less)
      exact (ihr valid.right).of_right valid fun x within => before.trans_lt within

theorem trims_trimHi (hi : K) (valid : Valid s) : Trims (· < hi) s (trimHi hi s) := by
  induction s with
  | empty => exact trims_self valid trivial
  | node v n l r ihl _ =>
    rw [trimHi]
    split
    · rename_i below
      exact trims_self valid (compare_lt_iff_lt.mp below)
    · rename_i beyond
      have beyond : hi ≤ v := not_lt.mp fun less => beyond (compare_lt_iff_lt.mpr less)
      exact (ihl valid.left).of_left valid fun x within => within.trans_le beyond

variable {m1 m2 : Except Raised (Tree K)}

theorem gives_around (gives1 : Gives m1 p) (gives2 : Gives m2 q)
    (below : ∀ x, p x → x < v) (above : ∀ x, q x → v < x) :
    Gives (do meld3 (← m1) v (← m2)) (fun x => p x ∨ x = v ∨ q x) := by
  apply gives1.bind
  intro t1 valid1 members1
  apply gives2.bind
  intro t2 valid2 members2
  apply (gives_meld3 valid1 valid2 (fun x mem => below x ((members1 x).mp mem))
    fun x mem => above x ((members2 x).mp mem)).congr
  intro x
  rw [members1, members2]

theorem gives_beside (gives1 : Gives m1 p) (gives2 : Gives m2 q)
    (between : ∀ x y, p x → q y → x < y) :
    Gives (do cat (← m1) (← m2)) (fun x => p x ∨ q x) := by
  apply gives1.bind
  intro t1 valid1 members1
  apply gives2.bind
  intro t2 valid2 members2
  apply (gives_cat valid1 valid2 (fun x mem y mem' =>
    between x y ((members1 x).mp mem) ((members2 y).mp mem'))).congr
  intro x
  rw [members1, members2]

theorem gives_cut (inside : K → Prop) (valid : Valid (.node v n l r))
    (rooted : inside v) (gives1 : Gives m1 (fun x => x ∈ l.items ∧ inside x))
    (gives2 : Gives m2 (fun x => x ∈ r.items ∧ inside x)) :
    Gives (do meld3 (← m1) v (← m2)) (fun x => x ∈ (Tree.node v n l r).items ∧ inside x) := by
  apply (gives_around gives1 gives2 (fun x mem => valid.below mem.1)
    fun x mem => valid.above mem.1).congr
  intro x
  rw [items_node, List.mem_append, List.mem_cons]
  constructor
  · rintro (mem | rfl | mem)
    · exact ⟨.inl mem.1, mem.2⟩
    · exact ⟨.inr (.inl rfl), rooted⟩
    · exact ⟨.inr (.inr mem.1), mem.2⟩
  · rintro ⟨mem | rfl | mem, within⟩
    · exact .inl ⟨mem, within⟩
    · exact .inr (.inl rfl)
    · exact .inr (.inr ⟨mem, within⟩)

theorem gives_join (inside : K → Prop) (valid : Valid (.node v n l r))
    (gives1 : Gives m1 (fun x => x ∈ l.items ∨ x ∈ s2.items ∧ inside x ∧ x < v))
    (gives2 : Gives m2 (fun x => x ∈ r.items ∨ x ∈ s2.items ∧ inside x ∧ v < x))
    (rooted : inside v) :
    Gives (do meld3 (← m1) v (← m2))
      (fun x => x ∈ (Tree.node v n l r).items ∨ x ∈ s2.items ∧ inside x) := by
  apply (gives_around gives1 gives2 ?_ ?_).congr
  · intro x
    rw [items_node, List.mem_append, List.mem_cons]
    rcases lt_trichotomy x v with less | rfl | more
    · simp only [less, less.asymm, less.ne, and_true, and_false, or_false, false_or]
      tauto
    · simp [rooted]
    · simp only [more, more.asymm, more.ne', and_true, and_false, or_false, false_or]
      tauto
  · rintro x (mem | mem)
    · exact valid.below mem
    · exact mem.2.2
  · rintro x (mem | mem)
    · exact valid.above mem
    · exact mem.2.2

theorem gives_union (valid : Valid (.node v n l r))
    (gives1 : Gives m1 (fun x => x ∈ l.items ∨ x ∈ s2.items ∧ x < v))
    (gives2 : Gives m2 (fun x => x ∈ r.items ∨ x ∈ s2.items ∧ v < x)) :
    Gives (do meld3 (← m1) v (← m2))
      (fun x => x ∈ (Tree.node v n l r).items ∨ x ∈ s2.items) := by
  have first : Gives m1 (fun x => x ∈ l.items ∨ x ∈ s2.items ∧ True ∧ x < v) := by
    simpa using gives1
  have second : Gives m2 (fun x => x ∈ r.items ∨ x ∈ s2.items ∧ True ∧ v < x) := by
    simpa using gives2
  simpa using gives_join (fun _ => True) valid first second trivial

theorem Gives.untrim (gives : Gives m (fun x => p x ∨ x ∈ s.items ∧ inside x))
    (trims : Trims inside s2 s) {within : K → Prop} (same : ∀ x, inside x ↔ within x) :
    Gives m (fun x => p x ∨ x ∈ s2.items ∧ within x) := by
  apply gives.congr
  intro x
  rw [← same]
  exact or_congr_right (and_congr_left (trims.2.2 x))

theorem gives_first (valid : Valid s1) :
    Gives (.ok s1) (fun x => x ∈ s1.items ∨ x ∈ (Tree.empty : Tree K).items ∧ inside x) := by
  apply (gives_ok valid).congr
  simp

theorem gives_second (gives : Gives m p) :
    Gives m (fun x => x ∈ (Tree.empty : Tree K).items ∨ p x) := by
  apply gives.congr
  simp

theorem gives_uniBd (valid1 : Valid s1) (valid2 : Valid s2)
    (within : ∀ x ∈ s1.items, lo < x ∧ x < hi) (rooted : Rooted (fun x => lo < x ∧ x < hi) s2) :
    Gives (uniBd s1 s2 lo hi) (fun x => x ∈ s1.items ∨ x ∈ s2.items ∧ lo < x ∧ x < hi) := by
  induction s1 generalizing s2 lo hi with
  | empty =>
    cases s2 with
    | empty => exact gives_first valid1
    | node v n l r =>
      apply gives_second
      apply gives_cut (fun x => lo < x ∧ x < hi) valid2 rooted
      · apply (gives_splitGt valid2.left lo).congr
        intro x
        exact and_congr_right fun mem =>
          (and_iff_left ((valid2.below mem).trans rooted.2)).symm
      · apply (gives_splitLt valid2.right hi).congr
        intro x
        exact and_congr_right fun mem =>
          (and_iff_right (rooted.1.trans (valid2.above mem))).symm
  | node v n l r ihl ihr =>
    cases s2 with
    | empty => exact gives_first valid1
    | node v2 n2 l2 r2 =>
      obtain ⟨low, high⟩ := within v (by simp)
      have trims1 := trims_trim lo v valid2
      have trims2 := trims_trim v hi valid2
      apply gives_join (fun x => lo < x ∧ x < hi) valid1 ?_ ?_ ⟨low, high⟩
      · exact (ihl valid1.left trims1.1 (fun x mem =>
          ⟨(within x (by simp [mem])).1, valid1.below mem⟩) trims1.2.1).untrim trims1 (by grind)
      · exact (ihr valid1.right trims2.1 (fun x mem =>
          ⟨valid1.above mem, (within x (by simp [mem])).2⟩) trims2.2.1).untrim trims2 (by grind)

theorem gives_uniHi (valid1 : Valid s1) (valid2 : Valid s2) (within : ∀ x ∈ s1.items, x < hi)
    (rooted : Rooted (· < hi) s2) :
    Gives (uniHi s1 s2 hi) (fun x => x ∈ s1.items ∨ x ∈ s2.items ∧ x < hi) := by
  induction s1 generalizing s2 hi with
  | empty =>
    cases s2 with
    | empty => exact gives_first valid1
    | node v n l r =>
      apply gives_second
      have first : Gives (.ok l) (fun x => x ∈ l.items ∧ x < hi) := by
        apply (gives_ok valid2.left).congr
        intro x
        exact (and_iff_left_of_imp fun mem => (valid2.below mem).trans rooted).symm
      exact gives_cut (· < hi) valid2 rooted first (gives_splitLt valid2.right hi)
  | node v n l r ihl _ =>
    cases s2 with
    | empty => exact gives_first valid1
    | node v2 n2 l2 r2 =>
      have high := within v (by simp)
      have trims1 := trims_trimHi v valid2
      have trims2 := trims_trim v hi valid2
      apply gives_join (· < hi) valid1 ?_ ?_ high
      · exact (ihl valid1.left trims1.1 (fun x mem => valid1.below mem)
          trims1.2.1).untrim trims1 (by grind)
      · exact (gives_uniBd valid1.right trims2.1 (fun x mem =>
          ⟨valid1.above mem, within x (by simp [mem])⟩) trims2.2.1).untrim trims2 (by grind)

theorem gives_uniLo (valid1 : Valid s1) (valid2 : Valid s2) (within : ∀ x ∈ s1.items, lo < x)
    (rooted : Rooted (lo < ·) s2) :
    Gives (uniLo s1 s2 lo) (fun x => x ∈ s1.items ∨ x ∈ s2.items ∧ lo < x) := by
  induction s1 generalizing s2 lo with
  | empty =>
    cases s2 with
    | empty => exact gives_first valid1
    | node v n l r =>
      apply gives_second
      have second : Gives (.ok r) (fun x => x ∈ r.items ∧ lo < x) := by
        apply (gives_ok valid2.right).congr
        intro x
        exact (and_iff_left_of_imp fun mem => lt_trans rooted (valid2.above mem)).symm
      exact gives_cut (lo < ·) valid2 rooted (gives_splitGt valid2.left lo) second
  | node v n l r _ ihr =>
    cases s2 with
    | empty => exact gives_first valid1
    | node v2 n2 l2 r2 =>
      have low := within v (by simp)
      have trims1 := trims_trim lo v valid2
      have trims2 := trims_trimLo v valid2
      apply gives_join (lo < ·) valid1 ?_ ?_ low
      · exact (gives_uniBd valid1.left trims1.1 (fun x mem =>
          ⟨within x (by simp [mem]), valid1.below mem⟩) trims1.2.1).untrim trims1 (by grind)
      · exact (ihr valid1.right trims2.1 (fun x mem => valid1.above mem)
          trims2.2.1).untrim trims2 (by grind)

theorem gives_hedgeUnion (valid1 : Valid s1) (valid2 : Valid s2) :
    Gives (hedgeUnion s1 s2) (fun x => x ∈ s1.items ∨ x ∈ s2.items) := by
  cases s1 with
  | empty =>
    apply gives_second
    cases s2 with
    | empty => exact gives_ok valid2
    | node v n l r => exact gives_ok valid2
  | node v n l r =>
    cases s2 with
    | empty =>
      apply (gives_ok valid1).congr
      simp
    | node v2 n2 l2 r2 =>
      have trims1 := trims_trimHi v valid2
      have trims2 := trims_trimLo v valid2
      have gives1 := (gives_uniHi valid1.left trims1.1 (fun x mem => valid1.below mem)
        trims1.2.1).untrim trims1 fun _ => .rfl
      have gives2 := (gives_uniLo valid1.right trims2.1 (fun x mem => valid1.above mem)
        trims2.2.1).untrim trims2 fun _ => .rfl
      exact gives_union valid1 gives1 gives2

theorem gives_oldUnion (valid1 : Valid s1) (valid2 : Valid s2) :
    Gives (oldUnion s1 s2) (fun x => x ∈ s1.items ∨ x ∈ s2.items) := by
  induction s1 generalizing s2 with
  | empty => exact gives_second (gives_ok valid2)
  | node v n l r ihl ihr =>
    cases s2 with
    | empty =>
      apply (gives_ok valid1).congr
      simp
    | node v2 n2 l2 r2 =>
      rw [oldUnion]
      · apply (gives_splitLt valid2 v).bind
        intro t1 below members1
        apply (gives_splitGt valid2 v).bind
        intro t2 above members2
        apply gives_union valid1
        · apply (ihl valid1.left below).congr
          intro x
          rw [members1]
        · apply (ihr valid1.right above).congr
          intro x
          rw [members2]
      · simp

theorem gives_intersection (valid1 : Valid s1) (valid2 : Valid s2) :
    Gives (intersection s1 s2) (fun x => x ∈ s1.items ∧ x ∈ s2.items) := by
  induction s2 generalizing s1 with
  | empty =>
    have none : Gives (.ok .empty) (fun x => x ∈ s1.items ∧ x ∈ (Tree.empty : Tree K).items) := by
      apply (gives_ok valid_empty).congr
      simp
    cases s1 with
    | empty => exact none
    | node v1 n1 l1 r1 => exact none
  | node v n l r ihl ihr =>
    cases s1 with
    | empty =>
      apply (gives_ok valid_empty).congr
      simp
    | node v1 n1 l1 r1 =>
      rw [intersection]
      · apply (gives_splitLt valid1 v).bind
        intro t1 below members1
        apply (gives_splitGt valid1 v).bind
        intro t2 above members2
        have gives1 := ihl below valid2.left
        have gives2 := ihr above valid2.right
        split
        · rename_i found
          rw [member_iff valid1.sorted] at found
          apply (gives_around gives1 gives2 (fun x mem => valid2.below mem.2)
            fun x mem => valid2.above mem.2).congr
          intro x
          rw [members1, members2, valid2.mem_node]
          grind
        · rename_i absent
          rw [member_iff valid1.sorted] at absent
          apply (gives_beside gives1 gives2 (fun x y mem mem' =>
            (valid2.below mem.2).trans (valid2.above mem'.2))).congr
          intro x
          rw [members1, members2, valid2.mem_node]
          grind
      · simp

theorem gives_difference (valid1 : Valid s1) (valid2 : Valid s2) :
    Gives (difference s1 s2) (fun x => x ∈ s1.items ∧ x ∉ s2.items) := by
  induction s2 generalizing s1 with
  | empty =>
    have all : Gives (.ok s1) (fun x => x ∈ s1.items ∧ x ∉ (Tree.empty : Tree K).items) := by
      apply (gives_ok valid1).congr
      simp
    cases s1 with
    | empty => exact all
    | node v1 n1 l1 r1 => exact all
  | node v n l r ihl ihr =>
    cases s1 with
    | empty =>
      apply (gives_ok valid_empty).congr
      simp
    | node v1 n1 l1 r1 =>
      rw [difference]
      · apply (gives_splitLt valid1 v).bind
        intro t1 below members1
        apply (gives_splitGt valid1 v).bind
        intro t2 above members2
        have gives1 := ihl below valid2.left
        have gives2 := ihr above valid2.right
        apply (gives_beside gives1 gives2 (fun x y mem mem' =>
          ((members1 x).mp mem.1).2.trans ((members2 y).mp mem'.1).2)).congr
        intro x
        rw [members1, members2, valid2.mem_node]
        grind
      · simp

theorem gives_foldl (predicate : K → Bool) (l : List K) (gives : Gives m p) :
    Gives (l.foldl (fun s item => do
        let s ← s
        if predicate item then add s item else return s) m)
      (fun x => p x ∨ x ∈ l ∧ predicate x = true) := by
  induction l generalizing m p with
  | nil =>
    apply gives.congr
    simp
  | cons item l ih =>
    have step : Gives (do
        let s ← m
        if predicate item then add s item else return s)
        (fun x => p x ∨ x = item ∧ predicate x = true) := by
      apply gives.bind
      intro t valid members
      split
      · rename_i passes
        apply (gives_add valid item).congr
        intro x
        rw [members]
        grind
      · rename_i fails
        apply (gives_ok valid).congr
        intro x
        rw [members]
        grind
    apply (ih step).congr
    intro x
    rw [List.mem_cons]
    tauto

theorem gives_filter (predicate : K → Bool) (s : Tree K) :
    Gives (filter predicate s) (fun x => x ∈ s.items ∧ predicate x = true) := by
  rw [filter, foldForward_eq]
  apply (gives_foldl predicate s.items (gives_ok valid_empty)).congr
  simp

def GivesBoth (m : Except Raised (Tree K × Tree K)) (p q : K → Prop) : Prop :=
  ∃ t1 t2, m = .ok (t1, t2) ∧ (Valid t1 ∧ ∀ x, x ∈ t1.items ↔ p x) ∧
    Valid t2 ∧ ∀ x, x ∈ t2.items ↔ q x

theorem givesBoth_foldl (predicate : K → Bool) (l : List K)
    {m : Except Raised (Tree K × Tree K)} (gives : GivesBoth m p q) :
    GivesBoth (l.foldl (fun s item => do
        let (s1, s2) ← s
        if predicate item then return (← add s1 item, s2)
        else return (s1, ← add s2 item)) m)
      (fun x => p x ∨ x ∈ l ∧ predicate x = true)
      (fun x => q x ∨ x ∈ l ∧ predicate x = false) := by
  induction l generalizing m p q with
  | nil => simpa using gives
  | cons item l ih =>
    have step : GivesBoth (do
        let (s1, s2) ← m
        if predicate item then return (← add s1 item, s2)
        else return (s1, ← add s2 item))
        (fun x => p x ∨ x = item ∧ predicate x = true)
        (fun x => q x ∨ x = item ∧ predicate x = false) := by
      obtain ⟨t1, t2, rfl, ⟨valid1, members1⟩, valid2, members2⟩ := gives
      by_cases passes : predicate item = true
      · obtain ⟨t, made, valid, members⟩ := gives_add valid1 item
        refine ⟨t, t2, ?_, ⟨valid, fun x => ?_⟩, valid2, fun x => ?_⟩
        · simp [bind, Except.bind, passes, made, pure, Except.pure]
        · simp only [members, members1]
          grind
        · simp only [members2]
          grind
      · obtain ⟨t, made, valid, members⟩ := gives_add valid2 item
        refine ⟨t1, t, ?_, ⟨valid1, fun x => ?_⟩, valid, fun x => ?_⟩
        · simp [bind, Except.bind, passes, made, pure, Except.pure]
        · simp only [members1]
          grind
        · simp only [members, members2]
          grind
    obtain ⟨t1, t2, made, ⟨valid1, members1⟩, valid2, members2⟩ := ih step
    refine ⟨t1, t2, made, ⟨valid1, fun x => ?_⟩, valid2, fun x => ?_⟩
    · simp only [members1, List.mem_cons]
      tauto
    · simp only [members2, List.mem_cons]
      tauto

theorem gives_partition (predicate : K → Bool) (s : Tree K) :
    GivesBoth (partition predicate s) (fun x => x ∈ s.items ∧ predicate x = true)
      (fun x => x ∈ s.items ∧ predicate x = false) := by
  rw [partition, foldForward_eq]
  have start : GivesBoth (.ok (.empty, .empty)) (fun _ : K => False) (fun _ : K => False) :=
    ⟨.empty, .empty, rfl, ⟨valid_empty, by simp⟩, valid_empty, by simp⟩
  simpa using givesBoth_foldl predicate s.items start

theorem treeIn_iff (valid2 : Valid s2) : treeIn s2 s1 = true ↔ ∀ x ∈ s1.items, x ∈ s2.items := by
  fun_induction treeIn s2 s1 with
  | case1 => simp
  | case2 => simp [member_iff valid2.sorted]
  | _ =>
    simp_all [member_iff valid2.sorted, or_imp, forall_and, and_comm, and_assoc, and_left_comm]

theorem Valid.nodup (valid : Valid s) : s.items.Nodup := valid.sorted.imp fun less => less.ne

theorem count_le (valid1 : Valid s1) (valid2 : Valid s2)
    (subset : ∀ x ∈ s1.items, x ∈ s2.items) : s1.count ≤ s2.count := by
  rw [← valid1.exact.length, ← valid2.exact.length]
  exact (List.subperm_of_subset valid1.nodup subset).length_le

theorem isSubset_iff (valid1 : Valid s1) (valid2 : Valid s2) :
    isSubset s1 s2 = true ↔ ∀ x ∈ s1.items, x ∈ s2.items := by
  cases s1 with
  | empty => simp [isSubset]
  | node v n l r =>
    cases s2 with
    | empty =>
      refine iff_of_false (by simp [isSubset]) ?_
      intro subset
      cases subset v (by simp)
    | node v' n' l' r' =>
      rw [isSubset, Bool.and_eq_true, decide_eq_true_iff, treeIn_iff valid2]
      exact and_iff_right_of_imp fun subset => count_le valid1 valid2 subset

theorem equal_iff (valid1 : Valid s1) (valid2 : Valid s2) :
    equal s1 s2 = true ↔ ∀ x, x ∈ s1.items ↔ x ∈ s2.items := by
  cases s1 with
  | empty =>
    cases s2 with
    | empty => simp [equal]
    | node v n l r =>
      refine iff_of_false (by simp [equal]) ?_
      intro same
      cases (same v).mpr (by simp)
  | node v n l r =>
    cases s2 with
    | empty =>
      refine iff_of_false (by simp [equal]) ?_
      intro same
      cases (same v).mp (by simp)
    | node v' n' l' r' =>
      rw [equal, Bool.and_eq_true, beq_iff_eq, treeIn_iff valid2]
      constructor
      · rintro ⟨same, subset⟩ x
        have lengths :
            (Tree.node v' n' l' r').items.length ≤ (Tree.node v n l r).items.length := by
          rw [valid1.exact.length, valid2.exact.length]
          exact same.ge
        exact ((List.subperm_of_subset valid1.nodup subset).perm_of_length_le
          lengths).mem_iff
      · intro same
        have first := count_le valid1 valid2 fun x => (same x).mp
        have second := count_le valid2 valid1 fun x => (same x).mpr
        exact ⟨le_antisymm first second, fun x => (same x).mp⟩

/-- What the operations are for: each makes a valid tree, of the members that it should have. -/
structure SetOperations (a b : Tree K) : Prop where
  hedgeUnion : Gives (hedgeUnion a b) (fun x => x ∈ a.items ∨ x ∈ b.items)
  oldUnion : Gives (oldUnion a b) (fun x => x ∈ a.items ∨ x ∈ b.items)
  intersection : Gives (intersection a b) (fun x => x ∈ a.items ∧ x ∈ b.items)
  difference : Gives (difference a b) (fun x => x ∈ a.items ∧ x ∉ b.items)
  splitLt : ∀ x, Gives (splitLt a x) (fun y => y ∈ a.items ∧ y < x)
  splitGt : ∀ x, Gives (splitGt a x) (fun y => y ∈ a.items ∧ x < y)
  add : ∀ x, Gives (add a x) (fun y => y = x ∨ y ∈ a.items)
  member : ∀ x, member a x = true ↔ x ∈ a.items
  delete : ∀ x, x ∈ a.items → Gives (delete a x) (fun y => y ∈ a.items ∧ y ≠ x)
  absent : ∀ x, x ∉ a.items → Set.delete a x = .error .notFound
  filter : ∀ predicate, Gives (filter predicate a) (fun x => x ∈ a.items ∧ predicate x = true)
  partition : ∀ predicate, GivesBoth (partition predicate a)
    (fun x => x ∈ a.items ∧ predicate x = true) (fun x => x ∈ a.items ∧ predicate x = false)
  isSubset : isSubset a b = true ↔ ∀ x ∈ a.items, x ∈ b.items
  equal : equal a b = true ↔ ∀ x, x ∈ a.items ↔ x ∈ b.items

/-- None of the operations on valid trees raises an exception, but `delete` of an item that is not
there. -/
theorem set_operations (valid1 : Valid s1) (valid2 : Valid s2) : SetOperations s1 s2 where
  hedgeUnion := gives_hedgeUnion valid1 valid2
  oldUnion := gives_oldUnion valid1 valid2
  intersection := gives_intersection valid1 valid2
  difference := gives_difference valid1 valid2
  splitLt := gives_splitLt valid1
  splitGt := gives_splitGt valid1
  add := gives_add valid1
  member := fun _ => member_iff valid1.sorted
  delete := fun _ mem => gives_delete valid1 mem
  absent := fun _ mem => delete_absent valid1.sorted mem
  filter := fun predicate => gives_filter predicate s1
  partition := fun predicate => gives_partition predicate s1
  isSubset := isSubset_iff valid1 valid2
  equal := equal_iff valid1 valid2

end Gives

theorem set_operations_small :
    SetOperations (.node 2 2 (.node 1 1 .empty .empty) .empty) (.node (3 : Nat) 1 .empty .empty) :=
  set_operations ⟨⟨rfl, ⟨rfl, trivial, trivial⟩, trivial⟩, by simp [Sorted]⟩
    ⟨⟨rfl, trivial, trivial⟩, by simp [Sorted]⟩

end Mythryl.Binary.Set
