import Mythryl.RedBlack.Build
import Mathlib.Data.Finset.Card
import Mathlib.Data.Set.Card
import Mathlib.Order.Compare

/-!
# The generic red-black set

`red_black_set_g`: a header with the count of nodes over a tree of items.
-/

namespace Mythryl.RedBlackSet
open ColoredTree SortedKeys RedBlack

abbrev items (K : Type) : Layout K K := Layout.plain K

structure TreeSet (K : Type) where
  count : Int
  tree : ColorTree K
  deriving DecidableEq, Repr

variable {K : Type}

def empty : TreeSet K := ⟨0, .empty⟩

def singleton (x : K) : TreeSet K := ⟨1, .node .red .empty x .empty⟩

namespace TreeSet

def isEmpty (s : TreeSet K) : Bool :=
  match s.tree with
  | .empty => true
  | _ => false

def allInvariantsHold (s : TreeSet K) : Bool := RedBlack.allInvariantsHold s.count s.tree

def valsCount (s : TreeSet K) : Int := s.count

def foldForward {A : Type} (f : K → A → A) (init : A) (s : TreeSet K) : A :=
  RedBlack.foldForward (items K) f s.tree init

def valsList (s : TreeSet K) : List K := RedBlack.foldBackward (items K) List.cons s.tree []

def filter (prior : K → Bool) (s : TreeSet K) : TreeSet K :=
  let (n, result) := filterWalk (items K) prior s.tree 0 .zero
  ⟨n, linkAll (items K) result⟩

def partition (prior : K → Bool) (s : TreeSet K) : TreeSet K × TreeSet K :=
  let (n1, result1, n2, result2) := partitionWalk (items K) prior s.tree 0 .zero 0 .zero
  (⟨n1, linkAll (items K) result1⟩, ⟨n2, linkAll (items K) result2⟩)

variable [Ord K]

def add (s : TreeSet K) (x : K) : TreeSet K :=
  let (tree, nItems') := (insertItemCounting (items K) id s.count x s.tree).run s.count
  ⟨nItems', tree.blacken⟩

def addList (s : TreeSet K) : List K → TreeSet K
  | [] => s
  | x :: r => addList (s.add x) r

def delete (s : TreeSet K) (keyToRemove : K) : Except Raised (TreeSet K) := do
  let newTree ← descend (items K) id keyToRemove s.tree .top
  return ⟨s.count - 1, newTree.blacken⟩

def member (s : TreeSet K) (k : K) : Bool := contains (items K) id k s.tree

def equalWalk (t1 t2 : List (ColorTree K)) : Bool :=
  match _h1 : next t1, _h2 : next t2 with
  | (.empty, _), (.empty, _) => true
  | (.empty, _), _ => false
  | _, (.empty, _) => false
  | (.node _ _ x _, r1), (.node _ _ y _, r2) =>
      match Ord.compare x y with
      | .eq => equalWalk r1 r2
      | _ => false
termination_by stackSize t1
decreasing_by exact stackSize_of_node _h1

def equal (s1 s2 : TreeSet K) : Bool := equalWalk (start s1.tree) (start s2.tree)

def compare (s1 s2 : TreeSet K) : Ordering :=
  compareWalk (items K) Ord.compare (start s1.tree) (start s2.tree)

def subsetWalk (t1 t2 : List (ColorTree K)) : Bool :=
  match _h1 : next t1, _h2 : next t2 with
  | (.empty, _), (.empty, _) => true
  | (.empty, _), _ => true
  | _, (.empty, _) => false
  | (.node _ _ x _, r1), (.node _ _ y _, r2) =>
      match Ord.compare x y with
      | .lt => false
      | .eq => subsetWalk r1 r2
      | .gt => subsetWalk t1 r2
termination_by stackSize t1 + stackSize t2
decreasing_by
  all_goals
    have := stackSize_of_node _h1
    have := stackSize_of_node _h2
    omega

def isSubset (s1 s2 : TreeSet K) : Bool := subsetWalk (start s1.tree) (start s2.tree)

def union (s1 s2 : TreeSet K) : TreeSet K :=
  let (n, result) := RedBlack.union (items K) id (fun x _ => x) (start s1.tree) (start s2.tree) 0 .zero
  ⟨n, linkAll (items K) result⟩

def intersection (s1 s2 : TreeSet K) : TreeSet K :=
  let (n, result) := intersect (items K) (items K) (items K) id id (fun x _ => x)
    (start s1.tree) (start s2.tree) 0 .zero
  ⟨n, linkAll (items K) result⟩

def difference (s1 s2 : TreeSet K) : TreeSet K :=
  let (n, result) := diff (items K) id (start s1.tree) (start s2.tree) 0 .zero
  ⟨n, linkAll (items K) result⟩

def map (f : K → K) (s : TreeSet K) : TreeSet K := s.foldForward (fun x m => m.add (f x)) empty

end TreeSet

/-! # The red-black set is a finite set -/

namespace TreeSet

def items (s : TreeSet K) : List K := (RedBlackSet.items K).items s.tree

def ofItems (l : List K) : TreeSet K :=
  ⟨0 + l.length, linkAll (RedBlackSet.items K) (addItems (RedBlackSet.items K) l .zero)⟩

theorem items_ofItems (l : List K) : (ofItems l).items = l := (linkAll_addItems l).1

theorem filter_eq_ofItems (s : TreeSet K) (prior : K → Bool) :
    s.filter prior = ofItems (s.items.filter prior) := by
  unfold filter items
  rw [filterWalk_eq, Layout.filter_items]
  rfl

theorem partition_eq (s : TreeSet K) (prior : K → Bool) :
    s.partition prior = (s.filter prior, s.filter fun x => !prior x) := by
  unfold partition
  rw [partitionWalk_eq]
  rfl

theorem keeps_union : KeepsKey id id (Option.merge fun x _ : K => x) id where
  left := by
    rintro x (_ | y) a ⟨⟩
    · rfl
    · rfl
  right := by
    rintro y a ⟨⟩
    rfl
  none := rfl

theorem keeps_intersection : KeepsKey id id (Option.map₂ fun x _ : K => x) id where
  left := by
    rintro x (_ | y) a eq
    · cases eq
    · cases eq
      rfl
  right := by
    rintro y a eq
    cases eq
  none := rfl

theorem keeps_difference : KeepsKey id id (without (α := K)) id where
  left := by
    rintro x (_ | y) a eq
    · cases eq
      rfl
    · cases eq
  right := by
    rintro y a eq
    cases eq
  none := rfl

variable [LinearOrder K]

structure Valid (s : TreeSet K) : Prop where
  sorted : Sorted id s.items
  counted : s.count = s.tree.size

def members (s : TreeSet K) : Set K := {k | s.member k = true}

variable {k : K} {s s' : TreeSet K} {l : List K}

theorem mem_members (valid : s.Valid) : k ∈ s.members ↔ k ∈ s.items := by
  refine (contains_iff k valid.sorted).trans ?_
  simp [items]

theorem Valid.ext (valid : s.Valid) (valid' : s'.Valid)
    (same : s.members = s'.members) : s.items = s'.items := by
  apply eq_of_mem_iff valid.sorted valid'.sorted
  intro k
  rw [← mem_members valid, ← mem_members valid', same]

theorem valid_ofItems (sorted : Sorted id l) : (ofItems l).Valid where
  sorted := by rwa [items_ofItems]
  counted := by
    rw [← (RedBlackSet.items K).length_items, ← items, items_ofItems]
    exact Int.zero_add _

theorem mem_members_ofItems (sorted : Sorted id l) : k ∈ (ofItems l).members ↔ k ∈ l := by
  rw [mem_members (valid_ofItems sorted), items_ofItems]

theorem valid_empty : (empty : TreeSet K).Valid := ⟨.nil, rfl⟩

theorem valid_singleton (x : K) : (singleton x).Valid := ⟨List.pairwise_singleton .., rfl⟩

theorem add_eq (s : TreeSet K) (x : K) :
    s.add x = ⟨if contains (RedBlackSet.items K) id x s.tree then s.count else s.count + 1,
      (insertItem (RedBlackSet.items K) id x s.tree).blacken⟩ := by
  unfold add
  rw [insertItemCounting_run]
  rfl

theorem items_add (valid : s.Valid) (x : K) :
    (s.add x).items = below id x s.items ++ x :: above id x s.items := by
  rw [add_eq, items, Layout.items_blacken]
  exact items_insertItem x valid.sorted

theorem Valid.add (valid : s.Valid) (x : K) : (s.add x).Valid where
  sorted := by
    rw [items_add valid]
    exact sorted_around valid.sorted x
  counted := by
    rw [add_eq, ColorTree.size_blacken, size_insertItem, valid.counted]
    split <;> simp_all

theorem delete_absent (valid : s.Valid) (absent : k ∉ s.members) :
    s.delete k = .error .notFound := by
  unfold delete
  rw [descend_absent .top valid.sorted]
  · rfl
  · rintro a mem rfl
    exact absent ((mem_members valid).mpr mem)

theorem delete_present (valid : s.Valid) (present : k ∈ s.members) :
    ∃ s', s.delete k = .ok s' ∧ s'.Valid ∧ s'.items = below id k s.items ++ above id k s.items := by
  have mem := (mem_members valid).mp present
  obtain ⟨t, result, found⟩ := descend_present .top valid.sorted ⟨k, mem, rfl⟩
  have itemsOf : (RedBlackSet.items K).items t.blacken =
      below id k s.items ++ above id k s.items := by
    rw [Layout.items_blacken, found, DescentPath.before, DescentPath.after, List.nil_append,
      List.append_nil]
    rfl
  refine ⟨⟨s.count - 1, t.blacken⟩, ?_, ⟨?_, ?_⟩, itemsOf⟩
  · unfold delete
    simp only [id] at result
    simp only [bind, Except.bind, result]
    rfl
  · rw [items, itemsOf]
    exact sorted_without valid.sorted k
  · have length : (below id k s.items ++ above id k s.items).length + 1 = s.items.length :=
      length_without valid.sorted mem
    rw [← itemsOf, Layout.length_items, items, Layout.length_items] at length
    rw [valid.counted, ← length]
    push_cast
    exact Int.add_sub_cancel _ _

theorem Valid.delete (valid : s.Valid) (result : s.delete k = .ok s') : s'.Valid := by
  by_cases present : k ∈ s.members
  · obtain ⟨s'', result', valid', -⟩ := delete_present valid present
    cases result.symm.trans result'
    exact valid'
  · cases result.symm.trans (delete_absent valid present)

theorem find_id (sorted : Sorted id l) (k : K) : find id k l = if k ∈ l then some k else none := by
  split
  · next mem => exact (find_eq_some sorted).mpr ⟨mem, rfl⟩
  · next absent =>
      apply find_eq_none.mpr
      rintro a mem rfl
      exact absent mem

theorem mem_merged {f : Option K → Option K → Option K} (keeps : KeepsKey id id f id)
    (valid : s.Valid) (valid' : s'.Valid) :
    k ∈ (ofItems (mergeItems id id f s.items s'.items)).members ↔
      f (if k ∈ s.items then some k else none) (if k ∈ s'.items then some k else none) = some k := by
  have sorted := sorted_mergeItems keeps valid.sorted valid'.sorted
  rw [mem_members_ofItems sorted, ← find_id valid.sorted, ← find_id valid'.sorted,
    ← find_mergeItems keeps valid.sorted valid'.sorted, find_eq_some sorted]
  simp

variable (s s' : TreeSet K)

theorem union_eq_ofItems : s.union s' =
    ofItems (mergeItems id id (Option.merge fun x _ => x) s.items s'.items) := by
  unfold union
  rw [union_eq, stackItems_start, stackItems_start]
  rfl

theorem intersection_eq_ofItems : s.intersection s' =
    ofItems (mergeItems id id (Option.map₂ fun x _ => x) s.items s'.items) := by
  unfold intersection
  rw [intersect_eq, stackItems_start, stackItems_start]
  rfl

theorem difference_eq_ofItems :
    s.difference s' = ofItems (mergeItems id id without s.items s'.items) := by
  unfold difference
  rw [diff_eq, stackItems_start, stackItems_start]
  rfl

variable {s s'}

theorem Valid.union (valid : s.Valid) (valid' : s'.Valid) : (s.union s').Valid := by
  rw [union_eq_ofItems]
  exact valid_ofItems (sorted_mergeItems keeps_union valid.sorted valid'.sorted)

theorem Valid.intersection (valid : s.Valid) (valid' : s'.Valid) : (s.intersection s').Valid := by
  rw [intersection_eq_ofItems]
  exact valid_ofItems (sorted_mergeItems keeps_intersection valid.sorted valid'.sorted)

theorem Valid.difference (valid : s.Valid) (valid' : s'.Valid) : (s.difference s').Valid := by
  rw [difference_eq_ofItems]
  exact valid_ofItems (sorted_mergeItems keeps_difference valid.sorted valid'.sorted)

theorem Valid.filter (valid : s.Valid) (prior : K → Bool) : (s.filter prior).Valid := by
  rw [filter_eq_ofItems]
  exact valid_ofItems (valid.sorted.filter prior)

theorem members_union (valid : s.Valid) (valid' : s'.Valid) :
    (s.union s').members = s.members ∪ s'.members := by
  ext k
  rw [union_eq_ofItems, mem_merged keeps_union valid valid', Set.mem_union, mem_members valid,
    mem_members valid']
  by_cases inS : k ∈ s.items <;> by_cases inS' : k ∈ s'.items <;> simp [inS, inS']

theorem members_intersection (valid : s.Valid) (valid' : s'.Valid) :
    (s.intersection s').members = s.members ∩ s'.members := by
  ext k
  rw [intersection_eq_ofItems, mem_merged keeps_intersection valid valid', Set.mem_inter_iff,
    mem_members valid, mem_members valid']
  by_cases inS : k ∈ s.items <;> by_cases inS' : k ∈ s'.items <;> simp [inS, inS']

theorem members_difference (valid : s.Valid) (valid' : s'.Valid) :
    (s.difference s').members = s.members \ s'.members := by
  ext k
  rw [difference_eq_ofItems, mem_merged keeps_difference valid valid', Set.mem_sdiff,
    mem_members valid, mem_members valid']
  by_cases inS : k ∈ s.items <;> by_cases inS' : k ∈ s'.items <;> simp [inS, inS', without]

theorem members_filter (valid : s.Valid) (prior : K → Bool) :
    (s.filter prior).members = {k | k ∈ s.members ∧ prior k = true} := by
  ext k
  rw [filter_eq_ofItems, mem_members_ofItems (valid.sorted.filter prior), List.mem_filter,
    Set.mem_ofPred_eq, mem_members valid]

theorem equalWalk_iff (t1 t2 : List (ColorTree K)) : equalWalk t1 t2 = true ↔
      stackItems (RedBlackSet.items K) t1 = stackItems (RedBlackSet.items K) t2 := by
  fun_induction equalWalk t1 t2 with
  | case1 t1 t2 _ _ h1 h2 => simp [stackItems_of_empty h1, stackItems_of_empty h2]
  | case2 t1 t2 _ h1 notDone =>
    obtain ⟨y, l, eq⟩ := stackItems_not_done (L := RedBlackSet.items K) notDone
    simp [stackItems_of_empty h1, eq]
  | case3 t1 t2 _ h2 notDone =>
    obtain ⟨x, l, eq⟩ := stackItems_not_done (L := RedBlackSet.items K) notDone
    simp [stackItems_of_empty h2, eq]
  | case4 t1 t2 _ _ x _ r1 _ _ y _ r2 h1 h2 eq ih =>
    rw [compare_eq_iff_eq] at eq
    rw [ih, stackItems_of_node h1, stackItems_of_node h2, List.cons_eq_cons, eq]
    exact (and_iff_right rfl).symm
  | case5 t1 t2 _ _ x _ r1 _ _ y _ r2 h1 h2 ne =>
    rw [stackItems_of_node h1, stackItems_of_node h2, List.cons_eq_cons]
    constructor
    · rintro ⟨⟩
    · rintro ⟨same, -⟩
      exact (ne (compare_eq_iff_eq.mpr same)).elim

theorem subsetWalk_iff (t1 t2 : List (ColorTree K))
    (sorted1 : Sorted id (stackItems (RedBlackSet.items K) t1))
    (sorted2 : Sorted id (stackItems (RedBlackSet.items K) t2)) : subsetWalk t1 t2 = true ↔
      stackItems (RedBlackSet.items K) t1 ⊆ stackItems (RedBlackSet.items K) t2 := by
  fun_induction subsetWalk t1 t2 with
  | case1 t1 t2 _ _ h1 h2 => simp [stackItems_of_empty h1]
  | case2 t1 t2 _ h1 _ => simp [stackItems_of_empty h1]
  | case3 t1 t2 _ h2 notDone =>
    obtain ⟨x, l, eq⟩ := stackItems_not_done (L := RedBlackSet.items K) notDone
    simp [stackItems_of_empty h2, eq]
  | case4 t1 t2 _ _ x _ r1 _ _ y _ r2 h1 h2 lt =>
    rw [compare_lt_iff_lt] at lt
    rw [stackItems_of_node h2] at sorted2
    rw [stackItems_of_node h1, stackItems_of_node h2]
    constructor
    · rintro ⟨⟩
    · intro subset
      -- nothing in the second set is as small as the first item of the first
      rcases List.mem_cons.mp (subset (List.mem_cons_self ..)) with rfl | mem
      · exact absurd lt (lt_irrefl _)
      · exact absurd ((List.pairwise_cons.mp sorted2).1 _ mem) lt.not_gt
  | case5 t1 t2 _ _ x _ r1 _ _ y _ r2 h1 h2 eq ih =>
    rw [compare_eq_iff_eq] at eq
    rw [stackItems_of_node h1] at sorted1
    rw [stackItems_of_node h2] at sorted2
    obtain ⟨aboveX, sortedR1⟩ := List.pairwise_cons.mp sorted1
    rw [ih sortedR1 (List.pairwise_cons.mp sorted2).2, stackItems_of_node h1,
      stackItems_of_node h2, eq, List.cons_subset, and_iff_right (List.mem_cons_self ..)]
    constructor
    · exact List.subset_cons_of_subset _
    · intro subset k mem
      rcases List.mem_cons.mp (subset mem) with rfl | inR2
      · exact absurd (aboveX _ mem) (eq ▸ lt_irrefl _)
      · exact inR2
  | case6 t1 t2 _ _ x _ r1 _ _ y _ r2 h1 h2 gt ih =>
    rw [compare_gt_iff_gt] at gt
    rw [stackItems_of_node h2] at sorted2
    rw [ih sorted1 (List.pairwise_cons.mp sorted2).2, stackItems_of_node h2]
    rw [stackItems_of_node h1] at sorted1 ⊢
    constructor
    · exact List.subset_cons_of_subset _
    · intro subset k mem
      rcases List.mem_cons.mp (subset mem) with rfl | inR2
      · rcases List.mem_cons.mp mem with same | inR1
        · exact absurd (same ▸ gt) (lt_irrefl _)
        · exact absurd ((List.pairwise_cons.mp sorted1).1 _ inR1) (not_lt.mpr gt.le)
      · exact inR2

theorem compare_eq_compareLex (s s' : TreeSet K) :
    s.compare s' = List.compareLex Ord.compare s.items s'.items := by
  unfold compare
  rw [compareWalk_eq, stackItems_start, stackItems_start]
  rfl

theorem isSubset_iff (valid : s.Valid) (valid' : s'.Valid) :
    s.isSubset s' = true ↔ s.members ⊆ s'.members := by
  unfold isSubset
  rw [subsetWalk_iff]
  · rw [stackItems_start, stackItems_start]
    constructor
    · intro subset k mem
      exact (mem_members valid').mpr (subset ((mem_members valid).mp mem))
    · intro subset k mem
      exact (mem_members valid').mp (subset ((mem_members valid).mpr mem))
  · rw [stackItems_start]
    exact valid.sorted
  · rw [stackItems_start]
    exact valid'.sorted

theorem equal_iff (valid : s.Valid) (valid' : s'.Valid) :
    s.equal s' = true ↔ s.members = s'.members := by
  unfold equal
  rw [equalWalk_iff, stackItems_start, stackItems_start]
  constructor
  · intro same
    ext k
    rw [mem_members valid, mem_members valid', items, items, same]
  · exact valid.ext valid'

theorem compare_eq_iff (valid : s.Valid) (valid' : s'.Valid) :
    s.compare s' = .eq ↔ s.equal s' = true := by
  rw [compare_eq_compareLex, Std.LawfulEqCmp.compare_eq_iff_eq, equal_iff valid valid']
  constructor
  · intro same
    ext k
    rw [mem_members valid, mem_members valid', same]
  · exact valid.ext valid'

theorem compare_swap (s s' : TreeSet K) : s'.compare s = (s.compare s').swap := by
  rw [compare_eq_compareLex, compare_eq_compareLex]
  exact Std.OrientedCmp.eq_swap

theorem compare_trans {s'' : TreeSet K} (first : (s.compare s').isLE = true)
    (second : (s'.compare s'').isLE = true) : (s.compare s'').isLE = true := by
  rw [compare_eq_compareLex] at *
  exact Std.TransCmp.isLE_trans first second

theorem valsCount_eq (valid : s.Valid) : s.members.Finite ∧ s.valsCount = s.members.ncard := by
  have same : s.members = (s.items.toFinset : Set K) := by
    ext k
    rw [mem_members valid, Finset.mem_coe, List.mem_toFinset]
  have nodup : s.items.Nodup := valid.sorted.imp ne_of_lt
  refine ⟨same ▸ Finset.finite_toSet _, ?_⟩
  rw [same, Set.ncard_coe_finset, List.toFinset_card_of_nodup nodup, items, Layout.length_items]
  exact valid.counted

theorem Valid.addList (valid : s.Valid) (l : List K) : (s.addList l).Valid := by
  induction l generalizing s with
  | nil => exact valid
  | cons x l ih => exact ih (valid.add x)

theorem valid_map (f : K → K) (s : TreeSet K) : (s.map f).Valid := by
  unfold map foldForward
  rw [foldForward_eq]
  apply List.foldlRecOn
  · exact valid_empty
  · exact fun m valid x _ => valid.add (f x)

inductive Reachable : TreeSet K → Prop
  | empty : Reachable empty
  | singleton (x : K) : Reachable (singleton x)
  | add {s : TreeSet K} (x : K) : Reachable s → Reachable (s.add x)
  | addList {s : TreeSet K} (l : List K) : Reachable s → Reachable (s.addList l)
  | delete {s s' : TreeSet K} {k : K} : Reachable s → s.delete k = .ok s' → Reachable s'
  | union {s s' : TreeSet K} : Reachable s → Reachable s' → Reachable (s.union s')
  | intersection {s s' : TreeSet K} : Reachable s → Reachable s' → Reachable (s.intersection s')
  | difference {s s' : TreeSet K} : Reachable s → Reachable s' → Reachable (s.difference s')
  | map {s : TreeSet K} (f : K → K) : Reachable s → Reachable (s.map f)
  | filter {s : TreeSet K} (prior : K → Bool) : Reachable s → Reachable (s.filter prior)
  | satisfying {s : TreeSet K} (prior : K → Bool) : Reachable s → Reachable (s.partition prior).1
  | violating {s : TreeSet K} (prior : K → Bool) : Reachable s → Reachable (s.partition prior).2

theorem Reachable.valid (reachable : Reachable s) : s.Valid := by
  induction reachable with
  | empty => exact valid_empty
  | singleton x => exact valid_singleton x
  | add x _ ih => exact ih.add x
  | addList l _ ih => exact ih.addList l
  | delete _ result ih => exact ih.delete result
  | union _ _ ih ih' => exact ih.union ih'
  | intersection _ _ ih ih' => exact ih.intersection ih'
  | difference _ _ ih ih' => exact ih.difference ih'
  | map f _ _ => exact valid_map f _
  | filter prior _ ih => exact ih.filter prior
  | satisfying prior _ ih =>
    rw [partition_eq]
    exact ih.filter prior
  | violating prior _ ih =>
    rw [partition_eq]
    exact ih.filter _

/-- The operations on the members are those of finite sets, whatever the shapes of the trees, and
`compare` is a total order on them. -/
theorem finite_sets {a b : TreeSet K} (ha : Reachable a) (hb : Reachable b) :
    (a.union b).members = a.members ∪ b.members ∧
    (a.intersection b).members = a.members ∩ b.members ∧
    (a.difference b).members = a.members \ b.members ∧
    (a.isSubset b = true ↔ a.members ⊆ b.members) ∧
    (∀ prior, (a.partition prior).1.members = {k | k ∈ a.members ∧ prior k = true} ∧
      (a.partition prior).2.members = {k | k ∈ a.members ∧ prior k = false}) ∧
    (a.equal b = true ↔ a.members = b.members) ∧
    (a.members.Finite ∧ a.valsCount = a.members.ncard) ∧ (a.compare b = .eq ↔ a.equal b = true) ∧
    b.compare a = (a.compare b).swap ∧
    ∀ c, Reachable c → (a.compare b).isLE → (b.compare c).isLE → (a.compare c).isLE := by
  have validA := ha.valid
  have validB := hb.valid
  refine ⟨members_union validA validB, members_intersection validA validB,
    members_difference validA validB, isSubset_iff validA validB, ?_, equal_iff validA validB,
    valsCount_eq validA, compare_eq_iff validA validB, compare_swap a b, ?_⟩
  · intro prior
    rw [partition_eq, members_filter validA, members_filter validA]
    simp
  · intro c _ first second
    exact compare_trans first second

theorem finite_sets_pair : ((singleton 1).union (singleton 2)).members = {1} ∪ {2} := by
  have members (n : Nat) : (singleton n).members = {n} := by
    ext k
    rw [mem_members (valid_singleton n)]
    simp [items, singleton, Layout.plain]
  have facts := (finite_sets (Reachable.singleton 1) (Reachable.singleton 2)).1
  rwa [members, members] at facts

end TreeSet

end Mythryl.RedBlackSet
