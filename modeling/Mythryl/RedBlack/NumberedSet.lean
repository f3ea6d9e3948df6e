import Mythryl.RedBlack.Set

/-!
# The red-black numbered set

`red_black_numbered_set_g`: each node keeps the number of keys in its subtree, so that the number of
smaller members can be read off on the way to a key.
-/

namespace Mythryl.RedBlackNumberedSet
open ColoredTree SortedKeys RedBlack

variable {K : Type}

def keysIn : ColorTree (K × Int) → Int
  | .empty => 0
  | .node _ _ (_, keys) _ => keys

/-- The function `tree_node` of the source stores the key with the count of its subtree. -/
def counted (K : Type) : Layout K (K × Int) where
  stored := fun left key right => (key, keysIn left + keysIn right + 1)
  content := Prod.fst
  content_stored := fun _ _ _ => rfl

structure NumberedSet (K : Type) where
  tree : ColorTree (K × Int)
  deriving DecidableEq, Repr

/-- Count the keys of a subtree; nothing where the exception `DOMAIN` is raised, at a node whose
count is wrong. -/
def childCount : ColorTree (K × Int) → Option Int
  | .empty => some 0
  | .node _ leftSubtree (_, keyCount) rightSubtree => do
      let leftCount ← childCount leftSubtree
      let rightCount ← childCount rightSubtree
      let total := leftCount + rightCount + 1
      if keyCount ≠ total then none else some total

def childCountsOk (tree : ColorTree (K × Int)) : Bool := (childCount tree).isSome

def empty : NumberedSet K := ⟨.empty⟩

def singleton (key : K) : NumberedSet K := ⟨.node .red .empty (key, 1) .empty⟩

def fromList (list : List K) : NumberedSet K :=
  let rec loop (result : Digit K (K × Int)) : List K → NumberedSet K
    | [] => ⟨linkAll (counted K) result⟩
    | this :: rest => loop (addItem (counted K) this result) rest
  loop .zero list

namespace NumberedSet

def allInvariantsHold (s : NumberedSet K) : Bool :=
  match s.tree with
  | .empty => true
  | .node .red _ _ _ => false
  | tree => blackInvariantOk tree && redInvariantOk true tree && childCountsOk tree

def valsCount (s : NumberedSet K) : Int :=
  match s.tree with
  | .node _ _ (_, keys) _ => keys
  | .empty => 0

def keysList (s : NumberedSet K) : List K := foldBackward (counted K) List.cons s.tree []

def keyedFilter (predicate : K → Int → Bool) (s : NumberedSet K) : NumberedSet K :=
  ⟨linkAll (counted K) (filterWalk (counted K) (fun y => predicate y.1 y.2) s.tree 0 .zero).2⟩

def filter (predicate : K → Bool) (s : NumberedSet K) : NumberedSet K :=
  s.keyedFilter fun key _ => predicate key

variable [Ord K]

def set (s : NumberedSet K) (key1 : K) : NumberedSet K :=
  ⟨(insertItem (counted K) id key1 s.tree).blacken⟩

def containsKey (s : NumberedSet K) (k : K) : Bool := contains (counted K) id k s.tree

def findFrom (k : K) (n : Int) : ColorTree (K × Int) → Option Int
  | .empty => none
  | .node _ leftSubtree (key, _) rightSubtree =>
      match compare k key with
      | .lt => findFrom k n leftSubtree
      | .eq => some (n + keysIn leftSubtree)
      | .gt => findFrom k (n + keysIn leftSubtree + 1) rightSubtree

def find (s : NumberedSet K) (k : K) : Option Int := findFrom k 0 s.tree

def remove (input : NumberedSet K) (keyToRemove : K) : Except Raised (NumberedSet K × Int) := do
  let removedValue ←
    match input.find keyToRemove with
    | some value => .ok value
    | none => .error .notFound
  let newTree ← descend (counted K) id keyToRemove input.tree .top
  return (⟨newTree.blacken⟩, removedValue)

def wrap (f : List (ColorTree (K × Int)) → List (ColorTree (K × Int)) → Int →
    Digit K (K × Int) → Int × Digit K (K × Int)) (s1 s2 : NumberedSet K) : NumberedSet K :=
  ⟨linkAll (counted K) (f (start s1.tree) (start s2.tree) 0 .zero).2⟩

/-- The source hands the function `merge_fn` in and never calls it; `keyed_union_with` is the same. -/
def unionWith (s1 s2 : NumberedSet K) : NumberedSet K :=
  wrap (union (counted K) id fun key1 _ => key1) s1 s2

def intersectWith (s1 s2 : NumberedSet K) : NumberedSet K :=
  wrap (intersect (counted K) (counted K) (counted K) id id fun key1 _ => key1) s1 s2

end NumberedSet

def CountsExact : ColorTree (K × Int) → Prop
  | .empty => True
  | .node _ left (_, keys) right =>
      keys = left.size + right.size + 1 ∧ CountsExact left ∧ CountsExact right

variable {t : ColorTree (K × Int)}

theorem keysIn_eq (exact : (counted K).Exact t) : keysIn t = t.size := by
  induction exact with
  | empty => rfl
  | @node left right color a hl hr left_ih right_ih =>
    have stored : keysIn ((counted K).node color left a right) = keysIn left + keysIn right + 1 := rfl
    rw [stored, left_ih, right_ih, Layout.size_node]
    rfl

theorem countsExact_of_exact (exact : (counted K).Exact t) : CountsExact t := by
  induction exact with
  | empty => trivial
  | @node left right color a hl hr left_ih right_ih =>
    have count : keysIn left + keysIn right + 1 = left.size + right.size + 1 := by
      rw [keysIn_eq hl, keysIn_eq hr]
    exact ⟨count, left_ih, right_ih⟩

theorem childCount_eq (exact : CountsExact t) : childCount t = some (t.size : Int) := by
  induction t with
  | empty => rfl
  | node color left item right left_ih right_ih =>
    obtain ⟨count, exactLeft, exactRight⟩ := exact
    rw [childCount, left_ih exactLeft, right_ih exactRight]
    simp only [Option.bind_eq_bind, Option.bind_some, ColorTree.size]
    rw [if_neg (not_not.mpr count)]
    rfl

theorem allInvariantsHold_of {s : NumberedSet K} {h : Nat} (balanced : Balanced s.tree .black h)
    (exact : CountsExact s.tree) : s.allInvariantsHold = true := by
  have colors := redInvariantOk_balanced balanced true fun _ => rfl
  have depths : blackInvariantOk s.tree = true := by
    rw [blackInvariantOk, leftmostBlackdepth_balanced balanced]
    exact checkBlackdepth_balanced balanced 0
  have counts : childCountsOk s.tree = true := by
    rw [childCountsOk, childCount_eq exact]
    rfl
  unfold NumberedSet.allInvariantsHold
  split
  · rfl
  · next red =>
      rw [red] at balanced
      cases balanced
  · rw [depths, colors, counts]
    rfl

/-!
# The numbered set knows the rank of each member

Over every run of `set` and `remove`, `find` answers with the number of smaller members.
-/

def NumberedSet.keys (s : NumberedSet K) : List K := (counted K).items s.tree

variable [LinearOrder K]

namespace NumberedSet

structure Valid (s : NumberedSet K) : Prop where
  sorted : Sorted id s.keys
  exact : (counted K).Exact s.tree

def members (s : NumberedSet K) : Set K := {k | s.containsKey k = true}

variable {k : K} {s : NumberedSet K}

theorem mem_members (valid : s.Valid) : k ∈ s.members ↔ k ∈ s.keys := by
  refine (contains_iff k valid.sorted).trans ?_
  simp [keys]

theorem valid_empty : (empty : NumberedSet K).Valid := ⟨.nil, .empty⟩

theorem findFrom_eq (k : K) (n : Int) {t : ColorTree (K × Int)}
    (sorted : Sorted id ((counted K).items t)) (exact : (counted K).Exact t) :
    findFrom k n t = if k ∈ (counted K).items t then
      some (n + (below id k ((counted K).items t)).length) else none := by
  fun_induction findFrom k n t with
  | case1 => simp
  | case2 n color left key count right lt ih =>
    rw [compare_lt_iff_lt] at lt
    obtain ⟨sortedLeft, -⟩ := sorted.node
    obtain ⟨exactLeft, -⟩ := exact.tree_node
    rw [ih sortedLeft exactLeft, Layout.items_tree_node, below_left sorted lt]
    congr 1
    rw [eq_iff_iff]
    exact ⟨List.mem_append_left _, fun mem => mem_left sorted mem lt⟩
  | case3 n color left key count right eq =>
    rw [compare_eq_iff_eq] at eq
    obtain ⟨exactLeft, -⟩ := exact.tree_node
    have present : k ∈ (counted K).items (.node color left (key, count) right) := by
      rw [eq, Layout.items_tree_node]
      exact List.mem_append_right _ (List.mem_cons_self ..)
    rw [if_pos present, Layout.items_tree_node, below_middle sorted eq, keysIn_eq exactLeft,
      Layout.length_items]
  | case4 n color left key count right gt ih =>
    rw [compare_gt_iff_gt] at gt
    obtain ⟨-, sortedRight, -⟩ := sorted.node
    obtain ⟨exactLeft, exactRight, -⟩ := exact.tree_node
    have rank : n + keysIn left + 1 + ((below id k ((counted K).items right)).length : Int) =
        n + ((below id k ((counted K).items (.node color left (key, count) right))).length) := by
      rw [Layout.items_tree_node, below_right sorted gt, keysIn_eq exactLeft, List.length_append,
        List.length_cons, Layout.length_items]
      push_cast
      ring
    rw [ih sortedRight exactRight, rank]
    congr 1
    rw [eq_iff_iff, Layout.items_tree_node]
    exact ⟨fun mem => List.mem_append_right _ (List.mem_cons_of_mem _ mem),
      fun mem => mem_right sorted mem gt⟩

theorem find_eq (valid : s.Valid) (k : K) :
    s.find k = if k ∈ s.keys then some ((below id k s.keys).length : Int) else none := by
  unfold find
  rw [findFrom_eq k 0 valid.sorted valid.exact, zero_add]
  rfl

noncomputable def rank (s : NumberedSet K) (k : K) : Nat := {x ∈ s.members | x < k}.ncard

theorem length_below (valid : s.Valid) (k : K) : (below id k s.keys).length = s.rank k := by
  have same : {x ∈ s.members | x < k} = ((below id k s.keys).toFinset : Set K) := by
    ext x
    rw [Finset.mem_coe, List.mem_toFinset, mem_below, ← mem_members valid]
    rfl
  have nodup : (below id k s.keys).Nodup := (valid.sorted.filter _).imp ne_of_lt
  rw [rank, same, Set.ncard_coe_finset, List.toFinset_card_of_nodup nodup]

theorem find_member (valid : s.Valid) (mem : k ∈ s.members) : s.find k = some (s.rank k : Int) := by
  rw [find_eq valid, if_pos ((mem_members valid).mp mem), length_below valid]

theorem find_absent (valid : s.Valid) (absent : k ∉ s.members) : s.find k = none := by
  rw [find_eq valid, if_neg (mt (mem_members valid).mpr absent)]

theorem keys_set (valid : s.Valid) (k : K) :
    (s.set k).keys = below id k s.keys ++ k :: above id k s.keys := by
  rw [keys, set, Layout.items_blacken]
  exact items_insertItem k valid.sorted

theorem Valid.set (valid : s.Valid) (k : K) : (s.set k).Valid where
  sorted := by
    rw [keys_set valid]
    exact sorted_around valid.sorted k
  exact := (exact_insertItem k valid.exact).blacken

theorem members_set (valid : s.Valid) (k : K) : (s.set k).members = insert k s.members := by
  ext x
  rw [mem_members (valid.set k), keys_set valid, Set.mem_insert_iff, mem_members valid]
  refine mem_around.trans ?_
  by_cases same : x = k <;> simp [same]

theorem remove_absent (valid : s.Valid) (absent : k ∉ s.members) :
    s.remove k = .error .notFound := by
  unfold remove
  rw [find_absent valid absent]
  rfl

theorem remove_present (valid : s.Valid) (present : k ∈ s.members) :
    ∃ s', s.remove k = .ok (s', (s.rank k : Int)) ∧ s'.Valid ∧ s'.members = s.members \ {k} := by
  have mem := (mem_members valid).mp present
  obtain ⟨t, result, found⟩ := descend_present .top valid.sorted ⟨k, mem, rfl⟩
  have keysOf : (⟨t.blacken⟩ : NumberedSet K).keys = below id k s.keys ++ above id k s.keys := by
    rw [keys, Layout.items_blacken, found, DescentPath.before, DescentPath.after, List.nil_append,
      List.append_nil]
    rfl
  have beside : (DescentPath.top : DescentPath K (K × Int)).Exact (counted K) := trivial
  have valid' : (⟨t.blacken⟩ : NumberedSet K).Valid := by
    refine ⟨?_, (exact_descend valid.exact beside result).blacken⟩
    rw [keysOf]
    exact sorted_without valid.sorted k
  refine ⟨⟨t.blacken⟩, ?_, valid', ?_⟩
  · unfold remove
    simp only [id] at result
    rw [find_member valid present]
    simp only [bind, Except.bind, result]
    rfl
  · ext x
    rw [mem_members valid', keysOf, mem_without, Set.mem_sdiff, mem_members valid,
      Set.mem_singleton_iff]
    rfl

inductive Reachable : NumberedSet K → Prop
  | empty : Reachable empty
  | set {s : NumberedSet K} (k : K) : Reachable s → Reachable (s.set k)
  | remove {s s' : NumberedSet K} {k : K} {r : Int} :
      Reachable s → s.remove k = .ok (s', r) → Reachable s'

theorem Reachable.valid (reachable : Reachable s) : s.Valid := by
  induction reachable with
  | empty => exact valid_empty
  | set k _ ih => exact ih.set k
  | @remove s s' k r _ result ih =>
    by_cases present : k ∈ s.members
    · obtain ⟨s'', result', valid', -⟩ := remove_present ih present
      cases result.symm.trans result'
      exact valid'
    · cases result.symm.trans (remove_absent ih present)

theorem rank_index {s : NumberedSet K} (reachable : Reachable s) (k : K) :
    (k ∈ s.members → s.find k = some ({x ∈ s.members | x < k}.ncard : Int)) ∧
    (k ∉ s.members → s.find k = none) ∧ CountsExact s.tree ∧
    (s.set k).members = insert k s.members ∧
    (k ∈ s.members → ∃ s', s.remove k = .ok (s', ({x ∈ s.members | x < k}.ncard : Int)) ∧
      s'.members = s.members \ {k}) ∧ (k ∉ s.members → s.remove k = .error .notFound) ∧
    (empty : NumberedSet K).members = ∅ := by
  have valid := reachable.valid
  refine ⟨find_member valid, find_absent valid, countsExact_of_exact valid.exact,
    members_set valid k, ?_, remove_absent valid, ?_⟩
  · intro present
    obtain ⟨s', result, -, members⟩ := remove_present valid present
    exact ⟨s', result, members⟩
  · ext x
    rw [mem_members valid_empty]
    simp [keys, empty]

theorem rank_index_second : ((empty.set 5).set 3).find 5 =
      some ({x ∈ ((empty.set 5).set 3).members | x < 5}.ncard : Int) := by
  have reachable : Reachable ((empty.set 5).set 3 : NumberedSet Nat) := (Reachable.empty.set 5).set 3
  have member : ((empty.set 5).set 3 : NumberedSet Nat).containsKey 5 = true := by decide
  exact (rank_index reachable 5).1 member

end NumberedSet

end Mythryl.RedBlackNumberedSet

/-! # Which sets satisfy their package's invariant check -/

namespace Mythryl.RedBlackSet
open ColoredTree SortedKeys RedBlack

inductive Expr (K : Type)
  | empty
  | singleton (x : K)
  | add (s : Expr K) (x : K)
  | addList (s : Expr K) (l : List K)
  | delete (s : Expr K) (k : K)
  | union (s s' : Expr K)
  | intersection (s s' : Expr K)
  | difference (s s' : Expr K)
  | map (f : K → K) (s : Expr K)
  | filter (prior : K → Bool) (s : Expr K)
  | satisfying (prior : K → Bool) (s : Expr K)
  | violating (prior : K → Bool) (s : Expr K)

variable {K : Type} [LinearOrder K]

namespace Expr

def eval : Expr K → Except Raised (TreeSet K)
  | .empty => return RedBlackSet.empty
  | .singleton x => return RedBlackSet.singleton x
  | .add s x => return (← eval s).add x
  | .addList s l => return (← eval s).addList l
  | .delete s k => do (← eval s).delete k
  | .union s s' => return (← eval s).union (← eval s')
  | .intersection s s' => return (← eval s).intersection (← eval s')
  | .difference s s' => return (← eval s).difference (← eval s')
  | .map f s => return (← eval s).map f
  | .filter prior s => return (← eval s).filter prior
  | .satisfying prior s => return ((← eval s).partition prior).1
  | .violating prior s => return ((← eval s).partition prior).2

def isSingleton : Expr K → Bool
  | .singleton _ => true
  | .addList s [] => isSingleton s
  | _ => false

end Expr

/-- Valid, with the red-black rules but for a root that is red when it is alone. -/
structure Built (s : TreeSet K) (alone : Bool) : Prop extends s.Valid where
  rules : if alone then ∃ x, s = singleton x else ∃ n, Balanced s.tree .black n

namespace Built

variable {s s' : TreeSet K} {alone alone' : Bool}

theorem any_color (built : Built s alone) : ∃ c n, Balanced s.tree c n := by
  obtain ⟨-, rules⟩ := built
  split at rules
  · obtain ⟨x, rfl⟩ := rules
    exact ⟨.red, 0, .red x .empty .empty⟩
  · obtain ⟨n, balanced⟩ := rules
    exact ⟨.black, n, balanced⟩

theorem holds_iff (built : Built s alone) : s.allInvariantsHold = true ↔ alone = false := by
  obtain ⟨valid, rules⟩ := built
  cases alone with
  | true =>
    obtain ⟨x, rfl⟩ := rules
    constructor
    · intro holds
      cases holds
    · intro no
      cases no
  | false =>
    have holds := (allInvariantsHold_iff s.count s.tree).mpr ⟨rules, valid.counted⟩
    exact ⟨fun _ => rfl, fun _ => holds⟩

theorem ofItems {l : List K} (sorted : Sorted id l) : Built (TreeSet.ofItems l) false :=
  ⟨TreeSet.valid_ofItems sorted, (linkAll_addItems l).2.2⟩

theorem add (built : Built s alone) (x : K) : Built (s.add x) false := by
  refine ⟨built.toValid.add x, ?_⟩
  have rules := built.rules
  rw [TreeSet.add_eq]
  split at rules
  · obtain ⟨y, rfl⟩ := rules
    obtain ⟨c, n, balanced⟩ : ∃ c n, Balanced (insertItem (items K) id x (singleton y).tree) c n :=
      balanced_insertItem_red x (.red y .empty .empty)
    exact balanced.blacken
  · obtain ⟨n, balanced⟩ := rules
    obtain ⟨c, balanced'⟩ : ∃ c, Balanced (insertItem (items K) id x s.tree) c n :=
      balanced_insertItem x balanced
    exact balanced'.blacken

theorem addList (built : Built s false) (l : List K) : Built (s.addList l) false := by
  induction l generalizing s with
  | nil => exact built
  | cons x l ih => exact ih (built.add x)

theorem delete (built : Built s alone) {k : K} (result : s.delete k = .ok s') : Built s' false := by
  refine ⟨built.toValid.delete result, ?_⟩
  obtain ⟨c, n, balanced⟩ := built.any_color
  obtain ⟨t, descent, rfl⟩ := bind_pure_eq_ok.mp result
  obtain ⟨c', n', balanced'⟩ := balanced_descend balanced (.top n) (by simp) descent
  exact balanced'.blacken

theorem union (built : Built s alone) (built' : Built s' alone') : Built (s.union s') false := by
  rw [TreeSet.union_eq_ofItems]
  exact .ofItems (sorted_mergeItems TreeSet.keeps_union built.sorted built'.sorted)

theorem intersection (built : Built s alone) (built' : Built s' alone') :
    Built (s.intersection s') false := by
  rw [TreeSet.intersection_eq_ofItems]
  exact .ofItems (sorted_mergeItems TreeSet.keeps_intersection built.sorted built'.sorted)

theorem difference (built : Built s alone) (built' : Built s' alone') :
    Built (s.difference s') false := by
  rw [TreeSet.difference_eq_ofItems]
  exact .ofItems (sorted_mergeItems TreeSet.keeps_difference built.sorted built'.sorted)

theorem filter (built : Built s alone) (prior : K → Bool) : Built (s.filter prior) false := by
  rw [TreeSet.filter_eq_ofItems]
  exact .ofItems (built.sorted.filter prior)

theorem empty : Built (empty : TreeSet K) false := ⟨TreeSet.valid_empty, 0, .empty⟩

theorem map (f : K → K) (s : TreeSet K) : Built (s.map f) false := by
  unfold TreeSet.map TreeSet.foldForward
  rw [foldForward_eq]
  apply List.foldlRecOn (motive := fun s => Built s false)
  · exact .empty
  · exact fun m built x _ => built.add (f x)

end Built

theorem built_eval (e : Expr K) {s : TreeSet K} (value : e.eval = .ok s) :
    Built s e.isSingleton := by
  induction e generalizing s with
  | empty =>
    cases value
    exact .empty
  | singleton x =>
    cases value
    exact ⟨TreeSet.valid_singleton x, x, rfl⟩
  | add e x ih =>
    obtain ⟨s', value', rfl⟩ := bind_pure_eq_ok.mp value
    exact (ih value').add x
  | addList e l ih =>
    obtain ⟨s', value', rfl⟩ := bind_pure_eq_ok.mp value
    cases l with
    | nil => exact ih value'
    | cons x l => exact ((ih value').add x).addList l
  | delete e k ih =>
    obtain ⟨s', value', result⟩ := bind_eq_ok.mp value
    exact (ih value').delete result
  | union e e' ih ih' =>
    obtain ⟨s₁, value₁, rest⟩ := bind_eq_ok.mp value
    obtain ⟨s₂, value₂, rfl⟩ := bind_pure_eq_ok.mp rest
    exact (ih value₁).union (ih' value₂)
  | intersection e e' ih ih' =>
    obtain ⟨s₁, value₁, rest⟩ := bind_eq_ok.mp value
    obtain ⟨s₂, value₂, rfl⟩ := bind_pure_eq_ok.mp rest
    exact (ih value₁).intersection (ih' value₂)
  | difference e e' ih ih' =>
    obtain ⟨s₁, value₁, rest⟩ := bind_eq_ok.mp value
    obtain ⟨s₂, value₂, rfl⟩ := bind_pure_eq_ok.mp rest
    exact (ih value₁).difference (ih' value₂)
  | map f e ih =>
    obtain ⟨s', value', rfl⟩ := bind_pure_eq_ok.mp value
    exact .map f s'
  | filter prior e ih =>
    obtain ⟨s', value', rfl⟩ := bind_pure_eq_ok.mp value
    exact (ih value').filter prior
  | satisfying prior e ih =>
    obtain ⟨s', value', rfl⟩ := bind_pure_eq_ok.mp value
    rw [TreeSet.partition_eq]
    exact (ih value').filter prior
  | violating prior e ih =>
    obtain ⟨s', value', rfl⟩ := bind_pure_eq_ok.mp value
    rw [TreeSet.partition_eq]
    exact (ih value').filter _

end Mythryl.RedBlackSet

namespace Mythryl.RedBlackNumberedSet
open ColoredTree SortedKeys RedBlack

inductive Expr (K : Type)
  | empty
  | singleton (key : K)
  | fromList (list : List K)
  | set (s : Expr K) (key : K)
  | remove (s : Expr K) (key : K)
  | unionWith (s s' : Expr K)
  | intersectWith (s s' : Expr K)
  | filter (predicate : K → Bool) (s : Expr K)
  | keyedFilter (predicate : K → Int → Bool) (s : Expr K)

variable {K : Type} [LinearOrder K]

namespace Expr

def eval : Expr K → Except Raised (NumberedSet K)
  | .empty => return RedBlackNumberedSet.empty
  | .singleton key => return RedBlackNumberedSet.singleton key
  | .fromList list => return RedBlackNumberedSet.fromList list
  | .set s key => return (← eval s).set key
  | .remove s key => do
      let (s', _) ← (← eval s).remove key
      return s'
  | .unionWith s s' => return (← eval s).unionWith (← eval s')
  | .intersectWith s s' => return (← eval s).intersectWith (← eval s')
  | .filter predicate s => return (← eval s).filter predicate
  | .keyedFilter predicate s => return (← eval s).keyedFilter predicate

def isSingleton : Expr K → Bool
  | .singleton _ => true
  | _ => false

end Expr

structure Built (s : NumberedSet K) (alone : Bool) : Prop where
  exact : (counted K).Exact s.tree
  rules : if alone then ∃ x, s = singleton x else ∃ n, Balanced s.tree .black n

namespace Built

variable {s s' : NumberedSet K} {alone alone' : Bool}

theorem any_color (built : Built s alone) : ∃ c n, Balanced s.tree c n := by
  obtain ⟨-, rules⟩ := built
  split at rules
  · obtain ⟨x, rfl⟩ := rules
    exact ⟨.red, 0, .red (x, 1) .empty .empty⟩
  · obtain ⟨n, balanced⟩ := rules
    exact ⟨.black, n, balanced⟩

theorem holds_iff (built : Built s alone) : s.allInvariantsHold = true ↔ alone = false := by
  obtain ⟨exact, rules⟩ := built
  cases alone with
  | true =>
    obtain ⟨x, rfl⟩ := rules
    constructor
    · intro holds
      cases holds
    · intro no
      cases no
  | false =>
    obtain ⟨n, balanced⟩ := rules
    have holds := allInvariantsHold_of balanced (countsExact_of_exact exact)
    exact ⟨fun _ => rfl, fun _ => holds⟩

theorem linked (l : List K) :
    Built (⟨linkAll (counted K) (addItems (counted K) l .zero)⟩ : NumberedSet K) false :=
  ⟨(linkAll_addItems l).2.1, (linkAll_addItems l).2.2⟩

theorem fromList (list : List K) : Built (fromList list) false := by
  have loop (result : Digit K (K × Int)) :
      fromList.loop result list = ⟨linkAll (counted K) (addItems (counted K) list result)⟩ := by
    induction list generalizing result with
    | nil => rfl
    | cons this rest ih => exact ih _
  rw [RedBlackNumberedSet.fromList, loop]
  exact .linked list

theorem set (built : Built s alone) (key : K) : Built (s.set key) false := by
  refine ⟨(exact_insertItem key built.exact).blacken, ?_⟩
  have rules := built.rules
  split at rules
  · obtain ⟨y, rfl⟩ := rules
    obtain ⟨c, n, balanced⟩ :
        ∃ c n, Balanced (insertItem (counted K) id key (singleton y).tree) c n :=
      balanced_insertItem_red key (.red (y, 1) .empty .empty)
    exact balanced.blacken
  · obtain ⟨n, balanced⟩ := rules
    obtain ⟨c, balanced'⟩ : ∃ c, Balanced (insertItem (counted K) id key s.tree) c n :=
      balanced_insertItem key balanced
    exact balanced'.blacken

theorem remove (built : Built s alone) {key : K} {rank : Int}
    (result : s.remove key = .ok (s', rank)) : Built s' false := by
  obtain ⟨c, n, balanced⟩ := built.any_color
  unfold NumberedSet.remove at result
  cases found : s.find key with
  | none =>
    rw [found] at result
    cases result
  | some value =>
    rw [found] at result
    obtain ⟨value', -, rest⟩ := bind_eq_ok.mp result
    obtain ⟨t, descent, ⟨⟩⟩ := bind_pure_eq_ok.mp rest
    have beside : (DescentPath.top : DescentPath K (K × Int)).Exact (counted K) := trivial
    obtain ⟨c', n', balanced'⟩ := balanced_descend balanced (.top n) (by simp) descent
    exact ⟨(exact_descend built.exact beside descent).blacken, balanced'.blacken⟩

theorem unionWith (s s' : NumberedSet K) : Built (s.unionWith s') false := by
  unfold NumberedSet.unionWith NumberedSet.wrap
  rw [union_eq]
  exact .linked _

theorem intersectWith (s s' : NumberedSet K) : Built (s.intersectWith s') false := by
  unfold NumberedSet.intersectWith NumberedSet.wrap
  rw [intersect_eq]
  exact .linked _

theorem keyedFilter (s : NumberedSet K) (predicate : K → Int → Bool) :
    Built (s.keyedFilter predicate) false := by
  unfold NumberedSet.keyedFilter
  rw [filterWalk_eq]
  exact .linked _

end Built

theorem built_eval (e : Expr K) {s : NumberedSet K} (value : e.eval = .ok s) :
    Built s e.isSingleton := by
  induction e generalizing s with
  | empty =>
    cases value
    exact ⟨.empty, 0, .empty⟩
  | singleton key =>
    cases value
    exact ⟨.node .red key .empty .empty, key, rfl⟩
  | fromList list =>
    cases value
    exact .fromList list
  | set e key ih =>
    obtain ⟨s', value', rfl⟩ := bind_pure_eq_ok.mp value
    exact (ih value').set key
  | remove e key ih =>
    obtain ⟨s', value', rest⟩ := bind_eq_ok.mp value
    obtain ⟨⟨s'', rank⟩, result, rfl⟩ := bind_pure_eq_ok.mp rest
    exact (ih value').remove result
  | unionWith e e' ih ih' =>
    obtain ⟨s₁, value₁, rest⟩ := bind_eq_ok.mp value
    obtain ⟨s₂, value₂, rfl⟩ := bind_pure_eq_ok.mp rest
    exact .unionWith s₁ s₂
  | intersectWith e e' ih ih' =>
    obtain ⟨s₁, value₁, rest⟩ := bind_eq_ok.mp value
    obtain ⟨s₂, value₂, rfl⟩ := bind_pure_eq_ok.mp rest
    exact .intersectWith s₁ s₂
  | filter predicate e ih =>
    obtain ⟨s', value', rfl⟩ := bind_pure_eq_ok.mp value
    exact .keyedFilter s' _
  | keyedFilter predicate e ih =>
    obtain ⟨s', value', rfl⟩ := bind_pure_eq_ok.mp value
    exact .keyedFilter s' predicate

end Mythryl.RedBlackNumberedSet

namespace Mythryl.RedBlack

variable {K : Type} [LinearOrder K]

/-- The value of an expression passes the check of its package if and only if it is not what
`singleton` returned. -/
theorem all_invariants_hold_iff : (∀ (e : RedBlackSet.Expr K) s, e.eval = .ok s →
      (s.allInvariantsHold = true ↔ e.isSingleton = false)) ∧
    (∀ (e : RedBlackNumberedSet.Expr K) s, e.eval = .ok s →
      (s.allInvariantsHold = true ↔ e.isSingleton = false)) := by
  constructor
  · intro e s value
    exact (RedBlackSet.built_eval e value).holds_iff
  · intro e s value
    exact (RedBlackNumberedSet.built_eval e value).holds_iff

theorem all_invariants_hold_iff_added : ((RedBlackSet.singleton 7).add 5).allInvariantsHold = true ∧
      ((RedBlackNumberedSet.singleton 7).set 5).allInvariantsHold = true :=
  ⟨(all_invariants_hold_iff.1 (.add (.singleton 7) 5) _ rfl).mpr rfl,
    (all_invariants_hold_iff.2 (.set (.singleton 7) 5) _ rfl).mpr rfl⟩

theorem singleton_root_red : (∃ (e : RedBlackSet.Expr Nat) (s : RedBlackSet.TreeSet Nat),
      e.eval = .ok s ∧ s.allInvariantsHold = false) ∧
    (∃ (e : RedBlackNumberedSet.Expr Nat) (s : RedBlackNumberedSet.NumberedSet Nat),
      e.eval = .ok s ∧ s.allInvariantsHold = false) :=
  ⟨⟨.singleton 7, _, rfl, rfl⟩, ⟨.singleton 7, _, rfl, rfl⟩⟩

end Mythryl.RedBlack
