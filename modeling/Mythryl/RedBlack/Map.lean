import Mythryl.RedBlack.Build
import Mathlib.Analysis.SpecialFunctions.Log.Base

/-!
# The generic red-black map

`red_black_map_g`: a header with the count of nodes over a tree of key-value pairs.
-/

namespace Mythryl.RedBlackMap
open ColoredTree SortedKeys RedBlack

abbrev keyvals (K V : Type) : Layout (K × V) (K × V) := Layout.plain (K × V)

structure Map (K V : Type) where
  count : Int
  tree : ColorTree (K × V)
  deriving DecidableEq, Repr

section Operations

variable {K V V₁ V₂ : Type}

def Map.isEmpty (m : Map K V) : Bool :=
  match m.tree with
  | .empty => true
  | _ => false

def empty : Map K V := ⟨0, .empty⟩

def singleton (key : K) (value : V) : Map K V := ⟨1, .node .red .empty (key, value) .empty⟩

def Map.allInvariantsHold (m : Map K V) : Bool := RedBlack.allInvariantsHold m.count m.tree

def Map.valsCount (m : Map K V) : Int := m.count

def Map.keyedFoldForward {A : Type} (f : K → V → A → A) (init : A) (m : Map K V) : A :=
  foldForward (keyvals K V) (fun kv => f kv.1 kv.2) m.tree init

def Map.keyedFoldBackward {A : Type} (f : K → V → A → A) (init : A) (m : Map K V) : A :=
  foldBackward (keyvals K V) (fun kv => f kv.1 kv.2) m.tree init

def Map.keyvalsList (m : Map K V) : List (K × V) :=
  m.keyedFoldBackward (fun key1 val1 l => (key1, val1) :: l) []

def Map.keysList (m : Map K V) : List K := m.keyedFoldBackward (fun k _ l => k :: l) []

def Map.valsList (m : Map K V) : List V := m.keyedFoldBackward (fun _ val l => val :: l) []

def mapTree (f : K → V₁ → V) : ColorTree (K × V₁) → ColorTree (K × V)
  | .empty => .empty
  | .node color a (key1, val1) b => .node color (mapTree f a) (key1, f key1 val1) (mapTree f b)

def Map.keyedMap (f : K → V₁ → V) (m : Map K V₁) : Map K V := ⟨m.count, mapTree f m.tree⟩

def Map.map (f : V₁ → V) (m : Map K V₁) : Map K V := m.keyedMap fun _ => f

def Map.keyedFilter (predicate : K → V → Bool) (m : Map K V) : Map K V :=
  let (n, result) := filterWalk (keyvals K V) (fun kv => predicate kv.1 kv.2) m.tree 0 .zero
  ⟨n, linkAll (keyvals K V) result⟩

def Map.filter (predicate : V → Bool) (m : Map K V) : Map K V := m.keyedFilter fun _ => predicate

variable [Ord K]

def Map.set (m : Map K V) (key1 : K) (val1 : V) : Map K V :=
  let (tree, nItems') :=
    (insertItemCounting (keyvals K V) Prod.fst m.count (key1, val1) m.tree).run m.count
  ⟨nItems', tree.blacken⟩

def Map.containsKey (m : Map K V) (k : K) : Bool := contains (keyvals K V) Prod.fst k m.tree

def getIn (k : K) : ColorTree (K × V) → Option V
  | .empty => none
  | .node _ a (key2, val2) b =>
      match compare k key2 with
      | .lt => getIn k a
      | .eq => some val2
      | .gt => getIn k b

def Map.get (m : Map K V) (k : K) : Option V := getIn k m.tree

def Map.drop (m : Map K V) (keyToDrop : K) : Except Raised (Map K V × V) := do
  let droppedValue ←
    match m.get keyToDrop with
    | some value => .ok value
    | none => .error .notFound
  let newTree ← descend (keyvals K V) Prod.fst keyToDrop m.tree .top
  return (⟨m.count - 1, newTree.blacken⟩, droppedValue)

def wrap (f : List (ColorTree (K × V₁)) → List (ColorTree (K × V₂)) → Int → Digit (K × V) (K × V) →
    Int × Digit (K × V) (K × V)) (m1 : Map K V₁) (m2 : Map K V₂) : Map K V :=
  let (n, result) := f (start m1.tree) (start m2.tree) 0 .zero
  ⟨n, linkAll (keyvals K V) result⟩

def Map.keyedUnionWith (mergeFn : K → V → V → V) (m1 m2 : Map K V) : Map K V :=
  wrap (union (keyvals K V) Prod.fst fun x y => (x.1, mergeFn x.1 x.2 y.2)) m1 m2

def Map.unionWith (mergeFn : V → V → V) (m1 m2 : Map K V) : Map K V :=
  m1.keyedUnionWith (fun _ => mergeFn) m2

def Map.keyedIntersectWith (mergeFn : K → V₁ → V₂ → V) (m1 : Map K V₁) (m2 : Map K V₂) :
    Map K V :=
  wrap (intersect (keyvals K V₁) (keyvals K V₂) (keyvals K V) Prod.fst Prod.fst
    fun x y => (x.1, mergeFn x.1 x.2 y.2)) m1 m2

def Map.intersectWith (mergeFn : V₁ → V₂ → V) (m1 : Map K V₁) (m2 : Map K V₂) : Map K V :=
  m1.keyedIntersectWith (fun _ => mergeFn) m2

/-- The function `mergef`: the pair to be kept for a key that one of the maps has, or both. -/
def mergef (mergeFn : K → Option V₁ → Option V₂ → Option V) (x : Option (K × V₁))
    (y : Option (K × V₂)) : Option (K × V) :=
  match x, y with
  | some (k, val1), y => (mergeFn k (some val1) (y.map Prod.snd)).map (k, ·)
  | none, some (k, val2) => (mergeFn k none (some val2)).map (k, ·)
  | none, none => none

def Map.keyedMergeWith (mergeFn : K → Option V₁ → Option V₂ → Option V) (m1 : Map K V₁)
    (m2 : Map K V₂) : Map K V :=
  wrap (merge (keyvals K V₁) (keyvals K V₂) (keyvals K V) Prod.fst Prod.fst (mergef mergeFn)) m1 m2

def Map.mergeWith (mergeFn : Option V₁ → Option V₂ → Option V) (m1 : Map K V₁)
    (m2 : Map K V₂) : Map K V :=
  m1.keyedMergeWith (fun _ => mergeFn) m2

def Map.keyedMap' (f : K → V₁ → Option V) (m : Map K V₁) : Map K V :=
  m.keyedFoldForward (fun key1 val1 m =>
    match f key1 val1 with
    | some val2 => m.set key1 val2
    | none => m) empty

def Map.map' (f : V₁ → Option V) (m : Map K V₁) : Map K V := m.keyedMap' fun _ => f

def Map.compareSequences (compareVals : V → V → Ordering) (m1 m2 : Map K V) : Ordering :=
  compareWalk (keyvals K V) (fun x y =>
    match compare x.1 y.1 with
    | .eq => compareVals x.2 y.2
    | order => order) (start m1.tree) (start m2.tree)

end Operations

/-!
# The red-black map is a finite map

What each operation does to the ascending list of the bindings, and from that what `get` answers
afterwards.
-/

variable {K V V₁ V₂ : Type}

def Map.items (m : Map K V) : List (K × V) := (keyvals K V).items m.tree

theorem keyvalsList_eq (m : Map K V) : m.keyvalsList = m.items := by
  unfold Map.keyvalsList Map.keyedFoldBackward
  rw [foldBackward_eq]
  exact List.foldr_cons_eq_append.trans (by simp [Map.items])

theorem items_mapTree (f : K → V₁ → V) (t : ColorTree (K × V₁)) :
    (keyvals K V).items (mapTree f t) =
      ((keyvals K V₁).items t).map fun kv => (kv.1, f kv.1 kv.2) := by
  induction t with
  | empty => rfl
  | node color a kv b left_ih right_ih =>
    rw [mapTree, Layout.items_tree_node, Layout.items_tree_node, left_ih, right_ih,
      List.map_append, List.map_cons]
    rfl

theorem size_mapTree (f : K → V₁ → V) (t : ColorTree (K × V₁)) : (mapTree f t).size = t.size := by
  rw [← (keyvals K V).length_items, items_mapTree, List.length_map, Layout.length_items]

def ofItems (items : List (K × V)) : Map K V :=
  ⟨0 + items.length, linkAll (keyvals K V) (addItems (keyvals K V) items .zero)⟩

theorem items_ofItems (items : List (K × V)) : (ofItems items).items = items :=
  (linkAll_addItems items).1

theorem keyedFilter_eq (predicate : K → V → Bool) (m : Map K V) :
    m.keyedFilter predicate = ofItems (m.items.filter fun kv => predicate kv.1 kv.2) := by
  unfold Map.keyedFilter Map.items
  rw [filterWalk_eq, Layout.filter_items]
  rfl

theorem wrap_eq {f : List (ColorTree (K × V₁)) → List (ColorTree (K × V₂)) → Int →
    Digit (K × V) (K × V) → Int × Digit (K × V) (K × V)} {m1 : Map K V₁} {m2 : Map K V₂}
    {items : List (K × V)} (walk : f (start m1.tree) (start m2.tree) 0 .zero =
      ((0 : Int) + items.length, addItems (keyvals K V) items .zero)) :
    wrap f m1 m2 = ofItems items := by
  unfold wrap
  rw [walk]
  rfl

section InStep

variable [Ord K]

theorem keyedUnionWith_eq (mergeFn : K → V → V → V) (m1 m2 : Map K V) :
    m1.keyedUnionWith mergeFn m2 = ofItems (mergeItems Prod.fst Prod.fst
      (Option.merge fun x y => (x.1, mergeFn x.1 x.2 y.2)) m1.items m2.items) := by
  apply wrap_eq
  rw [union_eq, stackItems_start, stackItems_start]
  rfl

theorem keyedIntersectWith_eq (mergeFn : K → V₁ → V₂ → V) (m1 : Map K V₁) (m2 : Map K V₂) :
    m1.keyedIntersectWith mergeFn m2 = ofItems (mergeItems Prod.fst Prod.fst
      (Option.map₂ fun x y => (x.1, mergeFn x.1 x.2 y.2)) m1.items m2.items) := by
  apply wrap_eq
  rw [intersect_eq, stackItems_start, stackItems_start]
  rfl

theorem keyedMergeWith_eq (mergeFn : K → Option V₁ → Option V₂ → Option V) (m1 : Map K V₁)
    (m2 : Map K V₂) : m1.keyedMergeWith mergeFn m2 =
      ofItems (mergeItems Prod.fst Prod.fst (mergef mergeFn) m1.items m2.items) := by
  apply wrap_eq
  rw [merge_eq, stackItems_start, stackItems_start]
  rfl

end InStep

theorem keeps_merge (mergeFn : K → Option V₁ → Option V₂ → Option V) :
    KeepsKey Prod.fst Prod.fst (mergef mergeFn) (Prod.fst : K × V → K) where
  left := by
    rintro x o a eq
    obtain ⟨v, -, rfl⟩ := Option.map_eq_some_iff.mp eq
    rfl
  right := by
    rintro y a eq
    obtain ⟨v, -, rfl⟩ := Option.map_eq_some_iff.mp eq
    rfl
  none := rfl

variable [LinearOrder K]

structure Map.Valid (m : Map K V) : Prop where
  sorted : Sorted Prod.fst m.items
  counted : m.count = m.tree.size

variable {m : Map K V} {k : K} {v : V}

theorem Map.Valid.counts (valid : m.Valid) : m.count = m.items.length := by
  rw [valid.counted, Map.items, Layout.length_items]

theorem valid_ofItems {items : List (K × V)} (sorted : Sorted Prod.fst items) :
    (ofItems items).Valid where
  sorted := by rwa [items_ofItems]
  counted := by
    rw [← (keyvals K V).length_items, ← Map.items, items_ofItems]
    exact Int.zero_add _

theorem getIn_eq (k : K) {t : ColorTree (K × V)} (sorted : Sorted Prod.fst ((keyvals K V).items t)) :
    getIn k t = (find Prod.fst k ((keyvals K V).items t)).map Prod.snd := by
  fun_induction getIn k t with
  | case1 => rfl
  | case2 color a key2 val2 b lt ih =>
    rw [compare_lt_iff_lt] at lt
    rw [ih sorted.node.1, Layout.items_tree_node, find_left sorted lt]
  | case3 color a key2 val2 b eq =>
    rw [compare_eq_iff_eq] at eq
    rw [Layout.items_tree_node, find_middle sorted eq]
    rfl
  | case4 color a key2 val2 b gt ih =>
    rw [compare_gt_iff_gt] at gt
    rw [ih sorted.node.2.1, Layout.items_tree_node, find_right sorted gt]

theorem get_eq (valid : m.Valid) (k : K) :
    m.get k = (find Prod.fst k m.items).map Prod.snd := getIn_eq k valid.sorted

theorem get_eq_some (valid : m.Valid) : m.get k = some v ↔ (k, v) ∈ m.items := by
  rw [get_eq valid, Option.map_eq_some_iff]
  constructor
  · rintro ⟨⟨k', v'⟩, found, rfl⟩
    obtain ⟨mem, rfl⟩ := (find_eq_some valid.sorted).mp found
    exact mem
  · intro mem
    exact ⟨(k, v), (find_eq_some valid.sorted).mpr ⟨mem, rfl⟩, rfl⟩

theorem set_eq (m : Map K V) (k : K) (v : V) :
    m.set k v = ⟨if contains (keyvals K V) Prod.fst k m.tree then m.count else m.count + 1,
      (insertItem (keyvals K V) Prod.fst (k, v) m.tree).blacken⟩ := by
  unfold Map.set
  rw [insertItemCounting_run]

theorem items_set (valid : m.Valid) (k : K) (v : V) :
    (m.set k v).items = below Prod.fst k m.items ++ (k, v) :: above Prod.fst k m.items := by
  rw [set_eq, Map.items, Layout.items_blacken]
  exact items_insertItem (k, v) valid.sorted

theorem Map.Valid.set (valid : m.Valid) (k : K) (v : V) : (m.set k v).Valid where
  sorted := by
    rw [items_set valid]
    exact sorted_around valid.sorted (k, v)
  counted := by
    rw [set_eq, ColorTree.size_blacken, size_insertItem, valid.counted]
    split <;> simp_all

theorem get_set (valid : m.Valid) (k k' : K) (v : V) :
    (m.set k v).get k' = if k' = k then some v else m.get k' := by
  rw [get_eq (valid.set k v), items_set valid, find_around valid.sorted (k, v), get_eq valid]
  split <;> rfl

theorem drop_absent (absent : m.get k = none) : m.drop k = .error .notFound := by
  unfold Map.drop
  rw [absent]
  rfl

theorem drop_present (valid : m.Valid) (present : m.get k = some v) :
    ∃ m', m.drop k = .ok (m', v) ∧ m'.Valid ∧
      m'.items = below Prod.fst k m.items ++ above Prod.fst k m.items := by
  have mem := (get_eq_some valid).mp present
  obtain ⟨t, result, items⟩ := descend_present .top valid.sorted ⟨(k, v), mem, rfl⟩
  have itemsOf : (keyvals K V).items t.blacken =
      below Prod.fst k m.items ++ above Prod.fst k m.items := by
    rw [Layout.items_blacken, items, DescentPath.before, DescentPath.after, List.nil_append,
      List.append_nil]
    rfl
  refine ⟨⟨m.count - 1, t.blacken⟩, ?_, ⟨?_, ?_⟩, itemsOf⟩
  · unfold Map.drop
    rw [present]
    simp only [bind, Except.bind, result]
    rfl
  · rw [Map.items, itemsOf]
    exact sorted_without valid.sorted k
  · have length := length_without valid.sorted mem
    rw [← itemsOf, Layout.length_items] at length
    rw [valid.counts, ← length]
    push_cast
    exact Int.add_sub_cancel _ _

theorem get_drop {m' : Map K V} (valid : m.Valid) (valid' : m'.Valid)
    (items : m'.items = below Prod.fst k m.items ++ above Prod.fst k m.items) (k' : K) :
    m'.get k' = if k' = k then none else m.get k' := by
  rw [get_eq valid', items, find_without valid.sorted, get_eq valid]
  split <;> rfl

variable {m1 : Map K V₁} {m2 : Map K V₂}

theorem Map.Valid.keyedUnionWith {m1 m2 : Map K V} (valid1 : m1.Valid) (valid2 : m2.Valid)
    (mergeFn : K → V → V → V) : (m1.keyedUnionWith mergeFn m2).Valid := by
  rw [keyedUnionWith_eq]
  exact valid_ofItems (sorted_mergeItems (keepsKey_union mergeFn) valid1.sorted valid2.sorted)

theorem Map.Valid.keyedIntersectWith (valid1 : m1.Valid) (valid2 : m2.Valid)
    (mergeFn : K → V₁ → V₂ → V) : (m1.keyedIntersectWith mergeFn m2).Valid := by
  rw [keyedIntersectWith_eq]
  exact valid_ofItems (sorted_mergeItems (keepsKey_intersect mergeFn) valid1.sorted valid2.sorted)

theorem Map.Valid.keyedMergeWith (valid1 : m1.Valid) (valid2 : m2.Valid)
    (mergeFn : K → Option V₁ → Option V₂ → Option V) : (m1.keyedMergeWith mergeFn m2).Valid := by
  rw [keyedMergeWith_eq]
  exact valid_ofItems (sorted_mergeItems (keeps_merge mergeFn) valid1.sorted valid2.sorted)

theorem get_merged {f : Option (K × V₁) → Option (K × V₂) → Option (K × V)}
    (keeps : KeepsKey Prod.fst Prod.fst f Prod.fst) (valid1 : m1.Valid) (valid2 : m2.Valid) (k : K) :
    (ofItems (mergeItems Prod.fst Prod.fst f m1.items m2.items)).get k =
      (f ((m1.get k).map (k, ·)) ((m2.get k).map (k, ·))).map Prod.snd := by
  have known {W : Type} {m : Map K W} (valid : m.Valid) :
      find Prod.fst k m.items = (m.get k).map (k, ·) := by
    apply Option.ext
    rintro ⟨k', w⟩
    rw [find_eq_some valid.sorted, Option.map_eq_some_iff]
    constructor
    · rintro ⟨mem, rfl⟩
      exact ⟨w, (get_eq_some valid).mpr mem, rfl⟩
    · rintro ⟨w', found, eq⟩
      cases eq
      exact ⟨(get_eq_some valid).mp found, rfl⟩
  have sorted := sorted_mergeItems keeps valid1.sorted valid2.sorted
  rw [get_eq (valid_ofItems sorted), items_ofItems,
    find_mergeItems keeps valid1.sorted valid2.sorted, known valid1, known valid2]

theorem get_keyedUnionWith {m1 m2 : Map K V} (valid1 : m1.Valid) (valid2 : m2.Valid)
    (mergeFn : K → V → V → V) (k : K) :
    (m1.keyedUnionWith mergeFn m2).get k = Option.merge (mergeFn k) (m1.get k) (m2.get k) := by
  rw [keyedUnionWith_eq, get_merged (keepsKey_union mergeFn) valid1 valid2]
  cases m1.get k <;> cases m2.get k <;> rfl

theorem get_keyedIntersectWith (valid1 : m1.Valid) (valid2 : m2.Valid)
    (mergeFn : K → V₁ → V₂ → V) (k : K) : (m1.keyedIntersectWith mergeFn m2).get k =
      Option.map₂ (mergeFn k) (m1.get k) (m2.get k) := by
  rw [keyedIntersectWith_eq, get_merged (keepsKey_intersect mergeFn) valid1 valid2]
  cases m1.get k <;> cases m2.get k <;> rfl

theorem get_keyedMergeWith (valid1 : m1.Valid) (valid2 : m2.Valid)
    (mergeFn : K → Option V₁ → Option V₂ → Option V) (k : K) :
    (m1.keyedMergeWith mergeFn m2).get k =
      if m1.get k = none ∧ m2.get k = none then none else mergeFn k (m1.get k) (m2.get k) := by
  rw [keyedMergeWith_eq, get_merged (keeps_merge mergeFn) valid1 valid2]
  cases m1.get k <;> cases m2.get k <;> simp [mergef, Function.comp_def]

theorem Map.Valid.keyedFilter (valid : m.Valid) (predicate : K → V → Bool) :
    (m.keyedFilter predicate).Valid := by
  rw [keyedFilter_eq]
  exact valid_ofItems (valid.sorted.filter _)

theorem Map.Valid.keyedMap {m : Map K V₁} (valid : m.Valid) (f : K → V₁ → V) :
    (m.keyedMap f).Valid where
  sorted := by
    rw [Map.items, Map.keyedMap, items_mapTree]
    exact List.pairwise_map.mpr valid.sorted
  counted := by
    rw [Map.keyedMap, size_mapTree]
    exact valid.counted

theorem Map.Valid.drop {m' : Map K V} (valid : m.Valid)
    (result : m.drop k = .ok (m', v)) : m'.Valid := by
  cases present : m.get k with
  | none => cases result.symm.trans (drop_absent present)
  | some v' =>
    obtain ⟨m'', result', valid', -⟩ := drop_present valid present
    cases result.symm.trans result'
    exact valid'

theorem Map.Valid.empty : (empty : Map K V).Valid where
  sorted := .nil
  counted := rfl

theorem Map.Valid.singleton (k : K) (v : V) : (singleton k v).Valid where
  sorted := List.pairwise_singleton ..
  counted := rfl

theorem Map.Valid.keyedMap' (f : K → V₁ → Option V) (m : Map K V₁) : (m.keyedMap' f).Valid := by
  unfold Map.keyedMap' Map.keyedFoldForward
  rw [foldForward_eq]
  apply List.foldlRecOn
  · exact .empty
  · intro accum valid kv _
    dsimp only
    split
    · exact valid.set kv.1 _
    · exact valid

variable (K) in
inductive Reachable : {V : Type} → Map K V → Prop
  | empty {V : Type} : Reachable (empty : Map K V)
  | singleton {V : Type} (k : K) (v : V) : Reachable (singleton k v)
  | set {V : Type} {m : Map K V} (k : K) (v : V) : Reachable m → Reachable (m.set k v)
  | drop {V : Type} {m m' : Map K V} {k : K} {v : V} :
      Reachable m → m.drop k = .ok (m', v) → Reachable m'
  | unionWith {V : Type} {m1 m2 : Map K V} (mergeFn : V → V → V) :
      Reachable m1 → Reachable m2 → Reachable (m1.unionWith mergeFn m2)
  | keyedUnionWith {V : Type} {m1 m2 : Map K V} (mergeFn : K → V → V → V) :
      Reachable m1 → Reachable m2 → Reachable (m1.keyedUnionWith mergeFn m2)
  | intersectWith {V₁ V₂ V : Type} {m1 : Map K V₁} {m2 : Map K V₂} (mergeFn : V₁ → V₂ → V) :
      Reachable m1 → Reachable m2 → Reachable (m1.intersectWith mergeFn m2)
  | keyedIntersectWith {V₁ V₂ V : Type} {m1 : Map K V₁} {m2 : Map K V₂}
      (mergeFn : K → V₁ → V₂ → V) :
      Reachable m1 → Reachable m2 → Reachable (m1.keyedIntersectWith mergeFn m2)
  | mergeWith {V₁ V₂ V : Type} {m1 : Map K V₁} {m2 : Map K V₂}
      (mergeFn : Option V₁ → Option V₂ → Option V) :
      Reachable m1 → Reachable m2 → Reachable (m1.mergeWith mergeFn m2)
  | keyedMergeWith {V₁ V₂ V : Type} {m1 : Map K V₁} {m2 : Map K V₂}
      (mergeFn : K → Option V₁ → Option V₂ → Option V) :
      Reachable m1 → Reachable m2 → Reachable (m1.keyedMergeWith mergeFn m2)
  | filter {V : Type} {m : Map K V} (predicate : V → Bool) :
      Reachable m → Reachable (m.filter predicate)
  | keyedFilter {V : Type} {m : Map K V} (predicate : K → V → Bool) :
      Reachable m → Reachable (m.keyedFilter predicate)
  | map {V₁ V : Type} {m : Map K V₁} (f : V₁ → V) : Reachable m → Reachable (m.map f)
  | keyedMap {V₁ V : Type} {m : Map K V₁} (f : K → V₁ → V) :
      Reachable m → Reachable (m.keyedMap f)
  | map' {V₁ V : Type} {m : Map K V₁} (f : V₁ → Option V) : Reachable m → Reachable (m.map' f)
  | keyedMap' {V₁ V : Type} {m : Map K V₁} (f : K → V₁ → Option V) :
      Reachable m → Reachable (m.keyedMap' f)

theorem Reachable.valid (reachable : Reachable K m) : m.Valid := by
  induction reachable with
  | empty => exact .empty
  | singleton k v => exact .singleton k v
  | set k v _ ih => exact ih.set k v
  | drop _ result ih => exact ih.drop result
  | unionWith mergeFn _ _ ih1 ih2 => exact ih1.keyedUnionWith ih2 fun _ => mergeFn
  | keyedUnionWith mergeFn _ _ ih1 ih2 => exact ih1.keyedUnionWith ih2 mergeFn
  | intersectWith mergeFn _ _ ih1 ih2 => exact ih1.keyedIntersectWith ih2 fun _ => mergeFn
  | keyedIntersectWith mergeFn _ _ ih1 ih2 => exact ih1.keyedIntersectWith ih2 mergeFn
  | mergeWith mergeFn _ _ ih1 ih2 => exact ih1.keyedMergeWith ih2 fun _ => mergeFn
  | keyedMergeWith mergeFn _ _ ih1 ih2 => exact ih1.keyedMergeWith ih2 mergeFn
  | filter predicate _ ih => exact ih.keyedFilter fun _ => predicate
  | keyedFilter predicate _ ih => exact ih.keyedFilter predicate
  | map f _ ih => exact ih.keyedMap fun _ => f
  | keyedMap f _ ih => exact ih.keyedMap f
  | map' f _ _ => exact .keyedMap' (fun _ => f) _
  | keyedMap' f _ _ => exact .keyedMap' f _

/-- `set` and `drop` change the binding of one key, the list of the bindings is in ascending order,
and the count is right. -/
theorem finite_map {m : Map K V} (reachable : Reachable K m) (k : K) :
    (∀ v k', (m.set k v).get k' = if k' = k then some v else m.get k') ∧
    (∀ v, m.get k = some v → ∃ m', m.drop k = .ok (m', v) ∧
      ∀ k', m'.get k' = if k' = k then none else m.get k') ∧
    (m.drop k = .error .notFound ↔ m.get k = none) ∧
    (∀ v, (k, v) ∈ m.keyvalsList ↔ m.get k = some v) ∧
    m.keyvalsList.Pairwise (fun x y => x.1 < y.1) ∧
    m.valsCount = m.keyvalsList.length := by
  have valid := reachable.valid
  rw [keyvalsList_eq]
  refine ⟨fun v k' => get_set valid k k' v, ?_, ?_, fun v => (get_eq_some valid).symm,
    valid.sorted, valid.counts⟩
  · intro v present
    obtain ⟨m', result, valid', items⟩ := drop_present valid present
    exact ⟨m', result, get_drop valid valid' items⟩
  · constructor
    · intro raised
      cases present : m.get k with
      | none => rfl
      | some v =>
        obtain ⟨m', result, -⟩ := drop_present valid present
        cases raised.symm.trans result
    · exact drop_absent

theorem finite_map_singleton : (((singleton 1 'a').set 2 'b').get 1 = some 'a') ∧
      ((singleton 1 'a').drop 2 = .error .notFound) :=
  have facts := finite_map (Reachable.singleton 1 'a') 2
  ⟨by rw [facts.1]; decide, facts.2.2.1.mpr (by decide)⟩

theorem compareSequences_eq [Ord V] (m1 m2 : Map K V) : m1.compareSequences compare m2 =
    List.compareLex (compareLex (compareOn Prod.fst) (compareOn Prod.snd)) m1.items m2.items := by
  unfold Map.compareSequences
  rw [compareWalk_eq, stackItems_start, stackItems_start]
  rfl

/-- `compare_sequences` is a total order on what maps answer, whatever the shapes of the trees. -/
theorem compareSequences_order [Ord V] [Std.TransOrd V] [Std.LawfulEqOrd V] {m1 m2 : Map K V}
    (reachable1 : Reachable K m1) (reachable2 : Reachable K m2) :
    (m1.compareSequences compare m2 = .eq ↔ ∀ k, m1.get k = m2.get k) ∧
    m2.compareSequences compare m1 = (m1.compareSequences compare m2).swap ∧
    ∀ m3, (m1.compareSequences compare m2).isLE → (m2.compareSequences compare m3).isLE →
      (m1.compareSequences compare m3).isLE := by
  have valid1 := reachable1.valid
  have valid2 := reachable2.valid
  have lawful : Std.LawfulEqCmp (compareLex (compareOn Prod.fst) (compareOn Prod.snd) :
      K × V → K × V → Ordering) := by
    let order : Ord (K × V) := lexOrd
    exact inferInstanceAs (Std.LawfulEqOrd (K × V))
  simp only [compareSequences_eq]
  refine ⟨?_, Std.OrientedCmp.eq_swap, fun m3 => Std.TransCmp.isLE_trans⟩
  rw [Std.LawfulEqCmp.compare_eq_iff_eq]
  constructor
  · intro same k
    rw [get_eq valid1, get_eq valid2, same]
  · intro same
    apply eq_of_mem_iff valid1.sorted valid2.sorted
    rintro ⟨k, v⟩
    rw [← get_eq_some valid1, ← get_eq_some valid2, same]

theorem compareSequences_order_singletons :
    ((singleton 1 7).compareSequences compare (singleton 2 8) = .eq ↔
      ∀ k, (singleton 1 7).get k = (singleton 2 8).get k) :=
  (compareSequences_order (.singleton 1 7) (.singleton 2 8)).1

end Mythryl.RedBlackMap

/-!
# Balance of the red-black map

What runs of `set` and `drop` from the empty map keep: the red-black rules, and with them a height
of at most twice the binary logarithm of the size.
-/

namespace Mythryl.RedBlackMap
open ColoredTree SortedKeys RedBlack

variable {K V : Type} {m m' : Map K V}

theorem balanced_set [Ord K] (k : K) (v : V) {n : Nat}
    (h : Balanced m.tree .black n) : ∃ n', Balanced (m.set k v).tree .black n' := by
  unfold Map.set
  rw [insertItemCounting_run]
  obtain ⟨c, balanced⟩ : ∃ c, Balanced (insertItem (keyvals K V) Prod.fst (k, v) m.tree) c n :=
    balanced_insertItem (k, v) h
  exact balanced.blacken

theorem balanced_drop [Ord K] {k : K} {v : V} {n : Nat}
    (h : Balanced m.tree .black n) (result : m.drop k = .ok (m', v)) :
    ∃ n', Balanced m'.tree .black n' := by
  unfold Map.drop at result
  cases found : m.get k with
  | none =>
    rw [found] at result
    cases result
  | some value =>
    rw [found] at result
    obtain ⟨value', -, rest⟩ := bind_eq_ok.mp result
    obtain ⟨t, descent, ⟨⟩⟩ := bind_pure_eq_ok.mp rest
    obtain ⟨c, n', balanced⟩ := balanced_descend h (.top n) (by simp) descent
    exact balanced.blacken

inductive Op (K V : Type)
  | set (key : K) (value : V)
  | drop (key : K)

def step [Ord K] (m : Map K V) : Op K V → Except Raised (Map K V)
  | .set key value => .ok (m.set key value)
  | .drop key =>
      match m.drop key with
      | .ok (m', _) => .ok m'
      | .error e => .error e

def runFrom [Ord K] (m : Map K V) : List (Op K V) → Except Raised (Map K V)
  | [] => .ok m
  | op :: ops =>
      match step m op with
      | .ok m' => runFrom m' ops
      | .error e => .error e

variable [LinearOrder K]

structure Map.Lawful (m : Map K V) : Prop extends m.Valid where
  balanced : ∃ n, Balanced m.tree .black n

theorem Map.Lawful.step (lawful : m.Lawful) {op : Op K V}
    (result : step m op = .ok m') : m'.Lawful := by
  obtain ⟨valid, n, balanced⟩ := lawful
  cases op with
  | set key value =>
    cases result
    exact ⟨valid.set key value, balanced_set key value balanced⟩
  | drop key =>
    cases dropped : m.drop key with
    | error e =>
      simp only [RedBlackMap.step, dropped] at result
      cases result
    | ok pair =>
      simp only [RedBlackMap.step, dropped] at result
      cases result
      exact ⟨valid.drop dropped, balanced_drop balanced dropped⟩

theorem Map.Lawful.run (lawful : m.Lawful) {ops : List (Op K V)}
    (result : runFrom m ops = .ok m') : m'.Lawful := by
  induction ops generalizing m with
  | nil =>
    cases result
    exact lawful
  | cons op ops ih =>
    unfold runFrom at result
    split at result
    · next first => exact ih (lawful.step first) result
    · cases result

theorem Map.Lawful.empty : (empty : Map K V).Lawful :=
  ⟨.empty, 0, .empty⟩

theorem Map.Lawful.height_le (lawful : m.Lawful) :
    (m.tree.height : ℝ) ≤ 2 * Real.logb 2 (m.keyvalsList.length + 1) := by
  obtain ⟨n, balanced⟩ := lawful.balanced
  have low : (2 : ℝ) ^ m.tree.height ≤ ((m.tree.size : ℝ) + 1) ^ 2 := by
    exact_mod_cast balanced.two_pow_height_le
  rw [keyvalsList_eq, Map.items, Layout.length_items]
  calc (m.tree.height : ℝ)
      = Real.logb 2 (2 ^ m.tree.height) := by
        rw [Real.logb_pow, Real.logb_self_eq_one (by norm_num), mul_one]
    _ ≤ Real.logb 2 (((m.tree.size : ℝ) + 1) ^ 2) :=
        Real.logb_le_logb_of_le (by norm_num) (by positivity) low
    _ = 2 * Real.logb 2 ((m.tree.size : ℝ) + 1) := by
        rw [Real.logb_pow]
        norm_num

/-- A run stops at a `drop` of an absent key; every map it comes to satisfies the package's own check,
the red-black rules and the bound on the height. -/
theorem red_black_balance {ops : List (Op K V)} {m : Map K V} (run : runFrom empty ops = .ok m) :
    m.allInvariantsHold = true ∧ (∃ n, Balanced m.tree .black n) ∧
      m.keyvalsList.Pairwise (fun x y => x.1 < y.1) ∧ m.valsCount = m.keyvalsList.length ∧
      (m.tree.height : ℝ) ≤ 2 * Real.logb 2 (m.keyvalsList.length + 1) := by
  have lawful := Map.Lawful.empty.run run
  refine ⟨?_, lawful.balanced, ?_, ?_, lawful.height_le⟩
  · exact (allInvariantsHold_iff m.count m.tree).mpr ⟨lawful.balanced, lawful.counted⟩
  · rw [keyvalsList_eq]
    exact lawful.sorted
  · rw [keyvalsList_eq]
    exact lawful.toValid.counts

theorem red_black_balance_leaf :
    ∃ m : Map Nat Char, runFrom empty [.set 2 'b', .set 1 'a', .drop 1] = .ok m ∧
      m.allInvariantsHold = true := by
  have run : runFrom empty [.set 2 'b', .set 1 'a', .drop 1] =
      .ok (⟨1, .node .black .empty (2, 'b') .empty⟩ : Map Nat Char) := by decide
  exact ⟨_, run, (red_black_balance run).1⟩

end Mythryl.RedBlackMap
