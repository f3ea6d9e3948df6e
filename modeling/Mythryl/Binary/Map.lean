import Mythryl.Binary.Tree
import Mythryl.SortedKeys
import Mathlib.Order.Compare

/-!
# The map of ordered keys as a binary tree

`binary_map_g`, and what its operations make of the ascending bindings of its trees.
-/

namespace Mythryl.Binary.Map
open SortedKeys

section Operations

variable {K X Y Z : Type}

def empty : Tree (K × X) := .empty

def isEmpty : Tree (K × X) → Bool
  | .empty => true
  | _ => false

def valsCount (m : Tree (K × X)) : Nat := m.count

def firstValElseNull : Tree (K × X) → Option X
  | .empty => none
  | .node (_, value) _ .empty _ => some value
  | .node _ _ left _ => firstValElseNull left

def firstKeyvalElseNull : Tree (K × X) → Option (K × X)
  | .empty => none
  | .node (key, value) _ .empty _ => some (key, value)
  | .node _ _ left _ => firstKeyvalElseNull left

def singleton (x : K) (v : X) : Tree (K × X) := .node (x, v) 1 .empty .empty

def d2l (item : K → X → Y) : Tree (K × X) → List Y → List Y
  | .node (key, value) _ left right, l => d2l item left (item key value :: d2l item right l)
  | .empty, l => l

def valsList (d : Tree (K × X)) : List X := d2l (fun _ value => value) d []

def keyvalsList (d : Tree (K × X)) : List (K × X) := d2l Prod.mk d []

def keysList (d : Tree (K × X)) : List K := d2l (fun key _ => key) d []

def keyedMap (f : K → X → Y) : Tree (K × X) → Tree (K × Y)
  | .node (key, value) count left right =>
      let left' := keyedMap f left
      let value' := f key value
      let right' := keyedMap f right
      .node (key, value') count left' right'
  | .empty => .empty

def map (f : X → Y) (d : Tree (K × X)) : Tree (K × Y) := keyedMap (fun _ x => f x) d

def keyedFoldForward (f : K → X → Y → Y) (init : Y) (d : Tree (K × X)) : Y :=
  Binary.foldForward (fun item => f item.1 item.2) d init

def foldForward (f : X → Y → Y) (init : Y) (d : Tree (K × X)) : Y :=
  keyedFoldForward (fun _ v accum => f v accum) init d

def keyedFoldBackward (f : K → X → Y → Y) (init : Y) (d : Tree (K × X)) : Y :=
  Binary.foldBackward (fun item => f item.1 item.2) d init

def foldBackward (f : X → Y → Y) (init : Y) (d : Tree (K × X)) : Y :=
  keyedFoldBackward (fun _ v accum => f v accum) init d

variable [Ord K]

def set : Tree (K × X) → K → X → Except Raised (Tree (K × X))
  | .empty, x, v => .ok (.node (x, v) 1 .empty .empty)
  | .node (key, value) count left right, x, v =>
      match compare key x with
      | .gt => do rebalance (key, value) (← set left x v) right
      | .lt => do rebalance (key, value) left (← set right x v)
      | _ => .ok (.node (x, v) count left right)

def containsKey : Tree (K × X) → K → Bool
  | .node (key, _) _ left right, x =>
      match compare x key with
      | .gt => containsKey right x
      | .eq => true
      | .lt => containsKey left x
  | .empty, _ => false

def get : Tree (K × X) → K → Option X
  | .node (key, value) _ left right, x =>
      match compare x key with
      | .gt => get right x
      | .eq => some value
      | .lt => get left x
  | .empty, _ => none

def drop : Tree (K × X) → K → Except Raised (Tree (K × X) × X)
  | .empty, _ => .error .notFound
  | .node (key, value) _ left right, x =>
      match compare key x with
      | .gt => do
          let (left', v) ← drop left x
          return (← rebalance (key, value) left' right, v)
      | .lt => do
          let (right', v) ← drop right x
          return (← rebalance (key, value) left right', v)
      | _ => do return (← delete' left right, value)

def insUnion (f : K → X → X → X) (key : K) (x : X) (m : Except Raised (Tree (K × X))) :
    Except Raised (Tree (K × X)) := do
  let m ← m
  match get m key with
  | some x' => set m key (f key x x')
  | none => set m key x

def keyedUnionWith (f : K → X → X → X) (m1 m2 : Tree (K × X)) : Except Raised (Tree (K × X)) :=
  if valsCount m1 > valsCount m2 then
    keyedFoldForward (insUnion fun k a b => f k b a) (.ok m1) m2
  else keyedFoldForward (insUnion f) (.ok m2) m1

def unionWith (f : X → X → X) (m1 m2 : Tree (K × X)) : Except Raised (Tree (K × X)) :=
  if valsCount m1 > valsCount m2 then
    keyedFoldForward (insUnion fun _ a b => f b a) (.ok m1) m2
  else keyedFoldForward (insUnion fun _ => f) (.ok m2) m1

def intersect (f : K → X → Y → Z) (m1 : Tree (K × X)) (m2 : Tree (K × Y)) :
    Except Raised (Tree (K × Z)) :=
  keyedFoldForward (fun key x m => do
    let m ← m
    match get m2 key with
    | none => return m
    | some x' => set m key (f key x x')) (.ok empty) m1

def keyedIntersectWith (f : K → X → Y → Z) (m1 : Tree (K × X)) (m2 : Tree (K × Y)) :
    Except Raised (Tree (K × Z)) :=
  if valsCount m1 ≤ valsCount m2 then intersect (fun k a b => f k b a) m2 m1
  else intersect f m1 m2

def intersectWith (f : X → Y → Z) (m1 : Tree (K × X)) (m2 : Tree (K × Y)) :
    Except Raised (Tree (K × Z)) :=
  if valsCount m1 ≤ valsCount m2 then intersect (fun _ a b => f b a) m2 m1
  else intersect (fun _ => f) m1 m2

def merge (f : K → Option X → Option Y → Option Z) :
    List (K × X) → List (K × Y) → Tree (K × Z) → Except Raised (Tree (K × Z))
  | [], [], m => .ok m
  | (k1, x1) :: r1, [], m => do
      match f k1 (some x1) none with
      | some y => merge f r1 [] (← set m k1 y)
      | none => merge f r1 [] m
  | [], (k2, x2) :: r2, m => do
      match f k2 none (some x2) with
      | some y => merge f [] r2 (← set m k2 y)
      | none => merge f [] r2 m
  | (k1, x1) :: r1, (k2, x2) :: r2, m => do
      match compare k1 k2 with
      | .lt =>
          match f k1 (some x1) none with
          | some y => merge f r1 ((k2, x2) :: r2) (← set m k1 y)
          | none => merge f r1 ((k2, x2) :: r2) m
      | .eq =>
          match f k1 (some x1) (some x2) with
          | some y => merge f r1 r2 (← set m k1 y)
          | none => merge f r1 r2 m
      | .gt =>
          match f k2 none (some x2) with
          | some y => merge f ((k1, x1) :: r1) r2 (← set m k2 y)
          | none => merge f ((k1, x1) :: r1) r2 m
  termination_by m1 m2 => m1.length + m2.length

def mergeWith (f : Option X → Option Y → Option Z) (m1 : Tree (K × X)) (m2 : Tree (K × Y)) :
    Except Raised (Tree (K × Z)) :=
  merge (fun _ => f) (keyvalsList m1) (keyvalsList m2) empty

def keyedMergeWith (f : K → Option X → Option Y → Option Z) (m1 : Tree (K × X))
    (m2 : Tree (K × Y)) : Except Raised (Tree (K × Z)) :=
  merge f (keyvalsList m1) (keyvalsList m2) empty

def keyedFilter (predG : K → X → Bool) (m : Tree (K × X)) : Except Raised (Tree (K × X)) :=
  keyedFoldForward (fun key item m => do
    let m ← m
    if predG key item then set m key item else return m) (.ok empty) m

def filter (predG : X → Bool) (m : Tree (K × X)) : Except Raised (Tree (K × X)) :=
  keyedFoldForward (fun key item m => do
    let m ← m
    if predG item then set m key item else return m) (.ok empty) m

def keyedMap' (f : K → X → Option Y) (m : Tree (K × X)) : Except Raised (Tree (K × Y)) :=
  keyedFoldForward (fun key item m => do
    let m ← m
    match f key item with
    | some item' => set m key item'
    | none => return m) (.ok empty) m

def map' (f : X → Option Y) (m : Tree (K × X)) : Except Raised (Tree (K × Y)) :=
  keyedFoldForward (fun key item m => do
    let m ← m
    match f item with
    | some item' => set m key item'
    | none => return m) (.ok empty) m

end Operations

section Bindings

variable {K X Y : Type} {t : Tree (K × X)}

theorem d2l_eq (item : K → X → Y) (t : Tree (K × X)) (l : List Y) :
    d2l item t l = (t.items.map fun kv => item kv.1 kv.2) ++ l := by
  induction t generalizing l with
  | empty => rfl
  | node kv n left right ihl ihr => simp [d2l, ihl, ihr]

theorem keyvalsList_eq (t : Tree (K × X)) : keyvalsList t = t.items := by
  simp [keyvalsList, d2l_eq]

theorem items_keyedMap (f : K → X → Y) (t : Tree (K × X)) :
    (keyedMap f t).items = t.items.map fun kv => (kv.1, f kv.1 kv.2) := by
  induction t with
  | empty => rfl
  | node kv n left right ihl ihr => simp [keyedMap, ihl, ihr]

theorem count_keyedMap (f : K → X → Y) (t : Tree (K × X)) : (keyedMap f t).count = t.count := by
  cases t <;> rfl

theorem exact_keyedMap (f : K → X → Y) (exact : t.Exact) : (keyedMap f t).Exact := by
  induction t with
  | empty => trivial
  | node kv n left right ihl ihr =>
    obtain ⟨count, exactL, exactR⟩ := exact
    simp only [keyedMap, Tree.Exact, count_keyedMap]
    exact ⟨count, ihl exactL, ihr exactR⟩

theorem firstKeyvalElseNull_eq (t : Tree (K × X)) : firstKeyvalElseNull t = t.items.head? := by
  fun_induction firstKeyvalElseNull t with
  | case1 => rfl
  | case2 => rfl
  | case3 kv n left right nonempty ih =>
    cases left with
    | empty => exact (nonempty kv.1 kv.2 rfl rfl).elim
    | node kv' n' left' right' => simp [ih]

theorem firstValElseNull_eq (t : Tree (K × X)) :
    firstValElseNull t = t.items.head?.map Prod.snd := by
  fun_induction firstValElseNull t with
  | case1 => rfl
  | case2 => rfl
  | case3 kv n left right nonempty ih =>
    cases left with
    | empty => exact (nonempty kv.1 kv.2 rfl rfl).elim
    | node kv' n' left' right' => simp [ih]

end Bindings

section OneKey

variable {K X : Type} [LinearOrder K] {t : Tree (K × X)} {k : K}

theorem makes_set (exact : t.Exact) (sorted : Sorted Prod.fst t.items) (k : K) (v : X) :
    Makes (set t k v) (below Prod.fst k t.items ++ (k, v) :: above Prod.fst k t.items) := by
  induction t with
  | empty => exact ⟨_, rfl, ⟨rfl, trivial, trivial⟩, rfl⟩
  | node kv n l r ihl ihr =>
    obtain ⟨sortedL, sortedR, -, -⟩ := sorted.node
    rw [set]
    split
    · rename_i more
      have less := compare_gt_iff_gt.mp more
      rw [items_node, below_left sorted less, above_left sorted less]
      apply (ihl exact.2.1 sortedL).bind
      intro l' exact' equal
      rw [← List.cons_append, ← List.append_assoc, ← equal]
      exact makes_rebalance kv exact' exact.2.2
    · rename_i less
      have more := compare_lt_iff_lt.mp less
      rw [items_node, below_right sorted more, above_right sorted more, List.append_assoc,
        List.cons_append]
      apply (ihr exact.2.2 sortedR).bind
      intro r' exact' equal
      rw [← equal]
      exact makes_rebalance kv exact.2.1 exact'
    · rename_i more less
      have same := (eq_of_compare less more).symm
      rw [items_node, below_middle sorted same, above_middle sorted same]
      exact ⟨_, rfl, exact, rfl⟩

theorem get_eq (sorted : Sorted Prod.fst t.items) (k : K) :
    get t k = (find Prod.fst k t.items).map Prod.snd := by
  induction t with
  | empty => rfl
  | node kv n l r ihl ihr =>
    obtain ⟨sortedL, sortedR, -, -⟩ := sorted.node
    rw [items_node] at sorted ⊢
    rw [get]
    split
    · rename_i more
      rw [find_right sorted (compare_gt_iff_gt.mp more)]
      exact ihr sortedR
    · rename_i same
      rw [find_middle sorted (compare_eq_iff_eq.mp same)]
      rfl
    · rename_i less
      rw [find_left sorted (compare_lt_iff_lt.mp less)]
      exact ihl sortedL

theorem containsKey_eq (t : Tree (K × X)) (k : K) : containsKey t k = (get t k).isSome := by
  induction t with
  | empty => rfl
  | node kv n l r ihl ihr =>
    rw [containsKey, get]
    split <;> simp [ihl, ihr]

theorem drop_absent (sorted : Sorted Prod.fst t.items) (absent : find Prod.fst k t.items = none) :
    drop t k = .error .notFound := by
  induction t with
  | empty => rfl
  | node kv n l r ihl ihr =>
    obtain ⟨sortedL, sortedR, -, -⟩ := sorted.node
    rw [items_node] at sorted absent
    rw [drop]
    split
    · rename_i more
      rw [find_left sorted (compare_gt_iff_gt.mp more)] at absent
      rw [ihl sortedL absent]
      rfl
    · rename_i less
      rw [find_right sorted (compare_lt_iff_lt.mp less)] at absent
      rw [ihr sortedR absent]
      rfl
    · rename_i more less
      rw [find_middle sorted (eq_of_compare less more).symm] at absent
      cases absent

theorem drop_present {kv : K × X} (exact : t.Exact) (sorted : Sorted Prod.fst t.items)
    (present : find Prod.fst k t.items = some kv) : ∃ t', drop t k = .ok (t', kv.2) ∧ t'.Exact ∧
      t'.items = below Prod.fst k t.items ++ above Prod.fst k t.items := by
  induction t with
  | empty => cases present
  | node kv' n l r ihl ihr =>
    obtain ⟨sortedL, sortedR, -, -⟩ := sorted.node
    rw [items_node] at sorted present
    rw [drop]
    split
    · rename_i more
      have less := compare_gt_iff_gt.mp more
      rw [find_left sorted less] at present
      obtain ⟨l', result, exactL, itemsL⟩ := ihl exact.2.1 sortedL present
      obtain ⟨t', balanced, exactT, itemsT⟩ := makes_rebalance kv' exactL exact.2.2
      rw [items_node, below_left sorted less, above_left sorted less, result]
      refine ⟨t', ?_, exactT, ?_⟩
      · simp [bind, Except.bind, balanced, pure, Except.pure]
      · rw [itemsT, itemsL, List.append_assoc]
    · rename_i less
      have more := compare_lt_iff_lt.mp less
      rw [find_right sorted more] at present
      obtain ⟨r', result, exactR, itemsR⟩ := ihr exact.2.2 sortedR present
      obtain ⟨t', balanced, exactT, itemsT⟩ := makes_rebalance kv' exact.2.1 exactR
      rw [items_node, below_right sorted more, above_right sorted more, result]
      refine ⟨t', ?_, exactT, ?_⟩
      · simp [bind, Except.bind, balanced, pure, Except.pure]
      · rw [itemsT, itemsR, List.append_assoc, List.cons_append]
    · rename_i more less
      have same := (eq_of_compare less more).symm
      rw [find_middle sorted same] at present
      cases present
      obtain ⟨t', joined, exactT, itemsT⟩ := makes_delete' exact.2.1 exact.2.2
      rw [items_node, below_middle sorted same, above_middle sorted same, joined]
      exact ⟨t', rfl, exactT, itemsT⟩

end OneKey

/-! # Maps made from maps -/

variable {K X Y Z : Type}

def put [Ord K] (g : K → X → Option Z) (kv : K × X) (m : Except Raised (Tree (K × Z))) :
    Except Raised (Tree (K × Z)) := do
  let m ← m
  match g kv.1 kv.2 with
  | some z => set m kv.1 z
  | none => return m

def choose (g : K → X → Option Z) (items : List (K × X)) : List (K × Z) :=
  items.filterMap fun kv => (g kv.1 kv.2).map (kv.1, ·)

theorem mem_choose {g : K → X → Option Z} {items : List (K × X)} {k : K} {z : Z} :
    (k, z) ∈ choose g items ↔ ∃ x, (k, x) ∈ items ∧ g k x = some z := by
  simp only [choose, List.mem_filterMap, Option.map_eq_some_iff, Prod.mk.injEq]
  constructor
  · rintro ⟨⟨k', x⟩, mem, z', chosen, rfl, rfl⟩
    exact ⟨x, mem, chosen⟩
  · rintro ⟨x, mem, chosen⟩
    exact ⟨(k, x), mem, z, chosen, rfl, rfl⟩

section Ordered

variable [LinearOrder K] {t : Tree (K × Z)} {items : List (K × X)}

theorem sorted_choose (sorted : Sorted Prod.fst items) (g : K → X → Option Z) :
    Sorted Prod.fst (choose g items) := by
  unfold Sorted choose
  rw [List.pairwise_filterMap]
  apply sorted.imp
  intro a b less c chosen d chosen'
  obtain ⟨z, -, rfl⟩ := Option.map_eq_some_iff.mp chosen
  obtain ⟨z', -, rfl⟩ := Option.map_eq_some_iff.mp chosen'
  exact less

theorem find_choose (sorted : Sorted Prod.fst items) (g : K → X → Option Z) (k : K) :
    find Prod.fst k (choose g items) =
      (find Prod.fst k items).bind fun kv => (g kv.1 kv.2).map (kv.1, ·) := by
  apply Option.ext
  rintro ⟨k', z⟩
  rw [find_eq_some (sorted_choose sorted g), mem_choose, Option.bind_eq_some_iff]
  constructor
  · rintro ⟨⟨x, mem, chosen⟩, rfl⟩
    exact ⟨(k', x), (find_eq_some sorted).mpr ⟨mem, rfl⟩, by simp [chosen]⟩
  · rintro ⟨⟨k'', x⟩, found, chosen⟩
    obtain ⟨mem, rfl⟩ := (find_eq_some sorted).mp found
    obtain ⟨z', chosen, equal⟩ := Option.map_eq_some_iff.mp chosen
    cases equal
    exact ⟨⟨x, mem, chosen⟩, rfl⟩

theorem makes_set_last {k : K} {z : Z} {rest : List (K × Z)} (exact : t.Exact)
    (sorted : Sorted Prod.fst (t.items ++ (k, z) :: rest)) :
    Makes (set t k z) (t.items ++ [(k, z)]) := by
  obtain ⟨sortedT, -, belowK, -⟩ := sorted.node
  have all : below Prod.fst k t.items = t.items := below_all belowK
  have none : above Prod.fst k t.items = [] := above_none fun a mem => (belowK a mem).le
  have makes := makes_set exact sortedT k z
  rwa [all, none] at makes

theorem makes_foldl_put (g : K → X → Option Z) (items : List (K × X)) (exact : t.Exact)
    (sorted : Sorted Prod.fst (t.items ++ choose g items)) :
    Makes (items.foldl (fun m kv => put g kv m) (.ok t)) (t.items ++ choose g items) := by
  induction items generalizing t with
  | nil => exact ⟨t, rfl, exact, by simp [choose]⟩
  | cons kv rest ih =>
    rw [List.foldl_cons]
    cases chosen : g kv.1 kv.2 with
    | none =>
      have same : choose g (kv :: rest) = choose g rest := by simp [choose, chosen]
      have step : put g kv (.ok t) = .ok t := by simp [put, chosen, bind, Except.bind, pure,
        Except.pure]
      rw [same] at sorted ⊢
      rw [step]
      exact ih exact sorted
    | some z =>
      have next : choose g (kv :: rest) = (kv.1, z) :: choose g rest := by
        simp [choose, chosen]
      rw [next] at sorted ⊢
      obtain ⟨t', made, exact', items⟩ := makes_set_last exact sorted
      have step : put g kv (.ok t) = .ok t' := by simp [put, chosen, bind, Except.bind, made]
      have shape : t.items ++ (kv.1, z) :: choose g rest = t'.items ++ choose g rest := by
        rw [items, List.append_assoc, List.singleton_append]
      rw [shape] at sorted ⊢
      rw [step]
      exact ih exact' sorted

theorem makes_put {d : Tree (K × X)} (sorted : Sorted Prod.fst d.items) (g : K → X → Option Z) :
    Makes (Binary.foldForward (put g) d (.ok empty)) (choose g d.items) := by
  rw [foldForward_eq]
  exact makes_foldl_put g d.items trivial (sorted_choose sorted g)

variable {d : Tree (K × X)} (sorted : Sorted Prod.fst d.items)
include sorted

theorem makes_keyedMap' (f : K → X → Option Z) :
    Makes (keyedMap' f d) (choose f d.items) := makes_put sorted f

theorem makes_keyedFilter (predG : K → X → Bool) :
    Makes (keyedFilter predG d) (d.items.filter fun kv => predG kv.1 kv.2) := by
  have chosen : choose (fun k x => if predG k x then some x else none) d.items =
      d.items.filter fun kv => predG kv.1 kv.2 := by
    rw [← List.filterMap_eq_filter]
    unfold choose
    congr
    funext kv
    cases holds : predG kv.1 kv.2 <;> simp [holds, Option.guard]
  have step : put (fun k x => if predG k x then some x else none) = fun kv m => do
      let m ← m
      if predG kv.1 kv.2 then set m kv.1 kv.2 else return m := by
    funext kv m
    cases m with
    | error e => rfl
    | ok m => cases holds : predG kv.1 kv.2 <;> simp [put, bind, Except.bind, holds]
  rw [← chosen, keyedFilter, keyedFoldForward, ← step]
  exact makes_put sorted _

end Ordered

section Two

variable [LinearOrder K] {m m1 m2 t : Tree (K × X)} {items : List (K × X)}

theorem eq_of_find {others : List (K × X)} (sorted : Sorted Prod.fst items)
    (sorted' : Sorted Prod.fst others) (same : ∀ k, find Prod.fst k items = find Prod.fst k others) :
    items = others := by
  apply eq_of_mem_iff sorted sorted'
  intro kv
  have here := same kv.1
  constructor
  · intro mem
    exact ((find_eq_some sorted').mp (here.symm.trans ((find_eq_some sorted).mpr ⟨mem, rfl⟩))).1
  · intro mem
    exact ((find_eq_some sorted).mp (here.trans ((find_eq_some sorted').mpr ⟨mem, rfl⟩))).1

def both (f : K → X → Y → Z) : Option (K × X) → Option (K × Y) → Option (K × Z) :=
  Option.map₂ fun x y => (x.1, f x.1 x.2 y.2)

def either (f : K → X → X → X) : Option (K × X) → Option (K × X) → Option (K × X) :=
  Option.merge fun x y => (x.1, f x.1 x.2 y.2)

theorem makes_insUnion (f : K → X → X → X) (exact : m.Exact) (sorted : Sorted Prod.fst m.items)
    (kv : K × X) :
    ∃ m', insUnion f kv.1 kv.2 (.ok m) = .ok m' ∧ m'.Exact ∧ Sorted Prod.fst m'.items ∧
      ∀ k, find Prod.fst k m'.items =
        if k = kv.1 then either f (some kv) (find Prod.fst k m.items) else
          find Prod.fst k m.items := by
  obtain ⟨key, x⟩ := kv
  have found := get_eq sorted key
  cases present : find Prod.fst key m.items with
  | none =>
    rw [present, Option.map_none] at found
    obtain ⟨m', made, exact', items⟩ := makes_set exact sorted key x
    refine ⟨m', ?_, exact', items ▸ sorted_around sorted (key, x), ?_⟩
    · simp [insUnion, bind, Except.bind, found, made]
    · intro k
      rw [items, find_around sorted (key, x)]
      split
      · next eq =>
          rw [eq, present]
          rfl
      · rfl
  | some kv' =>
    rw [present, Option.map_some] at found
    obtain ⟨m', made, exact', items⟩ := makes_set exact sorted key (f key x kv'.2)
    refine ⟨m', ?_, exact', items ▸ sorted_around sorted (key, _), ?_⟩
    · simp [insUnion, bind, Except.bind, found, made]
    · intro k
      rw [items, find_around sorted (key, f key x kv'.2)]
      split
      · next eq =>
          rw [eq, present]
          rfl
      · rfl

theorem foldl_insUnion (f : K → X → X → X) (ascending : Sorted Prod.fst items)
    (exact : m.Exact) (sorted : Sorted Prod.fst m.items) :
    ∃ m', items.foldl (fun m kv => insUnion f kv.1 kv.2 m) (.ok m) = .ok m' ∧ m'.Exact ∧
      Sorted Prod.fst m'.items ∧
        ∀ k, find Prod.fst k m'.items =
          either f (find Prod.fst k items) (find Prod.fst k m.items) := by
  induction items generalizing m with
  | nil => exact ⟨m, rfl, exact, sorted, fun k => by cases find Prod.fst k m.items <;> rfl⟩
  | cons kv rest ih =>
    obtain ⟨aboveKv, ascending⟩ := List.pairwise_cons.mp ascending
    obtain ⟨next, made, exactN, sortedN, findN⟩ := makes_insUnion f exact sorted kv
    obtain ⟨m', made', exact', sorted', find'⟩ := ih ascending exactN sortedN
    rw [List.foldl_cons, made]
    refine ⟨m', made', exact', sorted', ?_⟩
    intro k
    rw [find', findN, find_cons]
    split
    · next eq =>
        rw [eq, if_pos rfl, find_above aboveKv]
        cases find Prod.fst kv.1 m.items <;> rfl
    · next ne => rw [if_neg (Ne.symm ne)]

theorem makes_union (f : K → X → X → X) (exact : m.Exact) (sorted : Sorted Prod.fst m.items)
    {d : Tree (K × X)} (ascending : Sorted Prod.fst d.items) (sortedI : Sorted Prod.fst items)
    (same : ∀ k, find Prod.fst k items =
      either f (find Prod.fst k d.items) (find Prod.fst k m.items)) :
    Makes (keyedFoldForward (insUnion f) (.ok m) d) items := by
  rw [keyedFoldForward, foldForward_eq]
  obtain ⟨m', made, exact', sorted', find'⟩ := foldl_insUnion f ascending exact sorted
  refine ⟨m', made, exact', eq_of_find sorted' sortedI ?_⟩
  intro k
  rw [find', same]

theorem makes_keyedUnionWith (f : K → X → X → X) (exact1 : m1.Exact) (exact2 : m2.Exact)
    (sorted1 : Sorted Prod.fst m1.items) (sorted2 : Sorted Prod.fst m2.items) :
    Makes (keyedUnionWith f m1 m2) (mergeItems Prod.fst Prod.fst (either f) m1.items m2.items) := by
  have keeps := keepsKey_union f
  have sorted := sorted_mergeItems keeps sorted1 sorted2
  unfold keyedUnionWith
  split
  · apply makes_union _ exact1 sorted1 sorted2 sorted
    intro k
    rw [either, find_mergeItems keeps sorted1 sorted2]
    cases found1 : find Prod.fst k m1.items with
    | none => cases find Prod.fst k m2.items <;> rfl
    | some x =>
      cases found2 : find Prod.fst k m2.items with
      | none => rfl
      | some y =>
        have key1 := ((find_eq_some sorted1).mp found1).2
        have key2 := ((find_eq_some sorted2).mp found2).2
        simp [key1, key2]
  · apply makes_union _ exact2 sorted2 sorted1 sorted
    intro k
    exact find_mergeItems keeps sorted1 sorted2 k

theorem makes_intersect (f : K → X → Y → Z) {d : Tree (K × Y)}
    (sorted : Sorted Prod.fst m.items) (sortedD : Sorted Prod.fst d.items)
    {items : List (K × Z)} (sortedI : Sorted Prod.fst items) (same : ∀ k, find Prod.fst k items =
      both f (find Prod.fst k m.items) (find Prod.fst k d.items)) :
    Makes (intersect f m d) items := by
  have step : intersect f m d =
      Binary.foldForward (put fun k x => (get d k).map (f k x)) m (.ok empty) := by
    unfold intersect keyedFoldForward
    congr 1
    funext kv m
    cases m with
    | error e => rfl
    | ok m => cases found : get d kv.1 <;> simp [put, bind, Except.bind, found]
  have chosen : choose (fun k x => (get d k).map (f k x)) m.items = items := by
    apply eq_of_find (sorted_choose sorted _) sortedI
    intro k
    rw [find_choose sorted, same]
    cases found : find Prod.fst k m.items with
    | none => rfl
    | some kv =>
      have key := ((find_eq_some sorted).mp found).2
      rw [Option.bind_some, key, get_eq sortedD]
      cases find Prod.fst k d.items <;> simp [both, key]
  rw [step, ← chosen]
  exact makes_put sorted _

theorem makes_keyedIntersectWith (f : K → X → Y → Z) {m2 : Tree (K × Y)}
    (sorted1 : Sorted Prod.fst m1.items) (sorted2 : Sorted Prod.fst m2.items) :
    Makes (keyedIntersectWith f m1 m2)
      (mergeItems Prod.fst Prod.fst (both f) m1.items m2.items) := by
  have keeps := keepsKey_intersect f
  have sorted := sorted_mergeItems keeps sorted1 sorted2
  unfold keyedIntersectWith
  split
  · apply makes_intersect _ sorted2 sorted1 sorted
    intro k
    rw [both, find_mergeItems keeps sorted1 sorted2]
    cases found1 : find Prod.fst k m1.items with
    | none => cases find Prod.fst k m2.items <;> rfl
    | some x =>
      cases found2 : find Prod.fst k m2.items with
      | none => rfl
      | some y =>
        have key1 := ((find_eq_some sorted1).mp found1).2
        have key2 := ((find_eq_some sorted2).mp found2).2
        simp [key1, key2]
  · apply makes_intersect _ sorted1 sorted2 sorted
    intro k
    exact find_mergeItems keeps sorted1 sorted2 k

theorem makes_merged {t : Tree (K × Z)} {k : K} {o : Option Z} {rest : List (K × Z)}
    {next : Tree (K × Z) → Except Raised (Tree (K × Z))} (exact : t.Exact)
    (sorted : Sorted Prod.fst (t.items ++ ((o.map (k, ·)).toList ++ rest)))
    (later : ∀ t' : Tree (K × Z), t'.Exact → Sorted Prod.fst (t'.items ++ rest) →
      Makes (next t') (t'.items ++ rest)) :
    Makes (match o with
      | some y => set t k y >>= next
      | none => next t) (t.items ++ ((o.map (k, ·)).toList ++ rest)) := by
  cases o with
  | none => exact later t exact sorted
  | some y =>
    have shape : t.items ++ (((some y).map (k, ·)).toList ++ rest) =
        (t.items ++ [(k, y)]) ++ rest := by simp
    apply (makes_set_last exact sorted).bind
    intro t' exact' items
    rw [shape, ← items] at sorted ⊢
    exact later t' exact' sorted

theorem makes_merge (f : K → Option X → Option Y → Option Z) (r1 : List (K × X))
    (r2 : List (K × Y)) {t : Tree (K × Z)} (exact : t.Exact)
    (sorted : Sorted Prod.fst (t.items ++ mergeItems Prod.fst Prod.fst (kept f) r1 r2)) :
    Makes (merge f r1 r2 t) (t.items ++ mergeItems Prod.fst Prod.fst (kept f) r1 r2) := by
  induction r1 generalizing r2 t with
  | nil =>
    induction r2 generalizing t with
    | nil =>
      rw [mergeItems, List.append_nil, merge]
      exact makes_ok exact
    | cons kv2 r2 ih =>
      rw [mergeItems] at sorted ⊢
      rw [merge]
      exact makes_merged exact sorted fun t' exact' sorted' => ih exact' sorted'
  | cons kv1 r1 ih1 =>
    induction r2 generalizing t with
    | nil =>
      rw [mergeItems] at sorted ⊢
      rw [merge]
      exact makes_merged exact sorted fun t' exact' sorted' => ih1 [] exact' sorted'
    | cons kv2 r2 ih2 =>
      rw [merge]
      cases order : compare kv1.1 kv2.1 with
      | lt =>
        rw [mergeItems_lt order] at sorted ⊢
        exact makes_merged exact sorted fun t' exact' sorted' => ih1 _ exact' sorted'
      | eq =>
        rw [mergeItems_eq order] at sorted ⊢
        exact makes_merged exact sorted fun t' exact' sorted' => ih1 _ exact' sorted'
      | gt =>
        rw [mergeItems_gt order] at sorted ⊢
        exact makes_merged exact sorted fun t' exact' sorted' => ih2 exact' sorted'

theorem makes_keyedMergeWith (f : K → Option X → Option Y → Option Z) {m2 : Tree (K × Y)}
    (sorted1 : Sorted Prod.fst m1.items) (sorted2 : Sorted Prod.fst m2.items) :
    Makes (keyedMergeWith f m1 m2) (mergeItems Prod.fst Prod.fst (kept f) m1.items m2.items) := by
  unfold keyedMergeWith
  rw [keyvalsList_eq, keyvalsList_eq]
  exact makes_merge f _ _ trivial (sorted_mergeItems (keepsKey_kept f) sorted1 sorted2)

end Two

end Mythryl.Binary.Map
