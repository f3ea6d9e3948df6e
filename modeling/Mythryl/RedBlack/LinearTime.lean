import Mythryl.RedBlack.Map

/-!
# Construction in linear time

`add_item` and `link_all` put every item of an ascending sequence into its place with two calls of
their loops on average, and the map operations that build their result so return balanced maps of
the right size.
-/

namespace Mythryl.RedBlack
open ColoredTree SortedKeys

variable {α β : Type} {L : Layout α β}

def incrCalls : Digit α β → Nat
  | .zero => 1
  | .one .. => 1
  | .two _ _ _ _ rest => incrCalls rest + 1

def linkCalls : Digit α β → Nat
  | .zero => 1
  | .one _ _ rest => linkCalls rest + 1
  | .two _ _ _ _ rest => linkCalls rest + 1

def constructionCalls (L : Layout α β) : List α → Digit α β → Nat
  | [], digits => linkCalls digits
  | a :: items, digits => incrCalls digits + constructionCalls L items (addItem L a digits)

/-- The nodes in the trees of the digits: the potential that a carry pays into. -/
def Digit.nodes : Digit α β → Nat
  | .zero => 0
  | .one _ t rest => t.size + rest.nodes
  | .two _ t1 _ t2 rest => t1.size + t2.size + rest.nodes

@[simp] theorem size_layout_node (color : Color) (t1 t2 : ColorTree β) (a : α) :
    (L.node color t1 a t2).size = t1.size + t2.size + 1 := rfl

theorem nodes_incr (a : α) (t : ColorTree β) (digits : Digit α β) :
    (incr L a t digits).nodes + 1 = digits.nodes + t.size + incrCalls digits := by
  fun_induction incr L a t digits with
  | case1 => simp [Digit.nodes, incrCalls]
  | case2 a t a2 t2 rest =>
    simp only [Digit.nodes, incrCalls]
    omega
  | case3 a t a2 t2 a3 t3 rest ih =>
    rw [size_layout_node] at ih
    simp only [Digit.nodes, incrCalls]
    omega

theorem nodes_add_linkCalls_le (digits : Digit α β) :
    digits.nodes + linkCalls digits ≤ (digits.items L).length + 1 := by
  induction digits with
  | zero => simp [Digit.nodes, linkCalls, Digit.items]
  | one a t rest ih =>
    simp only [Digit.nodes, linkCalls, Digit.items, List.length_append, Layout.length_items,
      List.length_cons, List.length_nil]
    omega
  | two a1 t1 a2 t2 rest ih =>
    simp only [Digit.nodes, linkCalls, Digit.items, List.length_append, Layout.length_items,
      List.length_cons, List.length_nil]
    omega

theorem nodes_add_constructionCalls_le (items : List α) (digits : Digit α β) :
    digits.nodes + constructionCalls L items digits ≤
      (digits.items L).length + 2 * items.length + 1 := by
  induction items generalizing digits with
  | nil => exact nodes_add_linkCalls_le digits
  | cons a items ih =>
    have rest := ih (addItem L a digits)
    have first := nodes_incr (L := L) a .empty digits
    have longer : ((addItem L a digits).items L).length = (digits.items L).length + 1 := by
      simp [addItem, items_incr]
    rw [longer] at rest
    simp only [addItem, ColorTree.size] at rest first
    simp only [constructionCalls, addItem, List.length_cons]
    omega

end Mythryl.RedBlack

namespace Mythryl.RedBlackMap
open ColoredTree SortedKeys RedBlack

variable {K V V₁ V₂ : Type} [LinearOrder K]

theorem lawful_ofItems {items : List (K × V)} (sorted : Sorted Prod.fst items) :
    (ofItems items).Lawful :=
  ⟨valid_ofItems sorted, (linkAll_addItems items).2.2⟩

theorem lawful_keyedUnionWith {m1 m2 : Map K V} (valid1 : m1.Valid) (valid2 : m2.Valid)
    (mergeFn : K → V → V → V) : (m1.keyedUnionWith mergeFn m2).Lawful := by
  rw [keyedUnionWith_eq]
  exact lawful_ofItems (sorted_mergeItems (keepsKey_union mergeFn) valid1.sorted valid2.sorted)

theorem lawful_keyedIntersectWith {m1 : Map K V₁} {m2 : Map K V₂} (valid1 : m1.Valid)
    (valid2 : m2.Valid) (mergeFn : K → V₁ → V₂ → V) : (m1.keyedIntersectWith mergeFn m2).Lawful := by
  rw [keyedIntersectWith_eq]
  exact lawful_ofItems (sorted_mergeItems (keepsKey_intersect mergeFn) valid1.sorted valid2.sorted)

theorem lawful_keyedMergeWith {m1 : Map K V₁} {m2 : Map K V₂} (valid1 : m1.Valid)
    (valid2 : m2.Valid) (mergeFn : K → Option V₁ → Option V₂ → Option V) :
    (m1.keyedMergeWith mergeFn m2).Lawful := by
  rw [keyedMergeWith_eq]
  exact lawful_ofItems (sorted_mergeItems (keeps_merge mergeFn) valid1.sorted valid2.sorted)

variable {m : Map K V}

theorem lawful_keyedFilter (valid : m.Valid) (predicate : K → V → Bool) :
    (m.keyedFilter predicate).Lawful := by
  rw [keyedFilter_eq]
  exact lawful_ofItems (valid.sorted.filter _)

theorem get_keyedFilter (valid : m.Valid) (predicate : K → V → Bool) (k : K) :
    (m.keyedFilter predicate).get k = (m.get k).filter (predicate k) := by
  apply Option.ext
  intro v
  rw [get_eq_some (valid.keyedFilter predicate), keyedFilter_eq, items_ofItems, List.mem_filter,
    ← get_eq_some valid, Option.filter_eq_some_iff]

theorem Map.Lawful.allInvariantsHold (lawful : m.Lawful) : m.allInvariantsHold = true :=
  (allInvariantsHold_iff m.count m.tree).mpr ⟨lawful.balanced, lawful.counted⟩

structure Holds (m : Map K V) (expected : K → Option V) : Prop where
  balanced : ∃ n, Balanced m.tree .black n
  checked : m.allInvariantsHold = true
  sorted : m.keyvalsList.Pairwise fun x y => x.1 < y.1
  pointwise (k : K) : m.get k = expected k
  counted : m.count = m.tree.size ∧ m.valsCount = m.keyvalsList.length

theorem Map.Lawful.holds (lawful : m.Lawful) {expected : K → Option V}
    (pointwise : ∀ k, m.get k = expected k) : Holds m expected where
  balanced := lawful.balanced
  checked := lawful.allInvariantsHold
  sorted := by
    rw [keyvalsList_eq]
    exact lawful.sorted
  pointwise := pointwise
  counted := by
    rw [keyvalsList_eq]
    exact ⟨lawful.counted, lawful.toValid.counts⟩

/-- The digits of any ascending sequence are linked into a red-black tree of that sequence, and so
the operations that build their result from digits keep the rules whatever their arguments. -/
theorem linear_construction :
    (∀ items : List (K × V), Sorted Prod.fst items →
      let tree := linkAll (keyvals K V) (addItems (keyvals K V) items .zero)
      (∃ n, Balanced tree .black n) ∧ (keyvals K V).items tree = items ∧
        tree.size = items.length ∧
        constructionCalls (keyvals K V) items .zero ≤ 2 * items.length + 1) ∧
    (∀ m1 m2 : Map K V, Reachable K m1 → Reachable K m2 →
      (∀ mergeFn : V → V → V, Holds (m1.unionWith mergeFn m2)
        fun k => Option.merge mergeFn (m1.get k) (m2.get k)) ∧
      ∀ mergeFn : K → V → V → V, Holds (m1.keyedUnionWith mergeFn m2)
        fun k => Option.merge (mergeFn k) (m1.get k) (m2.get k)) ∧
    (∀ (m1 : Map K V₁) (m2 : Map K V₂), Reachable K m1 → Reachable K m2 →
      (∀ mergeFn : V₁ → V₂ → V, Holds (m1.intersectWith mergeFn m2)
        fun k => Option.map₂ mergeFn (m1.get k) (m2.get k)) ∧
      (∀ mergeFn : K → V₁ → V₂ → V, Holds (m1.keyedIntersectWith mergeFn m2)
        fun k => Option.map₂ (mergeFn k) (m1.get k) (m2.get k)) ∧
      (∀ mergeFn : Option V₁ → Option V₂ → Option V, Holds (m1.mergeWith mergeFn m2) fun k =>
        if m1.get k = none ∧ m2.get k = none then none else mergeFn (m1.get k) (m2.get k)) ∧
      ∀ mergeFn : K → Option V₁ → Option V₂ → Option V, Holds (m1.keyedMergeWith mergeFn m2)
        fun k =>
          if m1.get k = none ∧ m2.get k = none then none else mergeFn k (m1.get k) (m2.get k)) ∧
    (∀ m : Map K V, Reachable K m →
      (∀ predicate : V → Bool, Holds (m.filter predicate) fun k => (m.get k).filter predicate) ∧
      ∀ predicate : K → V → Bool, Holds (m.keyedFilter predicate)
        fun k => (m.get k).filter (predicate k)) := by
  refine ⟨?construct, ?union, ?intersectAndMerge, ?filter⟩
  case construct =>
    intro items _
    obtain ⟨inOrder, -, balanced⟩ := linkAll_addItems (L := keyvals K V) items
    refine ⟨balanced, inOrder, ?_, ?_⟩
    · rw [← (keyvals K V).length_items, inOrder]
    · have calls := nodes_add_constructionCalls_le (L := keyvals K V) items .zero
      simpa [Digit.nodes, Digit.items] using calls
  case union =>
    intro m1 m2 reachable1 reachable2
    have keyed (mergeFn : K → V → V → V) : Holds (m1.keyedUnionWith mergeFn m2)
        fun k => Option.merge (mergeFn k) (m1.get k) (m2.get k) :=
      (lawful_keyedUnionWith reachable1.valid reachable2.valid mergeFn).holds
        (get_keyedUnionWith reachable1.valid reachable2.valid mergeFn)
    exact ⟨fun mergeFn => keyed fun _ => mergeFn, keyed⟩
  case intersectAndMerge =>
    intro m1 m2 reachable1 reachable2
    have intersection (mergeFn : K → V₁ → V₂ → V) : Holds (m1.keyedIntersectWith mergeFn m2)
        fun k => Option.map₂ (mergeFn k) (m1.get k) (m2.get k) :=
      (lawful_keyedIntersectWith reachable1.valid reachable2.valid mergeFn).holds
        (get_keyedIntersectWith reachable1.valid reachable2.valid mergeFn)
    have merged (mergeFn : K → Option V₁ → Option V₂ → Option V) :
        Holds (m1.keyedMergeWith mergeFn m2) fun k =>
          if m1.get k = none ∧ m2.get k = none then none else mergeFn k (m1.get k) (m2.get k) :=
      (lawful_keyedMergeWith reachable1.valid reachable2.valid mergeFn).holds
        (get_keyedMergeWith reachable1.valid reachable2.valid mergeFn)
    exact ⟨fun mergeFn => intersection fun _ => mergeFn, intersection,
      fun mergeFn => merged fun _ => mergeFn, merged⟩
  case filter =>
    intro m reachable
    have keyed (predicate : K → V → Bool) : Holds (m.keyedFilter predicate)
        fun k => (m.get k).filter (predicate k) :=
      (lawful_keyedFilter reachable.valid predicate).holds
        (get_keyedFilter reachable.valid predicate)
    exact ⟨fun predicate => keyed fun _ => predicate, keyed⟩

theorem linear_construction_three :
    Holds ((singleton 1 'a').unionWith (fun _ v => v) (singleton 2 'b'))
        (fun k => Option.merge (fun _ v => v) ((singleton 1 'a').get k) ((singleton 2 'b').get k)) ∧
      ∃ n, Balanced (linkAll (keyvals Nat Char)
        (addItems (keyvals Nat Char) [(1, 'a'), (2, 'b'), (3, 'c')] .zero)) .black n := by
  obtain ⟨construct, union, -⟩ := @linear_construction Nat Char Char Char _
  have ascending : Sorted Prod.fst [(1, 'a'), (2, 'b'), (3, 'c')] := by
    simp [Sorted]
  exact ⟨(union _ _ (.singleton 1 'a') (.singleton 2 'b')).1 _, (construct _ ascending).1⟩

end Mythryl.RedBlackMap
