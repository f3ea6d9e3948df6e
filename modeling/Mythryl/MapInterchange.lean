import Mythryl.Binary.Map
import Mythryl.ListMap

/-!
# Trees and lists as maps

What is built with the operations of a map is built by `binary_map_g` and by `list_map_g`; the two
raise the same exceptions and give the same answers.
-/

namespace Mythryl.MapInterchange
open SortedKeys Binary

def raised : ListMap.Raised → Raised
  | .notFound => .notFound

inductive Term (K : Type) : Type → Type 1
  | empty {X : Type} : Term K X
  | singleton {X : Type} (key : K) (item : X) : Term K X
  | set {X : Type} (m : Term K X) (key : K) (item : X) : Term K X
  | drop {X : Type} (m : Term K X) (key : K) : Term K X
  | unionWith {X : Type} (f : X → X → X) (m1 m2 : Term K X) : Term K X
  | keyedUnionWith {X : Type} (f : K → X → X → X) (m1 m2 : Term K X) : Term K X
  | intersectWith {X Y Z : Type} (f : X → Y → Z) (m1 : Term K X) (m2 : Term K Y) : Term K Z
  | keyedIntersectWith {X Y Z : Type} (f : K → X → Y → Z) (m1 : Term K X) (m2 : Term K Y) :
      Term K Z
  | mergeWith {X Y Z : Type} (f : Option X → Option Y → Option Z) (m1 : Term K X)
      (m2 : Term K Y) : Term K Z
  | keyedMergeWith {X Y Z : Type} (f : K → Option X → Option Y → Option Z) (m1 : Term K X)
      (m2 : Term K Y) : Term K Z
  | filter {X : Type} (predicate : X → Bool) (m : Term K X) : Term K X
  | keyedFilter {X : Type} (predicate : K → X → Bool) (m : Term K X) : Term K X
  | map {X Y : Type} (f : X → Y) (m : Term K X) : Term K Y
  | keyedMap {X Y : Type} (f : K → X → Y) (m : Term K X) : Term K Y
  | map' {X Y : Type} (f : X → Option Y) (m : Term K X) : Term K Y
  | keyedMap' {X Y : Type} (f : K → X → Option Y) (m : Term K X) : Term K Y

section Evaluation

variable {K : Type} [Ord K]

def Term.binary : {X : Type} → Term K X → Except Raised (Binary.Tree (K × X))
  | _, .empty => .ok Map.empty
  | _, .singleton key item => .ok (Map.singleton key item)
  | _, .set m key item => do Map.set (← m.binary) key item
  | _, .drop m key => do return (← Map.drop (← m.binary) key).1
  | _, .unionWith f m1 m2 => do Map.unionWith f (← m1.binary) (← m2.binary)
  | _, .keyedUnionWith f m1 m2 => do Map.keyedUnionWith f (← m1.binary) (← m2.binary)
  | _, .intersectWith f m1 m2 => do Map.intersectWith f (← m1.binary) (← m2.binary)
  | _, .keyedIntersectWith f m1 m2 => do Map.keyedIntersectWith f (← m1.binary) (← m2.binary)
  | _, .mergeWith f m1 m2 => do Map.mergeWith f (← m1.binary) (← m2.binary)
  | _, .keyedMergeWith f m1 m2 => do Map.keyedMergeWith f (← m1.binary) (← m2.binary)
  | _, .filter predicate m => do Map.filter predicate (← m.binary)
  | _, .keyedFilter predicate m => do Map.keyedFilter predicate (← m.binary)
  | _, .map f m => do return Map.map f (← m.binary)
  | _, .keyedMap f m => do return Map.keyedMap f (← m.binary)
  | _, .map' f m => do Map.map' f (← m.binary)
  | _, .keyedMap' f m => do Map.keyedMap' f (← m.binary)

def Term.list : {X : Type} → Term K X → Except ListMap.Raised (List (K × X))
  | _, .empty => .ok ListMap.empty
  | _, .singleton key item => .ok (ListMap.singleton key item)
  | _, .set m key item => do return ListMap.set (← m.list) key item
  | _, .drop m key => do return (← ListMap.drop (← m.list) key).1
  | _, .unionWith f m1 m2 => do return ListMap.unionWith f (← m1.list) (← m2.list)
  | _, .keyedUnionWith f m1 m2 => do return ListMap.keyedUnionWith f (← m1.list) (← m2.list)
  | _, .intersectWith f m1 m2 => do return ListMap.intersectWith f (← m1.list) (← m2.list)
  | _, .keyedIntersectWith f m1 m2 => do
      return ListMap.keyedIntersectWith f (← m1.list) (← m2.list)
  | _, .mergeWith f m1 m2 => do return ListMap.mergeWith f (← m1.list) (← m2.list)
  | _, .keyedMergeWith f m1 m2 => do return ListMap.keyedMergeWith f (← m1.list) (← m2.list)
  | _, .filter predicate m => do return ListMap.filter predicate (← m.list)
  | _, .keyedFilter predicate m => do return ListMap.keyedFilter predicate (← m.list)
  | _, .map f m => do return ListMap.map f (← m.list)
  | _, .keyedMap f m => do return ListMap.keyedMap f (← m.list)
  | _, .map' f m => do return ListMap.map' f (← m.list)
  | _, .keyedMap' f m => do return ListMap.keyedMap' f (← m.list)

structure Agree {X : Type} (t : Binary.Tree (K × X)) (l : List (K × X)) : Prop where
  keyvalsList : Map.keyvalsList t = ListMap.keyvalsList l
  valsList : Map.valsList t = ListMap.valsList l
  keysList : Map.keysList t = ListMap.keysList l
  valsCount : Map.valsCount t = ListMap.valsCount l
  isEmpty : Map.isEmpty t = ListMap.isEmpty l
  firstVal : Map.firstValElseNull t = ListMap.firstValElseNull l
  firstKeyval : Map.firstKeyvalElseNull t = ListMap.firstKeyvalElseNull l
  get (key : K) : Map.get t key = ListMap.get l key
  containsKey (key : K) : Map.containsKey t key = ListMap.containsKey l key
  drop (key : K) : (Map.drop t key).map (fun (m, v) => (Map.keyvalsList m, v)) =
    ((ListMap.drop l key).mapError raised).map fun (m, v) => (ListMap.keyvalsList m, v)
  keyedFoldForward {Y : Type} (f : K → X → Y → Y) (init : Y) :
    Map.keyedFoldForward f init t = ListMap.keyedFoldForward f init l
  foldForward {Y : Type} (f : X → Y → Y) (init : Y) :
    Map.foldForward f init t = ListMap.foldForward f init l
  keyedFoldBackward {Y : Type} (f : K → X → Y → Y) (init : Y) :
    Map.keyedFoldBackward f init t = ListMap.keyedFoldBackward f init l
  foldBackward {Y : Type} (f : X → Y → Y) (init : Y) :
    Map.foldBackward f init t = ListMap.foldBackward f init l

def Interchangeable {X : Type} :
    Except Raised (Binary.Tree (K × X)) → Except ListMap.Raised (List (K × X)) → Prop
  | .ok t, .ok l => Agree t l
  | .error e, .error e' => e = raised e'
  | _, _ => False

def Combines {X Y Z : Type} (f : K → Option X → Option Y → Option Z)
    (m1 : Except Raised (Binary.Tree (K × X))) (m2 : Except Raised (Binary.Tree (K × Y)))
    (m : Except Raised (Binary.Tree (K × Z))) : Prop :=
  ∀ t1 t2, m1 = .ok t1 → m2 = .ok t2 →
    ∃ t, m = .ok t ∧ ∀ key, Map.get t key = f key (Map.get t1 key) (Map.get t2 key)

end Evaluation

section Represents

variable {K X Y Z : Type} [LinearOrder K]

structure Represents (t : Binary.Tree (K × X)) (l : List (K × X)) : Prop where
  exact : t.Exact
  items : t.items = l
  sorted : Sorted Prod.fst l

variable {t : Binary.Tree (K × X)} {l : List (K × X)}

theorem Represents.agree (rep : Represents t l) : Agree t l := by
  obtain ⟨exact, rfl, sorted⟩ := rep
  have gets (key : K) : Map.get t key = ListMap.get t.items key := by
    rw [Map.get_eq sorted, ListMap.get_eq sorted]
  constructor
  case keyvalsList => exact Map.keyvalsList_eq t
  case valsList => simp [Map.valsList, Map.d2l_eq, ListMap.valsList]
  case keysList => simp [Map.keysList, Map.d2l_eq, ListMap.keysList]
  case valsCount => exact exact.length.symm
  case isEmpty =>
    cases t with
    | empty => rfl
    | node kv n left right =>
      cases shape : (Binary.Tree.node kv n left right).items with
      | nil => simp at shape
      | cons kv' rest => rfl
  case firstVal =>
    rw [Map.firstValElseNull_eq]
    cases t.items <;> rfl
  case firstKeyval =>
    rw [Map.firstKeyvalElseNull_eq]
    cases t.items <;> rfl
  case get => exact gets
  case containsKey =>
    intro key
    rw [Map.containsKey_eq, ListMap.containsKey_eq, gets]
  case drop =>
    intro key
    cases present : find Prod.fst key t.items with
    | none =>
      rw [Map.drop_absent sorted present, ListMap.drop, ListMap.dropLoop_absent sorted present]
      rfl
    | some kv =>
      obtain ⟨t', dropped, -, items⟩ := Map.drop_present exact sorted present
      rw [dropped, ListMap.drop, ListMap.dropLoop_present sorted present]
      simp [Except.map, Except.mapError, Map.keyvalsList_eq, ListMap.keyvalsList, items]
  case keyedFoldForward =>
    intro Y f init
    exact foldForward_eq _ t init
  case foldForward =>
    intro Y f init
    exact foldForward_eq _ t init
  case keyedFoldBackward =>
    intro Y f init
    exact foldBackward_eq _ t init
  case foldBackward =>
    intro Y f init
    exact foldBackward_eq _ t init

def Paired (m : Except Raised (Binary.Tree (K × X)))
    (m' : Except ListMap.Raised (List (K × X))) : Prop :=
  (∃ t l, m = .ok t ∧ m' = .ok l ∧ Represents t l) ∨
    m = .error .notFound ∧ m' = .error .notFound

variable {m : Except Raised (Binary.Tree (K × X))}

theorem Paired.bind {m' : Except ListMap.Raised (List (K × X))}
    {f : Binary.Tree (K × X) → Except Raised (Binary.Tree (K × Y))}
    {g : List (K × X) → Except ListMap.Raised (List (K × Y))} (paired : Paired m m')
    (rest : ∀ t l, Represents t l → Paired (f t) (g l)) : Paired (m >>= f) (m' >>= g) := by
  rcases paired with ⟨t, l, rfl, rfl, rep⟩ | ⟨rfl, rfl⟩
  · exact rest t l rep
  · exact .inr ⟨rfl, rfl⟩

theorem paired_ok (rep : Represents t l) : Paired (.ok t) (.ok l) := .inl ⟨t, l, rfl, rfl, rep⟩

theorem paired_of_makes (makes : Makes m l) (sorted : Sorted Prod.fst l) : Paired m (.ok l) := by
  obtain ⟨t, rfl, exact, items⟩ := makes
  exact paired_ok ⟨exact, items, sorted⟩

theorem Paired.interchangeable
    {m' : Except ListMap.Raised (List (K × X))} (paired : Paired m m') : Interchangeable m m' := by
  rcases paired with ⟨t, l, rfl, rfl, rep⟩ | ⟨rfl, rfl⟩
  · exact rep.agree
  · rfl

theorem paired_set (rep : Represents t l) (key : K) (item : X) :
    Paired (Map.set t key item) (.ok (ListMap.set l key item)) := by
  obtain ⟨exact, rfl, sorted⟩ := rep
  rw [ListMap.set_eq sorted]
  exact paired_of_makes (Map.makes_set exact sorted key item) (sorted_around sorted (key, item))

theorem paired_drop (rep : Represents t l) (key : K) :
    Paired (do return (← Map.drop t key).1) (do return (← ListMap.drop l key).1) := by
  obtain ⟨exact, rfl, sorted⟩ := rep
  cases present : find Prod.fst key t.items with
  | none =>
    rw [Map.drop_absent sorted present, ListMap.drop, ListMap.dropLoop_absent sorted present]
    exact .inr ⟨rfl, rfl⟩
  | some kv =>
    obtain ⟨t', dropped, exact', items⟩ := Map.drop_present exact sorted present
    rw [dropped, ListMap.drop, ListMap.dropLoop_present sorted present]
    exact paired_ok ⟨exact', items, sorted_without sorted key⟩

section Two

variable {t1 : Binary.Tree (K × X)} {l1 : List (K × X)} (rep1 : Represents t1 l1)
include rep1

theorem paired_keyedUnionWith {t2 : Binary.Tree (K × X)} {l2 : List (K × X)} (rep2 : Represents t2 l2)
    (f : K → X → X → X) :
    Paired (Map.keyedUnionWith f t1 t2) (.ok (ListMap.keyedUnionWith f l1 l2)) := by
  obtain ⟨exact1, rfl, sorted1⟩ := rep1
  obtain ⟨exact2, rfl, sorted2⟩ := rep2
  rw [ListMap.keyedUnionWith, ListMap.unionLoop_eq]
  exact paired_of_makes (Map.makes_keyedUnionWith f exact1 exact2 sorted1 sorted2)
    (sorted_mergeItems (keepsKey_union f) sorted1 sorted2)

variable {t2 : Binary.Tree (K × Y)} {l2 : List (K × Y)} (rep2 : Represents t2 l2)
include rep2

theorem paired_keyedIntersectWith (f : K → X → Y → Z) :
    Paired (Map.keyedIntersectWith f t1 t2) (.ok (ListMap.keyedIntersectWith f l1 l2)) := by
  obtain ⟨exact1, rfl, sorted1⟩ := rep1
  obtain ⟨exact2, rfl, sorted2⟩ := rep2
  rw [ListMap.keyedIntersectWith, ListMap.intersectLoop_eq]
  exact paired_of_makes (Map.makes_keyedIntersectWith f sorted1 sorted2)
    (sorted_mergeItems (keepsKey_intersect f) sorted1 sorted2)

theorem paired_keyedMergeWith (f : K → Option X → Option Y → Option Z) :
    Paired (Map.keyedMergeWith f t1 t2) (.ok (ListMap.keyedMergeWith f l1 l2)) := by
  obtain ⟨exact1, rfl, sorted1⟩ := rep1
  obtain ⟨exact2, rfl, sorted2⟩ := rep2
  rw [ListMap.keyedMergeWith, ListMap.mergeLoop_eq]
  exact paired_of_makes (Map.makes_keyedMergeWith f sorted1 sorted2)
    (sorted_mergeItems (keepsKey_kept f) sorted1 sorted2)

end Two

theorem paired_keyedFilter (rep : Represents t l) (predicate : K → X → Bool) :
    Paired (Map.keyedFilter predicate t) (.ok (ListMap.keyedFilter predicate l)) := by
  obtain ⟨exact, rfl, sorted⟩ := rep
  exact paired_of_makes (Map.makes_keyedFilter sorted predicate) (sorted.filter _)

theorem paired_keyedMap (rep : Represents t l) (f : K → X → Y) :
    Paired (.ok (Map.keyedMap f t)) (.ok (ListMap.keyedMap f l)) := by
  obtain ⟨exact, rfl, sorted⟩ := rep
  apply paired_ok
  refine ⟨Map.exact_keyedMap f exact, Map.items_keyedMap f t, ?_⟩
  exact List.pairwise_map.mpr sorted

theorem paired_keyedMap' (rep : Represents t l) (f : K → X → Option Y) :
    Paired (Map.keyedMap' f t) (.ok (ListMap.keyedMap' f l)) := by
  obtain ⟨exact, rfl, sorted⟩ := rep
  have chosen : ListMap.keyedMap' f t.items = Map.choose f t.items := by
    unfold ListMap.keyedMap' Map.choose
    congr
  rw [chosen]
  exact paired_of_makes (Map.makes_keyedMap' sorted f) (Map.sorted_choose sorted f)

theorem Term.paired (m : Term K X) : Paired m.binary m.list := by
  induction m with
  | empty => exact paired_ok ⟨trivial, rfl, .nil⟩
  | singleton key item => exact paired_ok ⟨⟨rfl, trivial, trivial⟩, rfl, List.pairwise_singleton ..⟩
  | set m key item ih => exact ih.bind fun t l rep => paired_set rep key item
  | drop m key ih => exact ih.bind fun t l rep => paired_drop rep key
  | unionWith f m1 m2 ih1 ih2 =>
    exact ih1.bind fun _ _ rep1 => ih2.bind fun _ _ rep2 =>
      paired_keyedUnionWith rep1 rep2 fun _ => f
  | keyedUnionWith f m1 m2 ih1 ih2 =>
    exact ih1.bind fun _ _ rep1 => ih2.bind fun _ _ rep2 => paired_keyedUnionWith rep1 rep2 f
  | intersectWith f m1 m2 ih1 ih2 =>
    exact ih1.bind fun _ _ rep1 => ih2.bind fun _ _ rep2 =>
      paired_keyedIntersectWith rep1 rep2 fun _ => f
  | keyedIntersectWith f m1 m2 ih1 ih2 =>
    exact ih1.bind fun _ _ rep1 => ih2.bind fun _ _ rep2 => paired_keyedIntersectWith rep1 rep2 f
  | mergeWith f m1 m2 ih1 ih2 =>
    exact ih1.bind fun _ _ rep1 => ih2.bind fun _ _ rep2 =>
      paired_keyedMergeWith rep1 rep2 fun _ => f
  | keyedMergeWith f m1 m2 ih1 ih2 =>
    exact ih1.bind fun _ _ rep1 => ih2.bind fun _ _ rep2 => paired_keyedMergeWith rep1 rep2 f
  | filter predicate m ih =>
    exact ih.bind fun _ _ rep => paired_keyedFilter rep fun _ => predicate
  | keyedFilter predicate m ih => exact ih.bind fun _ _ rep => paired_keyedFilter rep predicate
  | map f m ih => exact ih.bind fun _ _ rep => paired_keyedMap rep fun _ => f
  | keyedMap f m ih => exact ih.bind fun _ _ rep => paired_keyedMap rep f
  | map' f m ih => exact ih.bind fun _ _ rep => paired_keyedMap' rep fun _ => f
  | keyedMap' f m ih => exact ih.bind fun _ _ rep => paired_keyedMap' rep f

theorem find_value (items : List (K × X)) (key : K) :
    find Prod.fst key items = ((find Prod.fst key items).map Prod.snd).map (key, ·) := by
  cases found : find Prod.fst key items with
  | none => rfl
  | some kv =>
    have same : kv.1 = key := by simpa using List.find?_some found
    rw [← same]
    rfl

theorem combines_of_makes {f : K → Option X → Option Y → Option Z}
    {g : Option (K × X) → Option (K × Y) → Option (K × Z)}
    (keeps : KeepsKey Prod.fst Prod.fst g (Prod.fst : K × Z → K))
    (values : ∀ key x y,
      (g (x.map (key, ·)) (y.map (key, ·))).map Prod.snd = f key x y)
    {m1 : Term K X} {m2 : Term K Y}
    {h : Binary.Tree (K × X) → Binary.Tree (K × Y) → Except Raised (Binary.Tree (K × Z))}
    (makes : ∀ t1 l1 t2 l2, Represents t1 l1 → Represents t2 l2 →
      Makes (h t1 t2) (mergeItems Prod.fst Prod.fst g l1 l2)) :
    Combines f m1.binary m2.binary (do h (← m1.binary) (← m2.binary)) := by
  intro t1 t2 made1 made2
  have rep1 : Represents t1 t1.items := by
    rcases m1.paired with ⟨t, l, made, -, rep⟩ | ⟨failed, -⟩
    · cases made.symm.trans made1
      exact ⟨rep.exact, rfl, rep.items ▸ rep.sorted⟩
    · cases failed.symm.trans made1
  have rep2 : Represents t2 t2.items := by
    rcases m2.paired with ⟨t, l, made, -, rep⟩ | ⟨failed, -⟩
    · cases made.symm.trans made2
      exact ⟨rep.exact, rfl, rep.items ▸ rep.sorted⟩
    · cases failed.symm.trans made2
  obtain ⟨t, made, -, items⟩ := makes t1 _ t2 _ rep1 rep2
  have sorted := sorted_mergeItems keeps rep1.sorted rep2.sorted
  refine ⟨t, ?_, ?_⟩
  · rw [made1, made2]
    exact made
  · intro key
    rw [Map.get_eq (items ▸ sorted), items, find_mergeItems keeps rep1.sorted rep2.sorted,
      Map.get_eq rep1.sorted, Map.get_eq rep2.sorted, ← values, ← find_value, ← find_value]

theorem combines_union (f : K → X → X → X) (m1 m2 : Term K X) :
    Combines (fun key => Option.merge (f key)) m1.binary m2.binary
      (Term.keyedUnionWith f m1 m2).binary := by
  apply combines_of_makes (keepsKey_union f)
  · intro key x y
    cases x <;> cases y <;> rfl
  · intro t1 l1 t2 l2 rep1 rep2
    obtain ⟨exact1, rfl, sorted1⟩ := rep1
    obtain ⟨exact2, rfl, sorted2⟩ := rep2
    exact Map.makes_keyedUnionWith f exact1 exact2 sorted1 sorted2

theorem combines_intersect (f : K → X → Y → Z) (m1 : Term K X) (m2 : Term K Y) :
    Combines (fun key => Option.map₂ (f key)) m1.binary m2.binary
      (Term.keyedIntersectWith f m1 m2).binary := by
  apply combines_of_makes (keepsKey_intersect f)
  · intro key x y
    cases x <;> cases y <;> rfl
  · intro t1 l1 t2 l2 rep1 rep2
    obtain ⟨exact1, rfl, sorted1⟩ := rep1
    obtain ⟨exact2, rfl, sorted2⟩ := rep2
    exact Map.makes_keyedIntersectWith f sorted1 sorted2

/-- A key that neither map has is not offered to the function. -/
def offered (f : Option X → Option Y → Option Z) : Option X → Option Y → Option Z
  | none, none => none
  | x, y => f x y

theorem combines_merge (f : K → Option X → Option Y → Option Z) (m1 : Term K X) (m2 : Term K Y) :
    Combines (fun key => offered (f key)) m1.binary m2.binary
      (Term.keyedMergeWith f m1 m2).binary := by
  apply combines_of_makes (keepsKey_kept f)
  · intro key x y
    cases x <;> cases y <;> simp [kept, offered, Function.comp_def]
  · intro t1 l1 t2 l2 rep1 rep2
    obtain ⟨exact1, rfl, sorted1⟩ := rep1
    obtain ⟨exact2, rfl, sorted2⟩ := rep2
    exact Map.makes_keyedMergeWith f sorted1 sorted2

end Represents

/-- Whatever is built with the operations, trees and lists give the same exceptions and answers,
and the functions of the user take the value of the first map first. -/
theorem binary_list_interchangeable (K : Type) [LinearOrder K] :
    (∀ (X : Type) (m : Term K X), Interchangeable m.binary m.list) ∧
    (∀ (X : Type) (f : K → X → X → X) (m1 m2 : Term K X),
      Combines (fun key => Option.merge (f key)) m1.binary m2.binary
        (Term.keyedUnionWith f m1 m2).binary) ∧
    (∀ (X : Type) (f : X → X → X) (m1 m2 : Term K X),
      Combines (fun _ => Option.merge f) m1.binary m2.binary (Term.unionWith f m1 m2).binary) ∧
    (∀ (X Y Z : Type) (f : K → X → Y → Z) (m1 : Term K X) (m2 : Term K Y),
      Combines (fun key => Option.map₂ (f key)) m1.binary m2.binary
        (Term.keyedIntersectWith f m1 m2).binary) ∧
    (∀ (X Y Z : Type) (f : X → Y → Z) (m1 : Term K X) (m2 : Term K Y),
      Combines (fun _ => Option.map₂ f) m1.binary m2.binary (Term.intersectWith f m1 m2).binary) ∧
    (∀ (X Y Z : Type) (f : K → Option X → Option Y → Option Z) (m1 : Term K X) (m2 : Term K Y),
      Combines (fun key => offered (f key)) m1.binary m2.binary
        (Term.keyedMergeWith f m1 m2).binary) ∧
    (∀ (X Y Z : Type) (f : Option X → Option Y → Option Z) (m1 : Term K X) (m2 : Term K Y),
      Combines (fun _ => offered f) m1.binary m2.binary (Term.mergeWith f m1 m2).binary) := by
  refine ⟨?_, ?_, ?_, ?_, ?_, ?_, ?_⟩
  · intro X m
    exact m.paired.interchangeable
  · intro X f m1 m2
    exact combines_union f m1 m2
  · intro X f m1 m2
    exact combines_union (fun _ => f) m1 m2
  · intro X Y Z f m1 m2
    exact combines_intersect f m1 m2
  · intro X Y Z f m1 m2
    exact combines_intersect (fun _ => f) m1 m2
  · intro X Y Z f m1 m2
    exact combines_merge f m1 m2
  · intro X Y Z f m1 m2
    exact combines_merge (fun _ => f) m1 m2

/-- The fold is over the second map, and the value of the first still comes first. -/
example : (Term.unionWith (fun x _ : Nat => x)
    (.set (.singleton 1 10) 2 20) (.singleton 2 30)).binary.toOption.map Map.keyvalsList =
      some [(1, 10), (2, 20)] := by
  decide

end Mythryl.MapInterchange
