import Mythryl.RedBlack.Map

/-!
# The red-black map specialised to integer keys

`int_red_black_map` is a copy by hand of the generic map with `<` and `==` in place of the
comparison function.
-/

namespace Mythryl.IntRedBlackMap
open ColoredTree SortedKeys RedBlack RedBlackMap

variable {V : Type}

def ins (nItems key1 : Int) (val1 : V) : ColorTree (Int × V) → StateM Int (ColorTree (Int × V))
  | .empty => do
      set (nItems + 1)
      return .node .red .empty (key1, val1) .empty
  | .node color a (key2, val2) b =>
      if key1 < key2 then
        match a with
        | .node .red c (key4, val4) d =>
            if key1 < key4 then do
              match ← ins nItems key1 val1 c with
              | .node .red e (key3, val3) f =>
                  return .node .red (.node .black e (key3, val3) f) (key4, val4)
                    (.node .black d (key2, val2) b)
              | c => return .node .black (.node .red c (key4, val4) d) (key2, val2) b
            else if key1 == key4 then
              return .node color (.node .red c (key1, val1) d) (key2, val2) b
            else do
              match ← ins nItems key1 val1 d with
              | .node .red e (key3, val3) f =>
                  return .node .red (.node .black c (key4, val4) e) (key3, val3)
                    (.node .black f (key2, val2) b)
              | d => return .node .black (.node .red c (key4, val4) d) (key2, val2) b
        | a => return .node .black (← ins nItems key1 val1 a) (key2, val2) b
      else if key1 == key2 then
        return .node color a (key1, val1) b
      else
        match b with
        | .node .red c (key4, val4) d =>
            if key1 < key4 then do
              match ← ins nItems key1 val1 c with
              | .node .red e (key3, val3) f =>
                  return .node .red (.node .black a (key2, val2) e) (key3, val3)
                    (.node .black f (key4, val4) d)
              | c => return .node .black a (key2, val2) (.node .red c (key4, val4) d)
            else if key1 == key4 then
              return .node color a (key2, val2) (.node .red c (key1, val1) d)
            else do
              match ← ins nItems key1 val1 d with
              | .node .red e (key3, val3) f =>
                  return .node .red (.node .black a (key2, val2) c) (key4, val4)
                    (.node .black e (key3, val3) f)
              | d => return .node .black a (key2, val2) (.node .red c (key4, val4) d)
        | b => return .node .black a (key2, val2) (← ins nItems key1 val1 b)

/-- The declaration `m = ins m` of the `where` clause comes before the body, which walks again. -/
def set (map : Map Int V) (key1 : Int) (val1 : V) : Map Int V :=
  let (m, nItems') := (do
    let m ← ins map.count key1 val1 map.tree
    let m ← ins map.count key1 val1 m
    match m with
    | .node .red leftSubtree kv rightSubtree => return .node .black leftSubtree kv rightSubtree
    | other => return other : StateM Int (ColorTree (Int × V))).run map.count
  ⟨nItems', m⟩

def containsIn (k : Int) : ColorTree (Int × V) → Bool
  | .empty => false
  | .node _ a (key2, _) b => k == key2 || (decide (k < key2) && containsIn k a) || containsIn k b

def containsKey (m : Map Int V) (k : Int) : Bool := containsIn k m.tree

def getIn (k : Int) : ColorTree (Int × V) → Option V
  | .empty => none
  | .node _ a (key2, val2) b =>
      if k < key2 then getIn k a else if k == key2 then some val2 else getIn k b

def get (m : Map Int V) (k : Int) : Option V := getIn k m.tree

abbrev Path (V : Type) : Type := DescentPath (Int × V) (Int × V)

def copyPath : Path V → ColorTree (Int × V) → ColorTree (Int × V)
  | .top, t => t
  | .left color kv1 b restOfPath, a => copyPath restOfPath (.node color a kv1 b)
  | .right color a kv1 restOfPath, b => copyPath restOfPath (.node color a kv1 b)

def copyPath' : Path V → ColorTree (Int × V) → Bool × ColorTree (Int × V)
  | .top, t => (true, t)
  | .left .black kv1 (.node .red c kv2 d) path, a =>
      copyPath' (.left .red kv1 c (.left .black kv2 d path)) a
  | .left color kv1 (.node .black (.node .red c kv2 d) kv3 e) path, a =>
      copyPath' (.left color kv1 (.node .black c kv2 (.node .red d kv3 e)) path) a
  | .left color kv1 (.node .black c kv2 (.node .red d kv3 e)) path, a =>
      (false, copyPath path (.node color (.node .black a kv1 c) kv2 (.node .black d kv3 e)))
  | .left .red kv1 (.node .black c kv2 d) path, a =>
      (false, copyPath path (.node .black a kv1 (.node .red c kv2 d)))
  | .left .black kv1 (.node .black c kv2 d) path, a =>
      copyPath' path (.node .black a kv1 (.node .red c kv2 d))
  | .right .black (.node .red c kv2 d) kv1 path, b =>
      copyPath' (.right .red d kv1 (.right .black c kv2 path)) b
  | .right color (.node .black (.node .red c kv3 d) kv2 e) kv1 path, b =>
      (false, copyPath path (.node color (.node .black c kv3 d) kv2 (.node .black e kv1 b)))
  | .right color (.node .black c kv2 (.node .red d kv3 e)) kv1 path, b =>
      copyPath' (.right color (.node .black (.node .red c kv2 d) kv3 e) kv1 path) b
  | .right .red (.node .black c kv2 d) kv1 path, b =>
      (false, copyPath path (.node .black (.node .red c kv2 d) kv1 b))
  | .right .black (.node .black c kv2 d) kv1 path, b =>
      copyPath' path (.node .black (.node .red c kv2 d) kv1 b)
  | path, t => (false, copyPath path t)
termination_by path => (path.weight, path.inner)
decreasing_by
  all_goals simp [DescentPath.weight, DescentPath.inner, ColorTree.size, Prod.lex_def]
  all_goals omega

def minKeyval : ColorTree (Int × V) → Except Raised (Int × V)
  | .node _ .empty kv _ => .ok kv
  | .node _ leftSubtree _ _ => minKeyval leftSubtree
  | .empty => .error .noMatch

def join (descendRight : Int → Path V → Except Raised (ColorTree (Int × V))) (color : Color)
    (leftSubtree rightSubtree : ColorTree (Int × V)) (descentPath : Path V) :
    Except Raised (ColorTree (Int × V)) :=
  match color, leftSubtree, rightSubtree with
  | .red, .empty, .empty => .ok (copyPath descentPath .empty)
  | .red, leftSubtree, .empty => .ok (copyPath descentPath leftSubtree)
  | .red, .empty, rightSubtree => .ok (copyPath descentPath rightSubtree)
  | .black, leftSubtree, .empty => .ok (copyPath' descentPath leftSubtree).2
  | .black, .empty, rightSubtree => .ok (copyPath' descentPath rightSubtree).2
  | color, leftSubtree, rightSubtree => do
      let (replacementKey, replacementVal) ← minKeyval rightSubtree
      descendRight replacementKey
        (.right color leftSubtree (replacementKey, replacementVal) descentPath)

def descend (keyToDelete : Int) : ColorTree (Int × V) → Path V → Except Raised (ColorTree (Int × V))
  | .empty, _ => .error .notFound
  | .node color leftSubtree (key, value) rightSubtree, descentPath =>
      match compare keyToDelete key with
      | .lt => descend keyToDelete leftSubtree (.left color (key, value) rightSubtree descentPath)
      | .gt => descend keyToDelete rightSubtree (.right color leftSubtree (key, value) descentPath)
      | .eq =>
          join (fun replacementKey => descend replacementKey rightSubtree) color leftSubtree
            rightSubtree descentPath

def drop (input : Map Int V) (keyToDrop : Int) : Except Raised (Map Int V × V) := do
  let droppedValue ←
    match get input keyToDrop with
    | some value => .ok value
    | none => .error .notFound
  let newTree ←
    match ← descend keyToDrop input.tree .top with
    | .node .red leftSubtree kv rightSubtree =>
        .ok (.node .black leftSubtree kv rightSubtree)
    | ok => .ok ok
  return (⟨input.count - 1, newTree⟩, droppedValue)

theorem getIn_eq (k : Int) (t : ColorTree (Int × V)) : getIn k t = RedBlackMap.getIn k t := by
  fun_induction RedBlackMap.getIn k t with
  | case1 => rfl
  | case2 color a key2 val2 b lt ih =>
    rw [compare_lt_iff_lt] at lt
    rw [getIn, if_pos lt, ih]
  | case3 color a key2 val2 b eq =>
    rw [compare_eq_iff_eq] at eq
    rw [getIn, if_neg eq.not_lt, if_pos (beq_iff_eq.mpr eq)]
  | case4 color a key2 val2 b gt ih =>
    rw [compare_gt_iff_gt] at gt
    rw [getIn, if_neg gt.not_gt, if_neg (by simpa using gt.ne'), ih]

theorem ins_eq (nItems key1 : Int) (val1 : V) (t : ColorTree (Int × V)) : ins nItems key1 val1 t =
      insertItemCounting (keyvals Int V) Prod.fst nItems (key1, val1) t := by
  have content (kv : Int × V) : (keyvals Int V).content kv = kv := rfl
  fun_induction ins nItems key1 val1 t with
  | case1 => rfl
  | case2 color key2 val2 b lt c key4 val4 d lt4 ih =>
    rw [insertItemCounting.eq_def, ih]
    simp only [content, compare_lt_iff_lt.mpr lt, compare_lt_iff_lt.mpr lt4]
    apply bind_congr
    rintro (_ | ⟨_ | _, e, kv, f⟩) <;> rfl
  | case3 color key2 val2 b lt c key4 val4 d notLt4 eq4 =>
    rw [insertItemCounting.eq_def]
    simp only [content, compare_lt_iff_lt.mpr lt, compare_eq_iff_eq.mpr (beq_iff_eq.mp eq4)]
    rfl
  | case4 color key2 val2 b lt c key4 val4 d notLt4 ne4 ih =>
    have gt4 : key4 < key1 := lt_of_le_of_ne (not_lt.mp notLt4) fun eq => ne4 (beq_iff_eq.mpr eq.symm)
    rw [insertItemCounting.eq_def, ih]
    simp only [content, compare_lt_iff_lt.mpr lt, compare_gt_iff_gt.mpr gt4]
    apply bind_congr
    rintro (_ | ⟨_ | _, e, kv, f⟩) <;> rfl
  | case5 color key2 val2 b lt a notRed ih =>
    rw [insertItemCounting.eq_def, ih]
    simp only [content, compare_lt_iff_lt.mpr lt]
    split
    · exact (notRed _ _ _ _ rfl).elim
    · rfl
  | case6 color a key2 val2 b notLt eq =>
    rw [insertItemCounting.eq_def]
    simp only [content, compare_eq_iff_eq.mpr (beq_iff_eq.mp eq)]
    rfl
  | case7 color a key2 val2 notLt ne c key4 val4 d lt4 ih =>
    have gt : key2 < key1 := lt_of_le_of_ne (not_lt.mp notLt) fun eq => ne (beq_iff_eq.mpr eq.symm)
    rw [insertItemCounting.eq_def, ih]
    simp only [content, compare_gt_iff_gt.mpr gt, compare_lt_iff_lt.mpr lt4]
    apply bind_congr
    rintro (_ | ⟨_ | _, e, kv, f⟩) <;> rfl
  | case8 color a key2 val2 notLt ne c key4 val4 d notLt4 eq4 =>
    have gt : key2 < key1 := lt_of_le_of_ne (not_lt.mp notLt) fun eq => ne (beq_iff_eq.mpr eq.symm)
    rw [insertItemCounting.eq_def]
    simp only [content, compare_gt_iff_gt.mpr gt, compare_eq_iff_eq.mpr (beq_iff_eq.mp eq4)]
    rfl
  | case9 color a key2 val2 notLt ne c key4 val4 d notLt4 ne4 ih =>
    have gt : key2 < key1 := lt_of_le_of_ne (not_lt.mp notLt) fun eq => ne (beq_iff_eq.mpr eq.symm)
    have gt4 : key4 < key1 := lt_of_le_of_ne (not_lt.mp notLt4) fun eq => ne4 (beq_iff_eq.mpr eq.symm)
    rw [insertItemCounting.eq_def, ih]
    simp only [content, compare_gt_iff_gt.mpr gt, compare_gt_iff_gt.mpr gt4]
    apply bind_congr
    rintro (_ | ⟨_ | _, e, kv, f⟩) <;> rfl
  | case10 color a key2 val2 notLt ne b notRed ih =>
    have gt : key2 < key1 := lt_of_le_of_ne (not_lt.mp notLt) fun eq => ne (beq_iff_eq.mpr eq.symm)
    rw [insertItemCounting.eq_def, ih]
    simp only [content, compare_gt_iff_gt.mpr gt]
    split
    · exact (notRed _ _ _ _ rfl).elim
    · rfl

theorem copyPath_eq (path : Path V) (t : ColorTree (Int × V)) :
    copyPath path t = RedBlack.copyPath (keyvals Int V) path t := by
  induction path generalizing t with
  | top => rfl
  | left color kv b path ih => exact ih _
  | right color a kv path ih => exact ih _

theorem copyPath'_eq (path : Path V) (t : ColorTree (Int × V)) :
    copyPath' path t = RedBlack.copyPath' (keyvals Int V) path t := by
  fun_induction copyPath' path t <;> rw [RedBlack.copyPath']
  -- a rule that goes on by its induction hypothesis, the others by the copy of the rest of the path
  all_goals first | assumption | exact congrArg _ (copyPath_eq ..)

theorem minKeyval_eq (t : ColorTree (Int × V)) : minKeyval t = minItem (keyvals Int V) t := by
  fun_induction minKeyval t with
  | case1 => rfl
  | case2 color left kv right notEmpty ih =>
    rw [ih, minItem]
    exact notEmpty
  | case3 => rfl

theorem join_eq {descendRight : Int → Path V → Except Raised (ColorTree (Int × V))}
    {descendRight' : Int × V → Path V → Except Raised (ColorTree (Int × V))} {color : Color}
    {left right : ColorTree (Int × V)} {path : Path V}
    (same : ∀ kv path, descendRight kv.1 path = descendRight' kv path) :
    join descendRight color left right path =
      RedBlack.join (keyvals Int V) (RedBlack.copyPath' (keyvals Int V)) descendRight' color left
        right path := by
  unfold join RedBlack.join
  split <;> simp only [copyPath_eq, copyPath'_eq, minKeyval_eq, ← same]

theorem descend_eq (k : Int) (t : ColorTree (Int × V)) (path : Path V) :
    descend k t path = RedBlack.descend (keyvals Int V) Prod.fst k t path := by
  induction t generalizing k path with
  | empty => rfl
  | node color left kv right left_ih right_ih =>
    rw [descend, RedBlack.descend, left_ih, right_ih]
    have same : ∀ (kv : Int × V) path, descend kv.1 right path =
        RedBlack.descend (keyvals Int V) Prod.fst kv.1 right path := fun kv path => right_ih ..
    rw [join_eq same]
    rfl

theorem get_eq (m : Map Int V) (k : Int) : get m k = m.get k := getIn_eq k m.tree

theorem drop_eq (m : Map Int V) (k : Int) : drop m k = m.drop k := by
  unfold drop Map.drop
  rw [get_eq, descend_eq]
  cases m.get k with
  | none => rfl
  | some value =>
    cases RedBlack.descend (keyvals Int V) Prod.fst k m.tree .top with
    | error e => rfl
    | ok t => rcases t with _ | ⟨_ | _, left, kv, right⟩ <;> rfl

theorem containsIn_iff (k : Int) {t : ColorTree (Int × V)}
    (sorted : Sorted Prod.fst ((keyvals Int V).items t)) :
    containsIn k t = true ↔ ∃ kv ∈ (keyvals Int V).items t, kv.1 = k := by
  induction t with
  | empty => simp [containsIn]
  | node color a kv b left_ih right_ih =>
    obtain ⟨sortedA, sortedB, belowKv, -⟩ := sorted.node
    rw [containsIn, Bool.or_eq_true, Bool.or_eq_true, Bool.and_eq_true, left_ih sortedA,
      right_ih sortedB, beq_iff_eq, decide_eq_true_iff, Layout.items_tree_node]
    constructor
    · rintro ((rfl | ⟨-, x, inA, eq⟩) | ⟨x, inB, eq⟩)
      · exact ⟨kv, by simp [Layout.plain], rfl⟩
      · exact ⟨x, by simp [inA], eq⟩
      · exact ⟨x, by simp [inB], eq⟩
    · rintro ⟨x, mem, rfl⟩
      rcases List.mem_append.mp mem with inA | inRest
      · exact .inl (.inr ⟨belowKv x inA, x, inA, rfl⟩)
      · rcases List.mem_cons.mp inRest with rfl | inB
        · exact .inl (.inl rfl)
        · exact .inr ⟨x, inB, rfl⟩

variable {m : Map Int V}

theorem containsKey_eq (lawful : m.Lawful) (k : Int) : containsKey m k = m.containsKey k := by
  rw [Bool.eq_iff_iff]
  exact (containsIn_iff k lawful.sorted).trans (contains_iff k lawful.sorted).symm

theorem set_eq (lawful : m.Lawful) (key1 : Int) (val1 : V) : set m key1 val1 = m.set key1 val1 := by
  obtain ⟨n, balanced⟩ := lawful.balanced
  obtain ⟨c, balanced'⟩ : ∃ c, Balanced (insertItem (keyvals Int V) Prod.fst (key1, val1) m.tree) c n :=
    balanced_insertItem (key1, val1) balanced
  have sorted' := sorted_insertItem (L := keyvals Int V) (key1, val1) lawful.sorted
  have present : (key1, val1) ∈
      (keyvals Int V).items (insertItem (keyvals Int V) Prod.fst (key1, val1) m.tree) := by
    rw [items_insertItem (key1, val1) lawful.sorted]
    simp
  have found : contains (keyvals Int V) Prod.fst key1
      (insertItem (keyvals Int V) Prod.fst (key1, val1) m.tree) = true :=
    (contains_iff key1 sorted').mpr ⟨_, present, rfl⟩
  have again := blacken_insertItem_present balanced' sorted' present
  rw [RedBlackMap.set_eq, ← again]
  unfold set
  simp only [ins_eq, StateT.run_bind, insertItemCounting_run]
  simp only [bind, found, if_true]
  rcases insertItem (keyvals Int V) Prod.fst (key1, val1)
    (insertItem (keyvals Int V) Prod.fst (key1, val1) m.tree) with _ | ⟨_ | _, left, kv, right⟩ <;>
    rfl

inductive Op (V : Type)
  | set (key : Int) (value : V)
  | drop (key : Int)
  | get (key : Int)
  | containsKey (key : Int)

inductive Answer (V : Type)
  | done
  | dropped (value : V)
  | raised (e : Raised)
  | value (value : Option V)
  | flag (found : Bool)
  deriving DecidableEq

structure Package (V : Type) where
  set : Map Int V → Int → V → Map Int V
  drop : Map Int V → Int → Except Raised (Map Int V × V)
  get : Map Int V → Int → Option V
  containsKey : Map Int V → Int → Bool

def generic (V : Type) : Package V := ⟨Map.set, Map.drop, Map.get, Map.containsKey⟩

def specialized (V : Type) : Package V := ⟨set, drop, get, containsKey⟩

namespace Package

/-- After an exception the client still has the map it had. -/
def step (package : Package V) (m : Map Int V) : Op V → Map Int V × Answer V
  | .set key value => (package.set m key value, .done)
  | .drop key =>
      match package.drop m key with
      | .ok (m', value) => (m', .dropped value)
      | .error e => (m, .raised e)
  | .get key => (m, .value (package.get m key))
  | .containsKey key => (m, .flag (package.containsKey m key))

def trace (package : Package V) (m : Map Int V) : List (Op V) → List (Map Int V × Answer V)
  | [] => []
  | op :: ops => package.step m op :: package.trace (package.step m op).1 ops

end Package

theorem step_eq (lawful : m.Lawful) (op : Op V) :
    (specialized V).step m op = (generic V).step m op := by
  cases op with
  | set key value => simp only [Package.step, specialized, generic, set_eq lawful]
  | drop key => simp only [Package.step, specialized, generic, drop_eq]
  | get key => simp only [Package.step, specialized, generic, get_eq]
  | containsKey key => simp only [Package.step, specialized, generic, containsKey_eq lawful]

theorem lawful_step (lawful : m.Lawful) (op : Op V) : ((generic V).step m op).1.Lawful := by
  cases op with
  | set key value =>
    have result : RedBlackMap.step m (.set key value) = .ok (m.set key value) := rfl
    exact lawful.step result
  | drop key =>
    simp only [Package.step, generic]
    cases dropped : m.drop key with
    | error e => exact lawful
    | ok pair =>
      have result : RedBlackMap.step m (.drop key) = .ok pair.1 := by
        simp only [RedBlackMap.step, dropped]
      exact lawful.step result
  | get key => exact lawful
  | containsKey key => exact lawful

theorem specialized_eq_generic (ops : List (Op V)) :
    (specialized V).trace empty ops = (generic V).trace empty ops := by
  have same (m : Map Int V) (lawful : m.Lawful) :
      (specialized V).trace m ops = (generic V).trace m ops := by
    induction ops generalizing m with
    | nil => rfl
    | cons op ops ih =>
      rw [Package.trace, Package.trace, step_eq lawful, ih _ (lawful_step lawful op)]
  exact same empty .empty

end Mythryl.IntRedBlackMap
