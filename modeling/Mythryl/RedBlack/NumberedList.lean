import Mythryl.RedBlack.NumberedSet
import Mathlib.Data.List.InsertIdx

/-!
# The red-black numbered list

`red_black_numbered_list`: a list kept as a tree whose nodes count their subtrees.
-/

namespace Mythryl.RedBlackNumberedList
open ColoredTree RedBlack RedBlackNumberedSet

variable {X Y Z : Type}

/-- An implicit node stores its value with the count of its subtree, as the node of a numbered set
does its key; `counted` is `implicit_node`. -/
abbrev NumberedTree (X : Type) : Type := ColorTree (X × Int)

abbrev ExplicitTree (X : Type) : Type := ColorTree (Int × X)

abbrev Digits (X : Type) : Type := Digit (Int × X) (Int × X)

abbrev explicit (X : Type) : Layout (Int × X) (Int × X) := Layout.plain (Int × X)

def kidsOf (t : NumberedTree X) : Int := keysIn t

structure NumberedList (X : Type) where
  tree : NumberedTree X
  deriving DecidableEq, Repr

def empty : NumberedList X := ⟨.empty⟩

def singleton (value : X) : NumberedList X := ⟨.node .black .empty (value, 1) .empty⟩

def toImplicit : ExplicitTree X → Int × NumberedTree X
  | .empty => (0, .empty)
  | .node color leftTree (_, value) rightTree =>
      let (leftkids, leftTree') := toImplicit leftTree
      let (rightkids, rightTree') := toImplicit rightTree
      let valueCount := leftkids + rightkids + 1
      (valueCount, .node color leftTree' (value, valueCount) rightTree')

def explicitTreeToImplicitTree (explicitTree : ExplicitTree X) : NumberedTree X :=
  (toImplicit explicitTree).2

def digitsToSequence (digits : Digits X) : NumberedList X :=
  ⟨explicitTreeToImplicitTree (linkAll (explicit X) digits)⟩

def fromList (list : List X) : NumberedList X :=
  let rec loop (result : Digits X) (index : Int) : List X → NumberedList X
    | [] => digitsToSequence result
    | this :: rest => loop (addItem (explicit X) (index, this) result) (index + 1) rest
  loop .zero 0 list

/-- The walk `set''`. In the cases `EQUAL` the source swaps the two values and increments the key,
but inside the block of an `if`, so the bindings end there and `EQUAL` goes on as `GREATER`. -/
def setIn (key : Int) (value : X) : NumberedTree X → Except Raised (NumberedTree X)
  | .empty => if key ≠ 0 then .error .subscript else .ok (.node .red .empty (value, 1) .empty)
  | .node _ sLeft (sVal, _) sRight =>
      match compare key (kidsOf sLeft + 1) with
      | .lt =>
          match sLeft with
          | .node .red sLeftLeft (sLeftVal, _) sLeftRight =>
              match compare key (kidsOf sLeftLeft + 1) with
              | .lt => do
                  let result ← setIn key value sLeftLeft
                  return rebuildLeftLeft (counted X) result sLeftVal sLeftRight sVal sRight
              | _ => do
                  let result ← setIn (key - (kidsOf sLeftLeft + 1)) value sLeftRight
                  return rebuildLeftRight (counted X) sLeftLeft sLeftVal result sVal sRight
          | sLeft => do
              let result ← setIn key value sLeft
              return (counted X).node .black result sVal sRight
      | _ =>
          match sRight with
          | .node .red sRightLeft (sRightVal, _) sRightRight =>
              match compare (key - (kidsOf sLeft + 1)) (kidsOf sRightLeft + 1) with
              | .lt => do
                  let result ← setIn (key - (kidsOf sLeft + 1)) value sRightLeft
                  return rebuildRightLeft (counted X) sLeft sVal result sRightVal sRightRight
              | _ => do
                  let result ← setIn (key - (kidsOf sLeft + 1) - (kidsOf sRightLeft + 1)) value
                    sRightRight
                  return rebuildRightRight (counted X) sLeft sVal sRightLeft sRightVal result
          | sRight => do
              let result ← setIn (key - (kidsOf sLeft + 1)) value sRight
              return (counted X).node .black sLeft sVal result

attribute [elab_as_elim] setIn.induct_unfolding

def findIn : NumberedTree X → Int → Except Raised (Option X)
  | .empty, _ => .ok none
  | .node _ left (val2, _) right, key =>
      if key < 0 then .error .subscript
      else
        match compare key (kidsOf left) with
        | .lt => findIn left key
        | .eq => .ok (some val2)
        | .gt => findIn right (key - (kidsOf left + 1))

def copyPath' : DescentPath X (X × Int) → NumberedTree X → Bool × NumberedTree X
  | .top, resultTree => (true, resultTree)
  | .left .black val1 (.node .red c (val2, _) d) path, a =>
      copyPath' (.left .red val1 c (.left .black val2 d path)) a
  | .right .black (.node .red c (val2, _) d) val1 path, b =>
      copyPath' (.right .red d val1 (.right .black c val2 path)) b
  | .left color val1 (.node .black (.node .red c (val2, _) d) (val3, _) e) path, a =>
      copyPath' (.left color val1
        ((counted X).node .black c val2 ((counted X).node .red d val3 e)) path) a
  | .right color (.node .black c (val2, _) (.node .red d (val3, _) e)) val1 path, b =>
      copyPath' (.right color
        ((counted X).node .black ((counted X).node .red c val2 d) val3 e) val1 path) b
  | .left color val1 (.node .black c (val2, _) (.node .red d (val3, _) e)) path, a =>
      (false, copyPath (counted X) path ((counted X).node color
        ((counted X).node .black a val1 c) val2 ((counted X).node .black d val3 e)))
  | .right color (.node .black (.node .red c (val3, _) d) (val2, _) e) val1 path, b =>
      (false, copyPath (counted X) path ((counted X).node color
        ((counted X).node .black c val3 d) val2 ((counted X).node .black e val1 b)))
  | .left .black val1 (.node .black c (val2, _) d) path, a =>
      copyPath' path ((counted X).node .black a val1 ((counted X).node .red c val2 d))
  | .right .black (.node .black c (val2, _) d) val1 path, b =>
      copyPath' path ((counted X).node .black ((counted X).node .red c val2 d) val1 b)
  | .left .red val1 (.node .black c (val2, _) d) path, a =>
      (false, copyPath (counted X) path
        ((counted X).node .black a val1 ((counted X).node .red c val2 d)))
  | .right .red (.node .black c (val2, _) d) val1 path, b =>
      (false, copyPath (counted X) path
        ((counted X).node .black ((counted X).node .red c val2 d) val1 b))
  | path, t => (false, copyPath (counted X) path t)
termination_by path => (path.weight, path.inner)
decreasing_by
  all_goals simp [DescentPath.weight, DescentPath.inner, Layout.node, ColorTree.size, Prod.lex_def]
  all_goals omega

attribute [elab_as_elim] copyPath'.induct_unfolding

@[grind =] def descend : Int → NumberedTree X → DescentPath X (X × Int) → Except Raised (NumberedTree X)
  | _, .empty, _ => .error .notFound
  | nodeToDelete, .node color leftSubtree (value, _) rightSubtree, descentPath =>
      match compare nodeToDelete (kidsOf leftSubtree) with
      | .lt => descend nodeToDelete leftSubtree (.left color value rightSubtree descentPath)
      | .gt =>
          descend (nodeToDelete - (kidsOf leftSubtree + 1)) rightSubtree
            (.right color leftSubtree value descentPath)
      | .eq =>
          join (counted X) copyPath' (fun _ => descend 0 rightSubtree) color leftSubtree
            rightSubtree descentPath

namespace NumberedList

def set (s : NumberedList X) (key : Int) (value : X) : Except Raised (NumberedList X) :=
  if key < 0 then .error .subscript
  else do
    let tree ← setIn key value s.tree
    return ⟨tree.blacken⟩

def find (s : NumberedList X) (key : Int) : Except Raised (Option X) := findIn s.tree key

def get (s : NumberedList X) (i : Int) : Except Raised X := do
  match ← s.find i with
  | none => .error .subscript
  | some value => .ok value

def remove (input : NumberedList X) (i : Int) : Except Raised (NumberedList X × X) :=
  if i < 0 then .error .subscript
  else do
    match ← input.find i with
    | none => .error .notFound
    | some removedValue =>
        let newTree ← descend i input.tree .top
        return (⟨newTree.blacken⟩, removedValue)

def valsCount (s : NumberedList X) : Int := kidsOf s.tree

def shift (s : NumberedList X) : Except Raised (Option (NumberedList X × X)) :=
  match s.remove 0 with
  | .ok result => .ok (some result)
  | .error .notFound => .ok none
  | .error e => .error e

def unshift (s : NumberedList X) (value : X) : Except Raised (NumberedList X) := s.set 0 value

def pop (s : NumberedList X) : Except Raised (Option (NumberedList X × X)) :=
  match s.valsCount with
  | 0 => .ok none
  | n => do
      let result ← s.remove (n - 1)
      return some result

def push (s : NumberedList X) (value : X) : Except Raised (NumberedList X) :=
  s.set s.valsCount value

def allInvariantsHold (s : NumberedList X) : Bool :=
  match s.tree with
  | .empty => true
  | .node .red _ _ _ => false
  | tree => blackInvariantOk tree && redInvariantOk true tree && childCountsOk tree

def foldForward {A : Type} (f : X → A → A) (initialValue : A) (s : NumberedList X) : A :=
  RedBlack.foldForward (counted X) f s.tree initialValue

def foldBackward {A : Type} (f : X → A → A) (init : A) (s : NumberedList X) : A :=
  RedBlack.foldBackward (counted X) f s.tree init

def valsList (s : NumberedList X) : List X := s.foldBackward List.cons []

def appendRest (walk : NumberedTree X × List (NumberedTree X)) (n : Int) (digits : Digits X) :
    Int × Digits X :=
  match walk with
  | (.empty, _) => (n, digits)
  | (.node _ _ (value, _) _, rest) =>
      appendRest (next rest) (n + 1) (addItem (explicit X) (n, value) digits)
termination_by pending walk
decreasing_by
  rw [pending_next, pending]
  omega

def unionWalk (mergeFn : Int → X → X → X) (tree1 tree2 : List (NumberedTree X)) (n : Int)
    (result : Digits X) : Int × Digits X :=
  match _h1 : next tree1, _h2 : next tree2 with
  | (.empty, _), (.empty, _) => (n, result)
  | (.empty, _), walk2 => appendRest walk2 n result
  | walk1, (.empty, _) => appendRest walk1 n result
  | (.node _ _ (val1, _) _, rest1), (.node _ _ (val2, _) _, rest2) =>
      unionWalk mergeFn rest1 rest2 (n + 1) (addItem (explicit X) (n, mergeFn n val1 val2) result)
termination_by stackSize tree1
decreasing_by exact stackSize_of_node _h1

def intersectWalk (mergeFn : Int → X → Y → Z) (tree1 : List (NumberedTree X))
    (tree2 : List (NumberedTree Y)) (n : Int) (result : Digits Z) : Int × Digits Z :=
  match _h1 : next tree1, _h2 : next tree2 with
  | (.node _ _ (val1, _) _, rest1), (.node _ _ (val2, _) _, rest2) =>
      intersectWalk mergeFn rest1 rest2 (n + 1)
        (addItem (explicit Z) (n, mergeFn n val1 val2) result)
  | _, _ => (n, result)
termination_by stackSize tree1
decreasing_by exact stackSize_of_node _h1

def keepAt (answer : Option Z) (n : Int) (result : Digits Z) : Int × Digits Z :=
  match answer with
  | some val2 => (n + 1, addItem (explicit Z) (n, val2) result)
  | none => (n, result)

def mergeWalk (mergeFn : Int → Option X → Option Y → Option Z) (tree1 : List (NumberedTree X))
    (tree2 : List (NumberedTree Y)) (n : Int) (result : Digits Z) : Int × Digits Z :=
  match _h1 : next tree1, _h2 : next tree2 with
  | (.empty, _), (.empty, _) => (n, result)
  | (.empty, _), (.node _ _ (val2, _) _, rest2) =>
      let (n', result') := keepAt (mergeFn n none (some val2)) n result
      mergeWalk mergeFn tree1 rest2 n' result'
  | (.node _ _ (val1, _) _, rest1), (.empty, _) =>
      let (n', result') := keepAt (mergeFn n (some val1) none) n result
      mergeWalk mergeFn rest1 tree2 n' result'
  | (.node _ _ (val1, _) _, rest1), (.node _ _ (val2, _) _, rest2) =>
      let (n', result') := keepAt (mergeFn n (some val1) (some val2)) n result
      mergeWalk mergeFn rest1 rest2 n' result'
termination_by stackSize tree1 + stackSize tree2
decreasing_by
  · have := stackSize_of_node _h2
    omega
  · have := stackSize_of_node _h1
    omega
  · have := stackSize_of_node _h1
    have := stackSize_of_node _h2
    omega

def wrap (f : List (NumberedTree X) → List (NumberedTree Y) → Int → Digits Z → Int × Digits Z)
    (s1 : NumberedList X) (s2 : NumberedList Y) : NumberedList Z :=
  digitsToSequence (f (start s1.tree) (start s2.tree) 0 .zero).2

def keyedUnionWith (mergeFn : Int → X → X → X) (s1 s2 : NumberedList X) : NumberedList X :=
  wrap (unionWalk mergeFn) s1 s2

def unionWith (mergeFn : X → X → X) (s1 s2 : NumberedList X) : NumberedList X :=
  s1.keyedUnionWith (fun _ => mergeFn) s2

def keyedIntersectWith (mergeFn : Int → X → Y → Z) (s1 : NumberedList X) (s2 : NumberedList Y) :
    NumberedList Z :=
  wrap (intersectWalk mergeFn) s1 s2

def intersectWith (mergeFn : X → Y → Z) (s1 : NumberedList X) (s2 : NumberedList Y) :
    NumberedList Z :=
  s1.keyedIntersectWith (fun _ => mergeFn) s2

def keyedMergeWith (mergeFn : Int → Option X → Option Y → Option Z) (s1 : NumberedList X)
    (s2 : NumberedList Y) : NumberedList Z :=
  wrap (mergeWalk mergeFn) s1 s2

def mergeWith (mergeFn : Option X → Option Y → Option Z) (s1 : NumberedList X)
    (s2 : NumberedList Y) : NumberedList Z :=
  s1.keyedMergeWith (fun _ => mergeFn) s2

def mapf (f : Int → X → Y) : Int → NumberedTree X → Int × NumberedTree Y
  | n, .empty => (n, .empty)
  | n, .node color leftSubtree (value, valCount) rightSubtree =>
      let (n, leftSubtree') := mapf f n leftSubtree
      let value' := f n value
      let (n, rightSubtree') := mapf f (n + 1) rightSubtree
      (n, .node color leftSubtree' (value', valCount) rightSubtree')

def keyedMap (f : Int → X → Y) (s : NumberedList X) : NumberedList Y := ⟨(mapf f 0 s.tree).2⟩

def map (f : X → Y) (s : NumberedList X) : NumberedList Y := s.keyedMap fun _ => f

@[grind =] def filterIn (predicate : Int → X → Bool) : NumberedTree X → Int → Digits X → Digits X
  | .empty, _, digits => digits
  | .node _ left (value, _) right, n, digits =>
      let digits := filterIn predicate left n digits
      if predicate n value then
        filterIn predicate right (n + 1) (addItem (explicit X) (n, value) digits)
      else filterIn predicate right n digits

def keyedFilter (predicate : Int → X → Bool) (s : NumberedList X) : NumberedList X :=
  digitsToSequence (filterIn predicate s.tree 0 .zero)

def filter (predicate : X → Bool) (s : NumberedList X) : NumberedList X :=
  s.keyedFilter fun _ => predicate

def map' (f : X → Option Y) (s : NumberedList X) : Except Raised (NumberedList Y) :=
  s.foldForward (fun value result => do
    match f value with
    | some value' => (← result).push value'
    | none => result) (.ok empty)

def keyedFoldf {A : Type} (f : Int → X → A → A) : NumberedTree X → A → Int → A × Int
  | .empty, result, key => (result, key)
  | .node _ leftSubtree (value, _) rightSubtree, result, key =>
      let (result, key) := keyedFoldf f leftSubtree result key
      keyedFoldf f rightSubtree (f key value result) (key + 1)

def keyedMap' (f : Int → X → Option Y) (s : NumberedList X) : Except Raised (NumberedList Y) :=
  (keyedFoldf (fun key value result => do
    match f key value with
    | some value' => (← result).push value'
    | none => result) s.tree (.ok empty) 0).1

end NumberedList

/-! # The numbered list is a list -/

theorem insertIdx_left {left right : List X} {y : X} {k : Nat} (h : k ≤ left.length) (v : X) :
    (left ++ y :: right).insertIdx k v = left.insertIdx k v ++ y :: right := by
  induction left generalizing k with
  | nil =>
    obtain rfl := Nat.le_zero.mp h
    rfl
  | cons x left ih =>
    cases k with
    | zero => rfl
    | succ k =>
      rw [List.cons_append, List.insertIdx_succ_cons, List.insertIdx_succ_cons,
        ih (Nat.le_of_succ_le_succ h), List.cons_append]

variable {key : Int} {t t' : NumberedTree X} {n : Nat} {path : DescentPath X (X × Int)}

theorem insertIdx_right {left right : List X} {y : X} (ge : left.length + 1 ≤ key) (v : X) :
    (left ++ y :: right).insertIdx key.toNat v =
      left ++ y :: right.insertIdx (key - (left.length + 1)).toNat v := by
  induction left generalizing key with
  | nil =>
    have next : key.toNat = (key - (0 + 1)).toNat + 1 := by omega
    exact (congrArg (([] ++ y :: right).insertIdx · v) next).trans List.insertIdx_succ_cons
  | cons x left ih =>
    rw [List.length_cons] at ge ⊢
    push_cast at ge ⊢
    have next : key.toNat = (key - 1).toNat + 1 := by omega
    have rest : key - 1 - (left.length + 1) = key - (left.length + 1 + 1) := by ring
    rw [next, List.cons_append, List.insertIdx_succ_cons, ih (by omega), rest, List.cons_append]

theorem kidsOf_eq (exact : (counted X).Exact t) : kidsOf t = ((counted X).items t).length := by
  rw [Layout.length_items]
  exact keysIn_eq exact

theorem length_node (color : Color) (left right : NumberedTree X) (item : X × Int) :
    (((counted X).items (.node color left item right)).length : Int) =
      ((counted X).items left).length + 1 + ((counted X).items right).length := by
  rw [Layout.items_tree_node, List.length_append, List.length_cons]
  push_cast
  ring

theorem setIn_ok (v : X) (exact : (counted X).Exact t)
    (nonneg : 0 ≤ key) (le : key ≤ ((counted X).items t).length) : ∃ t', setIn key v t = .ok t' ∧
      (counted X).items t' = ((counted X).items t).insertIdx key.toNat v := by
  fun_induction setIn key v t with
  | case1 key ne =>
    exact absurd (le_antisymm le nonneg) ne
  | case2 key eq =>
    obtain rfl := not_not.mp eq
    exact ⟨_, rfl, rfl⟩
  | case3 key color y n b c z n' d inner outer ih =>
    rw [compare_lt_iff_lt] at inner outer
    obtain ⟨exactLeft, -⟩ := exact.tree_node
    obtain ⟨exactC, -⟩ := exactLeft.tree_node
    rw [kidsOf_eq exactC] at inner
    rw [kidsOf_eq exactLeft] at outer
    obtain ⟨t', result, found⟩ := ih exactC nonneg (by omega)
    rw [result]
    refine ⟨_, rfl, ?_⟩
    rw [items_rebuildLeftLeft, found, Layout.items_tree_node, insertIdx_left (by omega),
      Layout.items_tree_node, insertIdx_left (by omega)]
    rfl
  | case4 key color y n b c z n' d inner outer ih =>
    have inner := not_lt.mp fun lt => inner (compare_lt_iff_lt.mpr lt)
    rw [compare_lt_iff_lt] at outer
    obtain ⟨exactLeft, -⟩ := exact.tree_node
    obtain ⟨exactC, exactD, -⟩ := exactLeft.tree_node
    rw [kidsOf_eq exactC] at inner ih ⊢
    rw [kidsOf_eq exactLeft] at outer
    have lengths := length_node .red c d (z, n')
    obtain ⟨t', result, found⟩ := ih exactD (by omega) (by omega)
    rw [result]
    refine ⟨_, rfl, ?_⟩
    rw [items_rebuildLeftRight, found, Layout.items_tree_node, insertIdx_left (by omega),
      Layout.items_tree_node, insertIdx_right inner]
    rfl
  | case5 key color y n b a notRed outer ih =>
    rw [compare_lt_iff_lt] at outer
    obtain ⟨exactA, -⟩ := exact.tree_node
    rw [kidsOf_eq exactA] at outer
    obtain ⟨t', result, found⟩ := ih exactA nonneg (by omega)
    rw [result]
    refine ⟨_, rfl, ?_⟩
    rw [Layout.items_node, found, Layout.items_tree_node, insertIdx_left (by omega)]
    rfl
  | case6 key color a y n c z n' d inner outer ih =>
    rw [compare_lt_iff_lt] at inner
    have outer := not_lt.mp fun lt => outer (compare_lt_iff_lt.mpr lt)
    obtain ⟨exactA, exactRight, -⟩ := exact.tree_node
    obtain ⟨exactC, -⟩ := exactRight.tree_node
    rw [kidsOf_eq exactA] at inner outer ih ⊢
    rw [kidsOf_eq exactC] at inner
    obtain ⟨t', result, found⟩ := ih exactC (by omega) (by omega)
    rw [result]
    refine ⟨_, rfl, ?_⟩
    rw [items_rebuildRightLeft, found, Layout.items_tree_node, insertIdx_right outer,
      Layout.items_tree_node, insertIdx_left (by omega)]
    rfl
  | case7 key color a y n c z n' d outer inner ih =>
    have inner := not_lt.mp fun lt => inner (compare_lt_iff_lt.mpr lt)
    have outer := not_lt.mp fun lt => outer (compare_lt_iff_lt.mpr lt)
    obtain ⟨exactA, exactRight, -⟩ := exact.tree_node
    obtain ⟨exactC, exactD, -⟩ := exactRight.tree_node
    rw [kidsOf_eq exactA] at inner outer ih ⊢
    rw [kidsOf_eq exactC] at inner ih ⊢
    have lengths := length_node color a (.node .red c (z, n') d) (y, n)
    have lengths' := length_node .red c d (z, n')
    obtain ⟨t', result, found⟩ := ih exactD (by omega) (by omega)
    rw [result]
    refine ⟨_, rfl, ?_⟩
    rw [items_rebuildRightRight, found, Layout.items_tree_node, insertIdx_right outer,
      Layout.items_tree_node, insertIdx_right inner]
    rfl
  | case8 key color a y n b notRed outer ih =>
    have outer := not_lt.mp fun lt => outer (compare_lt_iff_lt.mpr lt)
    obtain ⟨exactA, exactB, -⟩ := exact.tree_node
    rw [kidsOf_eq exactA] at outer ih ⊢
    have lengths := length_node color a b (y, n)
    obtain ⟨t', result, found⟩ := ih exactB (by omega) (by omega)
    rw [result]
    refine ⟨_, rfl, ?_⟩
    rw [Layout.items_node, found, Layout.items_tree_node, insertIdx_right outer]
    rfl

theorem setIn_error (v : X) (exact : (counted X).Exact t)
    (gt : ((counted X).items t).length < key) : setIn key v t = .error .subscript := by
  fun_induction setIn key v t with
  | case1 key ne => rfl
  | case2 key eq =>
    obtain rfl := not_not.mp eq
    exact absurd gt (lt_irrefl _)
  | case3 key color y n b c z n' d inner outer ih =>
    rw [compare_lt_iff_lt] at outer
    obtain ⟨exactLeft, -⟩ := exact.tree_node
    rw [kidsOf_eq exactLeft] at outer
    have lengths := length_node color (.node .red c (z, n') d) b (y, n)
    omega
  | case4 key color y n b c z n' d inner outer ih =>
    rw [compare_lt_iff_lt] at outer
    obtain ⟨exactLeft, -⟩ := exact.tree_node
    rw [kidsOf_eq exactLeft] at outer
    have lengths := length_node color (.node .red c (z, n') d) b (y, n)
    omega
  | case5 key color y n b a notRed outer ih =>
    rw [compare_lt_iff_lt] at outer
    obtain ⟨exactA, -⟩ := exact.tree_node
    rw [kidsOf_eq exactA] at outer
    have lengths := length_node color a b (y, n)
    omega
  | case6 key color a y n c z n' d inner outer ih =>
    rw [compare_lt_iff_lt] at inner
    obtain ⟨exactA, exactRight, -⟩ := exact.tree_node
    obtain ⟨exactC, -⟩ := exactRight.tree_node
    rw [kidsOf_eq exactA, kidsOf_eq exactC] at inner
    have lengths := length_node color a (.node .red c (z, n') d) (y, n)
    have lengths' := length_node .red c d (z, n')
    omega
  | case7 key color a y n c z n' d outer inner ih =>
    obtain ⟨exactA, exactRight, -⟩ := exact.tree_node
    obtain ⟨exactC, exactD, -⟩ := exactRight.tree_node
    rw [kidsOf_eq exactA, kidsOf_eq exactC] at ih ⊢
    have lengths := length_node color a (.node .red c (z, n') d) (y, n)
    have lengths' := length_node .red c d (z, n')
    rw [ih exactD (by omega)]
    rfl
  | case8 key color a y n b notRed outer ih =>
    obtain ⟨exactA, exactB, -⟩ := exact.tree_node
    rw [kidsOf_eq exactA] at ih ⊢
    have lengths := length_node color a b (y, n)
    rw [ih exactB (by omega)]
    rfl

theorem exact_setIn {v : X} (exact : (counted X).Exact t)
    (result : setIn key v t = .ok t') : (counted X).Exact t' := by
  fun_induction setIn key v t generalizing t' with
  | case1 key ne => cases result
  | case2 key eq =>
    cases result
    exact .node .red v .empty .empty
  | case3 key color y n b c z n' d inner outer ih =>
    obtain ⟨exactLeft, exactB, -⟩ := exact.tree_node
    obtain ⟨exactC, exactD, -⟩ := exactLeft.tree_node
    obtain ⟨c', result', rfl⟩ := bind_pure_eq_ok.mp result
    exact exact_rebuildLeftLeft _ _ (ih exactC result') exactD exactB
  | case4 key color y n b c z n' d inner outer ih =>
    obtain ⟨exactLeft, exactB, -⟩ := exact.tree_node
    obtain ⟨exactC, exactD, -⟩ := exactLeft.tree_node
    obtain ⟨d', result', rfl⟩ := bind_pure_eq_ok.mp result
    exact exact_rebuildLeftRight _ _ exactC (ih exactD result') exactB
  | case5 key color y n b a notRed outer ih =>
    obtain ⟨exactA, exactB, -⟩ := exact.tree_node
    obtain ⟨a', result', rfl⟩ := bind_pure_eq_ok.mp result
    exact .node .black y (ih exactA result') exactB
  | case6 key color a y n c z n' d inner outer ih =>
    obtain ⟨exactA, exactRight, -⟩ := exact.tree_node
    obtain ⟨exactC, exactD, -⟩ := exactRight.tree_node
    obtain ⟨c', result', rfl⟩ := bind_pure_eq_ok.mp result
    exact exact_rebuildRightLeft _ _ exactA (ih exactC result') exactD
  | case7 key color a y n c z n' d outer inner ih =>
    obtain ⟨exactA, exactRight, -⟩ := exact.tree_node
    obtain ⟨exactC, exactD, -⟩ := exactRight.tree_node
    obtain ⟨d', result', rfl⟩ := bind_pure_eq_ok.mp result
    exact exact_rebuildRightRight _ _ exactA exactC (ih exactD result')
  | case8 key color a y n b notRed outer ih =>
    obtain ⟨exactA, exactB, -⟩ := exact.tree_node
    obtain ⟨b', result', rfl⟩ := bind_pure_eq_ok.mp result
    exact .node .black y exactA (ih exactB result')

theorem black_of_not_red_node {k : Color} (h : Balanced t k n)
    (not : ∀ c z m d, t = .node .red c (z, m) d → False) : Balanced t .black n :=
  black_of_not_red h fun c z d eq => not c z.1 z.2 d eq

theorem balanced_setIn {v : X}
    (h : Balanced t .black n) (result : setIn key v t = .ok t') : ∃ k, Balanced t' k n := by
  fun_induction setIn key v t generalizing t' n with
  | case1 key ne => cases result
  | case2 key eq =>
    cases result
    obtain ⟨-, rfl⟩ := h.of_empty
    exact ⟨.red, .red _ .empty .empty⟩
  | case3 key color y m b c z m' d inner outer ih =>
    obtain ⟨c', result', rfl⟩ := bind_pure_eq_ok.mp result
    cases h with
    | black _ ha hb =>
      obtain ⟨rfl, hc, hd⟩ := ha.of_red
      obtain ⟨k, hc'⟩ := ih hc result'
      exact balanced_rebuildLeftLeft _ _ hc' hd hb
  | case4 key color y m b c z m' d inner outer ih =>
    obtain ⟨d', result', rfl⟩ := bind_pure_eq_ok.mp result
    cases h with
    | black _ ha hb =>
      obtain ⟨rfl, hc, hd⟩ := ha.of_red
      obtain ⟨k, hd'⟩ := ih hd result'
      exact balanced_rebuildLeftRight _ _ hc hd' hb
  | case5 key color y m b a notRed outer ih =>
    obtain ⟨a', result', rfl⟩ := bind_pure_eq_ok.mp result
    cases h with
    | black _ ha hb =>
      obtain ⟨k, ha'⟩ := ih (black_of_not_red_node ha notRed) result'
      exact ⟨.black, .black _ ha' hb⟩
  | case6 key color a y m c z m' d inner outer ih =>
    obtain ⟨c', result', rfl⟩ := bind_pure_eq_ok.mp result
    cases h with
    | black _ ha hb =>
      obtain ⟨rfl, hc, hd⟩ := hb.of_red
      obtain ⟨k, hc'⟩ := ih hc result'
      exact balanced_rebuildRightLeft _ _ ha hc' hd
  | case7 key color a y m c z m' d outer inner ih =>
    obtain ⟨d', result', rfl⟩ := bind_pure_eq_ok.mp result
    cases h with
    | black _ ha hb =>
      obtain ⟨rfl, hc, hd⟩ := hb.of_red
      obtain ⟨k, hd'⟩ := ih hd result'
      exact balanced_rebuildRightRight _ _ ha hc hd'
  | case8 key color a y m b notRed outer ih =>
    obtain ⟨b', result', rfl⟩ := bind_pure_eq_ok.mp result
    cases h with
    | black _ ha hb =>
      obtain ⟨k, hb'⟩ := ih (black_of_not_red_node hb notRed) result'
      exact ⟨.black, .black _ ha hb'⟩

theorem findIn_eq (exact : (counted X).Exact t)
    (nonneg : 0 ≤ key) : findIn t key = .ok ((counted X).items t)[key.toNat]? := by
  fun_induction findIn t key with
  | case1 key => rfl
  | case2 color left val2 n right key neg => exact absurd nonneg (not_le.mpr neg)
  | case3 color left val2 n right key _ lt ih =>
    rw [compare_lt_iff_lt] at lt
    obtain ⟨exactLeft, -⟩ := exact.tree_node
    rw [kidsOf_eq exactLeft] at lt
    rw [ih exactLeft nonneg, Layout.items_tree_node, List.getElem?_append_left (by omega)]
  | case4 color left val2 n right key _ eq =>
    rw [compare_eq_iff_eq] at eq
    obtain ⟨exactLeft, -⟩ := exact.tree_node
    rw [kidsOf_eq exactLeft] at eq
    rw [Layout.items_tree_node, List.getElem?_append_right (by omega), eq, Int.toNat_natCast,
      Nat.sub_self]
    rfl
  | case5 color left val2 n right key _ gt ih =>
    rw [compare_gt_iff_gt] at gt
    obtain ⟨exactLeft, exactRight, -⟩ := exact.tree_node
    rw [kidsOf_eq exactLeft] at gt ih ⊢
    have index : key.toNat - ((counted X).items left).length =
        (key - (((counted X).items left).length + 1)).toNat + 1 := by omega
    rw [ih exactRight (by omega), Layout.items_tree_node,
      List.getElem?_append_right (by omega), index, List.getElem?_cons_succ]

theorem copyPath'_climbs (path : DescentPath X (X × Int)) (t : NumberedTree X) :
    Climbs (counted X) path t (copyPath' path t).2 := by
  have notRed {c : NumberedTree X} (not : ∀ l x m r, c = .node .red l (x, m) r → False) :
      NotRed c := fun l x r => not l x.1 x.2 r
  fun_induction copyPath' path t with
  | case1 t => exact .top t
  | case2 _ _ _ _ _ _ _ ih => exact .redLeft ih
  | case3 _ _ _ _ _ _ _ ih => exact .redRight ih
  | case4 _ _ _ _ _ _ _ _ _ _ _ ih => exact .nearLeft ih
  | case5 _ _ _ _ _ _ _ _ _ _ _ ih => exact .nearRight ih
  | case6 => exact .farLeft
  | case7 => exact .farRight
  | case8 _ _ _ _ _ _ _ hc hd ih => exact .onLeft (notRed hc) (notRed hd) ih
  | case9 _ _ _ _ _ _ _ hd hc ih => exact .onRight (notRed hc) (notRed hd) ih
  | case10 _ _ _ _ _ _ _ hc hd => exact .restLeft (notRed hc) (notRed hd)
  | case11 _ _ _ _ _ _ _ hd hc => exact .restRight (notRed hc) (notRed hd)
  | case12 path t notTop red1 red2 _ _ _ _ black1 black2 redBlack1 redBlack2 =>
    refine .stuck ?_ t
    cases path with
    | top => exact notTop rfl
    | left color =>
      rintro k l x r rfl
      cases color with
      | red => cases k with
        | red => exact ⟨rfl, rfl⟩
        | black => exact (redBlack1 _ _ _ _ _ _ rfl).elim
      | black => cases k with
        | red => exact (red1 _ _ _ _ _ _ rfl).elim
        | black => exact (black1 _ _ _ _ _ _ rfl).elim
    | right color =>
      rintro k l x r rfl
      cases color with
      | red => cases k with
        | red => exact ⟨rfl, rfl⟩
        | black => exact (redBlack2 _ _ _ _ _ _ rfl).elim
      | black => cases k with
        | red => exact (red2 _ _ _ _ _ _ rfl).elim
        | black => exact (black2 _ _ _ _ _ _ rfl).elim

theorem descend_present (path : DescentPath X (X × Int))
    (exact : (counted X).Exact t) (nonneg : 0 ≤ key) (lt : key < ((counted X).items t).length) :
    ∃ t', descend key t path = .ok t' ∧ (counted X).items t' = path.before (counted X) ++
        ((counted X).items t).eraseIdx key.toNat ++ path.after (counted X) := by
  induction t generalizing key path with
  | empty => exact absurd nonneg (not_le.mpr lt)
  | node color left item right left_ih right_ih =>
    obtain ⟨exactLeft, exactRight, -⟩ := exact.tree_node
    rw [length_node] at lt
    rw [descend, kidsOf_eq exactLeft, Layout.items_tree_node]
    split
    · next below =>
        rw [compare_lt_iff_lt] at below
        obtain ⟨t', result, found⟩ := left_ih (.left color item.1 right path) exactLeft nonneg below
        refine ⟨t', result, ?_⟩
        rw [found, List.eraseIdx_append_of_lt_length (by omega)]
        simp [DescentPath.before, DescentPath.after]
        rfl
    · next above =>
        rw [compare_gt_iff_gt] at above
        obtain ⟨t', result, found⟩ := @right_ih (key - (((counted X).items left).length + 1))
          (.right color left item.1 path) exactRight (by omega) (by omega)
        refine ⟨t', result, ?_⟩
        have index : key.toNat - ((counted X).items left).length =
            (key - (((counted X).items left).length + 1)).toNat + 1 := by omega
        rw [found, List.eraseIdx_append_of_length_le (by omega), index, List.eraseIdx_cons_succ]
        simp [DescentPath.before, DescentPath.after]
        rfl
    · next eq =>
        rw [compare_eq_iff_eq] at eq
        have index : key.toNat - ((counted X).items left).length = 0 := by omega
        rw [List.eraseIdx_append_of_length_le (by omega), index, List.eraseIdx_cons_zero]
        apply items_join copyPath'_climbs
        intro least rest items
        have length : 0 < ((counted X).items right).length := by
          rw [items]
          exact Nat.succ_pos _
        obtain ⟨t', result, found⟩ := right_ih (.right color left least path) exactRight
          (le_refl 0) (by exact_mod_cast length)
        refine ⟨t', result, ?_⟩
        rw [found, items, Int.toNat_zero, List.eraseIdx_cons_zero]
        simp [DescentPath.before, DescentPath.after]

theorem exact_descend (exact : (counted X).Exact t) (beside : path.Exact (counted X))
    (result : descend key t path = .ok t') : (counted X).Exact t' := by
  induction t generalizing key path t' with
  | empty => cases result
  | node color left item right left_ih right_ih =>
    obtain ⟨hl, hr, -⟩ := exact.tree_node
    have goLeft (a : X) : (DescentPath.left color a right path).Exact (counted X) := ⟨hr, beside⟩
    have goRight (a : X) : (DescentPath.right color left a path).Exact (counted X) := ⟨hl, beside⟩
    unfold descend at result
    split at result
    · exact left_ih hl (goLeft _) result
    · exact right_ih hr (goRight _) result
    · apply exact_join copyPath'_climbs hl hr beside _ result
      intro a t found
      exact right_ih hr (goRight a) found

theorem balanced_descend {c parent : Color} (h : Balanced t c n) (fits : path.Fits parent n)
    (ok : parent = .red → c = .black) (result : descend key t path = .ok t') :
    ∃ c' m, Balanced t' c' m := by
  induction t generalizing key path c parent n t' with
  | empty => cases result
  | node color left item right left_ih right_ih =>
    obtain ⟨rfl, m, l, r, rfl, hl, hr, okLeft, okRight⟩ := balanced_tree_node h
    unfold descend at result
    split at result
    · exact left_ih hl (.left _ hr okRight fits ok) okLeft result
    · exact right_ih hr (.right _ hl okLeft fits ok) okRight result
    · apply balanced_join copyPath'_climbs hl hr okLeft okRight fits ok _ result
      intro a t fits found
      exact right_ih hr fits okRight found

end Mythryl.RedBlackNumberedList
