import Mythryl.RedBlack.NumberedListRuns

/-!
# Keyed traversals of the numbered list

The positions that `keyed_map`, the keyed folds, `keyed_filter` and `keyed_merge_with` hand to the
function they are given.
-/

namespace Mythryl.RedBlackNumberedList
open ColoredTree RedBlack RedBlackNumberedSet

variable {X Y Z A B S : Type}

def numbered (n : Int) : List A → List (Int × A)
  | [] => []
  | a :: rest => (n, a) :: numbered (n + 1) rest

theorem numbered_append (n : Int) (xs ys : List A) :
    numbered n (xs ++ ys) = numbered n xs ++ numbered (n + xs.length) ys := by
  induction xs generalizing n with
  | nil => simp [numbered]
  | cons x xs ih =>
    have shift : n + ((xs.length + 1 : Nat) : Int) = n + 1 + xs.length := by
      push_cast
      ring
    rw [List.cons_append, numbered, numbered, ih, List.length_cons, shift, List.cons_append]

@[simp] theorem length_numbered (n : Int) (xs : List A) : (numbered n xs).length = xs.length := by
  induction xs generalizing n with
  | nil => rfl
  | cons x xs ih => simp [numbered, ih]

variable {n : Int}

theorem numbered_head {m : Int} {xs : List A} {a : A} {rest : List (Int × A)}
    (h : numbered n xs = (m, a) :: rest) : m = n := by
  cases xs with
  | nil => cases h
  | cons x xs =>
    cases h
    rfl

def countKept (keep : Int → A → Bool) (n : Int) : List A → List (Int × A)
  | [] => []
  | a :: rest => (n, a) :: countKept keep (if keep n a then n + 1 else n) rest

/-- The last element is left out: no position is counted after it. -/
def AllButLast (keep : Int → A → Bool) (n : Int) : List A → Prop
  | [] => True
  | [_] => True
  | a :: b :: rest => keep n a = true ∧ AllButLast keep (n + 1) (b :: rest)

theorem countKept_eq_iff (keep : Int → A → Bool) (n : Int) (xs : List A) :
    countKept keep n xs = numbered n xs ↔ AllButLast keep n xs := by
  fun_induction AllButLast keep n xs with
  | case1 n => simp [countKept, numbered]
  | case2 n a => simp [countKept, numbered]
  | case3 n a b rest ih =>
    by_cases kept : keep n a = true
    · simp only [countKept, numbered, kept, if_true, List.cons.injEq, true_and] at ih ⊢
      exact ih
    · simp [countKept, numbered, kept]

def logged (f : Int → A → B) (n : Int) (a : A) (log : List (Int × A)) : B × List (Int × A) :=
  (f n a, log ++ [(n, a)])

def keyedFoldBackf (f : Int → X → A → A) : NumberedTree X → A → Int → A × Int
  | .empty, result, key => (result, key)
  | .node _ leftSubtree (value, _) rightSubtree, result, key =>
      let (result, key) := keyedFoldBackf f rightSubtree result key
      keyedFoldBackf f leftSubtree (f key value result) (key - 1)

/-- The loop `walk` of `keyed_filter`, for a predicate with effects on a state. -/
@[grind =] def filterWalk (predicate : Int → X → S → Bool × S) :
    NumberedTree X → Int → Digits X → S → Digits X × S
  | .empty, _, result, state => (result, state)
  | .node _ a (value, _) b, n, result, state =>
      let (result, state) := filterWalk predicate a n result state
      let (keep, state) := predicate n value state
      if keep then filterWalk predicate b (n + 1) (addItem (explicit X) (n, value) result) state
      else filterWalk predicate b n result state

/-- The loop `merge` of `keyed_merge_with`, for a function with effects on a state. -/
@[grind =] def mergeWalkWith (mergeFn : Int → Option X × Option Y → S → Option Z × S)
    (tree1 : List (NumberedTree X)) (tree2 : List (NumberedTree Y)) (n : Int) (result : Digits Z)
    (state : S) : (Int × Digits Z) × S :=
  match _h1 : next tree1, _h2 : next tree2 with
  | (.empty, _), (.empty, _) => ((n, result), state)
  | (.empty, _), (.node _ _ (val2, _) _, rest2) =>
      let (answer, state) := mergeFn n (none, some val2) state
      let (n', result') := NumberedList.keepAt answer n result
      mergeWalkWith mergeFn tree1 rest2 n' result' state
  | (.node _ _ (val1, _) _, rest1), (.empty, _) =>
      let (answer, state) := mergeFn n (some val1, none) state
      let (n', result') := NumberedList.keepAt answer n result
      mergeWalkWith mergeFn rest1 tree2 n' result' state
  | (.node _ _ (val1, _) _, rest1), (.node _ _ (val2, _) _, rest2) =>
      let (answer, state) := mergeFn n (some val1, some val2) state
      let (n', result') := NumberedList.keepAt answer n result
      mergeWalkWith mergeFn rest1 rest2 n' result' state
termination_by stackSize tree1 + stackSize tree2
decreasing_by
  · have := stackSize_of_node _h2
    omega
  · have := stackSize_of_node _h1
    omega
  · have := stackSize_of_node _h1
    have := stackSize_of_node _h2
    omega

namespace NumberedList

def keyedFoldForward (f : Int → X → A → A) (initialValue : A) (s : NumberedList X) : A :=
  (keyedFoldf f s.tree initialValue 0).1

def keyedFoldBackward (f : Int → X → A → A) (initialValue : A) (s : NumberedList X) : A :=
  match s.tree with
  | .empty => initialValue
  | .node color left (value, valCount) right =>
      (keyedFoldBackf f (.node color left (value, valCount) right) initialValue (valCount - 1)).1

end NumberedList

theorem mapf_eq (f : Int → X → Y) (n : Int) (t : NumberedTree X) :
    (NumberedList.mapf f n t).1 = n + ((counted X).items t).length ∧
      (counted Y).items (NumberedList.mapf f n t).2 =
        (numbered n ((counted X).items t)).map fun (i, v) => f i v := by
  induction t generalizing n with
  | empty => simp [NumberedList.mapf, numbered]
  | node color left item right left_ih right_ih =>
    obtain ⟨leftCount, leftItems⟩ := left_ih n
    obtain ⟨rightCount, rightItems⟩ := right_ih (n + ((counted X).items left).length + 1)
    constructor
    · simp only [NumberedList.mapf, leftCount, rightCount]
      rw [length_node]
      ring
    · simp only [NumberedList.mapf, leftCount, Layout.items_tree_node, leftItems, rightItems,
        numbered_append, numbered, List.map_append, List.map_cons]
      rfl

theorem keyedFoldf_eq (f : Int → X → A → A) (t : NumberedTree X) (result : A) (n : Int) :
    NumberedList.keyedFoldf f t result n =
      ((numbered n ((counted X).items t)).foldl (fun result (i, v) => f i v result) result,
        n + ((counted X).items t).length) := by
  induction t generalizing result n with
  | empty => simp [NumberedList.keyedFoldf, numbered]
  | node color left item right left_ih right_ih =>
    simp only [NumberedList.keyedFoldf, left_ih, right_ih, Layout.items_tree_node,
      numbered_append, numbered, List.foldl_append, List.foldl_cons]
    congr 1
    simp only [List.length_append, List.length_cons]
    push_cast
    ring

theorem keyedFoldBackf_eq (f : Int → X → A → A) (t : NumberedTree X) (result : A) (n : Int) :
    keyedFoldBackf f t result (n + ((counted X).items t).length - 1) =
      ((numbered n ((counted X).items t)).foldr (fun (i, v) result => f i v result) result,
        n - 1) := by
  induction t generalizing result n with
  | empty => simp [keyedFoldBackf, numbered]
  | node color left item right left_ih right_ih =>
    have last : n + ((counted X).items (.node color left item right)).length - 1 =
        n + ((counted X).items left).length + 1 + ((counted X).items right).length - 1 := by
      rw [length_node]
      ring
    have root : n + ((counted X).items left).length + 1 - 1 - 1 =
        n + ((counted X).items left).length - 1 := by ring
    rw [last]
    simp only [keyedFoldBackf, right_ih, root, left_ih, Layout.items_tree_node, numbered_append,
      numbered, List.foldr_append, List.foldr_cons]
    congr 1
    ring_nf
    rfl

@[grind =] def filterCalls (predicate : Int → X → Bool) : NumberedTree X → Int → List (Int × X)
  | .empty, _ => []
  | .node _ a (value, _) b, n =>
      filterCalls predicate a n ++
        (n, value) :: filterCalls predicate b (if predicate n value then n + 1 else n)

theorem filterWalk_logged (predicate : Int → X → Bool) (t : NumberedTree X) (n : Int)
    (result : Digits X) (log : List (Int × X)) : filterWalk (logged predicate) t n result log =
      (NumberedList.filterIn predicate t n result, log ++ filterCalls predicate t n) := by
  induction t generalizing n result log with
  | empty => simp [filterWalk, NumberedList.filterIn, filterCalls]
  | node color left item right left_ih right_ih =>
    simp only [filterWalk, left_ih, logged, NumberedList.filterIn, filterCalls]
    split <;> simp [right_ih]

theorem filterIn_eq (predicate : Int → X → Bool) (t : NumberedTree X) (n : Int)
    (result : Digits X) :
    NumberedList.filterIn predicate t n result =
      addItems (explicit X)
        ((filterCalls predicate t n).filter fun (i, v) => predicate i v) result := by
  induction t generalizing n result with
  | empty => rfl
  | node color left item right left_ih right_ih =>
    simp only [NumberedList.filterIn, filterCalls, List.filter_append, addItems_append, left_ih,
      right_ih]
    split <;> simp [*]

theorem length_filterCalls (predicate : Int → X → Bool) (t : NumberedTree X) (n : Int) :
    (filterCalls predicate t n).length = ((counted X).items t).length := by
  induction t generalizing n with
  | empty => rfl
  | node color left item right left_ih right_ih =>
    simp [filterCalls, Layout.items_tree_node, left_ih, right_ih]

theorem filterCalls_head (predicate : Int → X → Bool) (color : Color) (left right : NumberedTree X)
    (item : X × Int) (n : Int) :
    ∃ v rest, filterCalls predicate (.node color left item right) n = (n, v) :: rest := by
  induction left generalizing color item right with
  | empty => exact ⟨_, _, rfl⟩
  | node color' left' item' right' ih _ =>
    obtain ⟨v, rest, found⟩ := ih color' right' item'
    rw [filterCalls, found]
    exact ⟨v, _, rfl⟩

def NoLeftSubtree : NumberedTree X → Prop
  | .empty => True
  | .node _ left _ right => left = .empty ∧ NoLeftSubtree right

theorem noLeftSubtree_of_calls {predicate : Int → X → Bool} {t : NumberedTree X} {m : Int}
    (calls : filterCalls predicate t m = numbered n ((counted X).items t)) : NoLeftSubtree t := by
  induction t generalizing m n with
  | empty => trivial
  | node color left item right _ right_ih =>
    rw [filterCalls, Layout.items_tree_node, numbered_append, numbered] at calls
    have same : (filterCalls predicate left m).length =
        (numbered n ((counted X).items left)).length := by
      rw [length_filterCalls, length_numbered]
    obtain ⟨onLeft, rest⟩ := List.append_inj calls same
    injection rest with root onRight
    have position : m = n + ((counted X).items left).length := congrArg Prod.fst root
    refine ⟨?_, right_ih onRight⟩
    cases left with
    | empty => rfl
    | node color' left' item' right' =>
      obtain ⟨v, rest, first⟩ := filterCalls_head predicate color' left' right' item' m
      have start := numbered_head (onLeft.symm.trans first)
      rw [length_node] at position
      omega

theorem filterCalls_of_noLeftSubtree (predicate : Int → X → Bool) {t : NumberedTree X}
    (spine : NoLeftSubtree t) (n : Int) :
    filterCalls predicate t n = countKept predicate n ((counted X).items t) := by
  induction t generalizing n with
  | empty => rfl
  | node color left item right _ right_ih =>
    obtain ⟨rfl, spine⟩ := spine
    rw [filterCalls, right_ih spine]
    rfl

theorem filterCalls_eq_iff (predicate : Int → X → Bool) (t : NumberedTree X) (n : Int) :
    filterCalls predicate t n = numbered n ((counted X).items t) ↔
      NoLeftSubtree t ∧ AllButLast predicate n ((counted X).items t) := by
  constructor
  · intro calls
    have spine := noLeftSubtree_of_calls calls
    rw [filterCalls_of_noLeftSubtree predicate spine, countKept_eq_iff] at calls
    exact ⟨spine, calls⟩
  · intro ⟨spine, kept⟩
    rw [filterCalls_of_noLeftSubtree predicate spine, countKept_eq_iff]
    exact kept

def paired (xs : List X) (ys : List Y) : List (Option X × Option Y) := List.zipWithAll Prod.mk xs ys

def answered (mergeFn : Int → Option X → Option Y → Option Z) (n : Int)
    (xy : Option X × Option Y) : Option Z := mergeFn n xy.1 xy.2

def mergeCalls (mergeFn : Int → Option X → Option Y → Option Z) (n : Int) (xs : List X)
    (ys : List Y) : List (Int × Option X × Option Y) :=
  countKept (fun n xy => (answered mergeFn n xy).isSome) n (paired xs ys)

def mergeKept (mergeFn : Int → Option X → Option Y → Option Z) (n : Int) (xs : List X)
    (ys : List Y) : List (Int × Z) :=
  (mergeCalls mergeFn n xs ys).filterMap fun (i, xy) => (answered mergeFn i xy).map (Prod.mk i)

theorem keepAt_eq (answer : Option Z) (n : Int) (result : Digits Z) :
    NumberedList.keepAt answer n result = (if answer.isSome then n + 1 else n,
      addItems (explicit Z) (answer.map (Prod.mk n)).toList result) := by
  cases answer <;> rfl

structure CallsFirst (mergeFn : Int → Option X → Option Y → Option Z) (n : Int)
    (xy : Option X × Option Y) (xs rest1 : List X) (ys rest2 : List Y) : Prop where
  calls : mergeCalls mergeFn n xs ys = (n, xy) ::
    mergeCalls mergeFn (if (answered mergeFn n xy).isSome then n + 1 else n) rest1 rest2
  kept : mergeKept mergeFn n xs ys = ((answered mergeFn n xy).map (Prod.mk n)).toList ++
    mergeKept mergeFn (if (answered mergeFn n xy).isSome then n + 1 else n) rest1 rest2

theorem callsFirst (mergeFn : Int → Option X → Option Y → Option Z) {xy : Option X × Option Y}
    {xs rest1 : List X} {ys rest2 : List Y} (first : paired xs ys = xy :: paired rest1 rest2)
    (n : Int) : CallsFirst mergeFn n xy xs rest1 ys rest2 := by
  have calls : mergeCalls mergeFn n xs ys = (n, xy) ::
      mergeCalls mergeFn (if (answered mergeFn n xy).isSome then n + 1 else n) rest1 rest2 := by
    rw [mergeCalls, first, countKept]
    rfl
  refine ⟨calls, ?_⟩
  rw [mergeKept, calls, List.filterMap_cons, mergeKept]
  dsimp only
  cases answered mergeFn n xy <;> rfl

theorem paired_right (y : Y) (ys : List Y) :
    paired ([] : List X) (y :: ys) = (none, some y) :: paired [] ys := by simp [paired]

theorem paired_left (x : X) (xs : List X) :
    paired (x :: xs) ([] : List Y) = (some x, none) :: paired xs [] := by simp [paired]

theorem paired_both (x : X) (xs : List X) (y : Y) (ys : List Y) :
    paired (x :: xs) (y :: ys) = (some x, some y) :: paired xs ys := by simp [paired]

theorem mergeWalk_eq (mergeFn : Int → Option X → Option Y → Option Z)
    (tree1 : List (NumberedTree X)) (tree2 : List (NumberedTree Y)) (n : Int) (result : Digits Z) :
    (NumberedList.mergeWalk mergeFn tree1 tree2 n result).2 =
      addItems (explicit Z) (mergeKept mergeFn n (stackItems (counted X) tree1)
        (stackItems (counted Y) tree2)) result := by
  fun_induction NumberedList.mergeWalk mergeFn tree1 tree2 n result with
  | case1 tree1 tree2 n result rest1 rest2 h1 h2 =>
    simp [stackItems_of_empty h1, stackItems_of_empty h2, mergeKept, mergeCalls, paired, countKept]
  | case2 tree1 tree2 n result rest1 color a val2 count b rest2 h1 h2 n' result' kept ih =>
    rw [keepAt_eq] at kept
    cases kept
    rw [ih, stackItems_of_empty h1, stackItems_of_node h2, (callsFirst mergeFn (paired_right _ _) n).kept,
      addItems_append]
    rfl
  | case3 tree1 tree2 n result color a val1 count b rest1 rest2 h1 h2 n' result' kept ih =>
    rw [keepAt_eq] at kept
    cases kept
    rw [ih, stackItems_of_node h1, stackItems_of_empty h2, (callsFirst mergeFn (paired_left _ _) n).kept,
      addItems_append]
    rfl
  | case4 tree1 tree2 n result _ _ val1 _ _ rest1 _ _ val2 _ _ rest2 h1 h2 n' result' kept ih =>
    rw [keepAt_eq] at kept
    cases kept
    rw [ih, stackItems_of_node h1, stackItems_of_node h2,
      (callsFirst mergeFn (paired_both _ _ _ _) n).kept, addItems_append]
    rfl

structure Logs (mergeFn : Int → Option X → Option Y → Option Z) (xs : List X) (ys : List Y)
    (n : Int) (result : Digits Z) (log : List (Int × Option X × Option Y))
    (after : (Int × Digits Z) × List (Int × Option X × Option Y)) : Prop where
  digits : after.1.2 = addItems (explicit Z) (mergeKept mergeFn n xs ys) result
  calls : after.2 = log ++ mergeCalls mergeFn n xs ys

theorem Logs.of_first {mergeFn : Int → Option X → Option Y → Option Z} {xy : Option X × Option Y}
    {xs rest1 : List X} {ys rest2 : List Y} {n' : Int} {result result' : Digits Z}
    {log : List (Int × Option X × Option Y)}
    {after : (Int × Digits Z) × List (Int × Option X × Option Y)}
    (first : paired xs ys = xy :: paired rest1 rest2)
    (kept : NumberedList.keepAt (answered mergeFn n xy) n result = (n', result'))
    (ih : Logs mergeFn rest1 rest2 n' result' (log ++ [(n, xy)]) after) :
    Logs mergeFn xs ys n result log after := by
  obtain ⟨digits, calls⟩ := ih
  obtain ⟨firstCalls, firstKept⟩ := callsFirst mergeFn first n
  rw [keepAt_eq] at kept
  cases kept
  constructor
  · rw [digits, firstKept, addItems_append]
  · rw [calls, firstCalls, List.append_assoc, List.singleton_append]

theorem mergeWalkWith_logged (mergeFn : Int → Option X → Option Y → Option Z)
    (tree1 : List (NumberedTree X)) (tree2 : List (NumberedTree Y)) (n : Int) (result : Digits Z)
    (log : List (Int × Option X × Option Y)) :
    Logs mergeFn (stackItems (counted X) tree1) (stackItems (counted Y) tree2) n result log
      (mergeWalkWith (logged (answered mergeFn)) tree1 tree2 n result log) := by
  fun_induction mergeWalkWith (logged (answered mergeFn)) tree1 tree2 n result log with
  | case1 tree1 tree2 n result log rest1 rest2 h1 h2 =>
    constructor <;>
      simp [stackItems_of_empty h1, stackItems_of_empty h2, mergeKept, mergeCalls, paired,
        countKept]
  | case2 tree1 tree2 n result log rest1 _ _ val2 _ _ rest2 h1 h2 answer log' call n' result' kept
      ih =>
      cases call
      rw [stackItems_of_empty h1] at ih ⊢
      rw [stackItems_of_node h2]
      exact ih.of_first (paired_right _ _) kept
  | case3 tree1 tree2 n result log _ _ val1 _ _ rest1 rest2 h1 h2 answer log' call n' result' kept
      ih =>
      cases call
      rw [stackItems_of_empty h2] at ih ⊢
      rw [stackItems_of_node h1]
      exact ih.of_first (paired_left _ _) kept
  | case4 tree1 tree2 n result log _ _ val1 _ _ rest1 _ _ val2 _ _ rest2 h1 h2 answer log' call n'
      result' kept ih =>
      cases call
      rw [stackItems_of_node h1, stackItems_of_node h2]
      exact ih.of_first (paired_both _ _ _ _) kept

namespace NumberedList

def keyedFilterWith (predicate : Int → X → S → Bool × S) (s : NumberedList X) (state : S) :
    NumberedList X × S :=
  let (digits, state) := filterWalk predicate s.tree 0 .zero state
  (digitsToSequence digits, state)

def keyedMergeWithCalling (mergeFn : Int → Option X × Option Y → S → Option Z × S)
    (s1 : NumberedList X) (s2 : NumberedList Y) (state : S) : NumberedList Z × S :=
  let ((_, digits), state) := mergeWalkWith mergeFn (start s1.tree) (start s2.tree) 0 .zero state
  (digitsToSequence digits, state)

theorem keyedFilterWith_logged (predicate : Int → X → Bool) (s : NumberedList X) :
    s.keyedFilterWith (logged predicate) [] =
      (s.keyedFilter predicate, filterCalls predicate s.tree 0) := by
  unfold keyedFilterWith keyedFilter
  rw [filterWalk_logged, List.nil_append]

theorem valsList_keyedFilter (predicate : Int → X → Bool) (s : NumberedList X) :
    (s.keyedFilter predicate).valsList =
      ((filterCalls predicate s.tree 0).filter fun (i, v) => predicate i v).map Prod.snd := by
  unfold keyedFilter
  rw [filterIn_eq, valsList_digitsToSequence]

theorem keyedMergeWithCalling_logged (mergeFn : Int → Option X → Option Y → Option Z)
    (s1 : NumberedList X) (s2 : NumberedList Y) :
    s1.keyedMergeWithCalling (logged (answered mergeFn)) s2 [] =
      (s1.keyedMergeWith mergeFn s2, mergeCalls mergeFn 0 s1.valsList s2.valsList) := by
  obtain ⟨digits, calls⟩ := mergeWalkWith_logged mergeFn (start s1.tree) (start s2.tree) 0 .zero []
  unfold keyedMergeWithCalling keyedMergeWith wrap
  rw [mergeWalk_eq, ← digits, valsList_eq, valsList_eq, ← stackItems_start, ← stackItems_start]
  exact Prod.ext rfl calls

theorem valsList_keyedMergeWith (mergeFn : Int → Option X → Option Y → Option Z)
    (s1 : NumberedList X) (s2 : NumberedList Y) :
    (s1.keyedMergeWith mergeFn s2).valsList =
      (mergeCalls mergeFn 0 s1.valsList s2.valsList).filterMap
        fun (i, xy) => answered mergeFn i xy := by
  unfold keyedMergeWith wrap
  rw [mergeWalk_eq, valsList_digitsToSequence, stackItems_start, stackItems_start, ← valsList_eq,
    ← valsList_eq, mergeKept, List.map_filterMap]
  congr
  funext ⟨i, xy⟩
  dsimp only
  cases answered mergeFn i xy <;> rfl

theorem valsList_keyedMap (f : Int → X → Y) (s : NumberedList X) :
    (s.keyedMap f).valsList = (numbered 0 s.valsList).map fun (i, v) => f i v := by
  rw [valsList_eq, valsList_eq]
  exact (mapf_eq f 0 s.tree).2

theorem keyedFoldForward_eq (f : Int → X → A → A) (initialValue : A) (s : NumberedList X) :
    s.keyedFoldForward f initialValue =
      (numbered 0 s.valsList).foldl (fun result (i, v) => f i v result) initialValue := by
  unfold keyedFoldForward
  rw [keyedFoldf_eq, valsList_eq]

theorem keyedFoldBackward_eq (f : Int → X → A → A) (initialValue : A) {s : NumberedList X}
    (valid : s.Valid) :
    s.keyedFoldBackward f initialValue =
      (numbered 0 s.valsList).foldr (fun (i, v) result => f i v result) initialValue := by
  obtain ⟨tree⟩ := s
  rw [valsList_eq]
  cases tree with
  | empty => rfl
  | node color left item right =>
    have count : item.2 = 0 + (((counted X).items (.node color left item right)).length : Int) := by
      rw [← kidsOf_eq valid.exact, zero_add]
      rfl
    change (keyedFoldBackf f (.node color left item right) initialValue (item.2 - 1)).1 = _
    rw [count, keyedFoldBackf_eq]

structure PassesPositions (s : NumberedList X) (t : NumberedList Y) (predicate : Int → X → Bool)
    (mergeFn : Int → Option X → Option Y → Option Z) : Prop where
  filterCalls : (s.keyedFilterWith (logged predicate) []).2 = numbered 0 s.valsList
  filter : (s.keyedFilter predicate).valsList =
    ((numbered 0 s.valsList).filter fun (i, v) => predicate i v).map Prod.snd
  map {B : Type} (f : Int → X → B) :
    (s.keyedMap f).valsList = (numbered 0 s.valsList).map fun (i, v) => f i v
  foldForward {A : Type} (f : Int → X → A → A) (initialValue : A) :
    s.keyedFoldForward f initialValue =
      (numbered 0 s.valsList).foldl (fun result (i, v) => f i v result) initialValue
  foldBackward {A : Type} (f : Int → X → A → A) (initialValue : A) :
    s.keyedFoldBackward f initialValue =
      (numbered 0 s.valsList).foldr (fun (i, v) result => f i v result) initialValue
  mergeCalls : (s.keyedMergeWithCalling (logged (answered mergeFn)) t []).2 =
    numbered 0 (paired s.valsList t.valsList)
  merge : (s.keyedMergeWith mergeFn t).valsList =
    (numbered 0 (paired s.valsList t.valsList)).filterMap fun (i, xy) => answered mergeFn i xy

theorem passesPositions_iff {s : NumberedList X} (reachable : Reachable s) (t : NumberedList Y)
    (predicate : Int → X → Bool) (mergeFn : Int → Option X → Option Y → Option Z) :
    PassesPositions s t predicate mergeFn ↔
      NoLeftSubtree s.tree ∧ AllButLast predicate 0 s.valsList ∧
        AllButLast (fun i xy => (answered mergeFn i xy).isSome) 0
          (paired s.valsList t.valsList) := by
  have filtered := filterCalls_eq_iff predicate s.tree 0
  rw [← valsList_eq] at filtered
  have merged := countKept_eq_iff (fun i xy => (answered mergeFn i xy).isSome) 0
    (paired s.valsList t.valsList)
  rw [← and_assoc, ← filtered, ← merged]
  constructor
  · intro passes
    constructor
    · have calls := passes.filterCalls
      rw [keyedFilterWith_logged] at calls
      exact calls
    · have calls := passes.mergeCalls
      rw [keyedMergeWithCalling_logged] at calls
      exact calls
  · intro ⟨filterCalls, mergeCalls⟩
    refine ⟨?_, ?_, fun f => valsList_keyedMap f s, fun f a => keyedFoldForward_eq f a s,
      fun f a => keyedFoldBackward_eq f a reachable.valid, ?_, ?_⟩
    · rw [keyedFilterWith_logged]
      exact filterCalls
    · rw [valsList_keyedFilter, filterCalls]
    · rw [keyedMergeWithCalling_logged]
      exact mergeCalls
    · rw [valsList_keyedMergeWith]
      exact congrArg (List.filterMap _) mergeCalls

theorem second_at_root :
    Reachable (fromList ["a", "b"]) ∧ (fromList ["a", "b"]).valsList = ["a", "b"] ∧
    ((fromList ["a", "b"]).keyedFilter fun i _ => i == 1).valsList = [] ∧
    ((numbered 0 ["a", "b"]).filter fun (i, _) => i == 1).map Prod.snd = ["b"] := by
  refine ⟨.fromList _, ?_, ?_, ?_⟩ <;> decide

theorem passesPositions_iff_singleton :
    PassesPositions (singleton "a") (singleton "b") (fun i _ => i == 0) (fun _ x _ => x) :=
  (passesPositions_iff (.singleton "a") (singleton "b") (fun i _ => i == 0)
    (fun _ x _ => x)).mpr ⟨⟨rfl, trivial⟩, trivial, trivial⟩

end NumberedList

end Mythryl.RedBlackNumberedList
