import Mathlib.Order.Compare
import Mathlib.Order.Lattice

/-!
# Sorting lists

`list_mergesort`: a merge sort of the ascending runs that are there.
-/

namespace Mythryl.ListMergesort

section Algorithm

variable {X : Type} (cmpfn : X → X → Ordering)

def merge : List X → List X → List X
  | [], ys => ys
  | x :: xs, [] => x :: xs
  | x :: xs, y :: ys =>
      match cmpfn x y with
      | .gt => y :: merge (x :: xs) ys
      | .eq => merge (x :: xs) ys
      | .lt => x :: merge xs (y :: ys)

def mergePairs (l1 : List X) : List (List X) → Nat → List X × List (List X)
  | [], _ => (l1, [])
  | l2 :: ls, k =>
      if k % 2 = 1 then (l1, l2 :: ls) else mergePairs (merge cmpfn l1 l2) ls (k / 2)

def nextRun (r : X) (run : List X) : List X → List X × List X
  | [] => ((r :: run).reverse, [])
  | x :: xs =>
      match cmpfn x r with
      | .gt => nextRun x (r :: run) xs
      | .eq => nextRun r run xs
      | .lt => ((r :: run).reverse, x :: xs)

theorem nextRun_length (r : X) (run xs : List X) :
    (nextRun cmpfn r run xs).2.length ≤ xs.length := by
  induction xs generalizing r run with
  | nil => exact Nat.le_refl _
  | cons x xs ih =>
    rw [nextRun]
    split
    · exact Nat.le_succ_of_le (ih x _)
    · exact Nat.le_succ_of_le (ih r _)
    · exact Nat.le_refl _

def samsorting : List X → List (List X) → Nat → List X
  | [], [], _ => []
  | [], l :: ls, _ => (mergePairs cmpfn l ls 0).1
  | x :: xs, ls, k =>
      let (l, ls) := mergePairs cmpfn (nextRun cmpfn x [] xs).1 ls (k + 1)
      samsorting (nextRun cmpfn x [] xs).2 (l :: ls) (k + 1)
termination_by xs => xs.length
decreasing_by exact Nat.lt_succ_of_le (nextRun_length ..)

def sortListAndDropDuplicates (ls : List X) : List X :=
  match ls with
  | [] => []
  | ls => samsorting cmpfn ls [] 0

inductive Raised
  | impossible | empty
  deriving DecidableEq

def head : List (List X) → Except Raised (List X)
  | [] => .error .empty
  | l :: _ => .ok l

def mergePairsOrRaise : List (List X) → Nat → Except Raised (List (List X))
  | [], _ => .error .impossible
  | [l], _ => .ok [l]
  | l1 :: l2 :: ls, k =>
      if k % 2 = 1 then .ok (l1 :: l2 :: ls) else mergePairsOrRaise (merge cmpfn l1 l2 :: ls) (k / 2)
termination_by ls => ls.length

def samsortingOrRaise : List X → List (List X) → Nat → Except Raised (List X)
  | [], ls, _ => do head (← mergePairsOrRaise cmpfn ls 0)
  | x :: xs, ls, k => do
      let ls ← mergePairsOrRaise cmpfn ((nextRun cmpfn x [] xs).1 :: ls) (k + 1)
      samsortingOrRaise (nextRun cmpfn x [] xs).2 ls (k + 1)
termination_by xs => xs.length
decreasing_by exact Nat.lt_succ_of_le (nextRun_length ..)

/-- `sort_list_and_drop_duplicates` with the exceptions that it might raise. -/
def sortWith (ls : List X) : Except Raised (List X) :=
  match ls with
  | [] => .ok []
  | ls => samsortingOrRaise cmpfn ls [] 0

/-- The functions `merge` and `next_run` of `sort_list` ask only whether `x > y`. -/
def sortList (gt : X → X → Bool) : List X → Except Raised (List X) :=
  sortWith fun x y => if gt x y then .gt else .lt

theorem mergePairsOrRaise_cons (l : List X) (ls : List (List X)) (k : Nat) :
    mergePairsOrRaise cmpfn (l :: ls) k =
      .ok ((mergePairs cmpfn l ls k).1 :: (mergePairs cmpfn l ls k).2) := by
  induction ls generalizing l k with
  | nil => simp [mergePairsOrRaise, mergePairs]
  | cons l2 ls ih =>
    rw [mergePairsOrRaise, mergePairs]
    split
    · rfl
    · exact ih _ _

theorem samsortingOrRaise_eq (xs : List X) (ls : List (List X)) (k : Nat)
    (runs : xs ≠ [] ∨ ls ≠ []) :
    samsortingOrRaise cmpfn xs ls k = .ok (samsorting cmpfn xs ls k) := by
  induction xs, ls, k using samsorting.induct cmpfn with
  | case1 k => simp at runs
  | case2 l ls k =>
    rw [samsortingOrRaise, samsorting, mergePairsOrRaise_cons]
    rfl
  | case3 x xs ls k l ls' merged ih =>
    rw [samsortingOrRaise, samsorting, mergePairsOrRaise_cons, merged]
    exact ih (.inr (List.cons_ne_nil l ls'))

theorem sortWith_eq (ls : List X) :
    sortWith cmpfn ls = .ok (sortListAndDropDuplicates cmpfn ls) := by
  cases ls with
  | nil => rfl
  | cons x xs => exact samsortingOrRaise_eq cmpfn _ [] 0 (.inl (List.cons_ne_nil x xs))

structure Sorts (Made : List X → List X → Prop) (Asc : List X → Prop) : Prop where
  refl : ∀ l, Made l l
  trans : ∀ {l l' ls}, Made l l' → Made l' ls → Made l ls
  append : ∀ {l l' ls ls'}, Made l ls → Made l' ls' → Made (l ++ l') (ls ++ ls')
  comm : ∀ {l l' ls}, Made (l ++ l') ls → Made (l' ++ l) ls
  nil : Asc []
  merge : ∀ {xs ys}, Asc xs → Asc ys →
    Made (merge cmpfn xs ys) (xs ++ ys) ∧ Asc (merge cmpfn xs ys)
  run : ∀ x xs, Made ((nextRun cmpfn x [] xs).1 ++ (nextRun cmpfn x [] xs).2) (x :: xs) ∧
    Asc (nextRun cmpfn x [] xs).1

variable {cmpfn} {Made : List X → List X → Prop} {Asc : List X → Prop}

theorem mergePairs_all (l1 : List X) (lists : List (List X)) :
    (mergePairs cmpfn l1 lists 0).2 = [] := by
  induction lists generalizing l1 with
  | nil => rfl
  | cons l2 lists ih => exact ih (merge cmpfn l1 l2)

namespace Sorts

theorem mergePairs (sorts : Sorts cmpfn Made Asc) (l1 : List X) (lists : List (List X)) (k : Nat)
    (asc : ∀ l ∈ l1 :: lists, Asc l) :
    Made ((mergePairs cmpfn l1 lists k).1 :: (mergePairs cmpfn l1 lists k).2).flatten
        (l1 :: lists).flatten ∧
      ∀ l ∈ (mergePairs cmpfn l1 lists k).1 :: (mergePairs cmpfn l1 lists k).2, Asc l := by
  induction lists generalizing l1 k with
  | nil => exact ⟨sorts.refl _, asc⟩
  | cons l2 lists ih =>
    rw [ListMergesort.mergePairs]
    split
    · exact ⟨sorts.refl _, asc⟩
    · obtain ⟨asc1, later⟩ := List.forall_mem_cons.mp asc
      obtain ⟨asc2, rest⟩ := List.forall_mem_cons.mp later
      obtain ⟨made, ascends⟩ := sorts.merge asc1 asc2
      obtain ⟨made', all⟩ := ih _ (k / 2) (List.forall_mem_cons.mpr ⟨ascends, rest⟩)
      refine ⟨sorts.trans made' ?_, all⟩
      simp only [List.flatten_cons]
      rw [← List.append_assoc]
      exact sorts.append made (sorts.refl _)

theorem samsorting (sorts : Sorts cmpfn Made Asc) (xs : List X) (lists : List (List X)) (k : Nat)
    (asc : ∀ l ∈ lists, Asc l) : Made (samsorting cmpfn xs lists k) (xs ++ lists.flatten) ∧
      Asc (samsorting cmpfn xs lists k) := by
  induction xs, lists, k using samsorting.induct cmpfn with
  | case1 k =>
    rw [ListMergesort.samsorting]
    exact ⟨sorts.refl _, sorts.nil⟩
  | case2 l lists k =>
    rw [ListMergesort.samsorting]
    obtain ⟨made, ascends⟩ := sorts.mergePairs l lists 0 asc
    rw [mergePairs_all] at made
    simp only [List.flatten_cons, List.flatten_nil, List.append_nil] at made
    exact ⟨made, ascends _ List.mem_cons_self⟩
  | case3 x xs lists k l lists' merged ih =>
    obtain ⟨runs, ascRun⟩ := sorts.run x xs
    obtain ⟨merges, ascMerged⟩ := sorts.mergePairs (nextRun cmpfn x [] xs).1 lists (k + 1)
      (List.forall_mem_cons.mpr ⟨ascRun, asc⟩)
    rw [merged] at merges ascMerged
    obtain ⟨made, ascends⟩ := ih ascMerged
    have rest := sorts.append (sorts.refl (nextRun cmpfn x [] xs).2) merges
    have tail := sorts.append (sorts.comm runs) (sorts.refl lists.flatten)
    rw [List.append_assoc, ← List.flatten_cons] at tail
    rw [ListMergesort.samsorting, merged]
    exact ⟨sorts.trans made (sorts.trans rest tail), ascends⟩

theorem sorted (sorts : Sorts cmpfn Made Asc) (ls : List X) :
    Made (sortListAndDropDuplicates cmpfn ls) ls ∧ Asc (sortListAndDropDuplicates cmpfn ls) := by
  unfold sortListAndDropDuplicates
  split
  · exact ⟨sorts.refl _, sorts.nil⟩
  · have sorted := sorts.samsorting ls [] 0 (by simp)
    simpa using sorted

end Sorts

end Algorithm

section Keys

variable {X K : Type} [LinearOrder K] (cmpfn : X → X → Ordering) (key : X → K)

def Ascending (l : List X) : Prop := l.Pairwise fun x y => key x < key y

structure Picks (l ls : List X) : Prop where
  mem : ∀ x ∈ l, x ∈ ls
  key : ∀ x ∈ ls, ∃ y ∈ l, key y = key x

variable {cmpfn key} {x r : X} {l l' ls ls' xs ys run : List X}

omit [LinearOrder K] in
theorem Picks.refl (l : List X) : Picks key l l := ⟨fun _ => id, fun x mem => ⟨x, mem, rfl⟩⟩

omit [LinearOrder K] in
theorem Picks.trans (picks : Picks key l l') (picks' : Picks key l' ls) : Picks key l ls := by
  constructor
  · exact fun x mem => picks'.mem x (picks.mem x mem)
  · intro x mem
    obtain ⟨y, memY, same⟩ := picks'.key x mem
    obtain ⟨z, memZ, same'⟩ := picks.key y memY
    exact ⟨z, memZ, same'.trans same⟩

omit [LinearOrder K] in
theorem Picks.append (picks : Picks key l ls) (picks' : Picks key l' ls') :
    Picks key (l ++ l') (ls ++ ls') := by
  constructor
  · intro x mem
    rw [List.mem_append] at mem ⊢
    exact mem.imp (picks.mem x) (picks'.mem x)
  · intro x mem
    rcases List.mem_append.mp mem with left | right
    · obtain ⟨y, memY, same⟩ := picks.key x left
      exact ⟨y, List.mem_append_left _ memY, same⟩
    · obtain ⟨y, memY, same⟩ := picks'.key x right
      exact ⟨y, List.mem_append_right _ memY, same⟩

omit [LinearOrder K] in
theorem Picks.comm (picks : Picks key (l ++ l') ls) : Picks key (l' ++ l) ls := by
  have swaps : Picks key (l' ++ l) (l ++ l') := by
    constructor
    · exact fun x mem => List.perm_append_comm.mem_iff.mp mem
    · exact fun x mem => ⟨x, List.perm_append_comm.mem_iff.mp mem, rfl⟩
  exact swaps.trans picks

omit [LinearOrder K] in
theorem Picks.perm (picks : Picks key l ls) (perm : ls.Perm ls') : Picks key l ls' :=
  ⟨fun x mem => perm.mem_iff.mp (picks.mem x mem), fun x mem => picks.key x (perm.mem_iff.mpr mem)⟩

omit [LinearOrder K] in
theorem Picks.drop (picks : Picks key l ls) {y : X} (mem : x ∈ ls) (same : key y = key x) :
    Picks key l (y :: ls) := by
  constructor
  · exact fun z memZ => List.mem_cons_of_mem y (picks.mem z memZ)
  · intro z memZ
    rcases List.mem_cons.mp memZ with rfl | memZ
    · obtain ⟨w, memW, same'⟩ := picks.key x mem
      exact ⟨w, memW, same'.trans same.symm⟩
    · exact picks.key z memZ

variable (compares : ∀ x y, cmpfn x y = compare (key x) (key y))
include compares

theorem merge_picks (xs ys : List X) : Picks key (merge cmpfn xs ys) (xs ++ ys) := by
  induction xs, ys using merge.induct cmpfn with
  | case1 ys =>
    rw [merge]
    exact .refl _
  | case2 x xs =>
    rw [merge, List.append_nil]
    exact .refl _
  | case3 x xs y ys gt ih =>
    simp only [merge, gt]
    exact ((Picks.refl [y]).append ih).perm (@List.perm_middle _ y (x :: xs) ys).symm
  | case4 x xs y ys eq ih =>
    simp only [merge, eq]
    rw [compares, compare_eq_iff_eq] at eq
    exact (ih.drop List.mem_cons_self eq.symm).perm List.perm_middle.symm
  | case5 x xs y ys lt ih =>
    simp only [merge, lt]
    exact (Picks.refl [x]).append ih

theorem merge_ascending (ascX : Ascending key xs) (ascY : Ascending key ys) :
    Ascending key (merge cmpfn xs ys) := by
  induction xs, ys using merge.induct cmpfn with
  | case1 ys =>
    rw [merge]
    exact ascY
  | case2 x xs =>
    rw [merge]
    exact ascX
  | case3 x xs y ys gt ih =>
    simp only [merge, gt]
    rw [compares, compare_gt_iff_gt] at gt
    obtain ⟨leastX, -⟩ := List.pairwise_cons.mp ascX
    obtain ⟨leastY, ascYs⟩ := List.pairwise_cons.mp ascY
    refine List.pairwise_cons.mpr ⟨fun z mem => ?_, ih ascX ascYs⟩
    rcases List.mem_append.mp ((merge_picks compares _ _).mem z mem) with left | right
    · rcases List.mem_cons.mp left with rfl | later
      · exact gt
      · exact gt.trans (leastX z later)
    · exact leastY z right
  | case4 x xs y ys eq ih =>
    simp only [merge, eq]
    exact ih ascX (List.pairwise_cons.mp ascY).2
  | case5 x xs y ys lt ih =>
    simp only [merge, lt]
    rw [compares, compare_lt_iff_lt] at lt
    obtain ⟨leastX, ascXs⟩ := List.pairwise_cons.mp ascX
    obtain ⟨leastY, -⟩ := List.pairwise_cons.mp ascY
    refine List.pairwise_cons.mpr ⟨fun z mem => ?_, ih ascXs ascY⟩
    rcases List.mem_append.mp ((merge_picks compares _ _).mem z mem) with left | right
    · exact leastX z left
    · rcases List.mem_cons.mp right with rfl | later
      · exact lt
      · exact lt.trans (leastY z later)

theorem nextRun_spec (r : X) (run xs : List X) (asc : Ascending key (r :: run).reverse) :
    Picks key ((nextRun cmpfn r run xs).1 ++ (nextRun cmpfn r run xs).2)
        ((r :: run).reverse ++ xs) ∧ Ascending key (nextRun cmpfn r run xs).1 := by
  induction xs generalizing r run with
  | nil => exact ⟨.refl _, asc⟩
  | cons x xs ih =>
    rw [nextRun]
    split
    · next gt =>
        rw [compares, compare_gt_iff_gt] at gt
        have longer : Ascending key (x :: r :: run).reverse := by
          unfold Ascending at asc ⊢
          rw [List.pairwise_reverse] at asc ⊢
          refine List.pairwise_cons.mpr ⟨fun z mem => ?_, asc⟩
          rcases List.mem_cons.mp mem with rfl | before
          · exact gt
          · exact ((List.pairwise_cons.mp asc).1 z before).trans gt
        obtain ⟨picks, ascends⟩ := ih x (r :: run) longer
        refine ⟨?_, ascends⟩
        simpa using picks
    · next eq =>
        rw [compares, compare_eq_iff_eq] at eq
        obtain ⟨picks, ascends⟩ := ih r run asc
        refine ⟨(picks.drop (x := r) (by simp) eq).perm ?_, ascends⟩
        exact List.perm_middle.symm
    · exact ⟨.refl _, asc⟩

theorem picks_sorts : Sorts cmpfn (Picks key) (Ascending key) := by
  constructor
  · exact .refl
  · exact .trans
  · exact .append
  · exact .comm
  · exact .nil
  · exact fun ascX ascY => ⟨merge_picks compares _ _, merge_ascending compares ascX ascY⟩
  · exact fun x xs => nextRun_spec compares x [] xs (List.pairwise_singleton _ x)

theorem sort_spec (ls : List X) : Picks key (sortListAndDropDuplicates cmpfn ls) ls ∧
    Ascending key (sortListAndDropDuplicates cmpfn ls) := (picks_sorts compares).sorted ls

end Keys

section Preorder

variable {X : Type} {gt : X → X → Bool}

theorem merge_eq_merge (xs ys : List X) :
    merge (fun x y => if gt x y then .gt else .lt) xs ys = xs.merge ys fun x y => !gt x y := by
  induction xs, ys using merge.induct fun x y => if gt x y then .gt else .lt with
  | case1 ys => simp [merge]
  | case2 x xs => simp [merge]
  | case3 x xs y ys after ih | case4 x xs y ys after ih | case5 x xs y ys after ih =>
    simp only [merge, after, ih, List.merge]
    cases found : gt x y <;> simp [found] at after ⊢

theorem nextRun_ascends (trans : ∀ x y z, !gt x y → !gt y z → !gt x z)
    (total : ∀ x y, !gt x y || !gt y x) (r : X) (run xs : List X)
    (asc : (r :: run).reverse.Pairwise fun x y => !gt x y) :
    let next := nextRun (fun x y => if gt x y then .gt else .lt) r run xs
    next.1 ++ next.2 = (r :: run).reverse ++ xs ∧ next.1.Pairwise fun x y => !gt x y := by
  induction xs generalizing r run with
  | nil => exact ⟨rfl, asc⟩
  | cons x xs ih =>
    rw [nextRun]
    cases after : gt x r with
    | false => exact ⟨rfl, asc⟩
    | true =>
      have before : !gt r x := by simpa [after] using total x r
      have longer : (x :: r :: run).reverse.Pairwise fun x y => !gt x y := by
        rw [List.pairwise_reverse] at asc ⊢
        refine List.pairwise_cons.mpr ⟨fun z mem => ?_, asc⟩
        rcases List.mem_cons.mp mem with rfl | earlier
        · exact before
        · exact trans z r x ((List.pairwise_cons.mp asc).1 z earlier) before
      simpa using ih x (r :: run) longer

theorem perm_sorts (trans : ∀ x y z, !gt x y → !gt y z → !gt x z)
    (total : ∀ x y, !gt x y || !gt y x) :
    Sorts (fun x y => if gt x y then .gt else .lt) List.Perm
      (List.Pairwise fun x y => !gt x y) := by
  constructor
  · exact .refl
  · exact .trans
  · exact .append
  · exact List.perm_append_comm.trans
  · exact .nil
  · intro xs ys ascX ascY
    rw [merge_eq_merge]
    exact ⟨List.merge_perm_append _, List.pairwise_merge trans total xs ys ascX ascY⟩
  · intro x xs
    obtain ⟨same, asc⟩ := nextRun_ascends trans total x [] xs (List.pairwise_singleton _ x)
    exact ⟨same ▸ .refl _, asc⟩

theorem sorts_lists :
    (∀ {X : Type} (gt : X → X → Bool), (∀ x y z, !gt x y → !gt y z → !gt x z) →
      (∀ x y, !gt x y || !gt y x) → ∀ ls, ∃ l, sortList gt ls = .ok l ∧ l.Perm ls ∧
        l.Pairwise fun x y => !gt x y) ∧
    ∀ {X : Type} [LinearOrder X] (ls : List X), ∃ l, sortWith compare ls = .ok l ∧
      sortListAndDropDuplicates compare ls = l ∧ l.Pairwise (· < ·) ∧ ∀ x, x ∈ l ↔ x ∈ ls := by
  constructor
  · intro X gt trans total ls
    exact ⟨_, sortWith_eq _ ls, (perm_sorts trans total).sorted ls⟩
  · intro X _ ls
    obtain ⟨picks, ascends⟩ := @sort_spec X X _ compare id (fun _ _ => rfl) ls
    refine ⟨_, sortWith_eq _ ls, rfl, ascends, fun x => ⟨picks.mem x, fun mem => ?_⟩⟩
    obtain ⟨y, memY, same⟩ := picks.key x mem
    rwa [← show y = x from same]

theorem sorts_four : ∃ l, sortList (fun x y : Nat => decide (y < x)) [3, 1, 2, 1] = .ok l ∧
    l.Perm [3, 1, 2, 1] ∧ l.Pairwise fun x y => !decide (y < x) :=
  sorts_lists.1 (fun x y : Nat => decide (y < x)) (by simp; omega) (by simp; omega) [3, 1, 2, 1]

end Preorder

end Mythryl.ListMergesort
