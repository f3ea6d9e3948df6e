import Mythryl.ListMergesort
import Mathlib.Data.List.Count
import Mathlib.Data.List.Flatten

/-!
# The elements that occur more than once

`sort_list_and_find_duplicates` sorts in descending order and collects the first of each run of
equal elements.
-/

namespace Mythryl.ListMergesort

section Algorithm

variable {X : Type} (compare : X → X → Ordering)

def eatDups (a : X) : List X → List X
  | b :: rest => if compare a b = .eq then eatDups a rest else rest
  | [] => []

theorem eatDups_length (a : X) (l : List X) : (eatDups compare a l).length ≤ l.length := by
  induction l with
  | nil => simp [eatDups]
  | cons b rest ih =>
    rw [eatDups]
    split
    · exact Nat.le_succ_of_le ih
    · exact Nat.le_succ _

def findDups : List X → List X → List X
  | a :: b :: rest, dupsFound =>
      if compare a b = .eq then findDups (eatDups compare a (b :: rest)) (a :: dupsFound)
      else findDups (b :: rest) dupsFound
  | _, results => results
termination_by l => l.length
decreasing_by
  · exact Nat.lt_succ_of_le (eatDups_length compare a (b :: rest))
  · simp

def sortListAndFindDuplicates (list : List X) : Except Raised (List X) := do
  let sorted ← sortList (fun a b => compare a b == .lt) list
  return findDups compare sorted []

end Algorithm

section Runs

variable {X : Type} (count : X → Nat) {a : X} {l ks : List X} {e : Nat}

def expand (ks : List X) : List X := ks.flatMap fun a => List.replicate (count a) a

/-- What is found in `expand count ks`, of which the first `e` elements have been dropped. -/
def found : Nat → List X → List X
  | _, [] => []
  | e, a :: ks => if count a - e ≤ 1 then found 0 ks else a :: found 1 ks

/-- No run of two follows a longer one or another of two. -/
def Apart : Nat → List X → Prop
  | _, [] => True
  | e, a :: ks => ¬(e = 1 ∧ count a = 2) ∧ Apart (if 2 ≤ count a then 1 else 0) ks

variable {count}

theorem head_expand (other : a ∉ ks) : ∀ b ∈ (expand count ks).head?, b ≠ a := by
  intro b first same
  have mem := List.mem_of_mem_head? first
  simp only [expand, List.mem_flatMap, List.mem_replicate] at mem
  obtain ⟨k, mem, -, eq⟩ := mem
  exact other (same ▸ eq ▸ mem)

theorem found_sublist : (found count e ks).Sublist ks := by
  induction ks generalizing e with
  | nil => exact .slnil
  | cons a ks ih =>
    rw [found]
    split
    · exact .cons a ih
    · exact .cons_cons a ih

theorem two_le_of_mem_found (mem : a ∈ found count e ks) : 2 ≤ count a := by
  induction ks generalizing e with
  | nil => cases mem
  | cons b ks ih =>
    rw [found] at mem
    split at mem
    · exact ih mem
    · next more =>
        rcases List.mem_cons.mp mem with rfl | mem
        · omega
        · exact ih mem

variable [LinearOrder X]

theorem eatDups_run (n : Nat) (other : ∀ b ∈ l.head?, b ≠ a) :
    eatDups compare a (List.replicate n a ++ l) = l.tail := by
  induction n with
  | zero =>
    cases l with
    | nil => rfl
    | cons b l => simp [eatDups, (other b rfl).symm]
  | succ n ih => simpa [List.replicate_succ, eatDups] using ih

theorem findDups_run (n : Nat) (d : List X) (other : ∀ b ∈ l.head?, b ≠ a) :
    findDups compare (List.replicate n a ++ l) d =
      if n ≤ 1 then findDups compare l d else findDups compare l.tail (a :: d) := by
  match n with
  | 0 => rfl
  | 1 =>
    cases l with
    | nil => simp [findDups]
    | cons b l => simp [findDups, (other b rfl).symm]
  | n + 2 =>
    have eaten := eatDups_run (n + 1) other
    rw [List.replicate_succ, List.cons_append] at eaten
    simp [List.replicate_succ, findDups, eaten]

theorem findDups_expand (pos : ∀ b ∈ ks, 0 < count b) (nodup : ks.Nodup) (small : e ≤ 1)
    (d : List X) : findDups compare ((expand count ks).drop e) d = (found count e ks).reverse ++ d := by
  induction ks generalizing e d with
  | nil => simp [expand, found, findDups]
  | cons a ks ih =>
    obtain ⟨posA, pos⟩ := List.forall_mem_cons.mp pos
    obtain ⟨notMem, nodup⟩ := List.nodup_cons.mp nodup
    have rest : (expand count (a :: ks)).drop e =
        List.replicate (count a - e) a ++ expand count ks := by
      rw [expand, List.flatMap_cons, List.drop_append_of_le_length (by simp; omega),
        List.drop_replicate]
      rfl
    rw [rest, findDups_run _ d (head_expand notMem), found]
    split
    · exact ih pos nodup (Nat.zero_le 1) d
    · rw [← List.drop_one, ih pos nodup (Nat.le_refl 1)]
      simp

omit [LinearOrder X] in
theorem apart_iff (nodup : ks.Nodup) (small : e ≤ 1) :
    (∀ a ∈ ks, 2 ≤ count a → a ∈ found count e ks) ↔ Apart count e ks := by
  induction ks generalizing e with
  | nil => simp [Apart]
  | cons a ks ih =>
    obtain ⟨notMem, nodup⟩ := List.nodup_cons.mp nodup
    have absent (e' : Nat) : a ∉ found count e' ks := fun mem => notMem (found_sublist.subset mem)
    rw [found, Apart, List.forall_mem_cons]
    split
    · next few =>
        by_cases two : 2 ≤ count a
        · have missed : e = 1 ∧ count a = 2 := by omega
          simp [missed, absent]
        · simp only [two, if_false, false_implies, true_and, ih nodup (Nat.zero_le 1)]
          have apart : ¬(e = 1 ∧ count a = 2) := by omega
          simp [apart]
    · next many =>
        have two : 2 ≤ count a := by omega
        have apart : ¬(e = 1 ∧ count a = 2) := by omega
        have others : (∀ b ∈ ks, 2 ≤ count b → b ∈ a :: found count 1 ks) ↔
            ∀ b ∈ ks, 2 ≤ count b → b ∈ found count 1 ks := by
          apply forall₂_congr
          intro b mem
          have ne : b ≠ a := fun same => notMem (same ▸ mem)
          simp [ne]
        rw [others, ih nodup (Nat.le_refl 1), if_pos two]
        simp [apart]

theorem next_iff {k b : X} (desc : (k :: ks).Pairwise (· > ·)) (mem : b ∈ ks) :
    (∀ c ∈ k :: ks, ¬(b < c ∧ c < k)) ↔ b ∈ ks.head? := by
  obtain ⟨below, desc⟩ := List.pairwise_cons.mp desc
  cases ks with
  | nil => cases mem
  | cons c ks =>
    obtain ⟨lower, -⟩ := List.pairwise_cons.mp desc
    have max : ∀ d ∈ c :: ks, d ≤ c := fun d mem =>
      (List.mem_cons.mp mem).elim (fun same => same.le) fun later => (lower d later).le
    rw [List.head?_cons, Option.mem_some_iff]
    constructor
    · intro none
      by_contra ne
      have less : b < c := lt_of_le_of_ne (max b mem) (Ne.symm ne)
      exact none c (by simp) ⟨less, below c List.mem_cons_self⟩
    · rintro rfl d memD ⟨greater, less⟩
      rcases List.mem_cons.mp memD with rfl | memD
      · exact lt_irrefl _ less
      · exact (max d memD).not_gt greater

theorem apart_iff_neighbours (desc : ks.Pairwise (· > ·)) : Apart count e ks ↔
    (e = 1 → ∀ b ∈ ks.head?, count b ≠ 2) ∧
      ∀ a ∈ ks, ∀ b ∈ ks, b < a → (∀ c ∈ ks, ¬(b < c ∧ c < a)) → 2 ≤ count a → count b ≠ 2 := by
  induction ks generalizing e with
  | nil => simp [Apart]
  | cons k ks ih =>
    obtain ⟨below, desc'⟩ := List.pairwise_cons.mp desc
    have upper {a b : X} (mem : a ∈ ks) : (∀ c ∈ k :: ks, ¬(b < c ∧ c < a)) ↔
        ∀ c ∈ ks, ¬(b < c ∧ c < a) := by
      simp [(below a mem).le]
    rw [Apart, ih desc']
    constructor
    · rintro ⟨apart, next, rest⟩
      refine ⟨fun one b same two => ?_, fun a memA b memB less none two => ?_⟩
      · cases same
        exact apart ⟨one, two⟩
      · rcases List.mem_cons.mp memA with rfl | lowA
        · have lowB := (List.mem_cons.mp memB).resolve_left less.ne
          exact next (if_pos two) b ((next_iff desc lowB).mp none)
        · have lowB := (List.mem_cons.mp memB).resolve_left (less.trans (below a lowA)).ne
          exact rest a lowA b lowB less ((upper lowA).mp none) two
    · rintro ⟨first, all⟩
      refine ⟨fun h => first h.1 k rfl h.2, fun one b head => ?_, fun a memA b memB less none => ?_⟩
      · have two : 2 ≤ count k := by
          by_contra few
          simp [few] at one
        have mem := List.mem_of_mem_head? head
        exact all k List.mem_cons_self b (List.mem_cons_of_mem k mem) (below b mem)
          ((next_iff desc mem).mpr head) two
      · exact all a (List.mem_cons_of_mem k memA) b (List.mem_cons_of_mem k memB) less
          ((upper memA).mpr none)

theorem count_expand (nodup : ks.Nodup) (x : X) :
    (expand count ks).count x = if x ∈ ks then count x else 0 := by
  induction ks with
  | nil => rfl
  | cons a ks ih =>
    obtain ⟨notMem, nodup⟩ := List.nodup_cons.mp nodup
    have split : (expand count (a :: ks)).count x =
        (List.replicate (count a) a).count x + (expand count ks).count x := by
      simp [expand]
    rw [split, ih nodup, List.count_replicate]
    by_cases same : a = x
    · simp [← same, notMem]
    · simp [same, Ne.symm same]

theorem expand_desc (desc : ks.Pairwise (· > ·)) : (expand count ks).Pairwise (· ≥ ·) := by
  induction ks with
  | nil => exact .nil
  | cons a ks ih =>
    obtain ⟨below, desc⟩ := List.pairwise_cons.mp desc
    rw [expand, List.flatMap_cons, List.pairwise_append]
    refine ⟨List.pairwise_replicate.mpr (.inr (le_refl a)), ih desc, fun x memX y memY => ?_⟩
    simp only [List.mem_replicate, List.mem_flatMap] at memX memY
    obtain ⟨b, mem, -, rfl⟩ := memY
    exact memX.2 ▸ (below y mem).le

end Runs

section Results

variable {X : Type} [LinearOrder X]

/-- Of an element that is there more than once, the next one below it is not there just twice. -/
def Spared (l : List X) : Prop :=
  ∀ a ∈ l, ∀ b ∈ l, b < a → (∀ c ∈ l, ¬(b < c ∧ c < a)) → 2 ≤ l.count a → l.count b ≠ 2

theorem findDuplicates_eq (l : List X) : ∃ ks : List X, ks.Pairwise (· > ·) ∧ (∀ x, x ∈ ks ↔ x ∈ l) ∧
    sortListAndFindDuplicates compare l = .ok (found l.count 0 ks).reverse := by
  have after : (fun a b : X => compare a b == Ordering.lt) = fun a b => decide (a < b) := by
    funext a b
    rw [Bool.eq_iff_iff]
    simp [compare_lt_iff_lt]
  have sorts := (@perm_sorts X (fun a b => decide (a < b))
    (by simpa using fun x y z yx zy => zy.trans yx) (by simpa using fun x y => le_total y x)).sorted l
  obtain ⟨picks, ascends⟩ := @sort_spec X X _ compare id (fun _ _ => rfl) l
  set ks := (sortListAndDropDuplicates compare l).reverse with ks_def
  have desc : ks.Pairwise (· > ·) := List.pairwise_reverse.mpr ascends
  have nodup : ks.Nodup := desc.imp fun gt => gt.ne'
  have mems (x : X) : x ∈ ks ↔ x ∈ l := by
    rw [ks_def, List.mem_reverse]
    refine ⟨picks.mem x, fun mem => ?_⟩
    obtain ⟨y, memY, same⟩ := picks.key x mem
    rwa [← show y = x from same]
  have pos : ∀ b ∈ ks, 0 < l.count b := fun b mem => List.count_pos_iff.mpr ((mems b).mp mem)
  refine ⟨ks, desc, mems, ?_⟩
  have run : sortList (fun a b : X => decide (a < b)) l = .ok (expand l.count ks) := by
    rw [sortList, sortWith_eq]
    congr 1
    have perm : List.Perm (expand l.count ks) l := by
      rw [List.perm_iff_count]
      intro x
      rw [count_expand nodup]
      split
      · rfl
      · next none => exact (List.count_eq_zero.mpr fun mem => none ((mems x).mpr mem)).symm
    have desc' := sorts.2.imp (S := (· ≥ ·)) fun {x y} le => by simpa using le
    exact (sorts.1.trans perm.symm).eq_of_pairwise (fun a b _ _ ge le => le_antisymm le ge) desc'
      (expand_desc desc)
  rw [sortListAndFindDuplicates, after, run]
  have dups := findDups_expand pos nodup (Nat.zero_le 1) []
  rw [List.drop_zero, List.append_nil] at dups
  exact congrArg Except.ok dups

theorem findDuplicates_iff (l : List X) :
    (∃ d, sortListAndFindDuplicates compare l = .ok d ∧ d.Pairwise (· < ·) ∧
      ∀ x, x ∈ d ↔ 2 ≤ l.count x) ↔ Spared l := by
  obtain ⟨ks, desc, mems, run⟩ := findDuplicates_eq l
  have nodup : ks.Nodup := desc.imp fun gt => gt.ne'
  have asc : (found l.count 0 ks).reverse.Pairwise (· < ·) :=
    List.pairwise_reverse.mpr (desc.sublist found_sublist)
  have all : (∀ x, x ∈ (found l.count 0 ks).reverse ↔ 2 ≤ l.count x) ↔
      ∀ a ∈ ks, 2 ≤ l.count a → a ∈ found l.count 0 ks := by
    constructor
    · exact fun same a _ two => List.mem_reverse.mp ((same a).mpr two)
    · intro kept x
      rw [List.mem_reverse]
      refine ⟨two_le_of_mem_found, fun two => kept x ?_ two⟩
      exact (mems x).mpr (List.count_pos_iff.mp (by omega))
  have spared : Apart l.count 0 ks ↔ Spared l := by
    rw [apart_iff_neighbours desc]
    simp [Spared, mems]
  rw [← spared, ← apart_iff nodup (Nat.zero_le 1), ← all]
  constructor
  · rintro ⟨d, run', -, same⟩
    cases run.symm.trans run'
    exact same
  · exact fun same => ⟨_, run, asc, same⟩

theorem findDuplicates_pairs : ¬∃ d, sortListAndFindDuplicates compare [1, 1, 2, 2] = .ok d ∧
    d.Pairwise (· < ·) ∧ ∀ x : Nat, x ∈ d ↔ 2 ≤ [1, 1, 2, 2].count x := by
  rintro ⟨d, run, -, same⟩
  have two : sortListAndFindDuplicates (X := Nat) compare [1, 1, 2, 2] = .ok [2] := by
    have one : compare 1 1 = .eq ∧ compare 1 2 = .lt ∧ compare 2 1 = .gt ∧ compare 2 2 = .eq := by
      decide
    simp [sortListAndFindDuplicates, sortList, sortWith_eq, sortListAndDropDuplicates, samsorting,
      nextRun, mergePairs, merge, bind, Except.bind, pure, Except.pure, findDups, eatDups, one]
  cases two.symm.trans run
  simpa using (same 1).mpr (by decide)

end Results

end Mythryl.ListMergesort
