import Mathlib.Order.Lattice
import Mathlib.Data.List.Basic
import Mathlib.Data.List.Pairwise
import Mathlib.Data.Option.NAry

/-! # Lists in strictly ascending key order -/

namespace SortedKeys

def mergeItems {α α₁ α₂ K : Type} [Ord K] (key₁ : α₁ → K) (key₂ : α₂ → K)
    (f : Option α₁ → Option α₂ → Option α) : List α₁ → List α₂ → List α
  | [], [] => []
  | [], y :: rest₂ => (f none (some y)).toList ++ mergeItems key₁ key₂ f [] rest₂
  | x :: rest₁, [] => (f (some x) none).toList ++ mergeItems key₁ key₂ f rest₁ []
  | x :: rest₁, y :: rest₂ =>
      match compare (key₁ x) (key₂ y) with
      | .lt => (f (some x) none).toList ++ mergeItems key₁ key₂ f rest₁ (y :: rest₂)
      | .eq => (f (some x) (some y)).toList ++ mergeItems key₁ key₂ f rest₁ rest₂
      | .gt => (f none (some y)).toList ++ mergeItems key₁ key₂ f (x :: rest₁) rest₂
termination_by items₁ items₂ => items₁.length + items₂.length

section Steps

variable {α α₁ α₂ K : Type} [Ord K] {key₁ : α₁ → K} {key₂ : α₂ → K}
  {f : Option α₁ → Option α₂ → Option α} {x : α₁} {y : α₂} {rest₁ : List α₁} {rest₂ : List α₂}

theorem mergeItems_lt (lt : compare (key₁ x) (key₂ y) = .lt) :
    mergeItems key₁ key₂ f (x :: rest₁) (y :: rest₂) =
      (f (some x) none).toList ++ mergeItems key₁ key₂ f rest₁ (y :: rest₂) := by
  rw [mergeItems, lt]

theorem mergeItems_eq (eq : compare (key₁ x) (key₂ y) = .eq) :
    mergeItems key₁ key₂ f (x :: rest₁) (y :: rest₂) =
      (f (some x) (some y)).toList ++ mergeItems key₁ key₂ f rest₁ rest₂ := by
  rw [mergeItems, eq]

theorem mergeItems_gt (gt : compare (key₁ x) (key₂ y) = .gt) :
    mergeItems key₁ key₂ f (x :: rest₁) (y :: rest₂) =
      (f none (some y)).toList ++ mergeItems key₁ key₂ f (x :: rest₁) rest₂ := by
  rw [mergeItems, gt]

theorem mergeItems_left_done (none : ∀ y, f none (some y) = none) (items : List α₂) :
    mergeItems key₁ key₂ f [] items = [] := by
  induction items with
  | nil => rw [mergeItems]
  | cons y items ih => rw [mergeItems, none, ih, Option.toList_none, List.nil_append]

theorem mergeItems_right_done (none : ∀ x, f (some x) none = none) (items : List α₁) :
    mergeItems key₁ key₂ f items [] = [] := by
  induction items with
  | nil => rw [mergeItems]
  | cons x items ih => rw [mergeItems, none, ih, Option.toList_none, List.nil_append]

end Steps

section Rest

variable {α K : Type} [Ord K] {key : α → K} {f : Option α → Option α → Option α}

theorem mergeItems_left_rest (all : ∀ y, f none (some y) = some y) (items : List α) :
    mergeItems key key f [] items = items := by
  induction items with
  | nil => rw [mergeItems]
  | cons y items ih => rw [mergeItems, all, ih, Option.toList_some, List.singleton_append]

theorem mergeItems_right_rest (all : ∀ x, f (some x) none = some x) (items : List α) :
    mergeItems key key f items [] = items := by
  induction items with
  | nil => rw [mergeItems]
  | cons x items ih => rw [mergeItems, all, ih, Option.toList_some, List.singleton_append]

end Rest

variable {α K : Type} [LinearOrder K] {key : α → K}

def Sorted (key : α → K) (items : List α) : Prop := items.Pairwise fun a b => key a < key b

def below (key : α → K) (k : K) (items : List α) : List α := items.filter fun a => key a < k

def above (key : α → K) (k : K) (items : List α) : List α := items.filter fun a => k < key a

def find (key : α → K) (k : K) (items : List α) : Option α := items.find? fun a => key a = k

variable {a : α} {items : List α} {k : K}

theorem mem_below : a ∈ below key k items ↔ a ∈ items ∧ key a < k := by
  simp [below]

theorem mem_above : a ∈ above key k items ↔ a ∈ items ∧ k < key a := by
  simp [above]

theorem Sorted.node {left right : List α} {y : α} (sorted : Sorted key (left ++ y :: right)) :
    Sorted key left ∧ Sorted key right ∧ (∀ a ∈ left, key a < key y) ∧ ∀ b ∈ right, key y < key b := by
  obtain ⟨sortedLeft, sortedNode, across⟩ := List.pairwise_append.mp sorted
  obtain ⟨aboveY, sortedRight⟩ := List.pairwise_cons.mp sortedNode
  exact ⟨sortedLeft, sortedRight, fun a ha => across a ha y List.mem_cons_self, aboveY⟩

theorem sorted_node {left right : List α} {y : α} : Sorted key (left ++ y :: right) ↔
      Sorted key left ∧ Sorted key right ∧ (∀ a ∈ left, key a < key y) ∧
        (∀ b ∈ right, key y < key b) := by
  constructor
  · exact Sorted.node
  · rintro ⟨sortedLeft, sortedRight, belowY, aboveY⟩
    refine List.pairwise_append.mpr ⟨sortedLeft, List.pairwise_cons.mpr ⟨aboveY, sortedRight⟩, ?_⟩
    intro a ha b hb
    rcases List.mem_cons.mp hb with rfl | hb
    · exact belowY a ha
    · exact lt_trans (belowY a ha) (aboveY b hb)

theorem below_all (all : ∀ a ∈ items, key a < k) : below key k items = items := by
  apply List.filter_eq_self.mpr
  intro a ha
  simpa using all a ha

theorem below_none (none : ∀ a ∈ items, k ≤ key a) : below key k items = [] := by
  apply List.filter_eq_nil_iff.mpr
  intro a ha
  simpa using none a ha

theorem above_all (all : ∀ a ∈ items, k < key a) : above key k items = items := by
  apply List.filter_eq_self.mpr
  intro a ha
  simpa using all a ha

theorem above_none (none : ∀ a ∈ items, key a ≤ k) : above key k items = [] := by
  apply List.filter_eq_nil_iff.mpr
  intro a ha
  simpa using none a ha

section Node

variable {left right : List α} {y : α} {k : K} (sorted : Sorted key (left ++ y :: right))
include sorted

theorem below_left (lt : k < key y) : below key k (left ++ y :: right) = below key k left := by
  obtain ⟨-, -, -, aboveY⟩ := sorted.node
  have rest : below key k (y :: right) = [] := by
    apply below_none
    intro a ha
    rcases List.mem_cons.mp ha with rfl | ha
    · exact lt.le
    · exact (lt.trans (aboveY a ha)).le
  unfold below at rest ⊢
  rw [List.filter_append, rest, List.append_nil]

theorem above_left (lt : k < key y) :
    above key k (left ++ y :: right) = above key k left ++ y :: right := by
  obtain ⟨-, -, -, aboveY⟩ := sorted.node
  have rest : above key k (y :: right) = y :: right := by
    apply above_all
    intro a ha
    rcases List.mem_cons.mp ha with rfl | ha
    · exact lt
    · exact lt.trans (aboveY a ha)
  unfold above at rest ⊢
  rw [List.filter_append, rest]

theorem below_middle (eq : k = key y) : below key k (left ++ y :: right) = left := by
  obtain ⟨-, -, belowY, aboveY⟩ := sorted.node
  have first : below key k left = left := below_all fun a ha => eq ▸ belowY a ha
  have rest : below key k (y :: right) = [] := by
    apply below_none
    intro a ha
    rcases List.mem_cons.mp ha with rfl | ha
    · exact eq.le
    · exact eq ▸ (aboveY a ha).le
  unfold below at first rest ⊢
  rw [List.filter_append, first, rest, List.append_nil]

theorem above_middle (eq : k = key y) : above key k (left ++ y :: right) = right := by
  obtain ⟨-, -, belowY, aboveY⟩ := sorted.node
  have first : above key k left = [] := above_none fun a ha => eq ▸ (belowY a ha).le
  have rest : above key k right = right := above_all fun a ha => eq ▸ aboveY a ha
  unfold above at first rest ⊢
  rw [List.filter_append, first, List.filter_cons_of_neg (by simp [eq]), rest, List.nil_append]

theorem below_right (gt : key y < k) :
    below key k (left ++ y :: right) = left ++ y :: below key k right := by
  obtain ⟨-, -, belowY, -⟩ := sorted.node
  have first : below key k left = left := below_all fun a ha => (belowY a ha).trans gt
  unfold below at first ⊢
  rw [List.filter_append, first, List.filter_cons_of_pos (by simpa using gt)]

theorem above_right (gt : key y < k) : above key k (left ++ y :: right) = above key k right := by
  obtain ⟨-, -, belowY, -⟩ := sorted.node
  have first : above key k left = [] := above_none fun a ha => ((belowY a ha).trans gt).le
  unfold above at first ⊢
  rw [List.filter_append, first, List.filter_cons_of_neg (by simpa using gt.le), List.nil_append]

theorem find_left (lt : k < key y) : find key k (left ++ y :: right) = find key k left := by
  obtain ⟨-, -, -, aboveY⟩ := sorted.node
  have rest : find key k (y :: right) = none := by
    apply List.find?_eq_none.mpr
    intro a ha
    rcases List.mem_cons.mp ha with rfl | ha
    · simpa using lt.ne'
    · simpa using (lt.trans (aboveY a ha)).ne'
  unfold find at rest ⊢
  rw [List.find?_append, rest, Option.or_none]

theorem find_middle (eq : k = key y) : find key k (left ++ y :: right) = some y := by
  obtain ⟨-, -, belowY, -⟩ := sorted.node
  have first : left.find? (fun a => key a = k) = none := by
    apply List.find?_eq_none.mpr
    intro a ha
    simpa [eq] using (belowY a ha).ne
  unfold find
  rw [List.find?_append, first, Option.none_or, List.find?_cons_of_pos (by simp [eq])]

theorem find_right (gt : key y < k) : find key k (left ++ y :: right) = find key k right := by
  obtain ⟨-, -, belowY, -⟩ := sorted.node
  have first : left.find? (fun a => key a = k) = none := by
    apply List.find?_eq_none.mpr
    intro a ha
    simpa using ((belowY a ha).trans gt).ne
  unfold find
  rw [List.find?_append, first, Option.none_or, List.find?_cons_of_neg (by simpa using gt.ne)]

variable {x : α}

theorem mem_left (mem : x ∈ left ++ y :: right) (lt : key x < key y) : x ∈ left := by
  obtain ⟨-, -, -, aboveY⟩ := sorted.node
  rcases List.mem_append.mp mem with inLeft | inRest
  · exact inLeft
  · rcases List.mem_cons.mp inRest with rfl | inRight
    · exact absurd lt (lt_irrefl _)
    · exact absurd (aboveY x inRight) lt.not_gt

theorem mem_middle (mem : x ∈ left ++ y :: right) (eq : key x = key y) : x = y := by
  obtain ⟨-, -, belowY, aboveY⟩ := sorted.node
  rcases List.mem_append.mp mem with inLeft | inRest
  · exact absurd eq (belowY x inLeft).ne
  · rcases List.mem_cons.mp inRest with same | inRight
    · exact same
    · exact absurd eq (aboveY x inRight).ne'

theorem mem_right (mem : x ∈ left ++ y :: right) (gt : key y < key x) : x ∈ right := by
  obtain ⟨-, -, belowY, -⟩ := sorted.node
  rcases List.mem_append.mp mem with inLeft | inRest
  · exact absurd (belowY x inLeft) gt.not_gt
  · rcases List.mem_cons.mp inRest with rfl | inRight
    · exact absurd gt (lt_irrefl _)
    · exact inRight

end Node

theorem eq_of_compare {a b : K} (less : compare a b = .lt → False)
    (more : compare a b = .gt → False) : a = b := by
  rcases lt_trichotomy a b with lt | eq | gt
  · exact (less (compare_lt_iff_lt.mpr lt)).elim
  · exact eq
  · exact (more (compare_gt_iff_gt.mpr gt)).elim

theorem Sorted.filter (sorted : Sorted key items) (p : α → Bool) :
    Sorted key (items.filter p) := List.Pairwise.filter p sorted

theorem sorted_around (sorted : Sorted key items) (x : α) :
    Sorted key (below key (key x) items ++ x :: above key (key x) items) := by
  apply sorted_node.mpr
  refine ⟨sorted.filter _, sorted.filter _, ?_, ?_⟩
  · intro a ha
    exact (mem_below.mp ha).2
  · intro a ha
    exact (mem_above.mp ha).2

theorem sorted_without (sorted : Sorted key items) (k : K) :
    Sorted key (below key k items ++ above key k items) := by
  unfold Sorted
  rw [List.pairwise_append]
  refine ⟨sorted.filter _, sorted.filter _, ?_⟩
  intro a ha b hb
  exact lt_trans (mem_below.mp ha).2 (mem_above.mp hb).2

theorem key_unique (sorted : Sorted key items) {b : α} (ha : a ∈ items)
    (hb : b ∈ items) (eq : key a = key b) : a = b := by
  induction items with
  | nil => cases ha
  | cons c items ih =>
    obtain ⟨aboveC, rest⟩ := List.pairwise_cons.mp sorted
    rcases List.mem_cons.mp ha with rfl | inA <;> rcases List.mem_cons.mp hb with rfl | inB
    · rfl
    · exact absurd eq (aboveC _ inB).ne
    · exact absurd eq (aboveC _ inA).ne'
    · exact ih rest inA inB

theorem find_eq_some (sorted : Sorted key items) :
    find key k items = some a ↔ a ∈ items ∧ key a = k := by
  constructor
  · intro found
    exact ⟨List.mem_of_find?_eq_some found, by simpa using List.find?_some found⟩
  · rintro ⟨ha, rfl⟩
    cases search : find key (key a) items with
    | none =>
      have unequal := List.find?_eq_none.mp search a ha
      simp at unequal
    | some b =>
      have same : key b = key a := by simpa using List.find?_some search
      rw [key_unique sorted (List.mem_of_find?_eq_some search) ha same]

theorem find_eq_none : find key k items = none ↔ ∀ a ∈ items, key a ≠ k := by
  unfold find
  rw [List.find?_eq_none]
  simp

theorem mem_around {x : α} : a ∈ below key (key x) items ++ x :: above key (key x) items ↔
      a = x ∨ (a ∈ items ∧ key a ≠ key x) := by
  rw [List.mem_append, List.mem_cons, mem_below, mem_above]
  constructor
  · rintro (⟨ha, lt⟩ | rfl | ⟨ha, lt⟩)
    · exact .inr ⟨ha, lt.ne⟩
    · exact .inl rfl
    · exact .inr ⟨ha, lt.ne'⟩
  · rintro (rfl | ⟨ha, ne⟩)
    · exact .inr (.inl rfl)
    · rcases lt_or_gt_of_ne ne with lt | gt
      · exact .inl ⟨ha, lt⟩
      · exact .inr (.inr ⟨ha, gt⟩)

theorem mem_without : a ∈ below key k items ++ above key k items ↔ a ∈ items ∧ key a ≠ k := by
  rw [List.mem_append, mem_below, mem_above]
  constructor
  · rintro (⟨ha, lt⟩ | ⟨ha, lt⟩)
    · exact ⟨ha, lt.ne⟩
    · exact ⟨ha, lt.ne'⟩
  · rintro ⟨ha, ne⟩
    rcases lt_or_gt_of_ne ne with lt | gt
    · exact .inl ⟨ha, lt⟩
    · exact .inr ⟨ha, gt⟩

theorem find_around (sorted : Sorted key items) (x : α) (k : K) :
    find key k (below key (key x) items ++ x :: above key (key x) items) =
      if k = key x then some x else find key k items := by
  apply Option.ext
  intro a
  rw [find_eq_some (sorted_around sorted x), mem_around]
  split
  · next eq =>
      constructor
      · rintro ⟨rfl | ⟨-, ne⟩, same⟩
        · rfl
        · exact absurd (same.trans eq) ne
      · rintro ⟨⟩
        exact ⟨.inl rfl, eq.symm⟩
  · next ne =>
      rw [find_eq_some sorted]
      constructor
      · rintro ⟨rfl | ⟨ha, -⟩, same⟩
        · exact absurd same.symm ne
        · exact ⟨ha, same⟩
      · rintro ⟨ha, same⟩
        exact ⟨.inr ⟨ha, fun eq => ne (same.symm.trans eq)⟩, same⟩

theorem find_without (sorted : Sorted key items) (k k' : K) :
    find key k' (below key k items ++ above key k items) =
      if k' = k then none else find key k' items := by
  apply Option.ext
  intro a
  rw [find_eq_some (sorted_without sorted k), mem_without]
  split
  · next eq =>
      constructor
      · rintro ⟨⟨-, ne⟩, same⟩
        exact absurd (same.trans eq) ne
      · rintro ⟨⟩
  · next ne =>
      rw [find_eq_some sorted]
      constructor
      · rintro ⟨⟨ha, -⟩, same⟩
        exact ⟨ha, same⟩
      · rintro ⟨ha, same⟩
        exact ⟨⟨ha, fun eq => ne (same.symm.trans eq)⟩, same⟩

theorem length_without (sorted : Sorted key items) (ha : a ∈ items) :
    (below key (key a) items ++ above key (key a) items).length + 1 = items.length := by
  obtain ⟨before, after, rfl⟩ := List.append_of_mem ha
  rw [below_middle sorted rfl, above_middle sorted rfl, List.length_append, List.length_append,
    List.length_cons, Nat.add_assoc]

theorem eq_of_mem_iff {others : List α} (sorted : Sorted key items)
    (sorted' : Sorted key others) (same : ∀ a, a ∈ items ↔ a ∈ others) : items = others := by
  induction items generalizing others with
  | nil =>
    cases others with
    | nil => rfl
    | cons b others => exact absurd ((same b).mpr (by simp)) (by simp)
  | cons a items ih =>
    cases others with
    | nil => exact absurd ((same a).mp (by simp)) (by simp)
    | cons b others =>
      obtain ⟨aboveA, rest⟩ := List.pairwise_cons.mp sorted
      obtain ⟨aboveB, rest'⟩ := List.pairwise_cons.mp sorted'
      have heads : a = b := by
        rcases List.mem_cons.mp ((same a).mp (by simp)) with rfl | ha
        · rfl
        · rcases List.mem_cons.mp ((same b).mpr (by simp)) with rfl | hb
          · rfl
          · exact absurd (aboveA b hb) (aboveB a ha).not_gt
      subst heads
      congr 1
      apply ih rest rest'
      intro c
      constructor
      · intro hc
        rcases List.mem_cons.mp ((same c).mp (List.mem_cons_of_mem a hc)) with rfl | hc'
        · exact absurd (aboveA c hc) (lt_irrefl _)
        · exact hc'
      · intro hc
        rcases List.mem_cons.mp ((same c).mpr (List.mem_cons_of_mem a hc)) with rfl | hc'
        · exact absurd (aboveB c hc) (lt_irrefl _)
        · exact hc'

section Merge

variable {α₁ α₂ : Type} (key₁ : α₁ → K) (key₂ : α₂ → K) (f : Option α₁ → Option α₂ → Option α)

structure KeepsKey (key : α → K) : Prop where
  left : ∀ x o a, f (some x) o = some a → key a = key₁ x
  right : ∀ y a, f none (some y) = some a → key a = key₂ y
  none : f none none = none

variable {key₁ key₂ f} (keeps : KeepsKey key₁ key₂ f key) {items₁ : List α₁} {items₂ : List α₂}

theorem find_cons (k : K) (x : α) (rest : List α) :
    find key k (x :: rest) = if key x = k then some x else find key k rest := by
  unfold find
  split
  · next eq => rw [List.find?_cons_of_pos (by simpa using eq)]
  · next ne => rw [List.find?_cons_of_neg (by simpa using ne)]

theorem find_above {k : K} {items : List α} (all : ∀ a ∈ items, k < key a) :
    find key k items = none := find_eq_none.mpr fun a ha => (all a ha).ne'

include keeps in
theorem find_step {k k' : K} {o : Option α} {rest : List α} {o₁ : Option α₁} {o₂ : Option α₂}
    (own : ∀ a, o = some a → key a = k') (later : find key k rest = f o₁ o₂)
    (gone : k = k' → o₁ = none ∧ o₂ = none) :
    find key k (o.toList ++ rest) = if k = k' then o else f o₁ o₂ := by
  cases o with
  | none =>
    split
    · next eq =>
        obtain ⟨rfl, rfl⟩ := gone eq
        exact later.trans keeps.none
    · exact later
  | some a =>
    have keyA := own a rfl
    simp only [Option.toList_some, List.singleton_append, find_cons, keyA, eq_comm, later]

include keeps in
theorem find_mergeItems (sorted₁ : Sorted key₁ items₁) (sorted₂ : Sorted key₂ items₂) (k : K) :
    find key k (mergeItems key₁ key₂ f items₁ items₂) =
      f (find key₁ k items₁) (find key₂ k items₂) := by
  fun_induction mergeItems key₁ key₂ f items₁ items₂ with
  | case1 => exact keeps.none.symm
  | case2 y rest₂ ih =>
    obtain ⟨aboveY, sortedRest⟩ := List.pairwise_cons.mp sorted₂
    rw [find_step keeps (keeps.right y) (ih sorted₁ sortedRest)
      fun eq => ⟨rfl, find_above (eq ▸ aboveY)⟩, find_cons]
    split
    · next eq => rw [if_pos eq.symm]; rfl
    · next ne => rw [if_neg (Ne.symm ne)]
  | case3 x rest₁ ih =>
    obtain ⟨aboveX, sortedRest⟩ := List.pairwise_cons.mp sorted₁
    rw [find_step keeps (keeps.left x none) (ih sortedRest sorted₂)
      fun eq => ⟨find_above (eq ▸ aboveX), rfl⟩, find_cons]
    split
    · next eq => rw [if_pos eq.symm]; rfl
    · next ne => rw [if_neg (Ne.symm ne)]
  | case4 x rest₁ y rest₂ lt ih =>
    rw [compare_lt_iff_lt] at lt
    obtain ⟨aboveX, sortedRest⟩ := List.pairwise_cons.mp sorted₁
    have aboveY := (List.pairwise_cons.mp sorted₂).1
    have none₂ : find key₂ (key₁ x) (y :: rest₂) = none := by
      apply find_above
      intro b hb
      rcases List.mem_cons.mp hb with rfl | hb
      · exact lt
      · exact lt.trans (aboveY b hb)
    rw [find_step keeps (keeps.left x none) (ih sortedRest sorted₂)
      fun eq => ⟨find_above (eq ▸ aboveX), eq ▸ none₂⟩, find_cons k x]
    split
    · next eq => rw [if_pos eq.symm, eq, none₂]
    · next ne => rw [if_neg (Ne.symm ne)]
  | case5 x rest₁ y rest₂ eq ih =>
    rw [compare_eq_iff_eq] at eq
    obtain ⟨aboveX, sortedRest₁⟩ := List.pairwise_cons.mp sorted₁
    obtain ⟨aboveY, sortedRest₂⟩ := List.pairwise_cons.mp sorted₂
    rw [find_step keeps (keeps.left x (some y)) (ih sortedRest₁ sortedRest₂)
      fun eq' => ⟨find_above (eq' ▸ aboveX), find_above (eq' ▸ eq ▸ aboveY)⟩, find_cons, find_cons,
      ← eq]
    split
    · next same => rw [if_pos same.symm, if_pos same.symm]
    · next ne => rw [if_neg (Ne.symm ne), if_neg (Ne.symm ne)]
  | case6 x rest₁ y rest₂ gt ih =>
    rw [compare_gt_iff_gt] at gt
    obtain ⟨aboveY, sortedRest⟩ := List.pairwise_cons.mp sorted₂
    have aboveX := (List.pairwise_cons.mp sorted₁).1
    have none₁ : find key₁ (key₂ y) (x :: rest₁) = none := by
      apply find_above
      intro a ha
      rcases List.mem_cons.mp ha with rfl | ha
      · exact gt
      · exact lt_trans gt (aboveX a ha)
    rw [find_step keeps (keeps.right y) (ih sorted₁ sortedRest)
      fun eq => ⟨eq ▸ none₁, find_above (eq ▸ aboveY)⟩, find_cons k y]
    split
    · next eq => rw [if_pos eq.symm, eq, none₁]
    · next ne => rw [if_neg (Ne.symm ne)]

include keeps in
theorem key_of_mem_mergeItems {a : α} (ha : a ∈ mergeItems key₁ key₂ f items₁ items₂) :
    (∃ x ∈ items₁, key a = key₁ x) ∨ (∃ y ∈ items₂, key a = key₂ y) := by
  fun_induction mergeItems key₁ key₂ f items₁ items₂ with
  | case1 => cases ha
  | case2 y rest₂ ih =>
    rcases List.mem_append.mp ha with ha | ha
    · exact .inr ⟨y, by simp, keeps.right y a (by simpa using ha)⟩
    · rcases ih ha with ⟨x, hx, eq⟩ | ⟨z, hz, eq⟩
      · cases hx
      · exact .inr ⟨z, by simp [hz], eq⟩
  | case3 x rest₁ ih =>
    rcases List.mem_append.mp ha with ha | ha
    · exact .inl ⟨x, by simp, keeps.left x _ a (by simpa using ha)⟩
    · rcases ih ha with ⟨z, hz, eq⟩ | ⟨y, hy, eq⟩
      · exact .inl ⟨z, by simp [hz], eq⟩
      · cases hy
  | case4 x rest₁ y rest₂ lt ih =>
    rcases List.mem_append.mp ha with ha | ha
    · exact .inl ⟨x, by simp, keeps.left x _ a (by simpa using ha)⟩
    · rcases ih ha with ⟨z, hz, eq⟩ | right
      · exact .inl ⟨z, by simp [hz], eq⟩
      · exact .inr right
  | case5 x rest₁ y rest₂ eq ih =>
    rcases List.mem_append.mp ha with ha | ha
    · exact .inl ⟨x, by simp, keeps.left x _ a (by simpa using ha)⟩
    · rcases ih ha with ⟨z, hz, eq⟩ | ⟨z, hz, eq⟩
      · exact .inl ⟨z, by simp [hz], eq⟩
      · exact .inr ⟨z, by simp [hz], eq⟩
  | case6 x rest₁ y rest₂ gt ih =>
    rcases List.mem_append.mp ha with ha | ha
    · exact .inr ⟨y, by simp, keeps.right y a (by simpa using ha)⟩
    · rcases ih ha with left | ⟨z, hz, eq⟩
      · exact .inl left
      · exact .inr ⟨z, by simp [hz], eq⟩

theorem sorted_toList_append {o : Option α} {rest : List α} (sorted : Sorted key rest)
    (aboveO : ∀ a, o = some a → ∀ b ∈ rest, key a < key b) : Sorted key (o.toList ++ rest) := by
  cases o with
  | none => exact sorted
  | some a => exact List.pairwise_cons.mpr ⟨aboveO a rfl, sorted⟩

include keeps in
theorem sorted_mergeItems (sorted₁ : Sorted key₁ items₁) (sorted₂ : Sorted key₂ items₂) :
    Sorted key (mergeItems key₁ key₂ f items₁ items₂) := by
  fun_induction mergeItems key₁ key₂ f items₁ items₂ with
  | case1 => exact .nil
  | case2 y rest₂ ih =>
    obtain ⟨aboveY, sortedRest⟩ := List.pairwise_cons.mp sorted₂
    apply sorted_toList_append (ih sorted₁ sortedRest)
    intro a found b hb
    rw [keeps.right y a found]
    rcases key_of_mem_mergeItems keeps hb with ⟨x, hx, eq⟩ | ⟨z, hz, eq⟩
    · cases hx
    · exact eq ▸ aboveY z hz
  | case3 x rest₁ ih =>
    obtain ⟨aboveX, sortedRest⟩ := List.pairwise_cons.mp sorted₁
    apply sorted_toList_append (ih sortedRest sorted₂)
    intro a found b hb
    rw [keeps.left x _ a found]
    rcases key_of_mem_mergeItems keeps hb with ⟨z, hz, eq⟩ | ⟨y, hy, eq⟩
    · exact eq ▸ aboveX z hz
    · cases hy
  | case4 x rest₁ y rest₂ lt ih =>
    rw [compare_lt_iff_lt] at lt
    obtain ⟨aboveX, sortedRest⟩ := List.pairwise_cons.mp sorted₁
    have aboveY := (List.pairwise_cons.mp sorted₂).1
    apply sorted_toList_append (ih sortedRest sorted₂)
    intro a found b hb
    rw [keeps.left x _ a found]
    rcases key_of_mem_mergeItems keeps hb with ⟨z, hz, eq⟩ | ⟨z, hz, eq⟩
    · exact eq ▸ aboveX z hz
    · rcases List.mem_cons.mp hz with rfl | hz
      · exact eq ▸ lt
      · exact eq ▸ lt.trans (aboveY z hz)
  | case5 x rest₁ y rest₂ eq ih =>
    rw [compare_eq_iff_eq] at eq
    obtain ⟨aboveX, sortedRest₁⟩ := List.pairwise_cons.mp sorted₁
    obtain ⟨aboveY, sortedRest₂⟩ := List.pairwise_cons.mp sorted₂
    apply sorted_toList_append (ih sortedRest₁ sortedRest₂)
    intro a found b hb
    rw [keeps.left x _ a found]
    rcases key_of_mem_mergeItems keeps hb with ⟨z, hz, same⟩ | ⟨z, hz, same⟩
    · exact same ▸ aboveX z hz
    · exact same ▸ eq ▸ aboveY z hz
  | case6 x rest₁ y rest₂ gt ih =>
    rw [compare_gt_iff_gt] at gt
    obtain ⟨aboveY, sortedRest⟩ := List.pairwise_cons.mp sorted₂
    have aboveX := (List.pairwise_cons.mp sorted₁).1
    apply sorted_toList_append (ih sorted₁ sortedRest)
    intro a found b hb
    rw [keeps.right y a found]
    rcases key_of_mem_mergeItems keeps hb with ⟨z, hz, eq⟩ | ⟨z, hz, eq⟩
    · rcases List.mem_cons.mp hz with rfl | hz
      · exact eq ▸ gt
      · exact eq ▸ lt_trans gt (aboveX z hz)
    · exact eq ▸ aboveY z hz

end Merge

section Bindings

variable {K V V₁ V₂ : Type}

theorem keepsKey_union (mergeFn : K → V → V → V) :
    KeepsKey Prod.fst Prod.fst (Option.merge fun x y : K × V => (x.1, mergeFn x.1 x.2 y.2))
      (Prod.fst : K × V → K) where
  left := by
    rintro x (_ | y) a ⟨⟩
    · rfl
    · rfl
  right := by
    rintro y a ⟨⟩
    rfl
  none := rfl

theorem keepsKey_intersect (mergeFn : K → V₁ → V₂ → V) :
    KeepsKey Prod.fst Prod.fst
      (Option.map₂ fun (x : K × V₁) (y : K × V₂) => (x.1, mergeFn x.1 x.2 y.2))
      (Prod.fst : K × V → K) where
  left := by
    rintro x (_ | y) a eq
    · cases eq
    · cases eq
      rfl
  right := by
    rintro y a eq
    cases eq
  none := rfl

def kept (f : K → Option V₁ → Option V₂ → Option V) :
    Option (K × V₁) → Option (K × V₂) → Option (K × V)
  | some (k, v₁), y => (f k (some v₁) (y.map Prod.snd)).map (k, ·)
  | none, some (k, v₂) => (f k none (some v₂)).map (k, ·)
  | none, none => none

theorem keepsKey_kept (f : K → Option V₁ → Option V₂ → Option V) :
    KeepsKey Prod.fst Prod.fst (kept f) (Prod.fst : K × V → K) where
  left := by
    rintro x o a eq
    obtain ⟨v, -, rfl⟩ := Option.map_eq_some_iff.mp eq
    rfl
  right := by
    rintro y a eq
    obtain ⟨v, -, rfl⟩ := Option.map_eq_some_iff.mp eq
    rfl
  none := rfl

end Bindings

end SortedKeys
