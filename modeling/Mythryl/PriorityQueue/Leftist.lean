import Mythryl.PriorityQueue.Heap

/-!
# Priority queues in a tree

`leftist_tree_priority_queue`, and what both packages have in common.
-/

namespace Mythryl.PriorityQueue
open RaisingState

inductive Leftist (X : Type)
  | node (x : X) (d : Int) (l r : Leftist X)
  | empty

namespace Leftist

variable {X : Type} (less : X → X → Bool)

def dist : Leftist X → Int
  | .empty => 0
  | .node _ d _ _ => d

/-- The taller tree goes to the left. -/
def rooted (root : X) (l r : Leftist X) : Leftist X :=
  let dL := dist l
  let dR := dist r
  let (l, r) := if dL ≥ dR then (l, r) else (r, l)
  .node root (1 + max dL dR) l r

def mergeTrees : Leftist X → Leftist X → Leftist X
  | .empty, a => a
  | a, .empty => a
  | .node x d l r, .node y d' l' r' =>
      if less x y then rooted x l (mergeTrees r (.node y d' l' r'))
      else rooted y l' (mergeTrees r' (.node x d l r))
termination_by a b => sizeOf a + sizeOf b

def min : Raising Raised (Leftist X) X := do
  match ← get with
  | .node x _ _ _ => pure x
  | .empty => throw .emptyPriorityQueue

def clear : Raising Raised (Leftist X) Unit := modify fun _ => .empty

def deleteMin : Raising Raised (Leftist X) X := do
  match ← get with
  | .node x _ l r =>
      modify fun _ => mergeTrees less l r
      pure x
  | .empty => throw .emptyPriorityQueue

def mergeElems : Leftist X → List X → Leftist X
  | q, [] => q
  | q, e :: es => mergeElems (mergeTrees less q (.node e 1 .empty .empty)) es

def set (x : X) : Raising Raised (Leftist X) Unit :=
  modify fun t => mergeTrees less t (.node x 1 .empty .empty)

def fromList (list : List X) : Raising Raised (Leftist X) Unit :=
  modify fun _ => mergeElems less .empty list

def collect : Leftist X → List X → List X
  | .empty, e => e
  | .node x _ l r, e => collect l (collect r (x :: e))

def toList (t : Leftist X) : List X := collect t []

def perform : Operation X → Raising Raised (Leftist X) (Option X)
  | .set x => do
      set less x
      pure none
  | .min => do pure (some (← min))
  | .deleteMin => do pure (some (← deleteMin less))
  | .clear => do
      clear
      pure none
  | .fromList data => do
      fromList less data
      pure none

def items (t : Leftist X) : Multiset X := toList t

def HeapOrdered : Leftist X → Prop
  | .empty => True
  | .node x _ l r => Least less (items l) x ∧ Least less (items r) x ∧ HeapOrdered l ∧ HeapOrdered r

def implementation : Implementation X where
  State := Leftist X
  perform := perform less
  items := items
  HeapOrdered := HeapOrdered less
  Fits _ _ := True

section Trees

variable {less} {a b l r : Leftist X} {x y : X} {d : Int}

theorem collect_eq (t : Leftist X) (e : List X) : (collect t e : Multiset X) = items t + e := by
  induction t generalizing e with
  | empty => rfl
  | node x d l r ihL ihR =>
    simp only [items, toList, collect]
    rw [ihL, ihL, ihR, ihR, Multiset.add_assoc, Multiset.add_assoc, Multiset.coe_add]
    rfl

@[simp] theorem items_empty : items (.empty : Leftist X) = 0 := rfl

@[simp] theorem items_node : items (.node x d l r) = x ::ₘ (items l + items r) := by
  have whole : items (.node x d l r) = (collect l (collect r [x]) : Multiset X) := rfl
  rw [whole, collect_eq, collect_eq, Multiset.coe_singleton, ← Multiset.add_assoc,
    Multiset.add_comm, Multiset.singleton_add]

theorem least_add {s s' : Multiset X} :
    Least less (s + s') x ↔ Least less s x ∧ Least less s' x := by
  simp [Least, or_imp, forall_and]

theorem rooted_items : items (rooted x l r) = x ::ₘ (items l + items r) := by
  by_cases taller : dist l ≥ dist r
  · simp [rooted, taller]
  · simp [rooted, taller, Multiset.add_comm]

theorem rooted_ordered (least : Least less (items l) x) (least' : Least less (items r) x)
    (left : HeapOrdered less l) (right : HeapOrdered less r) : HeapOrdered less (rooted x l r) := by
  by_cases taller : dist l ≥ dist r
  · simpa [rooted, taller] using ⟨least, least', left, right⟩
  · simpa [rooted, taller] using ⟨least', least, right, left⟩

theorem mergeTrees_items (a b : Leftist X) : items (mergeTrees less a b) = items a + items b := by
  fun_induction mergeTrees less a b with
  | case1 a => simp
  | case2 a => simp
  | case3 x d l r y d' l' r' lower ih =>
    rw [rooted_items, ih, items_node (d := d), Multiset.cons_add, Multiset.add_assoc]
  | case4 x d l r y d' l' r' lower ih =>
    rw [rooted_items, ih, Multiset.add_comm (items (.node x d l r)), @items_node _ l' r' y,
      Multiset.cons_add, Multiset.add_assoc]

variable {M : Type} [LinearOrder M] {rank : X → M}
  (decides : ∀ x y, less x y = decide (rank x < rank y))
include decides

theorem least_of_root (lower : rank x ≤ rank y) (ordered : HeapOrdered less (.node y d l r)) :
    Least less (items (.node y d l r)) x := by
  have below (z : X) : less z x = false ↔ rank x ≤ rank z := by simp [decides]
  have above (z : X) : less z y = false ↔ rank y ≤ rank z := by simp [decides]
  simp only [HeapOrdered, Least, above] at ordered
  simp only [items_node, Least, Multiset.mem_cons, Multiset.mem_add, below]
  rintro z (rfl | mem | mem)
  · exact lower
  · exact lower.trans (ordered.1 z mem)
  · exact lower.trans (ordered.2.1 z mem)

theorem mergeTrees_ordered (a b : Leftist X) (left : HeapOrdered less a)
    (right : HeapOrdered less b) : HeapOrdered less (mergeTrees less a b) := by
  fun_induction mergeTrees less a b with
  | case1 a => exact right
  | case2 a => exact left
  | case3 x d l r y d' l' r' lower ih =>
    have lower : rank x < rank y := by simpa [decides] using lower
    apply rooted_ordered left.1 _ left.2.2.1 (ih left.2.2.2 right)
    rw [mergeTrees_items, least_add]
    exact ⟨left.2.1, least_of_root decides lower.le right⟩
  | case4 x d l r y d' l' r' lower ih =>
    have lower : rank y ≤ rank x := by simpa [decides] using lower
    apply rooted_ordered right.1 _ right.2.2.1 (ih right.2.2.2 left)
    rw [mergeTrees_items, least_add]
    exact ⟨right.2.1, least_of_root decides lower left⟩

theorem mergeElems_spec (q : Leftist X) (es : List X) (ordered : HeapOrdered less q) :
    items (mergeElems less q es) = items q + es ∧ HeapOrdered less (mergeElems less q es) := by
  induction es generalizing q with
  | nil => simpa [mergeElems] using ordered
  | cons e es ih =>
    have single : HeapOrdered less (.node e 1 .empty .empty) := by simp [HeapOrdered, Least]
    obtain ⟨items', ordered'⟩ := ih _ (mergeTrees_ordered decides q _ ordered single)
    refine ⟨?_, ordered'⟩
    rw [mergeElems, items', mergeTrees_items, Multiset.add_assoc]
    simp

theorem perform_spec (op : Operation X) (t : Leftist X) (ordered : HeapOrdered less t) :
    Performs less (items t) (outcome (perform less op) t).1
      (items (outcome (perform less op) t).2) op ∧
        HeapOrdered less (outcome (perform less op) t).2 := by
  have least {x : X} {d : Int} {l r : Leftist X} (ordered : HeapOrdered less (.node x d l r)) :=
    least_of_root decides le_rfl ordered
  cases op with
  | set x =>
    have single : HeapOrdered less (.node x 1 .empty .empty) := by simp [HeapOrdered, Least]
    refine ⟨⟨rfl, ?_⟩, mergeTrees_ordered decides t _ ordered single⟩
    refine (mergeTrees_items t _).trans ?_
    rw [Multiset.add_comm]
    simp
  | min =>
    cases t with
    | empty => exact ⟨⟨rfl, .inl ⟨rfl, rfl⟩⟩, ordered⟩
    | node x d l r => exact ⟨⟨rfl, .inr ⟨x, by simp, least ordered, rfl⟩⟩, ordered⟩
  | deleteMin =>
    cases t with
    | empty => exact ⟨.inl ⟨rfl, rfl, rfl⟩, ordered⟩
    | node x d l r =>
      refine ⟨.inr ⟨x, ?_, least ordered, rfl⟩, mergeTrees_ordered decides l r ordered.2.2.1
        ordered.2.2.2⟩
      exact items_node.trans (congrArg (x ::ₘ ·) (mergeTrees_items l r).symm)
  | clear => exact ⟨⟨rfl, rfl⟩, trivial⟩
  | fromList data =>
    obtain ⟨items', ordered'⟩ := mergeElems_spec decides .empty data trivial
    exact ⟨⟨rfl, items'.trans (Multiset.zero_add _)⟩, ordered'⟩

end Trees

/-! How long a merge is. -/

/-- The calls of `mergeTrees` that meet two nodes. -/
def mergeSteps : Leftist X → Leftist X → Nat
  | .empty, _ => 0
  | _, .empty => 0
  | .node x d l r, .node y d' l' r' =>
      if less x y then mergeSteps r (.node y d' l' r') + 1
      else mergeSteps r' (.node x d l r) + 1
termination_by a b => sizeOf a + sizeOf b

/-- How many nodes there are on the way to the right. -/
@[grind =] def spine : Leftist X → Nat
  | .empty => 0
  | .node _ _ _ r => spine r + 1

/-- `dist` is the height, and the right subtree is never the taller one. -/
@[grind =] def Leaning : Leftist X → Prop
  | .empty => True
  | .node _ d l r => d = 1 + max (dist l) (dist r) ∧ dist r ≤ dist l ∧ Leaning l ∧ Leaning r

section Spines

variable {less} {l r t : Leftist X} {x : X}

theorem mergeSteps_le (a b : Leftist X) : mergeSteps less a b ≤ spine a + spine b := by
  fun_induction mergeSteps less a b with
  | case1 b => exact Nat.zero_le _
  | case2 a => exact Nat.zero_le _
  | case3 x d l r y d' l' r' lower ih =>
    simp only [spine] at ih ⊢
    omega
  | case4 x d l r y d' l' r' lower ih =>
    simp only [spine] at ih ⊢
    omega

theorem Leaning.rooted (left : Leaning l) (right : Leaning r) : Leaning (rooted x l r) := by
  by_cases taller : dist l ≥ dist r
  · simpa [Leftist.rooted, taller, Leaning] using ⟨left, right⟩
  · simpa [Leftist.rooted, taller, Leaning, max_comm] using ⟨by omega, right, left⟩

theorem Leaning.mergeTrees (a b : Leftist X) (left : Leaning a) (right : Leaning b) :
    Leaning (mergeTrees less a b) := by
  fun_induction Leftist.mergeTrees less a b with
  | case1 a => exact right
  | case2 a => exact left
  | case3 x d l r y d' l' r' lower ih => exact .rooted left.2.2.1 (ih left.2.2.2 right)
  | case4 x d l r y d' l' r' lower ih => exact .rooted right.2.2.1 (ih right.2.2.2 left)

theorem Leaning.perform (op : Operation X) (leaning : Leaning t) :
    Leaning (outcome (perform less op) t).2 := by
  have single (e : X) : Leaning (.node e 1 .empty .empty) := by simp [Leaning, dist]
  cases op with
  | set x => exact .mergeTrees _ _ leaning (single x)
  | min => cases t <;> exact leaning
  | deleteMin =>
    cases t with
    | empty => exact leaning
    | node x d l r => exact .mergeTrees l r leaning.2.2.1 leaning.2.2.2
  | clear => trivial
  | fromList data =>
    have elems (q : Leftist X) (whole : Leaning q) : Leaning (mergeElems less q data) := by
      induction data generalizing q with
      | nil => exact whole
      | cons e es ih => exact ih _ (.mergeTrees _ _ whole (single e))
    exact elems .empty trivial

theorem Leaning.height (leaning : Leaning t) :
    (spine t : Int) ≤ dist t ∧ dist t ≤ (items t).card := by
  induction t with
  | empty => simp [spine, dist]
  | node x d l r ihL ihR =>
    obtain ⟨rfl, le, left, right⟩ := leaning
    have := ihL left
    have := ihR right
    rw [items_node, Multiset.card_cons, Multiset.card_add, spine, dist]
    omega

/-- At each node on the way, the left subtree is as tall as the rest of the way is long. -/
theorem Leaning.spine_le (leaning : Leaning t) : spine t * (spine t + 1) ≤ 2 * (items t).card := by
  induction t with
  | empty => simp [spine]
  | node x d l r ihL ihR =>
    obtain ⟨-, le, left, right⟩ := leaning
    have below : spine r ≤ (items l).card := by
      have := left.height
      have := right.height
      omega
    rw [items_node, Multiset.card_cons, Multiset.card_add, spine]
    grind

theorem mergeSteps_bound (less : X → X → Bool) (ops : List (Operation X)) :
    let t := ops.foldl (fun t op => (outcome (perform less op) t).2) empty
    spine t * (spine t + 1) ≤ 2 * (items t).card ∧
      ∀ t', mergeSteps less t t' ≤ spine t + spine t' := by
  have leaning : ∀ t, Leaning t →
      Leaning (ops.foldl (fun t op => (outcome (perform less op) t).2) t) := by
    induction ops with
    | nil => exact fun t => id
    | cons op ops ih => exact fun t leaning => ih _ (leaning.perform op)
  exact ⟨(leaning .empty trivial).spine_le, mergeSteps_le _⟩

end Spines

end Leftist

variable {X : Type}

theorem refines_items (less : X → X → Bool) [IsStrictWeakOrder X fun x y => less x y] (n : Nat)
    (dummy : X) (ops : List (Operation X)) :
    (HeapPriorityQueue.implementation less).Refines less
        (HeapPriorityQueue.makePriorityQueue' n dummy) ops ∧
      (Leftist.implementation less).Refines less Leftist.empty ops := by
  obtain ⟨M, order, rank, decides⟩ := exists_rank less
  constructor
  · apply Implementation.refines fun q op => HeapPriorityQueue.perform_spec decides op
    exact ⟨Nat.zero_le _, fun i x y pos inside => absurd inside (Nat.not_lt_zero i)⟩
  · apply Implementation.refines fun t op ordered _ => Leftist.perform_spec decides op t ordered
    trivial

/-- Each queue sorts what it holds. -/
theorem queues_drain (less : X → X → Bool) [IsStrictWeakOrder X fun x y => less x y]
    (q : HeapPriorityQueue X) (t : Leftist X) (heap : HeapPriorityQueue.HeapOrdered less q)
    (tree : Leftist.HeapOrdered less t) : (HeapPriorityQueue.implementation less).Drains less q ∧
      (Leftist.implementation less).Drains less t := by
  obtain ⟨M, order, rank, decides⟩ := exists_rank less
  constructor
  · refine Implementation.drains (Q := HeapPriorityQueue.implementation less) ?_ q heap
    exact fun q ordered => HeapPriorityQueue.perform_spec decides .deleteMin ordered trivial
  · refine Implementation.drains (Q := Leftist.implementation less) ?_ t tree
    exact fun t => Leftist.perform_spec decides .deleteMin t

theorem queues_drain_seven :
    (HeapPriorityQueue.implementation fun x y : Nat => x < y).Drains (fun x y => x < y) ⟨[7], 1⟩ ∧
      (Leftist.implementation fun x y : Nat => x < y).Drains (fun x y => x < y)
        (.node 7 1 .empty .empty) := by
  have order : IsStrictWeakOrder Nat fun x y => decide (x < y) = true := by
    simpa using (isStrictWeakOrder_of_isOrderConnected : IsStrictWeakOrder Nat (· < ·))
  apply queues_drain
  · exact ⟨le_rfl, fun i x y pos inside => absurd inside (Nat.not_lt.mpr pos)⟩
  · simp [Leftist.HeapOrdered, Least]

theorem refines_items_four : (HeapPriorityQueue.implementation fun x y : Nat => x < y).Refines
    (fun x y => x < y) (HeapPriorityQueue.makePriorityQueue' 4 0) [.set 2, .set 1, .deleteMin] := by
  have order : IsStrictWeakOrder Nat fun x y => decide (x < y) = true := {
    irrefl := by simp
    trans := by simpa using fun x y z => lt_trans
    incomp_trans := by
      simp only [decide_eq_true_iff, not_lt]
      exact fun a b c ab bc => ⟨bc.1.trans ab.1, ab.2.trans bc.2⟩ }
  exact (refines_items (fun x y : Nat => x < y) 4 0 [.set 2, .set 1, .deleteMin]).1

end Mythryl.PriorityQueue
