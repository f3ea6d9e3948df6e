import Mythryl.BinaryHeap
import Mythryl.PriorityQueue
import Mathlib.Order.WithBot

/-!
# Priority queues in an array

`heap_priority_queue`: a binary heap in the first places of an array.
-/

namespace Mythryl.PriorityQueue
open RaisingState BinaryHeap

structure HeapPriorityQueue (X : Type) where
  heap : List X
  size : Nat

namespace HeapPriorityQueue

variable {X : Type} (less : X → X → Bool)

def makePriorityQueue' (n : Nat) (dummy : X) : HeapPriorityQueue X :=
  { heap := List.replicate n dummy, size := 0 }

def get (i : Nat) : Raising Raised (HeapPriorityQueue X) X := do
  match (← MonadState.get).heap[i]? with
  | some x => pure x
  | none => throw .indexOutOfBounds

def put (i : Nat) (x : X) : Raising Raised (HeapPriorityQueue X) Unit := do
  if i < (← MonadState.get).heap.length then modify fun q => { q with heap := q.heap.set i x }
  else throw .indexOutOfBounds

def resize (size : Nat) : Raising Raised (HeapPriorityQueue X) Unit :=
  modify fun q => { q with size }

def clear : Raising Raised (HeapPriorityQueue X) Unit := resize 0

def min : Raising Raised (HeapPriorityQueue X) X := do
  if (← MonadState.get).size = 0 then throw .emptyPriorityQueue
  get 0

def siftup (x : X) (i : Nat) : Raising Raised (HeapPriorityQueue X) Nat := do
  if i = 0 then pure 0
  else
    let j := (i - 1) / 2
    let y ← get j
    if less x y then
      put i y
      siftup x j
    else pure i
termination_by i
decreasing_by omega

def set (x : X) : Raising Raised (HeapPriorityQueue X) Unit := do
  let n := (← MonadState.get).size
  resize (n + 1)
  put (← siftup less x n) x

def siftdown (n : Nat) (x : X) (i : Nat) : Raising Raised (HeapPriorityQueue X) Nat := do
  let j := i + i + 1
  let k := j + 1
  if j ≥ n then pure i
  else
    let y ← get j
    if k ≥ n then
      if less y x then
        put i y
        siftdown n x j
      else pure i
    else
      let z ← get k
      if less y x then
        if less z y then
          put i z
          siftdown n x k
        else
          put i y
          siftdown n x j
      else if less z x then
        put i z
        siftdown n x k
      else pure i
termination_by n - i
decreasing_by all_goals omega

def siftDown (n i : Nat) (x : X) : Raising Raised (HeapPriorityQueue X) Nat := do
  let posX ← siftdown less n x i
  put posX x
  pure posX

def deleteMin : Raising Raised (HeapPriorityQueue X) X := do
  let size := (← MonadState.get).size
  if size = 0 then throw .emptyPriorityQueue
  let n := size - 1
  let min ← get 0
  let x ← get n
  let _ ← siftDown less n 0 x
  resize n
  pure min

/-- `make_heap` for the places below the argument, in descending order. -/
def makeHeap (n : Nat) : Nat → Raising Raised (HeapPriorityQueue X) Unit
  | 0 => pure ()
  | i + 1 => do
      let x ← get i
      let _ ← siftDown less n i x
      makeHeap n i

def fromList (data : List X) : Raising Raised (HeapPriorityQueue X) Unit := do
  modify fun _ => { heap := data, size := 0 }
  let n := data.length
  if n ≥ 2 then makeHeap less n ((n + 1) / 2 + 1)
  resize n

def perform : Operation X → Raising Raised (HeapPriorityQueue X) (Option X)
  | .set x => do
      set less x
      pure none
  | .min => do pure (some (← min))
  | .deleteMin => do pure (some (← deleteMin less))
  | .clear => do
      clear
      pure none
  | .fromList data => do
      fromList less data
      pure none

def items (q : HeapPriorityQueue X) : Multiset X := q.heap.take q.size

structure HeapOrdered (q : HeapPriorityQueue X) : Prop where
  fits : q.size ≤ q.heap.length
  ordered : ∀ i x y, 0 < i → i < q.size → q.heap[i]? = some x → q.heap[parent i]? = some y →
    less x y = false

def implementation : Implementation X where
  State := HeapPriorityQueue X
  perform := perform less
  items := items
  HeapOrdered := HeapOrdered less
  Fits
    | q, .set _ => q.size < q.heap.length
    | _, _ => True

section Moves

variable {q : HeapPriorityQueue X} {l : List X} {i j n : Nat} {x y : X}

theorem get_ok (at_i : q.heap[i]? = some x) : outcome (get i) q = (.ok x, q) := by
  rw [get, outcome_bind_ok (outcome_get q), at_i]
  rfl

theorem put_ok (inside : i < q.heap.length) :
    outcome (put i x) q = (.ok (), { q with heap := q.heap.set i x }) := by
  rw [put, outcome_bind_ok (outcome_get q), if_pos inside]
  rfl

theorem resize_ok (n : Nat) (q : HeapPriorityQueue X) :
    outcome (resize n) q = (.ok (), { q with size := n }) := rfl

theorem put_raises (outside : q.heap.length ≤ i) :
    outcome (put i x) q = (.error .indexOutOfBounds, q) := by
  rw [put, outcome_bind_ok (outcome_get q), if_neg (not_lt.mpr outside)]
  rfl

variable {M : Type} {rank : X → M} {less : X → X → Bool} {m k : Nat} {l' : List X}

def ranks (rank : X → M) (m : Nat) (l : List X) (k : Nat) : WithBot M :=
  if k < m then ⊥ else (l[k]?).elim ⊥ fun x => rank x

theorem ranks_at (inside : m ≤ k) (at_k : l[k]? = some x) : ranks rank m l k = rank x := by
  simp [ranks, not_lt.mpr inside, at_k]

theorem ranks_congr (same : l'[k]? = l[k]?) : ranks rank m l' k = ranks rank m l k := by
  simp [ranks, same]

theorem ranks_moved (left : m ≤ i) (right : m ≤ j) (fits : i < l.length) (other : j ≠ i)
    (at_j : l[j]? = some y) :
    ranks rank m ((l.set i y).set j x) = swapped (ranks rank m (l.set i x)) i j := by
  have inside : j < l.length := (List.getElem?_eq_some_iff.mp at_j).1
  funext k
  by_cases isI : k = i
  · rw [isI, swapped_left, ranks_at left, ranks_at right]
    · rw [List.getElem?_set_ne other.symm]
      exact at_j
    · rw [List.getElem?_set_ne other, List.getElem?_set_self fits]
  by_cases isJ : k = j
  · rw [isJ, swapped_right, ranks_at right, ranks_at left]
    · exact List.getElem?_set_self fits
    · exact List.getElem?_set_self (by simpa using inside)
  · rw [swapped_of_ne isI isJ]
    apply ranks_congr
    rw [List.getElem?_set_ne (Ne.symm isJ), List.getElem?_set_ne (Ne.symm isI),
      List.getElem?_set_ne (Ne.symm isI)]

variable [LinearOrder M]

structure Settled (rank : X → M) (m n : Nat) (l l' : List X) : Prop where
  length : l'.length = l.length
  perm : (l'.take n).Perm (l.take n)
  ordered : Ordered (ranks rank m l') n

theorem Settled.moved (left : i < n) (right : j < n) (fits : n ≤ l.length) (other : j ≠ i)
    (at_j : l[j]? = some y) (settled : Settled rank m n ((l.set i y).set j x) l') :
    Settled rank m n (l.set i x) l' := by
  have swap : (((l.set i y).set j x).take n).Perm ((l.set i x).take n) := by
    have inside : i < ((l.take n).set i x).length := by simpa using ⟨left, left.trans_le fits⟩
    have inside' : j < ((l.take n).set i x).length := by simpa using ⟨right, right.trans_le fits⟩
    have found : l[j] = y := (List.getElem?_eq_some_iff.mp at_j).2
    have perm := List.set_set_perm inside inside'
    simpa [List.take_set, List.getElem_set_ne other.symm, found] using perm
  constructor
  · simpa using settled.length
  · exact settled.perm.trans swap
  · exact settled.ordered

theorem getElem?_of_lt (inside : k < l.length) : ∃ x, l[k]? = some x :=
  ⟨_, List.getElem?_eq_getElem inside⟩

def Descends (less : X → X → Bool) (rank : X → M) (q : HeapPriorityQueue X) (n i : Nat) (x : X) :
    Prop :=
  ∃ c y, Child i c ∧ c < n ∧ q.heap[c]? = some y ∧ rank y < rank x ∧
    (∀ c' z, Child i c' → c' < n → q.heap[c']? = some z → rank y ≤ rank z) ∧
    outcome (siftdown less n x i) q =
      outcome (siftdown less n x c) { q with heap := q.heap.set i y }

variable (decides : ∀ x y, less x y = decide (rank x < rank y))
include decides

theorem siftup_spec (here : i < n) (fits : n ≤ q.heap.length)
    (order : UpOrder (ranks rank 0 (q.heap.set i x)) n i) :
    ∃ j l, outcome (siftup less x i) q = (.ok j, { q with heap := l }) ∧ j < n ∧
      Settled rank 0 n (q.heap.set i x) (l.set j x) := by
  induction i using Nat.strongRecOn generalizing q with
  | ind i ih =>
    rw [siftup]
    by_cases root : i = 0
    · rw [if_pos root]
      refine ⟨i, q.heap, by rw [root]; rfl, here, rfl, .refl _, order.ordered ?_⟩
      exact fun pos => absurd root pos.ne'
    have pos : 0 < i := Nat.pos_of_ne_zero root
    have lower : parent i < i := parent_lt pos
    have inside := here.trans_le fits
    obtain ⟨y, at_y⟩ := getElem?_of_lt (lower.trans inside)
    have above : ranks rank 0 (q.heap.set i x) (parent i) = rank y := by
      apply ranks_at (Nat.zero_le _)
      rwa [List.getElem?_set_ne lower.ne']
    have self : ranks rank 0 (q.heap.set i x) i = rank x :=
      ranks_at (Nat.zero_le _) (List.getElem?_set_self inside)
    rw [if_neg root]
    have fetch : outcome (get ((i - 1) / 2)) q = (.ok y, q) := get_ok at_y
    simp only [outcome_bind_ok fetch, decides x y, decide_eq_true_iff]
    split
    · next less' =>
        have step := order.step pos here (by rw [above, self]; exact_mod_cast less')
        rw [← ranks_moved (Nat.zero_le _) (Nat.zero_le _) inside lower.ne at_y] at step
        obtain ⟨j, l, sifts, jLt, settled⟩ := @ih _ lower { q with heap := q.heap.set i y }
          (lower.trans here) (by simpa using fits) step
        refine ⟨j, l, ?_, jLt, settled.moved here (lower.trans here) fits lower.ne at_y⟩
        rw [outcome_bind_ok (put_ok inside)]
        exact sifts
    · next less' =>
        refine ⟨i, q.heap, rfl, here, rfl, .refl _, order.ordered fun _ => ?_⟩
        rw [above, self]
        exact_mod_cast not_lt.mp less'

theorem siftdown_cases (here : i < n) (fits : n ≤ q.heap.length) :
    (outcome (siftdown less n x i) q = (.ok i, q) ∧
      ∀ c z, Child i c → c < n → q.heap[c]? = some z → rank x ≤ rank z) ∨
    Descends less rank q n i x := by
  have child (c : Nat) : Child i c ↔ c = i + i + 1 ∨ c = i + i + 1 + 1 := by
    rw [child_iff]
    omega
  have goes (y : X) (c : Nat) :
      outcome (do put i y; siftdown less n x c) q =
        outcome (siftdown less n x c) { q with heap := q.heap.set i y } :=
    outcome_bind_ok (put_ok (here.trans_le fits))
  unfold Descends
  rw [siftdown]
  by_cases none : i + i + 1 ≥ n
  · rw [if_pos none]
    refine .inl ⟨rfl, fun c z isChild lower => ?_⟩
    rcases (child c).mp isChild with rfl | rfl <;> omega
  obtain ⟨y, at_y⟩ := getElem?_of_lt ((not_le.mp none).trans_le fits)
  simp only [if_neg none, outcome_bind_ok (get_ok at_y), decides, decide_eq_true_iff]
  by_cases single : i + i + 1 + 1 ≥ n
  · have only (c : Nat) (z : X) (isChild : Child i c) (lower : c < n) (at_z : q.heap[c]? = some z) :
        c = i + i + 1 ∧ z = y := by
      rcases (child c).mp isChild with rfl | rfl
      · exact ⟨rfl, Option.some.inj (at_z.symm.trans at_y)⟩
      · omega
    rw [if_pos single]
    split
    · next lower =>
        refine .inr ⟨_, y, (child _).mpr (.inl rfl), not_le.mp none, at_y, lower, ?_, goes _ _⟩
        exact fun c z isChild inside at_z => (only c z isChild inside at_z).2 ▸ le_rfl
    · next lower =>
        refine .inl ⟨rfl, fun c z isChild inside at_z => ?_⟩
        exact (only c z isChild inside at_z).2 ▸ not_lt.mp lower
  obtain ⟨z, at_z⟩ := getElem?_of_lt ((not_le.mp single).trans_le fits)
  have both {r : M} (first : r ≤ rank y) (second : r ≤ rank z) (c : Nat) (z' : X)
      (isChild : Child i c) (_ : c < n) (found : q.heap[c]? = some z') : r ≤ rank z' := by
    rcases (child c).mp isChild with rfl | rfl
    · exact Option.some.inj (at_y.symm.trans found) ▸ first
    · exact Option.some.inj (at_z.symm.trans found) ▸ second
  simp only [if_neg single, outcome_bind_ok (get_ok at_z)]
  have first : Child i (i + i + 1) := (child _).mpr (.inl rfl)
  have second : Child i (i + i + 1 + 1) := (child _).mpr (.inr rfl)
  by_cases lowerY : rank y < rank x
  · rw [if_pos lowerY]
    by_cases lowerZ : rank z < rank y
    · rw [if_pos lowerZ]
      refine .inr ⟨_, z, second, not_le.mp single, at_z, lowerZ.trans lowerY, ?_, goes _ _⟩
      exact both lowerZ.le le_rfl
    · rw [if_neg lowerZ]
      refine .inr ⟨_, y, first, not_le.mp none, at_y, lowerY, ?_, goes _ _⟩
      exact both le_rfl (not_lt.mp lowerZ)
  · rw [if_neg lowerY]
    by_cases lowerZ : rank z < rank x
    · rw [if_pos lowerZ]
      refine .inr ⟨_, z, second, not_le.mp single, at_z, lowerZ, ?_, goes _ _⟩
      exact both (lowerZ.le.trans (not_lt.mp lowerY)) le_rfl
    · rw [if_neg lowerZ]
      exact .inl ⟨rfl, both (not_lt.mp lowerY) (not_lt.mp lowerZ)⟩

theorem siftdown_spec (below : m ≤ i) (here : i < n) (fits : n ≤ q.heap.length)
    (order : DownOrder (ranks rank m (q.heap.set i x)) n i) :
    ∃ j l, outcome (siftdown less n x i) q = (.ok j, { q with heap := l }) ∧ j < n ∧
      Settled rank m n (q.heap.set i x) (l.set j x) := by
  have self : ranks rank m (q.heap.set i x) i = rank x :=
    ranks_at below (List.getElem?_set_self (here.trans_le fits))
  have child {c : Nat} {z : X} (isChild : Child i c) (at_z : q.heap[c]? = some z) :
      ranks rank m (q.heap.set i x) c = rank z := by
    apply ranks_at (below.trans isChild.lt.le)
    rwa [List.getElem?_set_ne isChild.lt.ne]
  induction left : n - i using Nat.strongRecOn generalizing i q with
  | ind d ih =>
    rcases siftdown_cases decides here fits with
      ⟨stays, least⟩ | ⟨c, y, isChild, inside, at_y, lower, least, goes⟩
    · refine ⟨i, q.heap, stays, here, rfl, .refl _, order.ordered fun c isChild inside => ?_⟩
      obtain ⟨z, at_z⟩ := getElem?_of_lt (inside.trans_le fits)
      rw [self, child isChild at_z]
      exact_mod_cast least c z isChild inside at_z
    · have step := order.step isChild inside
        (by rw [child isChild at_y, self]; exact_mod_cast lower)
        fun c' isChild' inside' => by
          obtain ⟨z, at_z⟩ := getElem?_of_lt (inside'.trans_le fits)
          rw [child isChild at_y, child isChild' at_z]
          exact_mod_cast least c' z isChild' inside' at_z
      have later := below.trans isChild.lt.le
      rw [← ranks_moved below later (here.trans_le fits) isChild.lt.ne' at_y] at step
      have inside' : c < (q.heap.set i y).length := by simpa using inside.trans_le fits
      obtain ⟨j, l, sifts, jLt, settled⟩ := @ih (n - c) (by have := isChild.lt; omega)
        { q with heap := q.heap.set i y } c later inside (by simpa using fits) step
        (ranks_at later (List.getElem?_set_self inside'))
        (fun isChild' at_z => by
          apply ranks_at (later.trans isChild'.lt.le)
          rwa [List.getElem?_set_ne isChild'.lt.ne]) rfl
      exact ⟨j, l, goes.trans sifts, jLt, settled.moved here inside fits isChild.lt.ne' at_y⟩

theorem siftDown_spec (below : m ≤ i) (here : i < n) (fits : n ≤ q.heap.length)
    (order : DownOrder (ranks rank m (q.heap.set i x)) n i) :
    ∃ j l, outcome (siftDown less n i x) q = (.ok j, { q with heap := l }) ∧
      Settled rank m n (q.heap.set i x) l := by
  obtain ⟨j, l, sifts, jLt, settled⟩ := siftdown_spec decides below here fits order
  have length : l.length = q.heap.length := by simpa using settled.length
  have inside : j < l.length := length ▸ jLt.trans_le fits
  refine ⟨j, l.set j x, ?_, settled⟩
  rw [siftDown, outcome_bind_ok sifts, outcome_bind_ok (put_ok inside)]
  rfl

theorem makeHeap_spec (fits : n ≤ q.heap.length) (inside : i ≤ n)
    (ordered : Ordered (ranks rank i q.heap) n) :
    ∃ l, outcome (makeHeap less n i) q = (.ok (), { q with heap := l }) ∧
      Settled rank 0 n q.heap l := by
  induction i generalizing q with
  | zero => exact ⟨q.heap, rfl, rfl, .refl _, ordered⟩
  | succ i ih =>
    obtain ⟨x, at_x⟩ := getElem?_of_lt (inside.trans fits)
    have same : q.heap.set i x = q.heap := by
      rw [← (List.getElem?_eq_some_iff.mp at_x).2, List.set_getElem_self]
    have order : DownOrder (ranks rank i (q.heap.set i x)) n i := by
      rw [same]
      constructor
      · intro k pos less' other
        by_cases low : parent k < i
        · simp [ranks, low]
        · have upper := ordered k pos less'
          have low' : ¬parent k < i + 1 := by omega
          have := parent_lt pos
          simpa [ranks, low, low', show ¬k < i by omega, show ¬k < i + 1 by omega] using upper
      · intro pos c _ _
        simp [ranks, parent_lt pos]
    obtain ⟨j, l, sifts, length, perm, ordered'⟩ :=
      siftDown_spec decides le_rfl inside fits order
    rw [same] at length perm
    obtain ⟨l', makes, length', perm', settled⟩ :=
      @ih { q with heap := l } (length ▸ fits) (Nat.le_of_succ_le inside) ordered'
    refine ⟨l', ?_, length'.trans length, perm'.trans perm, settled⟩
    rw [makeHeap, outcome_bind_ok (get_ok at_x), outcome_bind_ok sifts]
    exact makes

theorem fromList_spec (data : List X) :
    ∃ l, outcome (fromList less data) q = (.ok (), ⟨l, data.length⟩) ∧
      Settled rank 0 data.length data l := by
  rw [fromList, outcome_bind_ok (outcome_modify _ q)]
  by_cases several : data.length ≥ 2
  · have leaves : Ordered (ranks rank ((data.length + 1) / 2 + 1) data) data.length := by
      intro k pos inside
      have low : parent k < (data.length + 1) / 2 + 1 := by
        unfold parent
        omega
      simp [ranks, low]
    have inside : (data.length + 1) / 2 + 1 ≤ data.length := by omega
    obtain ⟨l, makes, settled⟩ := @makeHeap_spec X ⟨data, 0⟩ _ _ M rank less _ decides le_rfl
      inside leaves
    refine ⟨l, ?_, settled⟩
    rw [if_pos several, outcome_bind_ok makes]
    rfl
  · refine ⟨data, by rw [if_neg several]; rfl, rfl, .refl _, fun k pos inside => ?_⟩
    omega

theorem set_spec (room : q.size < q.heap.length) (ordered : Ordered (ranks rank 0 q.heap) q.size) :
    ∃ l, outcome (set less x) q = (.ok (), ⟨l, q.size + 1⟩) ∧
      Settled rank 0 (q.size + 1) (q.heap.set q.size x) l := by
  have order : UpOrder (ranks rank 0 (q.heap.set q.size x)) (q.size + 1) q.size := by
    constructor
    · intro k pos inside other
      have lower := parent_lt pos
      have upper := ordered k pos (by omega)
      rwa [ranks_congr (List.getElem?_set_ne (by omega)),
        ranks_congr (List.getElem?_set_ne other.symm)]
    · intro pos c isChild inside
      have := isChild.lt
      omega
  obtain ⟨j, l, sifts, jLt, settled⟩ := @siftup_spec X { q with size := q.size + 1 } q.size
    (q.size + 1) x M rank less _ decides (Nat.lt_succ_self _) room order
  have length : l.length = q.heap.length := by simpa using settled.length
  have inside : j < l.length := by omega
  refine ⟨l.set j x, ?_, settled⟩
  rw [set, outcome_bind_ok (outcome_get q), outcome_bind_ok (resize_ok _ q), outcome_bind_ok sifts,
    put_ok inside]

theorem deleteMin_spec (size : q.size = n + 1) (fits : n + 1 ≤ q.heap.length)
    (ordered : Ordered (ranks rank 0 q.heap) (n + 1)) :
    ∃ y l, q.heap[0]? = some y ∧ outcome (deleteMin less) q = (.ok y, ⟨l, n⟩) ∧
      l.length = q.heap.length ∧ (q.heap.take (n + 1)).Perm (y :: l.take n) ∧
        Ordered (ranks rank 0 l) n := by
  obtain ⟨y, at_y⟩ := getElem?_of_lt ((Nat.succ_pos n).trans_le fits)
  obtain ⟨x, at_x⟩ := getElem?_of_lt (Nat.lt_of_succ_le fits)
  have sifts : ∃ j l, outcome (siftDown less n 0 x) q = (.ok j, { q with heap := l }) ∧
      Settled rank 0 n (q.heap.set 0 x) l := by
    by_cases empty : n = 0
    · subst empty
      refine ⟨0, q.heap.set 0 x, ?_, rfl, .refl _, fun k pos inside => absurd inside (by omega)⟩
      have stays : outcome (siftdown less 0 x 0) q = (.ok 0, q) := by
        rw [siftdown]
        rfl
      rw [siftDown, outcome_bind_ok stays, outcome_bind_ok (put_ok fits)]
      rfl
    · apply siftDown_spec decides le_rfl (Nat.pos_of_ne_zero empty) (Nat.le_of_succ_le fits)
      constructor
      · intro k pos inside other
        have upper := ordered k pos (by omega)
        rwa [ranks_congr (List.getElem?_set_ne (Ne.symm other)),
          ranks_congr (List.getElem?_set_ne pos.ne)]
      · exact fun pos => absurd pos (lt_irrefl 0)
  obtain ⟨j, l, sifts, length, perm, ordered'⟩ := sifts
  refine ⟨y, l, at_y, ?_, by simpa using length, ?_, ordered'⟩
  · rw [deleteMin, outcome_bind_ok (outcome_get q), size, if_neg (Nat.succ_ne_zero n)]
    simp only [Nat.add_sub_cancel]
    rw [outcome_bind_ok (get_ok at_y),
      outcome_bind_ok (get_ok at_x), outcome_bind_ok sifts, outcome_bind_ok (resize_ok _ _)]
    rfl
  · refine .trans ?_ (perm.symm.cons y)
    rw [List.take_add_one, at_x]
    cases n with
    | zero => simp [Option.some.inj (at_x.symm.trans at_y)]
    | succ n =>
      obtain ⟨heap, size'⟩ := q
      cases heap with
      | nil => cases at_y
      | cons y' rest =>
        cases at_y
        simp

omit decides in
theorem items_eq_zero (fits : q.size ≤ q.heap.length) : items q = 0 ↔ q.size = 0 := by
  rw [items, Multiset.coe_eq_zero, List.take_eq_nil_iff, ← List.length_eq_zero_iff]
  omega

theorem heapOrdered_iff : HeapOrdered less q ↔
    q.size ≤ q.heap.length ∧ Ordered (ranks rank 0 q.heap) q.size := by
  constructor
  · intro ordered
    refine ⟨ordered.fits, fun i pos inside => ?_⟩
    obtain ⟨x, at_x⟩ := getElem?_of_lt (inside.trans_le ordered.fits)
    obtain ⟨y, at_y⟩ := getElem?_of_lt ((parent_lt pos).trans (inside.trans_le ordered.fits))
    have upper := ordered.ordered i x y pos inside at_x at_y
    rw [decides, decide_eq_false_iff_not, not_lt] at upper
    rw [ranks_at (Nat.zero_le _) at_x, ranks_at (Nat.zero_le _) at_y]
    exact_mod_cast upper
  · rintro ⟨fits, ordered⟩
    refine ⟨fits, fun i x y pos inside at_x at_y => ?_⟩
    have upper := ordered i pos inside
    rw [ranks_at (Nat.zero_le _) at_x, ranks_at (Nat.zero_le _) at_y] at upper
    rw [decides, decide_eq_false_iff_not, not_lt]
    exact_mod_cast upper

theorem least_first (ordered : Ordered (ranks rank 0 q.heap) q.size) (at_y : q.heap[0]? = some y) :
    Least less (items q) y := by
  intro x mem
  obtain ⟨i, inside, rfl⟩ := List.mem_take_iff_getElem.mp (Multiset.mem_coe.mp mem)
  have lower := ordered.min (lt_of_lt_of_le inside (min_le_left _ _))
  rw [ranks_at (Nat.zero_le _) at_y, ranks_at (Nat.zero_le _) (List.getElem?_eq_getElem _)] at lower
  rw [decides, decide_eq_false_iff_not, not_lt]
  exact_mod_cast lower

theorem perform_spec (op : Operation X) (ordered : HeapOrdered less q)
    (fits : (implementation less).Fits q op) :
    Performs less (items q) (outcome (perform less op) q).1
      (items (outcome (perform less op) q).2) op ∧
        HeapOrdered less (outcome (perform less op) q).2 := by
  obtain ⟨inside, order⟩ := (heapOrdered_iff decides).mp ordered
  cases op with
  | set x =>
    obtain ⟨l, sets, settled⟩ := set_spec decides fits order
    rw [perform, outcome_bind_ok sets, heapOrdered_iff decides]
    have grown : l.length = q.heap.length := by simpa using settled.length
    refine ⟨⟨rfl, Multiset.coe_eq_coe.mpr (settled.perm.trans ?_)⟩, ?_, settled.ordered⟩
    · rw [List.take_add_one, List.getElem?_set_self fits, List.take_set_of_le le_rfl]
      exact List.perm_append_comm
    · exact grown ▸ Nat.succ_le_of_lt fits
  | min =>
    by_cases empty : q.size = 0
    · have run : outcome (perform less .min) q = (.error .emptyPriorityQueue, q) := by
        simp [perform, min, outcome_bind, empty]
      rw [run]
      exact ⟨⟨rfl, .inl ⟨(items_eq_zero inside).mpr empty, rfl⟩⟩, ordered⟩
    · obtain ⟨y, at_y⟩ := getElem?_of_lt ((Nat.pos_of_ne_zero empty).trans_le inside)
      have least : outcome min q = (.ok y, q) := by
        simp [min, outcome_bind, empty, get_ok at_y]
      rw [perform, outcome_bind_ok least]
      refine ⟨⟨rfl, .inr ⟨y, ?_, least_first decides order at_y, rfl⟩⟩, ordered⟩
      apply List.mem_of_getElem? (i := 0)
      rwa [List.getElem?_take_of_lt (Nat.pos_of_ne_zero empty)]
  | deleteMin =>
    cases size : q.size with
    | zero =>
      have run : outcome (perform less .deleteMin) q = (.error .emptyPriorityQueue, q) := by
        simp [perform, deleteMin, outcome_bind, size]
      have none := (items_eq_zero inside).mpr size
      rw [run]
      exact ⟨.inl ⟨none, none, rfl⟩, ordered⟩
    | succ n =>
      rw [size] at inside order
      obtain ⟨y, l, at_y, deletes, length, perm, order'⟩ :=
        deleteMin_spec decides size inside order
      rw [perform, outcome_bind_ok deletes, heapOrdered_iff decides, outcome_pure]
      refine ⟨.inr ⟨y, ?_, least_first decides (size ▸ order) at_y, rfl⟩, ?_, order'⟩
      · rw [items, size]
        exact Multiset.coe_eq_coe.mpr perm
      · exact length ▸ Nat.le_of_succ_le inside
  | clear =>
    rw [heapOrdered_iff decides]
    exact ⟨⟨rfl, rfl⟩, Nat.zero_le _, fun i pos inside => absurd inside (Nat.not_lt_zero i)⟩
  | fromList data =>
    obtain ⟨l, makes, settled⟩ := @fromList_spec X q M rank less _ decides data
    rw [perform, outcome_bind_ok makes, heapOrdered_iff decides]
    refine ⟨⟨rfl, Multiset.coe_eq_coe.mpr ?_⟩, settled.length.ge, settled.ordered⟩
    simpa using settled.perm

end Moves

def Keeps (q : HeapPriorityQueue X) (x : X) : Prop :=
  (∃ e, (outcome (set less x) q).1 = .error e) → (outcome (set less x) q).2.size = q.size ∧
    items (outcome (set less x) q).2 = items q

theorem set_full (q : HeapPriorityQueue X) (x : X) (full : q.size = q.heap.length) :
    outcome (set less x) q = (.error .indexOutOfBounds, { q with size := q.size + 1 }) := by
  have fails (y : X) : outcome (put q.size y) { q with size := q.size + 1 } =
      (.error .indexOutOfBounds, { q with size := q.size + 1 }) := put_raises full.ge
  rw [set, outcome_bind_ok (outcome_get q), outcome_bind_ok (resize_ok _ q), siftup]
  by_cases root : q.size = 0
  · rw [if_pos root, outcome_bind_ok (outcome_pure _ _), ← root]
    exact fails x
  · rw [if_neg root]
    obtain ⟨y, at_y⟩ := @getElem?_of_lt X q.heap ((q.size - 1) / 2) (by omega)
    have fetch : outcome (get ((q.size - 1) / 2)) { q with size := q.size + 1 } =
      (.ok y, { q with size := q.size + 1 }) := get_ok at_y
    rw [outcome_bind, outcome_bind_ok fetch]
    by_cases lower : less x y
    · rw [if_pos lower, outcome_bind, fails]
    · rw [if_neg lower, outcome_pure]
      exact fails x

theorem set_never_keeps (q : HeapPriorityQueue X) (x : X) (full : q.size = q.heap.length) :
    (∃ e, (outcome (set less x) q).1 = .error e) ∧ ¬Keeps less q x := by
  rw [Keeps, set_full less q x full]
  refine ⟨⟨_, rfl⟩, fun keeps => ?_⟩
  exact absurd (keeps ⟨_, rfl⟩).1 (Nat.succ_ne_self _)

theorem set_never_keeps_single : ¬Keeps (fun x y : Nat => x < y) ⟨[3], 1⟩ 5 :=
  (set_never_keeps _ ⟨[3], 1⟩ 5 rfl).2

theorem single_grows : ¬∀ (q : HeapPriorityQueue Nat) (x : Nat), q.size = q.heap.length →
    Keeps (fun x y => x < y) q x := by
  intro keep
  have run := set_full (fun x y : Nat => x < y) ⟨[3], 1⟩ 5 rfl
  have kept := keep ⟨[3], 1⟩ 5 rfl
  rw [Keeps, run] at kept
  exact absurd (kept ⟨_, rfl⟩).1 (by decide)

end HeapPriorityQueue

end Mythryl.PriorityQueue
