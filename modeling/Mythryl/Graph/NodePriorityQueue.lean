import Mythryl.BinaryHeap
import Mythryl.Graph.OopDigraph
import Mathlib.Data.Set.Basic

/-!
# Priority queues of nodes

`node_priority_queue_g`: a binary heap of nodes, with the place of each node beside it.
-/

namespace Mythryl.Graph.NodePriorityQueue

structure NodePriorityQueue where
  heap : RwVector Int
  pos : RwVector Nat
  size : Nat

abbrev Less := Int → Int → Except Raised Bool

def create (n : Int) : NodePriorityQueue where
  heap := RwVector.makeRwVector n 0
  pos := RwVector.makeRwVector n 0
  size := 0

def isEmpty (q : NodePriorityQueue) : Bool := q.size = 0

variable (less : Less)

def place (q : NodePriorityQueue) (i : Nat) (x : Int) : Except Raised NodePriorityQueue := do
  let heap ← q.heap.set i x
  let pos ← q.pos.set x i
  .ok { q with heap, pos }

def siftup (x : Int) (q : NodePriorityQueue) (i : Nat) :
    Except Raised (Nat × NodePriorityQueue) := do
  if i = 0 then .ok (0, q)
  else
    let j := (i - 1) / 2
    let y ← q.heap.get j
    if ← less x y then
      let q ← place q i y
      siftup x q j
    else .ok (i, q)
termination_by i
decreasing_by omega

def decreaseWeight (q : NodePriorityQueue) (x : Int) : Except Raised NodePriorityQueue := do
  let (xPos, q) ← siftup less x q (← q.pos.get x)
  place q xPos x

def set (q : NodePriorityQueue) (x : Int) : Except Raised NodePriorityQueue := do
  let q' ← place q q.size x
  decreaseWeight less { q' with size := q.size + 1 } x

def siftdown (n : Nat) (x : Int) (q : NodePriorityQueue) (i : Nat) :
    Except Raised (Nat × NodePriorityQueue) := do
  let j := i + i + 1
  let k := j + 1
  if j ≥ n then .ok (i, q)
  else
    let y ← q.heap.get j
    if k ≥ n then
      if ← less y x then siftdown n x (← place q i y) j
      else .ok (i, q)
    else
      let z ← q.heap.get k
      if ← less y x then
        if ← less z y then siftdown n x (← place q i z) k
        else siftdown n x (← place q i y) j
      else
        if ← less z x then siftdown n x (← place q i z) k
        else .ok (i, q)
termination_by n - i
decreasing_by all_goals omega

def deleteMin (q : NodePriorityQueue) : Except Raised (Int × NodePriorityQueue) := do
  if q.size = 0 then throw .emptyPriorityQueue
  let n := q.size - 1
  let min ← q.heap.get (0 : Nat)
  let x ← q.heap.get n
  let (xPos, q) ← siftdown less n x q 0
  let q ← place q xPos x
  .ok (min, { q with size := n })

def siftdownHeap (n : Nat) (x : Int) (heap : RwVector Int) (i : Nat) :
    Except Raised (RwVector Int) := do
  let j := i * 2 + 1
  let k := j + 1
  if j ≥ n then heap.set i x
  else if k ≥ n then
    let y ← heap.get j
    if ← less y x then siftdownHeap n x (← heap.set i y) j
    else heap.set i x
  else
    let y ← heap.get j
    let z ← heap.get k
    if ← less y x then
      if ← less z y then siftdownHeap n x (← heap.set i z) k
      else siftdownHeap n x (← heap.set i y) j
    else
      if ← less z x then siftdownHeap n x (← heap.set i z) k
      else heap.set i x
termination_by n - i
decreasing_by all_goals omega

/-- `make_heap` for the places below the argument, in descending order. -/
def makeHeap (n : Nat) : Nat → RwVector Int → Except Raised (RwVector Int)
  | 0, heap => .ok heap
  | i + 1, heap => do
      let heap ← siftdownHeap less n (← heap.get i) heap i
      makeHeap n i heap

def fillHeap : List Int → Nat → RwVector Int → Except Raised (RwVector Int)
  | [], _, heap => .ok heap
  | u :: us, i, heap => do fillHeap us (i + 1) (← heap.set i u)

def fillPos (heap : RwVector Int) : List Nat → RwVector Nat → Except Raised (RwVector Nat)
  | [], pos => .ok pos
  | i :: is, pos => do fillPos heap is (← pos.set (heap.cell i) i)

def fromGraph {E : Type} (g : Digraph E) : Except Raised NodePriorityQueue := do
  let n := g.nodes.length
  let heap ← fillHeap g.nodes 0 (RwVector.makeRwVector n 0)
  let heap ← makeHeap less n ((n + 1) / 2 + 1) heap
  let pos ← fillPos heap (List.range n) (RwVector.makeRwVector g.capacity 0)
  .ok ⟨heap, pos, n⟩

/-!
# The order of a queue of nodes

The first `n` places hold the nodes of a set, each once, and each node knows its place.
-/

open BinaryHeap

variable {M : Type} [LinearOrder M]

structure Valid (q : NodePriorityQueue) (n : Nat) (S : Set Int) : Prop where
  fits : (n : Int) ≤ q.heap.length
  within : ∀ x ∈ S, q.pos.Within x
  pos_lt : ∀ x ∈ S, q.pos.cell x < n
  at_pos : ∀ x ∈ S, q.heap.cell (q.pos.cell x) = x
  mem : ∀ k < n, q.heap.cell (k : Nat) ∈ S
  pos_at : ∀ k < n, q.pos.cell (q.heap.cell (k : Nat)) = k

def Decides (less : Less) (rank : Int → M) (S : Set Int) : Prop :=
  ∀ x ∈ S, ∀ y ∈ S, less x y = .ok (decide (rank x < rank y))

def ranks (rank : Int → M) (q : NodePriorityQueue) : Nat → M := fun k => rank (q.heap.cell k)

def placed (q : NodePriorityQueue) (i : Nat) (x : Int) : NodePriorityQueue :=
  { q with heap := q.heap.put i x, pos := q.pos.put x i }

section Places

variable {q q' : NodePriorityQueue} {n i j k : Nat} {S : Set Int} {x y : Int} {rank : Int → M}
  {less : Less}

@[simp] theorem placed_at : (placed q i x).heap.cell i = x := RwVector.put_cell_self

theorem placed_at_of_ne (other : k ≠ i) : (placed q i x).heap.cell k = q.heap.cell k :=
  RwVector.put_cell_of_ne (mt Int.ofNat.inj other)

@[simp] theorem placed_pos : (placed q i x).pos.cell x = i := RwVector.put_cell_self

theorem placed_pos_of_ne (other : y ≠ x) : (placed q i x).pos.cell y = q.pos.cell y :=
  RwVector.put_cell_of_ne other

@[simp] theorem placed_size : (placed q i x).size = q.size := rfl

theorem Valid.within_heap (valid : Valid q n S) (less : k < n) : q.heap.Within k :=
  ⟨Int.natCast_nonneg k, (Int.ofNat_lt.mpr less).trans_le valid.fits⟩

theorem place_ok (valid : Valid (placed q i x) n S) (less : k < n) (mem : y ∈ S) :
    place q k y = .ok (placed q k y) := by
  have heap : q.heap.Within k := valid.within_heap less
  have pos : q.pos.Within y := valid.within y mem
  simp only [place, RwVector.set_of_within heap, RwVector.set_of_within pos, ok_bind]
  rfl

theorem Valid.placed_self (valid : Valid q n S) (mem : x ∈ S) : placed q (q.pos.cell x) x = q := by
  unfold placed RwVector.put
  have same : Function.update q.heap.cell (q.pos.cell x) x = q.heap.cell := by
    rw [Function.update_eq_self_iff]
    exact (valid.at_pos x mem).symm
  rw [same, Function.update_eq_self]

theorem Valid.at_ne (valid : Valid q n S) (left : i < n) (right : j < n) (other : i ≠ j) :
    q.heap.cell i ≠ q.heap.cell j := by
  intro same
  have pos := valid.pos_at i left
  rw [same, valid.pos_at j right] at pos
  exact other pos.symm

theorem Valid.moved (valid : Valid (placed q i x) n S) (left : i < n) (right : j < n)
    (other : j ≠ i) : Valid (placed (placed q i (q.heap.cell j)) j x) n S := by
  have atJ : (placed q i x).heap.cell j = q.heap.cell j := placed_at_of_ne other
  have different : q.heap.cell j ≠ x := by
    have different := valid.at_ne right left other
    rw [atJ, placed_at] at different
    exact different
  have memX : x ∈ S := by
    have mem := valid.mem i left
    rw [placed_at] at mem
    exact mem
  have memY : q.heap.cell j ∈ S := by
    rw [← atJ]
    exact valid.mem j right
  have elsewhere {k : Nat} (notI : k ≠ i) (notJ : k ≠ j) :
      (placed (placed q i (q.heap.cell j)) j x).heap.cell k = (placed q i x).heap.cell k := by
    rw [placed_at_of_ne notJ, placed_at_of_ne notI, placed_at_of_ne notI]
  have others {z : Int} (notX : z ≠ x) (notY : z ≠ q.heap.cell j) :
      (placed (placed q i (q.heap.cell j)) j x).pos.cell z = (placed q i x).pos.cell z := by
    rw [placed_pos_of_ne notX, placed_pos_of_ne notY, placed_pos_of_ne notX]
  have posY : (placed (placed q i (q.heap.cell j)) j x).pos.cell (q.heap.cell j) = i := by
    rw [placed_pos_of_ne different, placed_pos]
  have atI : (placed (placed q i (q.heap.cell j)) j x).heap.cell i = q.heap.cell j := by
    rw [placed_at_of_ne other.symm, placed_at]
  constructor
  case fits => exact valid.fits
  case within => exact valid.within
  case pos_lt =>
    intro z mem
    by_cases isX : z = x
    · rw [isX, placed_pos]
      exact right
    by_cases isY : z = q.heap.cell j
    · rw [isY, posY]
      exact left
    · rw [others isX isY]
      exact valid.pos_lt z mem
  case at_pos =>
    intro z mem
    by_cases isX : z = x
    · rw [isX, placed_pos, placed_at]
    by_cases isY : z = q.heap.cell j
    · rw [isY, posY, atI]
    · have found := valid.at_pos z mem
      rw [others isX isY, elsewhere]
      · exact found
      · intro same
        rw [same, placed_at] at found
        exact isX found.symm
      · intro same
        rw [same, atJ] at found
        exact isY found.symm
  case mem =>
    intro k less
    by_cases isI : k = i
    · rw [isI, atI]
      exact memY
    by_cases isJ : k = j
    · rw [isJ, placed_at]
      exact memX
    · rw [elsewhere isI isJ]
      exact valid.mem k less
  case pos_at =>
    intro k less
    by_cases isI : k = i
    · rw [isI, atI, posY]
    by_cases isJ : k = j
    · rw [isJ, placed_at, placed_pos]
    · have notX := valid.at_ne less left isI
      have notY := valid.at_ne less right isJ
      rw [placed_at] at notX
      rw [atJ] at notY
      rw [elsewhere isI isJ, others notX notY]
      exact valid.pos_at k less

omit [LinearOrder M] in
theorem ranks_moved (other : j ≠ i) :
    ranks rank (placed (placed q i (q.heap.cell j)) j x) = swapped (ranks rank (placed q i x)) i j := by
  funext k
  unfold ranks
  by_cases left : k = i
  · rw [left, swapped_left, placed_at_of_ne other.symm, placed_at, placed_at_of_ne other]
  by_cases right : k = j
  · rw [right, swapped_right, placed_at, placed_at]
  · rw [swapped_of_ne left right, placed_at_of_ne right, placed_at_of_ne left, placed_at_of_ne left]

omit [LinearOrder M] in
theorem ranks_placed : ranks rank (placed q i x) i = rank x := by simp [ranks]

theorem siftup_eq (root : i ≠ 0) (within : q.heap.Within (parent i)) :
    siftup less x q i = less x (q.heap.cell (parent i)) >>= fun lesser =>
      if lesser then
        place q i (q.heap.cell (parent i)) >>= fun q' => siftup less x q' (parent i)
      else .ok (i, q) := by
  rw [siftup, if_neg root]
  have get := RwVector.get_of_within within
  unfold parent at get ⊢
  simp only [get, ok_bind]

theorem siftup_spec (decides : Decides less rank S) (valid : Valid (placed q i x) n S)
    (here : i < n) (mem : x ∈ S) (order : UpOrder (ranks rank (placed q i x)) n i) :
    ∃ j q', siftup less x q i = .ok (j, q') ∧ q'.size = q.size ∧ j < n ∧
      Valid (placed q' j x) n S ∧ Ordered (ranks rank (placed q' j x)) n := by
  induction i using Nat.strongRecOn generalizing q with
  | ind i ih =>
    by_cases root : i = 0
    · subst root
      refine ⟨0, q, ?_, rfl, here, valid, order.ordered fun pos => (lt_irrefl _ pos).elim⟩
      rw [siftup, if_pos rfl]
    have pos : 0 < i := Nat.pos_of_ne_zero root
    have lower : parent i < i := parent_lt pos
    have within : q.heap.Within (parent i) := valid.within_heap (lower.trans here)
    have above : (placed q i x).heap.cell (parent i) = q.heap.cell (parent i) :=
      placed_at_of_ne lower.ne
    have memY : q.heap.cell (parent i) ∈ S := by
      rw [← above]
      exact valid.mem _ (lower.trans here)
    have rankAbove : ranks rank (placed q i x) (parent i) = rank (q.heap.cell (parent i)) := by
      rw [ranks, above]
    rw [siftup_eq root within, decides x mem _ memY, ok_bind]
    by_cases less' : rank x < rank (q.heap.cell (parent i))
    · have step := order.step pos here (by rw [ranks_placed, rankAbove]; exact less')
      rw [← ranks_moved lower.ne] at step
      obtain ⟨j, q', sifts, size, jLt, valid', ordered⟩ :=
        ih _ lower (valid.moved here (lower.trans here) lower.ne) (lower.trans here) step
      refine ⟨j, q', ?_, size, jLt, valid', ordered⟩
      rw [if_pos (decide_eq_true less'), place_ok valid here memY, ok_bind]
      exact sifts
    · refine ⟨i, q, if_neg (mt of_decide_eq_true less'), rfl, here, valid, order.ordered fun _ => ?_⟩
      rw [ranks_placed, rankAbove]
      exact not_lt.mp less'

theorem decreaseWeight_spec (decides : Decides less rank S) (valid : Valid q n S) (mem : x ∈ S)
    (order : UpOrder (ranks rank q) n (q.pos.cell x)) :
    ∃ q', decreaseWeight less q x = .ok q' ∧ q'.size = q.size ∧ Valid q' n S ∧
      Ordered (ranks rank q') n := by
  have orderX : UpOrder (ranks rank (placed q (q.pos.cell x) x)) n (q.pos.cell x) := by
    rw [valid.placed_self mem]
    exact order
  have validX : Valid (placed q (q.pos.cell x) x) n S := by
    rw [valid.placed_self mem]
    exact valid
  obtain ⟨j, q', sifts, size, less', placedValid, ordered⟩ :=
    siftup_spec decides validX (valid.pos_lt x mem) mem orderX
  refine ⟨placed q' j x, ?_, size, placedValid, ordered⟩
  rw [decreaseWeight, RwVector.get_of_within (valid.within x mem), ok_bind, sifts, ok_bind]
  exact place_ok placedValid less' mem

theorem siftdown_cases (decides : Decides less rank S) (valid : Valid (placed q i x) n S)
    (here : i < n) (mem : x ∈ S) : (siftdown less n x q i = .ok (i, q) ∧
      ∀ c, Child i c → c < n → rank x ≤ rank (q.heap.cell c)) ∨
    ∃ c, Child i c ∧ c < n ∧ rank (q.heap.cell c) < rank x ∧
      (∀ c', Child i c' → c' < n → rank (q.heap.cell c) ≤ rank (q.heap.cell c')) ∧
      siftdown less n x q i = siftdown less n x (placed q i (q.heap.cell c)) c := by
  have child (c : Nat) : Child i c ↔ c = i + i + 1 ∨ c = i + i + 1 + 1 := by
    rw [child_iff]
    omega
  have memAt {c : Nat} (isChild : Child i c) (less : c < n) : q.heap.cell c ∈ S := by
    have mem := valid.mem c less
    rw [placed_at_of_ne isChild.lt.ne'] at mem
    exact mem
  have first : Child i (i + i + 1) := (child _).mpr (.inl rfl)
  have second : Child i (i + i + 1 + 1) := (child _).mpr (.inr rfl)
  by_cases none : i + i + 1 ≥ n
  · left
    constructor
    · rw [siftdown]
      exact if_pos none
    · intro c isChild lessC
      rcases (child c).mp isChild with rfl | rfl
      · omega
      · omega
  have memY := memAt first (not_le.mp none)
  have withinY : q.heap.Within (i + i + 1 : Nat) := valid.within_heap (not_le.mp none)
  have getY := RwVector.get_of_within withinY
  have lessYX := decides _ memY _ mem
  by_cases single : i + i + 1 + 1 ≥ n
  · have only (c : Nat) (isChild : Child i c) (lessC : c < n) : c = i + i + 1 := by
      rcases (child c).mp isChild with same | other
      · exact same
      · omega
    by_cases lower : rank (q.heap.cell (i + i + 1 : Nat)) < rank x
    · refine .inr ⟨_, first, not_le.mp none, lower, fun c isChild lessC => ?_, ?_⟩
      · rw [only c isChild lessC]
      · rw [siftdown]
        simp only [if_neg none, getY, ok_bind, if_pos single, lessYX, decide_eq_true lower,
          ↓reduceIte, place_ok valid here memY]
    · refine .inl ⟨?_, fun c isChild lessC => ?_⟩
      · rw [siftdown]
        simp only [if_neg none, getY, ok_bind, if_pos single, lessYX, decide_eq_false lower,
          Bool.false_eq_true, ↓reduceIte]
      · rw [only c isChild lessC]
        exact not_lt.mp lower
  have memZ := memAt second (not_le.mp single)
  have withinZ : q.heap.Within (i + i + 1 + 1 : Nat) := valid.within_heap (not_le.mp single)
  have getZ := RwVector.get_of_within withinZ
  have lessZY := decides _ memZ _ memY
  have lessZX := decides _ memZ _ mem
  by_cases lowerY : rank (q.heap.cell (i + i + 1 : Nat)) < rank x
  · by_cases lowerZ : rank (q.heap.cell (i + i + 1 + 1 : Nat)) < rank (q.heap.cell (i + i + 1 : Nat))
    · refine .inr ⟨_, second, not_le.mp single, lowerZ.trans lowerY, fun c isChild _ => ?_, ?_⟩
      · rcases (child c).mp isChild with rfl | rfl
        · exact lowerZ.le
        · exact le_rfl
      · rw [siftdown]
        simp only [if_neg none, getY, ok_bind, if_neg single, getZ, lessYX, decide_eq_true lowerY,
          ↓reduceIte, lessZY, decide_eq_true lowerZ, place_ok valid here memZ]
    · refine .inr ⟨_, first, not_le.mp none, lowerY, fun c isChild _ => ?_, ?_⟩
      · rcases (child c).mp isChild with rfl | rfl
        · exact le_rfl
        · exact not_lt.mp lowerZ
      · rw [siftdown]
        simp only [if_neg none, getY, ok_bind, if_neg single, getZ, lessYX, decide_eq_true lowerY,
          ↓reduceIte, lessZY, decide_eq_false lowerZ, Bool.false_eq_true, place_ok valid here memY]
  · by_cases lowerZ : rank (q.heap.cell (i + i + 1 + 1 : Nat)) < rank x
    · refine .inr ⟨_, second, not_le.mp single, lowerZ, fun c isChild _ => ?_, ?_⟩
      · rcases (child c).mp isChild with rfl | rfl
        · exact lowerZ.le.trans (not_lt.mp lowerY)
        · exact le_rfl
      · rw [siftdown]
        simp only [if_neg none, getY, ok_bind, if_neg single, getZ, lessYX, decide_eq_false lowerY,
          Bool.false_eq_true, ↓reduceIte, lessZX, decide_eq_true lowerZ, place_ok valid here memZ]
    · refine .inl ⟨?_, fun c isChild _ => ?_⟩
      · rw [siftdown]
        simp only [if_neg none, getY, ok_bind, if_neg single, getZ, lessYX, decide_eq_false lowerY,
          Bool.false_eq_true, ↓reduceIte, lessZX, decide_eq_false lowerZ]
      · rcases (child c).mp isChild with rfl | rfl
        · exact not_lt.mp lowerY
        · exact not_lt.mp lowerZ

/-- Sifting down, for any order `P` of a heap with a hole that moves down with the hole. -/
theorem siftdown_run {P : (Nat → M) → Nat → Prop} {Q : (Nat → M) → Prop}
    (step : ∀ f i c, P f i → Child i c → c < n → f c < f i →
      (∀ c', Child i c' → c' < n → f c ≤ f c') → P (swapped f i c) c)
    (stop : ∀ f i, P f i → (∀ c, Child i c → c < n → f i ≤ f c) → Q f)
    (decides : Decides less rank S) (valid : Valid (placed q i x) n S)
    (here : i < n) (mem : x ∈ S) (order : P (ranks rank (placed q i x)) i) :
    ∃ j q', siftdown less n x q i = .ok (j, q') ∧ q'.size = q.size ∧ j < n ∧
      Valid (placed q' j x) n S ∧ Q (ranks rank (placed q' j x)) := by
  have below {c : Nat} (isChild : Child i c) :
      ranks rank (placed q i x) c = rank (q.heap.cell c) := by
    rw [ranks, placed_at_of_ne isChild.lt.ne']
  induction hd : n - i using Nat.strongRecOn generalizing i q with
  | ind d ih =>
    rcases siftdown_cases decides valid here mem with ⟨stays, least⟩ | ⟨c, child, less', lower, least, goes⟩
    · refine ⟨i, q, stays, rfl, here, valid, stop _ i order fun c isChild lessC => ?_⟩
      rw [ranks_placed, below isChild]
      exact least c isChild lessC
    · have next := step _ i c order child less' (by rw [ranks_placed, below child]; exact lower)
        fun c' child' less'' => by rw [below child, below child']; exact least c' child' less''
      rw [← ranks_moved child.lt.ne'] at next
      have down : n - c < d := by
        have := child.lt
        omega
      obtain ⟨j, q', sifts, size, jLt, valid', ordered⟩ :=
        ih _ down (valid.moved here less' child.lt.ne') less' next
          (fun isChild => by rw [ranks, placed_at_of_ne isChild.lt.ne']) rfl
      exact ⟨j, q', goes.trans sifts, size, jLt, valid', ordered⟩

theorem siftdown_spec (decides : Decides less rank S) (valid : Valid (placed q i x) n S)
    (here : i < n) (mem : x ∈ S) (order : DownOrder (ranks rank (placed q i x)) n i) :
    ∃ j q', siftdown less n x q i = .ok (j, q') ∧ q'.size = q.size ∧ j < n ∧
      Valid (placed q' j x) n S ∧ Ordered (ranks rank (placed q' j x)) n :=
  siftdown_run (P := fun f i => DownOrder f n i) (Q := fun f => Ordered f n)
    (fun _ _ _ order => order.step) (fun _ _ order => order.ordered) decides valid here mem order

theorem Valid.lowered {rank' : Int → M} (valid : Valid q n S) (ordered : Ordered (ranks rank q) n)
    (mem : x ∈ S) (lower : rank' x ≤ rank x) (same : ∀ y ∈ S, y ≠ x → rank' y = rank y) :
    UpOrder (ranks rank' q) n (q.pos.cell x) := by
  have atX := valid.at_pos x mem
  have away {k : Nat} (less : k < n) (other : k ≠ q.pos.cell x) :
      ranks rank' q k = ranks rank q k := by
    apply same _ (valid.mem k less)
    intro isX
    rw [← isX, valid.pos_at k less] at other
    exact other rfl
  have below {k : Nat} (less : k < n) : ranks rank' q k ≤ ranks rank q k := by
    by_cases here : k = q.pos.cell x
    · unfold ranks
      rw [here, atX]
      exact lower
    · rw [away less here]
  constructor
  · intro k pos less other
    rw [away less other]
    exact (below ((parent_lt pos).trans less)).trans (ordered k pos less)
  · intro pos c child less
    have higher := parent_lt pos
    rw [away less child.lt.ne', away (higher.trans (child.lt.trans less)) higher.ne]
    exact ordered.upOrder.spans pos c child less

theorem Decides.mono {T : Set Int} (decides : Decides less rank S) (sub : T ⊆ S) :
    Decides less rank T := fun x memX y memY => decides x (sub memX) y (sub memY)

theorem Valid.least (valid : Valid q n S) (ordered : Ordered (ranks rank q) n) (mem : x ∈ S) :
    rank (q.heap.cell (0 : Nat)) ≤ rank x := by
  have least := ordered.min (valid.pos_lt x mem)
  unfold ranks at least
  rw [valid.at_pos x mem] at least
  exact least

theorem Valid.shrink (valid : Valid q (n + 1) S) (pos : 0 < n) :
    Valid (placed q 0 (q.heap.cell n)) n (S \ {q.heap.cell (0 : Nat)}) := by
  have ne {k : Nat} (posK : 0 < k) (less : k < n + 1) :
      q.heap.cell k ≠ q.heap.cell (0 : Nat) :=
    valid.at_ne less (Nat.succ_pos n) posK.ne'
  constructor
  case fits => exact (Int.ofNat_le.mpr (Nat.le_succ n)).trans valid.fits
  case within => exact fun z mem => valid.within z mem.1
  case pos_lt =>
    intro z mem
    by_cases isLast : z = q.heap.cell n
    · rw [isLast, placed_pos]
      exact pos
    · rw [placed_pos_of_ne isLast]
      apply (Nat.lt_succ_iff_lt_or_eq.mp (valid.pos_lt z mem.1)).resolve_right
      intro last
      have found := valid.at_pos z mem.1
      rw [last] at found
      exact isLast found.symm
  case at_pos =>
    intro z mem
    by_cases isLast : z = q.heap.cell n
    · rw [isLast, placed_pos, placed_at]
    · have found := valid.at_pos z mem.1
      rw [placed_pos_of_ne isLast, placed_at_of_ne]
      · exact found
      · intro first
        rw [first] at found
        exact mem.2 found.symm
  case mem =>
    intro k less
    by_cases first : k = 0
    · rw [first, placed_at]
      exact ⟨valid.mem n (Nat.lt_succ_self n), ne pos (Nat.lt_succ_self n)⟩
    · rw [placed_at_of_ne first]
      have less' := less.trans (Nat.lt_succ_self n)
      exact ⟨valid.mem k less', ne (Nat.pos_of_ne_zero first) less'⟩
  case pos_at =>
    intro k less
    by_cases first : k = 0
    · rw [first, placed_at, placed_pos]
    · have less' := less.trans (Nat.lt_succ_self n)
      rw [placed_at_of_ne first, placed_pos_of_ne]
      · exact valid.pos_at k less'
      · exact valid.at_ne less' (Nat.lt_succ_self n) less.ne

theorem deleteMin_spec (decides : Decides less rank S) (valid : Valid q (n + 1) S)
    (size : q.size = n + 1) (ordered : Ordered (ranks rank q) (n + 1)) :
    ∃ m q', deleteMin less q = .ok (m, q') ∧ m ∈ S ∧ (∀ x ∈ S, rank m ≤ rank x) ∧ q'.size = n ∧
      Valid q' n (S \ {m}) ∧ Ordered (ranks rank q') n := by
  have getFirst := RwVector.get_of_within (valid.within_heap (Nat.succ_pos n))
  have getLast := RwVector.get_of_within (valid.within_heap (Nat.lt_succ_self n))
  have memLast := valid.mem n (Nat.lt_succ_self n)
  have unfolded : deleteMin less q = (siftdown less n (q.heap.cell n) q 0 >>= fun sifted =>
      place sifted.2 sifted.1 (q.heap.cell n)) >>= fun q' =>
        .ok (q.heap.cell (0 : Nat), { q' with size := n }) := by
    rw [deleteMin, size, bind_assoc]
    simp only [Nat.add_sub_cancel, getFirst, getLast, ok_bind, if_neg (Nat.succ_ne_zero n)]
  obtain ⟨q', is, valid', ordered'⟩ : ∃ q', (siftdown less n (q.heap.cell n) q 0 >>= fun sifted =>
      place sifted.2 sifted.1 (q.heap.cell n)) = .ok q' ∧
        Valid q' n (S \ {q.heap.cell (0 : Nat)}) ∧ Ordered (ranks rank q') n := by
    rcases Nat.eq_zero_or_pos n with rfl | pos
    · have stays : siftdown less 0 (q.heap.cell (0 : Nat)) q 0 = .ok (0, q) := by
        rw [siftdown]
        exact if_pos (Nat.zero_le _)
      have placed_ok : Valid (placed q 0 (q.heap.cell (0 : Nat))) 1 S := by
        have self := valid.placed_self (valid.mem 0 Nat.one_pos)
        rw [valid.pos_at 0 Nat.one_pos] at self
        rw [self]
        exact valid
      have empty (x : Int) : x ∉ S \ {q.heap.cell (0 : Nat)} := by
        rintro ⟨mem, other⟩
        have found := valid.at_pos x mem
        rw [Nat.lt_one_iff.mp (valid.pos_lt x mem)] at found
        exact other found.symm
      rw [stays]
      refine ⟨_, place_ok placed_ok Nat.one_pos memLast, ?_, fun _ _ less => (Nat.not_lt_zero _ less).elim⟩
      constructor
      · exact (Int.ofNat_le.mpr (Nat.zero_le _)).trans valid.fits
      · exact fun x mem => (empty x mem).elim
      · exact fun x mem => (empty x mem).elim
      · exact fun x mem => (empty x mem).elim
      · exact fun k less => (Nat.not_lt_zero k less).elim
      · exact fun k less => (Nat.not_lt_zero k less).elim
    · have shrunk := valid.shrink pos
      have memX : q.heap.cell n ∈ S \ {q.heap.cell (0 : Nat)} := by
        have mem := shrunk.mem 0 pos
        exact mem
      have order : DownOrder (ranks rank (placed q 0 (q.heap.cell n))) n 0 := by
        constructor
        · intro k posK lessK above
          have upper := ordered k posK (lessK.trans (Nat.lt_succ_self n))
          unfold ranks at upper ⊢
          rw [placed_at_of_ne above, placed_at_of_ne posK.ne']
          exact upper
        · exact fun pos => (lt_irrefl _ pos).elim
      obtain ⟨j, q', sifts, _, less', valid', ordered'⟩ :=
        siftdown_spec (decides.mono fun _ mem => mem.1) shrunk pos memX order
      rw [sifts]
      exact ⟨_, place_ok valid' less' memX, valid', ordered'⟩
  refine ⟨_, { q' with size := n }, ?_, valid.mem 0 (Nat.succ_pos n), fun x => valid.least ordered,
    rfl, { valid' with }, ordered'⟩
  rw [unfolded, is, ok_bind]

end Places

end Mythryl.Graph.NodePriorityQueue
