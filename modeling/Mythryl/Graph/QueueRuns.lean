import Mythryl.Graph.QueueFromGraph
import Mythryl.Graph.SingleSource
import Mathlib.Data.Finset.Card

/-!
# Using a queue of nodes

Queues made by `create` or by `from_graph`, after any sequence of operations, while the weights that
the order reads may drop.
-/

namespace Mythryl.Graph.NodePriorityQueue
open BinaryHeap

def min (q : NodePriorityQueue) : Except Raised Int :=
  if q.size = 0 then throw .emptyPriorityQueue else q.heap.get (0 : Nat)

def nodesBelow (n : Nat) : List Int := (List.range n).map (Nat.cast : Nat → Int)

abbrev Order := Int → Int → Bool

def reads (lt : Order) : Less := fun x y => .ok (lt x y)

def StrictWeak (lt : Order) : Prop := IsStrictWeakOrder Int fun x y => lt x y = true

def HeapOrder (lt : Order) (q : NodePriorityQueue) : Prop :=
  ∀ k, 0 < k → k < q.size → lt (q.heap.cell k) (q.heap.cell (parent k)) = false

structure Lowered (S : Set Int) (lt lt' : Order) (x : Int) : Prop where
  weak : StrictWeak lt'
  others : ∀ y ∈ S, ∀ z ∈ S, y ≠ x → z ≠ x → lt' y z = lt y z
  below : ∀ y ∈ S, lt' y x = true → lt y x = true

/-- The queue holds the nodes `S`, each once and at the place it knows, in the order of a heap. -/
structure Good (nodes : List Int) (lt : Order) (q : NodePriorityQueue) (S : Set Int) : Prop where
  heap : q.heap.length = nodes.length
  pos : ∀ u ∈ nodes, q.pos.Within u
  sub : ∀ u ∈ S, u ∈ nodes
  weak : StrictWeak lt
  valid : Valid q q.size S
  ordered : HeapOrder lt q

section Steps

variable {lt lt' : Order} {q q' : NodePriorityQueue} {S : Set Int} {x m : Int} {nodes : List Int}

theorem StrictWeak.before_or (weak : StrictWeak lt) {x y z : Int} (less : lt z y = true) :
    lt z x = true ∨ lt x y = true := by
  by_contra neither
  obtain ⟨notZX, notXY⟩ := not_or.mp neither
  have zx : ¬lt z x = true ∧ ¬lt x z = true := ⟨notZX, fun above => notXY (weak.trans x z y above less)⟩
  have xy : ¬lt x y = true ∧ ¬lt y x = true := ⟨notXY, fun above => notZX (weak.trans z y x less above)⟩
  exact (weak.incomp_trans z x y zx xy).1 less

theorem StrictWeak.exists_rank (weak : StrictWeak lt) (nodes : List Int) :
    ∃ rank : Int → Nat, Decides (reads lt) rank { u | u ∈ nodes } := by
  refine ⟨fun x => {z ∈ nodes.toFinset | lt z x = true}.card, fun x memX y memY => ?_⟩
  refine congrArg Except.ok ?_
  by_cases less : lt x y = true
  · rw [less]
    symm
    apply decide_eq_true
    apply Finset.card_lt_card
    apply (Finset.ssubset_iff_of_subset ?_).mpr
    · refine ⟨x, by simpa [less] using memX, ?_⟩
      have irrefl := weak.irrefl x
      simpa using fun _ => irrefl
    · intro z mem
      simp only [Finset.mem_filter] at mem ⊢
      exact ⟨mem.1, weak.trans z x y mem.2 less⟩
  · rw [Bool.eq_false_iff.mpr less]
    symm
    apply decide_eq_false
    apply not_lt.mpr
    apply Finset.card_le_card
    intro z mem
    simp only [Finset.mem_filter] at mem ⊢
    exact ⟨mem.1, (weak.before_or mem.2).resolve_right less⟩

theorem decides_lt {rank : Int → Nat} (decides : Decides (reads lt) rank { u | u ∈ nodes }) {y : Int}
    (memX : x ∈ nodes) (memY : y ∈ nodes) : lt x y = decide (rank x < rank y) :=
  Except.ok.inj (decides x memX y memY)

theorem ordered_iff {rank : Int → Nat} (decides : Decides (reads lt) rank { u | u ∈ nodes })
    (sub : ∀ u ∈ S, u ∈ nodes) (valid : Valid q q.size S) :
    Ordered (ranks rank q) q.size ↔ HeapOrder lt q := by
  apply forall_congr'
  intro k
  apply forall_congr'
  intro pos
  apply forall_congr'
  intro less
  rw [decides_lt decides (sub _ (valid.mem k less))
    (sub _ (valid.mem _ ((parent_lt pos).trans less))), decide_eq_false_iff_not, not_lt]
  rfl

theorem Good.room (good : Good nodes lt q S) (mem : x ∈ nodes) (fresh : x ∉ S) :
    (q.size : Int) < q.heap.length := by
  have nodup : (x :: (List.range q.size).map fun k => q.heap.cell (k : Nat)).Nodup := by
    apply List.nodup_cons.mpr
    constructor
    · intro among
      obtain ⟨k, k_mem, eq⟩ := List.mem_map.mp among
      exact fresh (eq ▸ good.valid.mem k (List.mem_range.mp k_mem))
    · apply List.nodup_range.map_on
      intro j left k right same
      rw [← good.valid.pos_at j (List.mem_range.mp left), same,
        good.valid.pos_at k (List.mem_range.mp right)]
  have sub : (x :: (List.range q.size).map fun k => q.heap.cell (k : Nat)) ⊆ nodes := by
    apply List.cons_subset.mpr
    refine ⟨mem, fun u u_mem => ?_⟩
    obtain ⟨k, k_mem, rfl⟩ := List.mem_map.mp u_mem
    exact good.sub _ (good.valid.mem k (List.mem_range.mp k_mem))
  have le := (nodup.subperm sub).length_le
  simp only [List.length_cons, List.length_map, List.length_range] at le
  rw [good.heap]
  exact_mod_cast le

theorem Good.set (good : Good nodes lt q S) (mem : x ∈ nodes) (fresh : x ∉ S) :
    ∃ q', set (reads lt) q x = .ok q' ∧ Good nodes lt q' (insert x S) := by
  obtain ⟨rank, decides⟩ := good.weak.exists_rank nodes
  have sub : ∀ u ∈ insert x S, u ∈ nodes := Set.forall_mem_insert.mpr ⟨mem, good.sub⟩
  obtain ⟨q', sets, size, valid, ordered⟩ := set_spec (decides.mono sub) good.valid rfl
    ((ordered_iff decides good.sub good.valid).mpr good.ordered) fresh (good.room mem fresh)
    (good.pos x mem)
  rw [← size] at valid ordered
  obtain ⟨heap, pos⟩ := set_kept sets
  refine ⟨q', sets, heap.trans good.heap, fun u u_mem => ?_, sub, good.weak, valid,
    (ordered_iff decides sub valid).mp ordered⟩
  rw [RwVector.Within, pos]
  exact good.pos u u_mem

theorem Good.raised (good : Good nodes lt q S) (lower : Lowered S lt lt' x)
    {rank' : Int → Nat} (decides' : Decides (reads lt') rank' { u | u ∈ nodes }) :
    UpOrder (ranks rank' q) q.size (q.pos.cell x) := by
  obtain ⟨rank, decides⟩ := good.weak.exists_rank nodes
  have whole := ((ordered_iff decides good.sub good.valid).mpr good.ordered).upOrder
    (i := q.pos.cell x)
  have away {k : Nat} (less : k < q.size) (other : k ≠ q.pos.cell x) : q.heap.cell k ≠ x := by
    intro eq
    rw [← eq, good.valid.pos_at k less] at other
    exact other rfl
  -- where neither node is `x`, or the upper one is, the new order sees what the old one saw
  have kept {j k : Nat} (lessJ : j < q.size) (lessK : k < q.size) (notJ : j ≠ q.pos.cell x)
      (le : ranks rank q k ≤ ranks rank q j) : ranks rank' q k ≤ ranks rank' q j := by
    have memJ := good.valid.mem j lessJ
    have memK := good.valid.mem k lessK
    have before : lt (q.heap.cell j) (q.heap.cell k) = false := by
      rw [decides_lt decides (good.sub _ memJ) (good.sub _ memK)]
      exact decide_eq_false (not_lt.mpr le)
    have after : lt' (q.heap.cell j) (q.heap.cell k) = false := by
      by_cases here : q.heap.cell k = x
      · rw [here] at before ⊢
        exact Bool.eq_false_iff.mpr fun less => Bool.eq_false_iff.mp before (lower.below _ memJ less)
      · rw [lower.others _ memJ _ memK (away lessJ notJ) here, before]
    rw [decides_lt decides' (good.sub _ memJ) (good.sub _ memK)] at after
    exact not_lt.mp (of_decide_eq_false after)
  constructor
  · intro k pos less other
    exact kept less ((parent_lt pos).trans less) other (whole.except k pos less other)
  · intro pos c child less
    exact kept less ((parent_lt pos).trans (child.lt.trans less)) child.lt.ne'
      (whole.spans pos c child less)

theorem Good.decreaseWeight (good : Good nodes lt q S) (mem : x ∈ S) (lower : Lowered S lt lt' x) :
    ∃ q', decreaseWeight (reads lt') q x = .ok q' ∧ Good nodes lt' q' S := by
  obtain ⟨rank', decides'⟩ := lower.weak.exists_rank nodes
  obtain ⟨q', decreases, size, valid, ordered⟩ := decreaseWeight_spec (decides'.mono good.sub)
    good.valid mem (good.raised lower decides')
  rw [← size] at valid ordered
  have kept := decreaseWeight_kept decreases
  refine ⟨q', decreases, kept.heap.trans good.heap, fun u u_mem => ?_, good.sub, lower.weak, valid,
    (ordered_iff decides' good.sub valid).mp ordered⟩
  rw [RwVector.Within, kept.pos]
  exact good.pos u u_mem

theorem Good.size_pos (good : Good nodes lt q S) (mem : x ∈ S) : 0 < q.size :=
  (Nat.zero_le _).trans_lt (good.valid.pos_lt x mem)

theorem min_of_deleteMin {less : Less} (deletes : NodePriorityQueue.deleteMin less q = .ok (m, q')) :
    min q = .ok m := by
  unfold NodePriorityQueue.deleteMin at deletes
  by_cases empty : q.size = 0
  · rw [if_pos empty] at deletes
    cases deletes
  · rw [if_neg empty] at deletes
    obtain ⟨first, get, deletes⟩ := bind_eq_ok.mp deletes
    obtain ⟨y, _, deletes⟩ := bind_eq_ok.mp deletes
    obtain ⟨_, _, deletes⟩ := bind_eq_ok.mp deletes
    obtain ⟨_, _, ⟨⟩⟩ := bind_pure_eq_ok.mp deletes
    exact (if_neg empty).trans get

theorem Good.deleteMin (good : Good nodes lt q S) (mem : x ∈ S) :
    ∃ m q', min q = .ok m ∧ deleteMin (reads lt) q = .ok (m, q') ∧ m ∈ S ∧
      (∀ y ∈ S, lt y m = false) ∧ Good nodes lt q' (S \ {m}) := by
  obtain ⟨rank, decides⟩ := good.weak.exists_rank nodes
  have pos := good.size_pos mem
  obtain ⟨n, size⟩ : ∃ n, q.size = n + 1 := ⟨q.size - 1, by omega⟩
  have valid := good.valid
  have ordered := (ordered_iff decides good.sub valid).mpr good.ordered
  rw [size] at valid ordered
  obtain ⟨m, q', deletes, m_mem, least, size', valid', ordered'⟩ :=
    deleteMin_spec (decides.mono good.sub) valid size ordered
  rw [← size'] at valid' ordered'
  have sub (y : Int) (diff : y ∈ S \ {m}) : y ∈ nodes := good.sub y diff.1
  obtain ⟨-, heap, places⟩ := deleteMin_kept deletes
  refine ⟨m, q', min_of_deleteMin deletes, deletes, m_mem, fun y y_mem => ?_, heap.trans good.heap,
    fun u u_mem => ?_, sub, good.weak, valid', (ordered_iff decides sub valid').mp ordered'⟩
  · rw [decides_lt decides (good.sub y y_mem) (good.sub m m_mem)]
    exact decide_eq_false (not_lt.mpr (least y y_mem))
  · rw [RwVector.Within, places]
    exact good.pos u u_mem

theorem Good.empty (good : Good nodes lt q ∅) : min q = .error .emptyPriorityQueue ∧
      NodePriorityQueue.deleteMin (reads lt) q = .error .emptyPriorityQueue := by
  have zero : q.size = 0 := by
    by_contra pos
    exact good.valid.mem 0 (Nat.pos_of_ne_zero pos)
  rw [min, NodePriorityQueue.deleteMin, zero]
  exact ⟨rfl, rfl⟩

end Steps

/-- What holds of a queue of the nodes `S`: where things stand, and what each operation does. -/
structure Correct (nodes : List Int) (lt : Order) (q : NodePriorityQueue) (S : Set Int) : Prop where
  valid : Valid q q.size S
  ordered : HeapOrder lt q
  set : ∀ x ∈ nodes, x ∉ S → ∃ q', NodePriorityQueue.set (reads lt) q x = .ok q'
  deleteMin : S.Nonempty → ∃ m q', min q = .ok m ∧
    NodePriorityQueue.deleteMin (reads lt) q = .ok (m, q') ∧ m ∈ S ∧ ∀ y ∈ S, lt y m = false
  empty : S = ∅ → min q = .error .emptyPriorityQueue ∧
    NodePriorityQueue.deleteMin (reads lt) q = .error .emptyPriorityQueue
  decreaseWeight : ∀ x ∈ S, ∀ lt', Lowered S lt lt' x →
    ∃ q', NodePriorityQueue.decreaseWeight (reads lt') q x = .ok q'

inductive Run (nodes : List Int) (q₀ : NodePriorityQueue) (S₀ : Set Int) (lt₀ : Order) :
    NodePriorityQueue → Set Int → Order → Prop
  | start : Run nodes q₀ S₀ lt₀ q₀ S₀ lt₀
  | set {q q' S lt x} : Run nodes q₀ S₀ lt₀ q S lt → x ∈ nodes → x ∉ S →
      set (reads lt) q x = .ok q' → Run nodes q₀ S₀ lt₀ q' (insert x S) lt
  | deleteMin {q q' S lt m} : Run nodes q₀ S₀ lt₀ q S lt →
      deleteMin (reads lt) q = .ok (m, q') → Run nodes q₀ S₀ lt₀ q' (S \ {m}) lt
  | decreaseWeight {q q' S lt lt' x} : Run nodes q₀ S₀ lt₀ q S lt → x ∈ S → Lowered S lt lt' x →
      decreaseWeight (reads lt') q x = .ok q' → Run nodes q₀ S₀ lt₀ q' S lt'

section Runs

variable {lt lt' : Order} {q q' : NodePriorityQueue} {S S' : Set Int} {nodes : List Int}

theorem Good.correct (good : Good nodes lt q S) : Correct nodes lt q S where
  __ := good
  set x mem fresh := (good.set mem fresh).imp fun _ h => h.1
  deleteMin := by
    rintro ⟨x, mem⟩
    obtain ⟨m, q', first, deletes, m_mem, least, -⟩ := good.deleteMin mem
    exact ⟨m, q', first, deletes, m_mem, least⟩
  empty none := (none ▸ good).empty
  decreaseWeight x mem lt' lower := (good.decreaseWeight mem lower).imp fun _ h => h.1

theorem Run.good (run : Run nodes q S lt q' S' lt') (good : Good nodes lt q S) :
    Good nodes lt' q' S' := by
  induction run with
  | start => exact good
  | set _ mem fresh sets ih =>
    obtain ⟨_, sets', good'⟩ := ih.set mem fresh
    obtain rfl := Except.ok.inj (sets.symm.trans sets')
    exact good'
  | @deleteMin q₁ _ S₁ _ _ _ deletes ih =>
    rcases S₁.eq_empty_or_nonempty with rfl | ⟨x, mem⟩
    · rw [ih.empty.2] at deletes
      cases deletes
    · obtain ⟨_, _, _, deletes', _, _, good'⟩ := ih.deleteMin mem
      obtain ⟨rfl, rfl⟩ := Prod.mk.inj (Except.ok.inj (deletes.symm.trans deletes'))
      exact good'
  | decreaseWeight _ mem lower decreases ih =>
    obtain ⟨_, decreases', good'⟩ := ih.decreaseWeight mem lower
    obtain rfl := Except.ok.inj (decreases.symm.trans decreases')
    exact good'

theorem create_good (weak : StrictWeak lt) (n : Nat) :
    Good (nodesBelow n) lt (create n) ∅ where
  heap := by simp [create, RwVector.makeRwVector, nodesBelow]
  pos := by
    intro u mem
    obtain ⟨k, k_mem, rfl⟩ := List.mem_map.mp mem
    exact ⟨Int.natCast_nonneg k, Int.ofNat_lt.mpr (List.mem_range.mp k_mem)⟩
  sub u mem := mem.elim
  weak := weak
  valid := ⟨Int.natCast_nonneg n, nofun, nofun, nofun, nofun, nofun⟩
  ordered _ _ less := absurd less (Nat.not_lt_zero _)

theorem fromGraph_good {E : Type} {g : Digraph E} (weak : StrictWeak lt)
    (several : 2 ≤ g.nodes.length) :
    ∃ q, fromGraph (reads lt) g = .ok q ∧ Good g.nodes lt q { u | u ∈ g.nodes } := by
  obtain ⟨rank, decides⟩ := weak.exists_rank g.nodes
  obtain ⟨q, makes, size, heap, pos, valid, ordered⟩ := fromGraph_ordered decides several
  rw [← size] at valid ordered
  refine ⟨q, makes, heap, fun u mem => ?_, fun u => id, weak, valid,
    (ordered_iff decides (fun u => id) valid).mp ordered⟩
  rw [RwVector.Within, pos]
  exact g.nodes_bound u mem

/-- Any sequence of operations on a queue of `create`, and on one of `from_graph`, which makes a
queue of the graphs with two or more nodes only. -/
theorem queues_correct (lt : Order) (weak : StrictWeak lt) :
    (∀ (n : Nat) q S lt', Run (nodesBelow n) (create n) ∅ lt q S lt' →
      Correct (nodesBelow n) lt' q S) ∧
    ∀ (E : Type) (g : Digraph E), (∃ q₀, fromGraph (reads lt) g = .ok q₀ ∧
      ∀ q S lt', Run g.nodes q₀ { u | u ∈ g.nodes } lt q S lt' → Correct g.nodes lt' q S) ↔
        2 ≤ g.order := by
  refine ⟨fun n q S lt' run => (run.good (create_good weak n)).correct, fun E g => ?_⟩
  rw [Digraph.order]
  constructor
  · rintro ⟨q₀, makes, -⟩
    by_contra few
    rw [fromGraph_few (by omega)] at makes
    cases makes
  · intro several
    obtain ⟨q₀, makes, good⟩ := fromGraph_good weak (Int.ofNat_le.mp several)
    exact ⟨q₀, makes, fun q S lt' run => (run.good good).correct⟩

end Runs

def byNumber : Order := fun x y => decide (x < y)

theorem byNumber_strictWeak : StrictWeak byNumber where
  irrefl x := by simp [byNumber]
  trans x y z left right := by
    simp only [byNumber, decide_eq_true_eq] at *
    exact left.trans right
  incomp_trans x y z left right := by
    simp only [byNumber, decide_eq_true_eq] at *
    omega

theorem queues_correct_byNumber : Correct (nodesBelow 2) byNumber (create 2) ∅ :=
  (queues_correct byNumber byNumber_strictWeak).1 2 _ _ _ .start

theorem fromGraph_lone : StrictWeak byNumber ∧
    fromGraph (reads byNumber) lone = .error .indexOutOfBounds ∧
    ¬∃ q₀, fromGraph (reads byNumber) lone = .ok q₀ ∧
      ∀ q S lt', Run lone.nodes q₀ { u | u ∈ lone.nodes } byNumber q S lt' →
        Correct lone.nodes lt' q S := by
  have raises : fromGraph (reads byNumber) lone = .error .indexOutOfBounds :=
    fromGraph_few (by decide)
  refine ⟨byNumber_strictWeak, raises, ?_⟩
  rintro ⟨q₀, makes, -⟩
  rw [raises] at makes
  cases makes

end Mythryl.Graph.NodePriorityQueue
