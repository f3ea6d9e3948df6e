import Mythryl.Graph.NodePriorityQueue
import Mathlib.Order.WithBot

/-!
# Queues of all nodes of a graph

`from_graph` builds its heap without the places of the nodes; each step of it is a step of a queue
that knows them.
-/

namespace Mythryl.Graph

theorem RwVector.set_length {α : Type} {v v' : RwVector α} {i : Int} {x : α}
    (sets : v.set i x = .ok v') : v'.length = v.length := by
  unfold RwVector.set at sets
  split at sets
  · cases sets
    rfl
  · cases sets

namespace NodePriorityQueue
open BinaryHeap

structure Kept (q q' : NodePriorityQueue) : Prop where
  size : q'.size = q.size
  heap : q'.heap.length = q.heap.length
  pos : q'.pos.length = q.pos.length

section Lengths

variable {less : Less} {q q' q'' : NodePriorityQueue} {n i j : Nat} {x : Int}

theorem Kept.refl (q : NodePriorityQueue) : Kept q q := ⟨rfl, rfl, rfl⟩

theorem Kept.trans (kept : Kept q q') (kept' : Kept q' q'') : Kept q q'' :=
  ⟨kept'.size.trans kept.size, kept'.heap.trans kept.heap, kept'.pos.trans kept.pos⟩

theorem place_kept (places : place q i x = .ok q') : Kept q q' := by
  obtain ⟨heap, setsHeap, places⟩ := bind_eq_ok.mp places
  obtain ⟨pos, setsPos, rfl⟩ := bind_pure_eq_ok.mp places
  exact ⟨rfl, RwVector.set_length setsHeap, RwVector.set_length setsPos⟩

theorem siftup_kept (sifts : siftup less x q i = .ok (j, q')) : Kept q q' := by
  induction i using Nat.strongRecOn generalizing q with
  | ind i ih =>
    rw [siftup] at sifts
    split at sifts
    · cases sifts
      exact .refl _
    · obtain ⟨y, _, sifts⟩ := bind_eq_ok.mp sifts
      obtain ⟨lesser, _, sifts⟩ := bind_eq_ok.mp sifts
      split at sifts
      · obtain ⟨q₁, places, sifts⟩ := bind_eq_ok.mp sifts
        exact (place_kept places).trans (ih _ (by omega) sifts)
      · cases sifts
        exact .refl _

theorem decreaseWeight_kept (decreases : decreaseWeight less q x = .ok q') : Kept q q' := by
  obtain ⟨i, _, decreases⟩ := bind_eq_ok.mp decreases
  obtain ⟨⟨j, q₁⟩, sifts, decreases⟩ := bind_eq_ok.mp decreases
  exact (siftup_kept sifts).trans (place_kept decreases)

theorem siftdown_kept (sifts : siftdown less n x q i = .ok (j, q')) : Kept q q' := by
  induction hd : n - i using Nat.strongRecOn generalizing i q with
  | ind d ih =>
    have goes {c : Nat} {y : Int} (below : i < c) (inside : ¬n ≤ i)
        (sifts : (place q i y >>= fun q₁ => siftdown less n x q₁ c) = .ok (j, q')) :
        Kept q q' := by
      obtain ⟨q₁, places, sifts⟩ := bind_eq_ok.mp sifts
      exact (place_kept places).trans (ih _ (by omega) sifts rfl)
    rw [siftdown] at sifts
    split at sifts
    · cases sifts
      exact .refl _
    next inside =>
    obtain ⟨y, _, sifts⟩ := bind_eq_ok.mp sifts
    split at sifts
    · obtain ⟨lesser, _, sifts⟩ := bind_eq_ok.mp sifts
      split at sifts
      · exact goes (by omega) (by omega) sifts
      · cases sifts
        exact .refl _
    · obtain ⟨z, _, sifts⟩ := bind_eq_ok.mp sifts
      obtain ⟨lesser, _, sifts⟩ := bind_eq_ok.mp sifts
      split at sifts
      · obtain ⟨lesser', _, sifts⟩ := bind_eq_ok.mp sifts
        split at sifts
        · exact goes (by omega) (by omega) sifts
        · exact goes (by omega) (by omega) sifts
      · obtain ⟨lesser', _, sifts⟩ := bind_eq_ok.mp sifts
        split at sifts
        · exact goes (by omega) (by omega) sifts
        · cases sifts
          exact .refl _

theorem deleteMin_kept (deletes : deleteMin less q = .ok (x, q')) :
    q'.size < q.size ∧ q'.heap.length = q.heap.length ∧ q'.pos.length = q.pos.length := by
  unfold deleteMin at deletes
  split at deletes
  · cases deletes
  next several =>
    obtain ⟨min, _, deletes⟩ := bind_eq_ok.mp deletes
    obtain ⟨y, _, deletes⟩ := bind_eq_ok.mp deletes
    obtain ⟨⟨i, q₁⟩, sifts, deletes⟩ := bind_eq_ok.mp deletes
    obtain ⟨q₂, places, ⟨⟩⟩ := bind_pure_eq_ok.mp deletes
    have kept := (siftdown_kept sifts).trans (place_kept places)
    exact ⟨Nat.sub_lt (Nat.pos_of_ne_zero several) Nat.one_pos, kept.heap, kept.pos⟩

theorem set_kept (sets : set less q x = .ok q') :
    q'.heap.length = q.heap.length ∧ q'.pos.length = q.pos.length := by
  obtain ⟨q₁, places, sets⟩ := bind_eq_ok.mp sets
  have kept := place_kept places
  have kept' := decreaseWeight_kept sets
  exact ⟨kept'.heap.trans kept.heap, kept'.pos.trans kept.pos⟩

end Lengths

section Heaps

variable {less : Less} {q q' : NodePriorityQueue} {n i : Nat} {x : Int} {heap : RwVector Int}
  {S : Set Int}

theorem place_heap (places : place q i x = .ok q') : q.heap.set i x = .ok q'.heap := by
  obtain ⟨heap, sets, places⟩ := bind_eq_ok.mp places
  obtain ⟨pos, -, rfl⟩ := bind_pure_eq_ok.mp places
  exact sets

/-- The heap of `from_graph` sifts as that of a queue does. -/
theorem siftdownHeap_eq {sifted : Nat × NodePriorityQueue}
    (sifts : siftdown less n x q i = .ok sifted) (places : place sifted.2 sifted.1 x = .ok q') :
    siftdownHeap less n x q.heap i = .ok q'.heap := by
  induction hd : n - i using Nat.strongRecOn generalizing i q with
  | ind d ih =>
    have stops (stops : Except.ok (i, q) = (.ok sifted : Except Raised _)) :
        q.heap.set i x = .ok q'.heap := by
      obtain rfl := Except.ok.inj stops
      exact place_heap places
    have goes {c : Nat} {y : Int} (below : i < c) (inside : ¬n ≤ i)
        (sifts : (place q i y >>= fun q₁ => siftdown less n x q₁ c) = .ok sifted) :
        (q.heap.set i y >>= fun heap => siftdownHeap less n x heap c) = .ok q'.heap := by
      obtain ⟨q₁, moves, sifts⟩ := bind_eq_ok.mp sifts
      exact bind_eq_ok.mpr ⟨q₁.heap, place_heap moves, ih _ (by omega) sifts rfl⟩
    have left : i * 2 + 1 = i + i + 1 := by omega
    rw [siftdown] at sifts
    rw [siftdownHeap, left]
    by_cases none : i + i + 1 ≥ n
    · rw [if_pos none] at sifts ⊢
      exact stops sifts
    rw [if_neg none] at sifts ⊢
    obtain ⟨y, getY, sifts⟩ := bind_eq_ok.mp sifts
    by_cases single : i + i + 1 + 1 ≥ n
    · rw [if_pos single] at sifts ⊢
      obtain ⟨lesser, is, sifts⟩ := bind_eq_ok.mp sifts
      rw [getY, ok_bind, is, ok_bind]
      cases lesser with
      | true => exact goes (by omega) (by omega) sifts
      | false => exact stops sifts
    · rw [if_neg single] at sifts ⊢
      obtain ⟨z, getZ, sifts⟩ := bind_eq_ok.mp sifts
      obtain ⟨lesser, is, sifts⟩ := bind_eq_ok.mp sifts
      rw [getY, ok_bind, getZ, ok_bind, is, ok_bind]
      cases lesser with
      | true =>
        obtain ⟨lesser, is, sifts⟩ := bind_eq_ok.mp sifts
        simp only [if_true, is, ok_bind]
        cases lesser with
        | true => exact goes (by omega) (by omega) sifts
        | false => exact goes (by omega) (by omega) sifts
      | false =>
        obtain ⟨lesser, is, sifts⟩ := bind_eq_ok.mp sifts
        simp only [Bool.false_eq_true, if_false, is, ok_bind]
        cases lesser with
        | true => exact goes (by omega) (by omega) sifts
        | false => exact stops sifts

section Order

variable {M : Type} [LinearOrder M] {rank : Int → M}

def floored (lo : Nat) (f : Nat → M) : Nat → WithBot M := fun k => if k < lo then ⊥ else f k

omit [LinearOrder M] in
theorem floored_of_le {lo k : Nat} {f : Nat → M} (le : lo ≤ k) : floored lo f k = f k :=
  if_neg (Nat.not_lt.mpr le)

omit [LinearOrder M] in
theorem floored_swapped {lo j : Nat} {f : Nat → M} (left : lo ≤ i) (right : lo ≤ j) :
    floored lo (swapped f i j) = swapped (floored lo f) i j := by
  funext k
  by_cases isI : k = i
  · rw [isI, swapped_left, floored_of_le left, floored_of_le right, swapped_left]
  by_cases isJ : k = j
  · rw [isJ, swapped_right, floored_of_le left, floored_of_le right, swapped_right]
  · rw [swapped_of_ne isI isJ, floored, floored, swapped_of_ne isI isJ]

theorem siftdown_floored (decides : Decides less rank S) (valid : Valid q n S) (here : i < n)
    (order : Ordered (floored (i + 1) (ranks rank q)) n) :
    ∃ q', siftdownHeap less n (q.heap.cell i) q.heap i = .ok q'.heap ∧
      q'.heap.length = q.heap.length ∧ Valid q' n S ∧ Ordered (floored i (ranks rank q')) n := by
  have self : placed q i (q.heap.cell i) = q := by
    have self := valid.placed_self (valid.mem i here)
    rwa [valid.pos_at i here] at self
  have hole : DownOrder (floored i (ranks rank q)) n i := by
    have low {k : Nat} (lt : k < i) (x : WithBot M) : floored i (ranks rank q) k ≤ x := by
      rw [floored, if_pos lt]
      exact bot_le
    constructor
    · intro k pos less other
      by_cases before : parent k < i
      · exact low before _
      · have above := order k pos less
        have up := parent_lt pos
        rw [floored_of_le (by omega), floored_of_le (by omega)] at above ⊢
        exact above
    · exact fun pos c _ _ => low (parent_lt pos) _
  obtain ⟨j, q₁, sifts, -, within, valid', ordered⟩ :=
    siftdown_run (P := fun f k => i ≤ k ∧ DownOrder (floored i f) n k)
      (Q := fun f => Ordered (floored i f) n) (x := q.heap.cell i) (q := q) (i := i)
      (fun f k c order child less lower least => by
        have le : i ≤ c := order.1.trans child.lt.le
        refine ⟨le, ?_⟩
        rw [floored_swapped order.1 le]
        apply order.2.step child less
        · rw [floored_of_le le, floored_of_le order.1]
          exact WithBot.coe_lt_coe.mpr lower
        · intro c' child' less'
          rw [floored_of_le le, floored_of_le (order.1.trans child'.lt.le)]
          exact WithBot.coe_le_coe.mpr (least c' child' less'))
      (fun f k order least => order.2.ordered fun c child less => by
        rw [floored_of_le order.1, floored_of_le (order.1.trans child.lt.le)]
        exact WithBot.coe_le_coe.mpr (least c child less))
      decides (by rw [self]; exact valid) here (valid.mem i here) (by rw [self]; exact ⟨le_rfl, hole⟩)
  exact ⟨_, siftdownHeap_eq sifts (place_ok valid' within (valid.mem i here)),
    (siftdown_kept sifts).heap, valid', ordered⟩

theorem makeHeap_spec (decides : Decides less rank S) (valid : Valid q n S) (bound : i ≤ n)
    (order : Ordered (floored i (ranks rank q)) n) :
    ∃ q', makeHeap less n i q.heap = .ok q'.heap ∧ q'.heap.length = q.heap.length ∧
      Valid q' n S ∧ Ordered (ranks rank q') n := by
  induction i generalizing q with
  | zero =>
    refine ⟨q, rfl, rfl, valid, fun k pos less => ?_⟩
    exact WithBot.coe_le_coe.mp (order k pos less)
  | succ i ih =>
    obtain ⟨q₁, sifts, length₁, valid₁, order₁⟩ := siftdown_floored decides valid bound order
    obtain ⟨q', makes, length, valid', ordered⟩ := ih valid₁ (Nat.le_of_succ_le bound) order₁
    refine ⟨q', ?_, length.trans length₁, valid', ordered⟩
    rw [makeHeap, RwVector.get_of_within (valid.within_heap bound), ok_bind, sifts, ok_bind]
    exact makes

end Order

theorem fillHeap_spec (us : List Int) (room : (i : Int) + us.length ≤ heap.length) :
    ∃ heap', fillHeap us i heap = .ok heap' ∧ heap'.length = heap.length ∧
      (∀ (k : Nat) u, us[k]? = some u → heap'.cell (i + k : Nat) = u) ∧
        ∀ k < i, heap'.cell (k : Nat) = heap.cell (k : Nat) := by
  induction us generalizing i heap with
  | nil => exact ⟨heap, rfl, rfl, by simp, fun _ _ => rfl⟩
  | cons u us ih =>
    rw [List.length_cons] at room
    push_cast at room
    have within : heap.Within i := ⟨Int.natCast_nonneg i, by omega⟩
    obtain ⟨heap', fills, length, cells, before⟩ :=
      @ih (i + 1) (heap.put i u) (by rw [RwVector.put_length]; push_cast; omega)
    refine ⟨heap', ?_, length, ?_, ?_⟩
    · rw [fillHeap, RwVector.set_of_within within, ok_bind]
      exact fills
    · intro k v found
      cases k with
      | zero =>
        cases found
        rw [Nat.add_zero, before i (Nat.lt_succ_self i), RwVector.put_cell_self]
      | succ k =>
        rw [← cells k v found]
        congr 2
        omega
    · intro k less
      rw [before k (less.trans (Nat.lt_succ_self i)), RwVector.put_cell_of_ne]
      exact_mod_cast less.ne

theorem fillPos_spec {pos : RwVector Nat} (is : List Nat)
    (within : ∀ i ∈ is, pos.Within (heap.cell (i : Nat)))
    (nodup : (is.map fun i => heap.cell (i : Nat)).Nodup) :
    ∃ pos', fillPos heap is pos = .ok pos' ∧ pos'.length = pos.length ∧
      (∀ i ∈ is, pos'.cell (heap.cell (i : Nat)) = i) ∧
        ∀ x ∉ is.map fun i => heap.cell (i : Nat), pos'.cell x = pos.cell x := by
  induction is generalizing pos with
  | nil => exact ⟨pos, rfl, rfl, by simp, fun _ _ => rfl⟩
  | cons i is ih =>
    obtain ⟨here, later⟩ := List.forall_mem_cons.mp within
    rw [List.map_cons, List.nodup_cons] at nodup
    obtain ⟨pos', fills, length, cells, others⟩ := @ih (pos.put (heap.cell i) i) later nodup.2
    refine ⟨pos', ?_, length, ?_, ?_⟩
    · rw [fillPos, RwVector.set_of_within here, ok_bind]
      exact fills
    · intro k mem
      rcases List.mem_cons.mp mem with rfl | mem
      · rw [others _ nodup.1, RwVector.put_cell_self]
      · exact cells k mem
    · intro x absent
      rw [List.map_cons, List.mem_cons, not_or] at absent
      rw [others x absent.2, RwVector.put_cell_of_ne absent.1]

theorem positions {capacity : Int} (length : heap.length = n)
    (nodup : ((List.range n).map fun i => heap.cell (i : Nat)).Nodup)
    (same : ∀ u, u ∈ ((List.range n).map fun i => heap.cell (i : Nat)) ↔ u ∈ S)
    (bound : ∀ u ∈ S, 0 ≤ u ∧ u < capacity) :
    ∃ pos, fillPos heap (List.range n) (RwVector.makeRwVector capacity 0) = .ok pos ∧
      pos.length = capacity ∧ Valid ⟨heap, pos, n⟩ n S := by
  have mem (k : Nat) (less : k < n) : heap.cell k ∈ S :=
    (same _).mp (List.mem_map_of_mem (List.mem_range.mpr less))
  obtain ⟨pos, fills, posLength, cells, -⟩ := @fillPos_spec heap
    (RwVector.makeRwVector capacity 0) (List.range n)
    (fun i i_mem => bound _ (mem i (List.mem_range.mp i_mem))) nodup
  have posAt (k : Nat) (less : k < n) : pos.cell (heap.cell k) = k :=
    cells k (List.mem_range.mpr less)
  have found {u : Int} (u_mem : u ∈ S) : ∃ k < n, heap.cell (k : Nat) = u := by
    obtain ⟨k, k_mem, rfl⟩ := List.mem_map.mp ((same u).mpr u_mem)
    exact ⟨k, List.mem_range.mp k_mem, rfl⟩
  refine ⟨pos, fills, posLength, ?_⟩
  constructor
  case fits => exact length.ge
  case within =>
    intro u u_mem
    refine ⟨(bound u u_mem).1, ?_⟩
    rw [posLength]
    exact (bound u u_mem).2
  case pos_lt =>
    intro u u_mem
    obtain ⟨k, less, rfl⟩ := found u_mem
    rw [posAt k less]
    exact less
  case at_pos =>
    intro u u_mem
    obtain ⟨k, less, rfl⟩ := found u_mem
    rw [posAt k less]
  case mem => exact mem
  case pos_at => exact posAt

end Heaps

section Graphs

variable {E : Type} {g : Digraph E} {less : Less} {M : Type} [LinearOrder M] {rank : Int → M}

theorem fromGraph_ordered (decides : Decides less rank { u | u ∈ g.nodes })
    (several : 2 ≤ g.nodes.length) : ∃ q, fromGraph less g = .ok q ∧ q.size = g.nodes.length ∧
      q.heap.length = g.nodes.length ∧ q.pos.length = g.capacity ∧
      Valid q g.nodes.length { u | u ∈ g.nodes } ∧ Ordered (ranks rank q) g.nodes.length := by
  obtain ⟨heap, fills, length, cells, -⟩ := @fillHeap_spec 0
    (RwVector.makeRwVector g.nodes.length 0) g.nodes (by simp [RwVector.makeRwVector])
  have listed : (List.range g.nodes.length).map (fun i => heap.cell (i : Nat)) = g.nodes := by
    apply List.ext_getElem
    · simp
    · intro k _ less
      simp [← cells k _ (List.getElem?_eq_getElem less)]
  obtain ⟨pos, -, -, valid⟩ := positions (S := { u | u ∈ g.nodes }) length
    (by rw [listed]; exact g.nodes_nodup) (by simp [listed]) g.nodes_bound
  have leaves : Ordered (floored ((g.nodes.length + 1) / 2 + 1) (ranks rank ⟨heap, pos, g.nodes.length⟩))
      g.nodes.length := by
    intro k pos less
    rw [floored, if_pos]
    · exact bot_le
    · unfold parent
      omega
  obtain ⟨q, makes, kept, valid', ordered⟩ := makeHeap_spec decides valid (by omega) leaves
  have length' : q.heap.length = g.nodes.length := kept.trans length
  obtain ⟨pos', fillsPos, posLength, valid''⟩ := positions (S := { u | u ∈ g.nodes }) length'
    (List.nodup_range.map_on fun j left k right same => by
      rw [← valid'.pos_at j (List.mem_range.mp left), same,
        valid'.pos_at k (List.mem_range.mp right)])
    (fun u => ⟨fun mem => by
        obtain ⟨k, k_mem, rfl⟩ := List.mem_map.mp mem
        exact valid'.mem k (List.mem_range.mp k_mem),
      fun mem => List.mem_map.mpr
        ⟨q.pos.cell u, List.mem_range.mpr (valid'.pos_lt u mem), valid'.at_pos u mem⟩⟩)
    g.nodes_bound
  refine ⟨⟨q.heap, pos', g.nodes.length⟩, ?_, rfl, length', posLength, valid'', ordered⟩
  rw [fromGraph, fills, ok_bind, makes, ok_bind, fillsPos, ok_bind]

theorem fromGraph_spec (decides : Decides less rank { u | u ∈ g.nodes })
    (several : 2 ≤ g.nodes.length) : ∃ q, fromGraph less g = .ok q ∧ q.size = g.nodes.length ∧
      Valid q g.nodes.length { u | u ∈ g.nodes } ∧ Ordered (ranks rank q) g.nodes.length := by
  obtain ⟨q, makes, size, -, -, valid, ordered⟩ := fromGraph_ordered decides several
  exact ⟨q, makes, size, valid, ordered⟩

/-- The first place that `make_heap` looks at is then no place of the heap. -/
theorem fromGraph_few (few : g.nodes.length < 2) : fromGraph less g = .error .indexOutOfBounds := by
  obtain ⟨heap, fills, length, -⟩ := @fillHeap_spec 0
    (RwVector.makeRwVector g.nodes.length 0) g.nodes (by simp [RwVector.makeRwVector])
  have outside : heap.get ((g.nodes.length + 1) / 2 : Nat) = .error .indexOutOfBounds := by
    apply if_neg
    rintro ⟨-, less⟩
    rw [length] at less
    simp only [RwVector.makeRwVector] at less
    omega
  rw [fromGraph, fills, ok_bind, makeHeap, outside]
  rfl

end Graphs

section Another

variable {M : Type} [LinearOrder M] {less : Less} {rank : Int → M} {q : NodePriorityQueue} {n : Nat}
  {S : Set Int} {x : Int}

omit [LinearOrder M] in
theorem Valid.another (valid : Valid q n S) (fresh : x ∉ S) (room : (n : Int) < q.heap.length)
    (within : q.pos.Within x) : Valid (placed q n x) (n + 1) (insert x S) := by
  have other {y : Int} (mem : y ∈ S) : y ≠ x := by
    rintro rfl
    exact fresh mem
  constructor
  case fits => exact room
  case within =>
    rintro y (rfl | mem)
    · exact within
    · exact valid.within y mem
  case pos_lt =>
    rintro y (rfl | mem)
    · rw [placed_pos]
      exact Nat.lt_succ_self n
    · rw [placed_pos_of_ne (other mem)]
      exact (valid.pos_lt y mem).trans (Nat.lt_succ_self n)
  case at_pos =>
    rintro y (rfl | mem)
    · rw [placed_pos, placed_at]
    · rw [placed_pos_of_ne (other mem), placed_at_of_ne (valid.pos_lt y mem).ne]
      exact valid.at_pos y mem
  case mem =>
    intro k less
    by_cases last : k = n
    · rw [last, placed_at]
      exact .inl rfl
    · rw [placed_at_of_ne last]
      exact .inr (valid.mem k (by omega))
  case pos_at =>
    intro k less
    by_cases last : k = n
    · rw [last, placed_at, placed_pos]
    · have before : k < n := by omega
      rw [placed_at_of_ne last, placed_pos_of_ne (other (valid.mem k before))]
      exact valid.pos_at k before

theorem set_spec (decides : Decides less rank (insert x S)) (valid : Valid q n S)
    (size : q.size = n) (ordered : Ordered (ranks rank q) n) (fresh : x ∉ S)
    (room : (n : Int) < q.heap.length) (within : q.pos.Within x) :
    ∃ q', set less q x = .ok q' ∧ q'.size = n + 1 ∧ Valid q' (n + 1) (insert x S) ∧
      Ordered (ranks rank q') (n + 1) := by
  have another := valid.another fresh room within
  have order : UpOrder (ranks rank (placed q n x)) (n + 1) n := by
    constructor
    · intro k pos less last
      have before : k < n := by omega
      unfold ranks
      rw [placed_at_of_ne last, placed_at_of_ne ((parent_lt pos).trans before).ne]
      exact ordered k pos before
    · intro pos c child less
      have below := child.lt
      omega
  obtain ⟨q', decreases, size', valid', ordered'⟩ := @decreaseWeight_spec M _ { placed q n x with
    size := n + 1 } (n + 1) (insert x S) x rank less decides { another with } (.inl rfl)
      (by rw [show ({ placed q n x with size := n + 1 } : NodePriorityQueue).pos.cell x = n from
        placed_pos]; exact order)
  refine ⟨q', ?_, size', valid', ordered'⟩
  have places : place q q.size x = .ok (placed q n x) := by
    rw [size, place, RwVector.set_of_within (⟨Int.natCast_nonneg n, room⟩ : q.heap.Within n), ok_bind,
      RwVector.set_of_within within, ok_bind]
    rfl
  rw [set, places, ok_bind, size]
  exact decreases

end Another

end NodePriorityQueue

end Mythryl.Graph
