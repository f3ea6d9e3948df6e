import Mythryl.Hashtable.Representation
import Mathlib.Data.Finset.Card
import Mathlib.Data.List.Basic
import Mathlib.Data.Sym.Sym2

/-!
# Graphs as hashtables of edges

`src/lib/std/src/graph-by-edge-hashtable.pkg`.
-/

namespace Mythryl.GraphByEdgeHashtable
open HashtableRepresentation

def untFromInt (i : Nat) : Nat := i % 2 ^ 31
def untAdd (a b : Nat) : Nat := (a + b) % 2 ^ 31
def untSub (a b : Nat) : Nat := (a + 2 ^ 31 - b) % 2 ^ 31
def untShiftLeft (a k : Nat) : Nat := (a <<< k) % 2 ^ 31

/-- The mask is short, so that `to_int_x` has no sign to extend. -/
def hashFun (i j shift size : Nat) : Nat :=
  let i := untFromInt i
  let j := untFromInt j
  let h := untAdd (untShiftLeft i shift) (untAdd i j)
  let mask := size - 1
  h &&& mask

structure EdgeKey (K : Type) where
  node : Nat → Prop
  pack : Nat → Nat → K
  unpack : K → Nat × Nat
  unpack_pack : ∀ i j, node i → node j → unpack (pack i j) = (i, j)

def smallPack (i j : Nat) : Nat := untAdd (untShiftLeft (untFromInt i) 15) (untFromInt j)

def smallUnpack (k : Nat) : Nat × Nat :=
  let i := k >>> 15
  (i, untSub k (untShiftLeft i 15))

theorem smallUnpack_smallPack (i j : Nat) (hi : i < 2 ^ 15) (hj : j < 2 ^ 15) :
    smallUnpack (smallPack i j) = (i, j) := by
  have word : smallPack i j = i * 2 ^ 15 + j := by
    simp only [smallPack, untAdd, untShiftLeft, untFromInt, Nat.shiftLeft_eq]
    omega
  rw [word, smallUnpack, Nat.shiftRight_eq_div_pow]
  simp only [untSub, untShiftLeft, Nat.shiftLeft_eq]
  rw [Prod.mk.injEq]
  omega

def small : EdgeKey Nat where
  node i := i < 2 ^ 15
  pack := smallPack
  unpack := smallUnpack
  unpack_pack := smallUnpack_smallPack

def large : EdgeKey (Nat × Nat) where
  node _ := True
  pack := Prod.mk
  unpack k := k
  unpack_pack _ _ _ _ := rfl

structure Table (K : Type) where
  buckets : List (List K)
  shift : Nat
  size : ∃ bits, buckets.length = 2 ^ bits

def bucketAt {K : Type} (buckets : List (List K)) (n : Nat) : List K := buckets.getD n []

def makeTable (K : Type) (bits shift : Nat) : Except (Raised Empty) (Table K) :=
  if maximumVectorLength < 2 ^ bits then .error .size
  else .ok ⟨List.replicate (2 ^ bits) [], shift, bits, List.length_replicate⟩

structure Graph (K : Type) where
  table : Table K
  edgeCount : Int

def emptyGraph : Graph Nat := ⟨⟨List.replicate 2 [], 0, 1, rfl⟩, 0⟩

def getEdgeCount {K : Type} (graph : Graph K) : Int := graph.edgeCount

section Operations

variable {K : Type} [DecidableEq K] (key : EdgeKey K)

def order (i j : Nat) : Nat × Nat := if i < j then (i, j) else (j, i)

def find (k : K) : List K → Bool
  | [] => false
  | k' :: b => k == k' || find k b

def edgeExists (graph : Graph K) (i j : Nat) : Bool :=
  let (i, j) := order i j
  let tab := graph.table.buckets
  find (key.pack i j) (bucketAt tab (hashFun i j graph.table.shift tab.length))

def split (shift newSize n : Nat) : List K → List K → List K → List K × List K
  | [], a, b => (a, b)
  | k :: l, a, b =>
      let (i, j) := key.unpack k
      if hashFun i j shift newSize = n then split shift newSize n l (k :: a) b
      else split shift newSize n l a (k :: b)

def enter (shift : Nat) (oldTable : List (List K)) (newTable : List (List K)) (n : Nat) :
    List (List K) :=
  let oldSize := oldTable.length
  if n < oldSize then
    let (a, b) := split key shift (oldSize + oldSize) n (bucketAt oldTable n) [] []
    enter shift oldTable ((newTable.set n a).set (n + oldSize) b) (n + 1)
  else newTable
  termination_by oldTable.length - n

omit [DecidableEq K] in
theorem length_enter (shift : Nat) (oldTable newTable : List (List K)) (n : Nat) :
    (enter key shift oldTable newTable n).length = newTable.length := by
  fun_induction enter key shift oldTable newTable n with
  | case1 newTable n oldSize inside a b halves ih =>
    rw [ih, List.length_set, List.length_set]
  | case2 newTable n oldSize outside => rfl

def grown (table : Table K) : Table K where
  buckets :=
    let newSize := table.buckets.length + table.buckets.length
    enter key table.shift table.buckets (List.replicate newSize []) 0
  shift := table.shift
  size := by
    obtain ⟨bits, size⟩ := table.size
    exact ⟨bits + 1, by rw [length_enter, List.length_replicate, size, Nat.pow_succ, Nat.mul_two]⟩

def insertEdge (graph : Graph K) (i j : Nat) : Except (Raised Empty) (Bool × Graph K) :=
  let (i, j) := order i j
  let tab := graph.table.buckets
  let len := tab.length
  if graph.edgeCount < len then
    let index := hashFun i j graph.table.shift len
    let k := key.pack i j
    let b := bucketAt tab index
    if find k b then .ok (false, graph)
    else
      let table :=
        { graph.table with
          buckets := tab.set index (k :: b)
          size := by rw [List.length_set]; exact graph.table.size }
      .ok (true, ⟨table, graph.edgeCount + 1⟩)
  else if maximumVectorLength < len + len then .error .size
  else insertEdge { graph with table := grown key graph.table } i j
  termination_by maximumVectorLength + 1 - graph.table.buckets.length
  decreasing_by
    obtain ⟨bits, size⟩ := graph.table.size
    have pos := Nat.pow_pos (n := bits) Nat.two_pos
    have equal : len = 2 ^ bits := size
    simp only [grown, length_enter, List.length_replicate]
    omega

def drop (k : K) : List K → Int → List K × Int
  | [], edgeCount => ([], edgeCount)
  | k' :: b, edgeCount =>
      if k = k' then (b, edgeCount - 1)
      else
        let (b, edgeCount) := drop k b edgeCount
        (k' :: b, edgeCount)

def delete (graph : Graph K) (i j : Nat) : Bool × Graph K :=
  let k := key.pack i j
  let tab := graph.table.buckets
  let index := hashFun i j graph.table.shift tab.length
  let n := graph.edgeCount
  let (b, edgeCount) := drop k (bucketAt tab index) n
  let table :=
    { graph.table with
      buckets := tab.set index b
      size := by rw [List.length_set]; exact graph.table.size }
  (edgeCount != n, ⟨table, edgeCount⟩)

end Operations

/-! # Which edges a graph has -/

variable {K : Type} {key : EdgeKey K} {edges : Finset (Sym2 Nat)} {i j i' j' n : Nat}

theorem EdgeKey.pack_inj (key : EdgeKey K) (hi : key.node i) (hj : key.node j) (hi' : key.node i')
    (hj' : key.node j') (same : key.pack i j = key.pack i' j') : i = i' ∧ j = j' := by
  have pair : (i, j) = (i', j') := by
    rw [← key.unpack_pack i j hi hj, same, key.unpack_pack i' j' hi' hj']
  simpa using pair

theorem edge_eq (le : i ≤ j) (le' : i' ≤ j') (same : s(i, j) = s(i', j')) : i = i' ∧ j = j' := by
  rcases Sym2.eq_iff.mp same with equal | ⟨rfl, rfl⟩
  · exact equal
  · exact ⟨Nat.le_antisymm le le', Nat.le_antisymm le' le⟩

theorem order_spec (key : EdgeKey K) (hi : key.node i) (hj : key.node j) :
    ∃ a b, order i j = (a, b) ∧ a ≤ b ∧ s(a, b) = s(i, j) ∧ key.node a ∧ key.node b := by
  rw [order]
  split
  next lt => exact ⟨i, j, rfl, Nat.le_of_lt lt, rfl, hi, hj⟩
  next ge => exact ⟨j, i, rfl, Nat.le_of_not_lt ge, Sym2.eq_swap, hj, hi⟩

variable {shift : Nat}

theorem hashFun_lt {size : Nat} (pos : 0 < size) : hashFun i j shift size < size := by
  have le : hashFun i j shift size ≤ size - 1 := Nat.and_le_right
  omega

theorem hashFun_twice {size : Nat} (power : ∃ bits, size = 2 ^ bits) :
    hashFun i j shift (size + size) = hashFun i j shift size ∨
      hashFun i j shift (size + size) = hashFun i j shift size + size := by
  obtain ⟨bits, rfl⟩ := power
  rw [← Nat.mul_two, ← Nat.pow_succ, hashFun, hashFun, Nat.and_two_pow_sub_one_eq_mod,
    Nat.and_two_pow_sub_one_eq_mod, Nat.pow_succ, Nat.mod_mul]
  generalize untAdd _ _ = h
  rcases Nat.mod_two_eq_zero_or_one (h / 2 ^ bits) with bit | bit <;> rw [bit] <;> simp

theorem find_iff [DecidableEq K] {k : K} {b : List K} : find k b = true ↔ k ∈ b := by
  induction b with
  | nil => simp [find]
  | cons k' b ih => simp [find, ih]

theorem drop_eq [DecidableEq K] (k : K) (b : List K) (count : Int) :
    drop k b count = (b.erase k, if k ∈ b then count - 1 else count) := by
  induction b generalizing count with
  | nil => rfl
  | cons k' b ih =>
    rw [drop, ih, List.erase_cons]
    by_cases same : k = k'
    · simp [same]
    · simp [same, Ne.symm same]

theorem split_eq (shift newSize n : Nat) (l a b : List K) :
    split key shift newSize n l a b =
      ((l.filter fun k => hashFun (key.unpack k).1 (key.unpack k).2 shift newSize = n).reverse ++ a,
        (l.filter fun k => hashFun (key.unpack k).1 (key.unpack k).2 shift newSize ≠ n).reverse ++
          b) := by
  induction l generalizing a b with
  | nil => rfl
  | cons k l ih =>
    rw [split]
    simp only [ih]
    by_cases here : hashFun (key.unpack k).1 (key.unpack k).2 shift newSize = n <;> simp [here]

theorem bucketAt_set {buckets : List (List K)} {b : List K} (inside : i < buckets.length) :
    bucketAt (buckets.set i b) n = if n = i then b else bucketAt buckets n := by
  rw [bucketAt, bucketAt, List.getD_eq_getElem?_getD, List.getElem?_set]
  by_cases here : i = n
  · subst here
    simp [inside]
  · rw [if_neg here, if_neg (Ne.symm here), List.getD_eq_getElem?_getD]

theorem bucketAt_enter (shift : Nat) (old new : List (List K)) (n : Nat)
    (size : new.length = old.length + old.length) {m : Nat} (inside : m < old.length) :
    (bucketAt (enter key shift old new n) m, bucketAt (enter key shift old new n) (m + old.length)) =
      if m < n then (bucketAt new m, bucketAt new (m + old.length))
      else split key shift (old.length + old.length) m (bucketAt old m) [] [] := by
  fun_induction enter key shift old new n with
  | case1 new n oldSize more a b halves ih =>
    rw [ih (by simpa using size), bucketAt_set (by simp; omega), bucketAt_set (by omega),
      bucketAt_set (by simp; omega), bucketAt_set (by omega)]
    rcases Nat.lt_trichotomy m n with before | rfl | after
    · rw [if_pos (by omega), if_pos before, if_neg (by omega), if_neg (by omega),
        if_neg (by omega), if_neg (by omega)]
    · rw [if_pos (by omega), if_neg (Nat.lt_irrefl m), if_neg (by omega), if_pos rfl, if_pos rfl]
      exact halves.symm
    · rw [if_neg (by omega), if_neg (by omega)]
  | case2 new n oldSize done => rw [if_pos (by omega)]

structure Bucketed (key : EdgeKey K) (shift size : Nat) (edges : Finset (Sym2 Nat)) (n : Nat)
    (b : List K) : Prop where
  nodup : b.Nodup
  mem : ∀ k, k ∈ b ↔
    ∃ i j, i ≤ j ∧ s(i, j) ∈ edges ∧ k = key.pack i j ∧ hashFun i j shift size = n

section Bucketed

variable {shift size : Nat} {b : List K} (bucketed : Bucketed key shift size edges n b)
  (nodes : ∀ i j, s(i, j) ∈ edges → key.node i ∧ key.node j)
include bucketed nodes

theorem Bucketed.pack_mem (le : i ≤ j) (hi : key.node i) (hj : key.node j)
    (hash : hashFun i j shift size = n) : key.pack i j ∈ b ↔ s(i, j) ∈ edges := by
  rw [bucketed.mem]
  constructor
  · rintro ⟨a, c, _, mem, same, _⟩
    obtain ⟨ha, hc⟩ := nodes a c mem
    obtain ⟨rfl, rfl⟩ := key.pack_inj hi hj ha hc same
    exact mem
  · exact fun mem => ⟨i, j, le, mem, rfl, hash⟩

theorem Bucketed.half {m : Nat} {p : K → Bool}
    (picks : ∀ i j, key.node i → key.node j → (hashFun i j shift (size + size) = m ↔
      hashFun i j shift size = n ∧ p (key.pack i j) = true)) :
    Bucketed key shift (size + size) edges m (b.filter p).reverse := by
  constructor
  · exact List.nodup_reverse.mpr (bucketed.nodup.filter p)
  · intro k
    rw [List.mem_reverse, List.mem_filter, bucketed.mem]
    constructor
    · rintro ⟨⟨i, j, le, mem, rfl, hash⟩, picked⟩
      obtain ⟨hi, hj⟩ := nodes i j mem
      exact ⟨i, j, le, mem, rfl, (picks i j hi hj).mpr ⟨hash, picked⟩⟩
    · rintro ⟨i, j, le, mem, rfl, hash⟩
      obtain ⟨hi, hj⟩ := nodes i j mem
      obtain ⟨hash, picked⟩ := (picks i j hi hj).mp hash
      exact ⟨⟨i, j, le, mem, rfl, hash⟩, picked⟩

end Bucketed

structure Stores (key : EdgeKey K) (table : Table K) (edges : Finset (Sym2 Nat)) : Prop where
  nodes : ∀ i j, s(i, j) ∈ edges → key.node i ∧ key.node j
  buckets : ∀ n < table.buckets.length,
    Bucketed key table.shift table.buckets.length edges n (bucketAt table.buckets n)

structure Represents (key : EdgeKey K) (graph : Graph K) (edges : Finset (Sym2 Nat)) : Prop where
  stores : Stores key graph.table edges
  count : graph.edgeCount = edges.card

theorem Table.pos (table : Table K) : 0 < table.buckets.length := by
  obtain ⟨bits, size⟩ := table.size
  rw [size]
  exact Nat.pow_pos Nat.two_pos

theorem Stores.empty {bits : Nat} (size : ∃ n, (List.replicate bits ([] : List K)).length = 2 ^ n) :
    Stores key ⟨List.replicate bits [], shift, size⟩ ∅ := by
  constructor
  · intro i j mem
    exact absurd mem (Finset.notMem_empty _)
  · intro n inside
    have none : bucketAt (List.replicate bits ([] : List K)) n = [] := by
      rw [bucketAt, List.getD_eq_getElem?_getD, List.getElem?_replicate]
      split <;> rfl
    rw [none]
    exact ⟨List.nodup_nil, by simp⟩

theorem Stores.grown {table : Table K} (stores : Stores key table edges) :
    Stores key (grown key table) edges := by
  have length : (GraphByEdgeHashtable.grown key table).buckets.length =
      table.buckets.length + table.buckets.length := by
    rw [GraphByEdgeHashtable.grown, length_enter, List.length_replicate]
  have halves {m : Nat} (inside : m < table.buckets.length) :=
    (@bucketAt_enter K key table.shift table.buckets
      (List.replicate (table.buckets.length + table.buckets.length) []) 0 List.length_replicate
      m inside).trans (if_neg (Nat.not_lt_zero m))
  simp only [split_eq, List.append_nil, Prod.mk.injEq] at halves
  have less (i j : Nat) :
      hashFun i j table.shift table.buckets.length < table.buckets.length := hashFun_lt table.pos
  have twice (i j : Nat) := @hashFun_twice i j table.shift _ table.size
  constructor
  · exact stores.nodes
  · intro n inside
    rw [length] at inside ⊢
    rcases Nat.lt_or_ge n table.buckets.length with low | high
    · have bucket := (halves low).1
      rw [show bucketAt (GraphByEdgeHashtable.grown key table).buckets n = _ from bucket]
      apply (stores.buckets n low).half stores.nodes
      intro i j hi hj
      simp only [key.unpack_pack i j hi hj, decide_eq_true_iff]
      rcases twice i j with same | more
      · rw [same, and_self]
      · omega
    · obtain ⟨m, rfl⟩ : ∃ m, n = m + table.buckets.length :=
        ⟨n - table.buckets.length, (Nat.sub_add_cancel high).symm⟩
      have bucket := (halves (show m < table.buckets.length by omega)).2
      rw [show bucketAt (GraphByEdgeHashtable.grown key table).buckets _ = _ from bucket]
      apply (stores.buckets m (by omega)).half stores.nodes
      intro i j hi hj
      simp only [key.unpack_pack i j hi hj, decide_eq_true_iff]
      have less := less i j
      rcases twice i j with same | more
      · rw [same]
        omega
      · rw [more]
        omega

section Operations

variable {b : List K}

theorem Bucketed.insert {shift size : Nat} (bucketed : Bucketed key shift size edges n b)
    (nodes : ∀ i j, s(i, j) ∈ edges → key.node i ∧ key.node j) (le : i ≤ j) (hi : key.node i)
    (hj : key.node j) (hash : hashFun i j shift size = n) (absent : s(i, j) ∉ edges) :
    Bucketed key shift size (insert s(i, j) edges) n (key.pack i j :: b) := by
  constructor
  · apply List.nodup_cons.mpr ⟨_, bucketed.nodup⟩
    rwa [bucketed.pack_mem nodes le hi hj hash]
  · intro k
    rw [List.mem_cons, bucketed.mem]
    constructor
    · rintro (rfl | ⟨a, c, le, mem, rfl, hash⟩)
      · exact ⟨i, j, le, Finset.mem_insert_self _ _, rfl, hash⟩
      · exact ⟨a, c, le, Finset.mem_insert_of_mem mem, rfl, hash⟩
    · rintro ⟨a, c, le', mem, rfl, hash⟩
      rcases Finset.mem_insert.mp mem with same | mem
      · obtain ⟨rfl, rfl⟩ := edge_eq le' le same
        exact .inl rfl
      · exact .inr ⟨a, c, le', mem, rfl, hash⟩

theorem Bucketed.erase [DecidableEq K] {shift size : Nat}
    (bucketed : Bucketed key shift size edges n b)
    (nodes : ∀ i j, s(i, j) ∈ edges → key.node i ∧ key.node j) (le : i ≤ j) (hi : key.node i)
    (hj : key.node j) :
    Bucketed key shift size (edges.erase s(i, j)) n (b.erase (key.pack i j)) := by
  constructor
  · exact bucketed.nodup.erase _
  · intro k
    rw [bucketed.nodup.mem_erase_iff, bucketed.mem]
    constructor
    · rintro ⟨other, a, c, le', mem, rfl, hash⟩
      refine ⟨a, c, le', Finset.mem_erase.mpr ⟨fun same => other ?_, mem⟩, rfl, hash⟩
      obtain ⟨rfl, rfl⟩ := edge_eq le' le same
      rfl
    · rintro ⟨a, c, le', mem, rfl, hash⟩
      obtain ⟨other, mem⟩ := Finset.mem_erase.mp mem
      refine ⟨fun same => other ?_, a, c, le', mem, rfl, hash⟩
      obtain ⟨ha, hc⟩ := nodes a c mem
      obtain ⟨rfl, rfl⟩ := key.pack_inj ha hc hi hj same
      rfl

theorem Stores.replace {table : Table K} {edges' : Finset (Sym2 Nat)}
    (stores : Stores key table edges) (nodes : ∀ i j, s(i, j) ∈ edges' → key.node i ∧ key.node j)
    (inside : n < table.buckets.length)
    (here : Bucketed key table.shift table.buckets.length edges' n b)
    (others : ∀ i j, i ≤ j → hashFun i j table.shift table.buckets.length ≠ n →
      (s(i, j) ∈ edges' ↔ s(i, j) ∈ edges))
    (size : ∃ bits, (table.buckets.set n b).length = 2 ^ bits) :
    Stores key ⟨table.buckets.set n b, table.shift, size⟩ edges' := by
  constructor
  · exact nodes
  · intro m insideM
    rw [List.length_set] at insideM ⊢
    rw [bucketAt_set inside]
    split
    next same =>
      rw [same]
      exact here
    next other =>
      have bucketed := stores.buckets m insideM
      refine ⟨bucketed.nodup, fun k => ?_⟩
      rw [bucketed.mem]
      constructor
      · rintro ⟨i, j, le, mem, rfl, rfl⟩
        exact ⟨i, j, le, (others i j le other).mpr mem, rfl, rfl⟩
      · rintro ⟨i, j, le, mem, rfl, rfl⟩
        exact ⟨i, j, le, (others i j le other).mp mem, rfl, rfl⟩

variable {graph graph' : Graph K}

theorem Represents.bucket (represents : Represents key graph edges) (i j : Nat) :
    Bucketed key graph.table.shift graph.table.buckets.length edges
      (hashFun i j graph.table.shift graph.table.buckets.length)
      (bucketAt graph.table.buckets (hashFun i j graph.table.shift graph.table.buckets.length)) :=
  represents.stores.buckets _ (hashFun_lt graph.table.pos)

variable [DecidableEq K]

theorem Represents.edgeExists_iff (represents : Represents key graph edges) (hi : key.node i)
    (hj : key.node j) : edgeExists key graph i j = true ↔ s(i, j) ∈ edges := by
  obtain ⟨a, b, ordered, le, same, ha, hb⟩ := order_spec key hi hj
  rw [edgeExists, ordered]
  simp only
  rw [find_iff, (represents.bucket a b).pack_mem represents.stores.nodes le ha hb rfl, same]

theorem Represents.insertEdge_spec (represents : Represents key graph edges) (hi : key.node i)
    (hj : key.node j) {added : Bool} (inserted : insertEdge key graph i j = .ok (added, graph')) :
    (added = true ↔ s(i, j) ∉ edges) ∧ Represents key graph' (insert s(i, j) edges) := by
  induction graph, i, j using insertEdge.induct key with
  | case1 graph i j a c ordered tab len room index k b found =>
    obtain ⟨a, c, ordered', le, same, ha, hc⟩ := order_spec key hi hj
    cases ordered.symm.trans ordered'
    rw [insertEdge, ordered'] at inserted
    simp only at inserted
    rw [if_pos room, if_pos found] at inserted
    cases inserted
    have mem := ((represents.bucket a c).pack_mem represents.stores.nodes le ha hc rfl).mp
      (find_iff.mp found)
    rw [← same, Finset.insert_eq_of_mem mem]
    exact ⟨iff_of_false Bool.false_ne_true (not_not_intro mem), represents⟩
  | case2 graph i j a c ordered tab len room index k b missing =>
    obtain ⟨a, c, ordered', le, same, ha, hc⟩ := order_spec key hi hj
    cases ordered.symm.trans ordered'
    rw [insertEdge, ordered'] at inserted
    simp only at inserted
    rw [if_pos room, if_neg missing] at inserted
    cases inserted
    have bucketed := represents.bucket a c
    have absent : s(a, c) ∉ edges := by
      rwa [← bucketed.pack_mem represents.stores.nodes le ha hc rfl, ← find_iff]
    rw [← same]
    have nodes (x y : Nat) (mem : s(x, y) ∈ insert s(a, c) edges) : key.node x ∧ key.node y := by
      rcases Finset.mem_insert.mp mem with new | old
      · rcases Sym2.eq_iff.mp new with ⟨rfl, rfl⟩ | ⟨rfl, rfl⟩
        · exact ⟨ha, hc⟩
        · exact ⟨hc, ha⟩
      · exact represents.stores.nodes x y old
    refine ⟨iff_of_true rfl absent, ⟨?_, ?_⟩⟩
    · apply represents.stores.replace nodes (hashFun_lt graph.table.pos)
        (bucketed.insert represents.stores.nodes le ha hc rfl absent)
      intro x y leXY other
      rw [Finset.mem_insert, or_iff_right]
      intro new
      obtain ⟨rfl, rfl⟩ := edge_eq leXY le new
      exact other rfl
    · rw [Finset.card_insert_of_notMem absent, Int.natCast_succ, represents.count]
  | case3 graph i j a c ordered tab len full most =>
    rw [insertEdge, ordered] at inserted
    simp only at inserted
    rw [if_neg full, if_pos most] at inserted
    cases inserted
  | case4 graph i j a c ordered tab len full fits ih =>
    obtain ⟨a, c, ordered', le, same, ha, hc⟩ := order_spec key hi hj
    cases ordered.symm.trans ordered'
    rw [insertEdge, ordered'] at inserted
    simp only at inserted
    rw [if_neg full, if_neg fits] at inserted
    rw [← same]
    exact ih ⟨represents.stores.grown, represents.count⟩ ha hc inserted

theorem Represents.delete_spec (represents : Represents key graph edges) (le : i ≤ j) (hi : key.node i)
    (hj : key.node j) : ((delete key graph i j).1 = true ↔ s(i, j) ∈ edges) ∧
      Represents key (delete key graph i j).2 (edges.erase s(i, j)) := by
  have bucketed := represents.bucket i j
  have present := bucketed.pack_mem represents.stores.nodes le hi hj rfl
  rw [delete]
  simp only [drop_eq, present, bne_iff_ne]
  refine ⟨?_, ⟨?_, ?_⟩⟩
  · split
    next mem => exact iff_of_true (by omega) mem
    next absent => exact iff_of_false (by simp) absent
  · have nodes (x y : Nat) (mem : s(x, y) ∈ edges.erase s(i, j)) : key.node x ∧ key.node y :=
      represents.stores.nodes x y (Finset.mem_of_mem_erase mem)
    apply represents.stores.replace nodes (hashFun_lt graph.table.pos)
      (bucketed.erase represents.stores.nodes le hi hj)
    intro x y leXY other
    rw [Finset.mem_erase, and_iff_right]
    intro same
    obtain ⟨rfl, rfl⟩ := edge_eq leXY le same
    exact other rfl
  · simp only
    split
    next mem =>
      rw [represents.count, Finset.card_erase_of_mem mem]
      have pos := Finset.card_pos.mpr ⟨_, mem⟩
      omega
    next absent => rw [represents.count, Finset.erase_eq_of_notMem absent]

theorem Represents.delete_other (represents : Represents key graph edges) (lt : j < i)
    (hi : key.node i) (hj : key.node j) :
    (delete key graph i j).1 = false ∧ Represents key (delete key graph i j).2 edges := by
  have bucketed := represents.bucket i j
  have missing : key.pack i j ∉ bucketAt graph.table.buckets
      (hashFun i j graph.table.shift graph.table.buckets.length) := by
    rw [bucketed.mem]
    rintro ⟨a, c, le, mem, same, _⟩
    obtain ⟨ha, hc⟩ := represents.stores.nodes a c mem
    obtain ⟨rfl, rfl⟩ := key.pack_inj hi hj ha hc same
    omega
  rw [delete]
  simp only [drop_eq, missing, if_false, List.erase_of_not_mem missing, bne_self_eq_false, true_and]
  exact ⟨represents.stores.replace represents.stores.nodes (hashFun_lt graph.table.pos) bucketed
    (fun _ _ _ _ => Iff.rfl) _, represents.count⟩

end Operations

section Runs

variable [DecidableEq K]

/-- The edges are those inserted and not deleted since. An edge that is there is deleted with its
smaller end first. -/
inductive Reached (key : EdgeKey K) : Graph K → Finset (Sym2 Nat) → Prop
  | made {bits shift : Nat} {table : Table K} (new : makeTable K bits shift = .ok table) :
      Reached key ⟨table, 0⟩ ∅
  | inserted {graph graph' : Graph K} {edges : Finset (Sym2 Nat)} {i j : Nat} {added : Bool}
      (reached : Reached key graph edges) (hi : key.node i) (hj : key.node j)
      (call : insertEdge key graph i j = .ok (added, graph')) :
      Reached key graph' (insert s(i, j) edges)
  | deleted {graph : Graph K} {edges : Finset (Sym2 Nat)} {i j : Nat}
      (reached : Reached key graph edges) (hi : key.node i) (hj : key.node j)
      (found : s(i, j) ∈ edges → i ≤ j) :
      Reached key (delete key graph i j).2 (edges.erase s(i, j))

structure IsEdgeSet (key : EdgeKey K) (graph : Graph K) (edges : Finset (Sym2 Nat)) : Prop where
  exists_iff : ∀ i j, key.node i → key.node j → (edgeExists key graph i j = true ↔ s(i, j) ∈ edges)
  exists_swap : ∀ i j, key.node i → key.node j →
    edgeExists key graph i j = edgeExists key graph j i
  insert_iff : ∀ i j added graph', key.node i → key.node j →
    insertEdge key graph i j = .ok (added, graph') → (added = true ↔ s(i, j) ∉ edges)
  delete_iff : ∀ i j, key.node i → key.node j →
    (((delete key graph i j).1 = true ↔ s(i, j) ∈ edges) ↔ (s(i, j) ∈ edges → i ≤ j))
  count : getEdgeCount graph = edges.card

theorem Represents.isEdgeSet {graph : Graph K} (represents : Represents key graph edges) :
    IsEdgeSet key graph edges where
  exists_iff i j hi hj := represents.edgeExists_iff hi hj
  exists_swap i j hi hj := by
    rw [Bool.eq_iff_iff, represents.edgeExists_iff hi hj, represents.edgeExists_iff hj hi,
      Sym2.eq_swap]
  insert_iff i j added graph' hi hj inserted := (represents.insertEdge_spec hi hj inserted).1
  delete_iff i j hi hj := by
    rcases Nat.lt_or_ge j i with lt | le
    · rw [(represents.delete_other lt hi hj).1]
      simp [Nat.not_le.mpr lt]
    · simp [(represents.delete_spec le hi hj).1, le]
  count := represents.count

theorem Reached.represents {graph : Graph K} (reached : Reached key graph edges) :
    Represents key graph edges := by
  induction reached with
  | @made bits shift table new =>
    rw [makeTable] at new
    split at new
    · cases new
    · cases new
      exact ⟨.empty _, rfl⟩
  | inserted _ hi hj call ih => exact (ih.insertEdge_spec hi hj call).2
  | @deleted graph edges i j _ hi hj found ih =>
    rcases Nat.lt_or_ge j i with lt | le
    · rw [Finset.erase_eq_of_notMem fun mem => Nat.not_le.mpr lt (found mem)]
      exact (ih.delete_other lt hi hj).2
    · exact (ih.delete_spec le hi hj).2

/-- In a run that deletes an edge that is there with its smaller end first, the graph is a set of
edges; and `delete` answers right in just these cases. -/
theorem reached_isEdgeSet (edges : Finset (Sym2 Nat)) :
    (∀ graph, Reached small graph edges → IsEdgeSet small graph edges) ∧
      ∀ graph, Reached large graph edges → IsEdgeSet large graph edges :=
  ⟨fun _ reached => reached.represents.isEdgeSet, fun _ reached => reached.represents.isEdgeSet⟩

theorem reached_isEdgeSet_one : ∃ graph, insertEdge small emptyGraph 2 1 = .ok (true, graph) ∧
    IsEdgeSet small graph {s(2, 1)} := by
  have start : Reached small emptyGraph ∅ := .made (show makeTable Nat 1 0 = .ok _ from rfl)
  have call : ∃ graph, insertEdge small emptyGraph 2 1 = .ok (true, graph) := by
    rw [insertEdge]
    exact ⟨_, rfl⟩
  obtain ⟨graph, call⟩ := call
  refine ⟨graph, call, (reached_isEdgeSet _).1 _ (start.inserted ?_ ?_ call)⟩
  · exact show 2 < 2 ^ 15 by decide
  · exact show 1 < 2 ^ 15 by decide

theorem delete_swapped : ∃ graph, insertEdge small emptyGraph 1 2 = .ok (true, graph) ∧
    (delete small graph 2 1).1 = false ∧
      edgeExists small (delete small graph 2 1).2 1 2 = true := by
  rw [insertEdge]
  exact ⟨_, rfl, by decide, by decide⟩

end Runs

end Mythryl.GraphByEdgeHashtable
