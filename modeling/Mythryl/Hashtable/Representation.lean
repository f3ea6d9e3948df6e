import Mythryl.Exceptions
import Mathlib.Algebra.Group.Nat.Defs
import Mathlib.Data.List.Pairwise
import Mathlib.Data.List.Perm.Basic
import Mathlib.Order.Nat

/-!
# The representation of hashtables

`hashtable_representation`: vectors of buckets, whose length is a power of two, and the entries in
the buckets that their hashes select.
-/

namespace Mythryl.HashtableRepresentation

/-- The exceptions of the system, and those that a caller has given. -/
inductive Raised (E : Type)
  | size | overflow
  | fail (text : String)
  | given (exn : E)
  deriving DecidableEq, Repr

/-- `Hash_Key`, with what its comment asks of the two functions. -/
structure HashKey (K : Type) where
  hashValue : K → Nat
  sameKey : K → K → Bool
  same_refl : ∀ k, sameKey k k = true
  same_symm : ∀ k k', sameKey k k' = true → sameKey k' k = true
  same_trans : ∀ k k' k'', sameKey k k' = true → sameKey k' k'' = true → sameKey k k'' = true
  hash_same : ∀ k k', sameKey k k' = true → hashValue k = hashValue k'

def colliding : HashKey Nat where
  hashValue _ := 0
  sameKey k k' := k == k'
  same_refl := by simp
  same_symm := by simp
  same_trans := by simp
  hash_same := by simp

abbrev Entry (K X : Type) := Nat × K × X

abbrev Bucket (K X : Type) := List (Entry K X)

abbrev Table (K X : Type) := List (Bucket K X)

section Operations

variable {E K X Y : Type}

def maximumVectorLength : Nat := 2 ^ 24 - 1

def makeRwVector (len : Nat) (init : Bucket K X) : Except (Raised E) (Table K X) :=
  if maximumVectorLength < len then .error .size else .ok (List.replicate len init)

def bucketAt (table : Table K X) (i : Nat) : Bucket K X := table.getD i []

def index (i size : Nat) : Nat := i &&& (size - 1)

def roundUpFrom (n : Int) (i : Nat) (pos : 0 < i) : Except (Raised E) Nat :=
  if (i : Int) ≥ n then .ok i
  else if 2 ^ 30 ≤ i * 2 then .error .overflow
  else roundUpFrom n (i * 2) (Nat.mul_pos pos Nat.two_pos)
  termination_by 2 ^ 30 - i

def roundUp (n : Int) : Except (Raised E) Nat := roundUpFrom n 32 (by decide)

def alloc (sizeHint : Int) : Except (Raised E) (Table K X) := do
  makeRwVector (← roundUp sizeHint) []

def copyEntry (newSize : Nat) (newArr : Table K X) (entry : Entry K X) : Table K X :=
  let i := index entry.1 newSize
  newArr.set i (entry :: bucketAt newArr i)

def growTable (table : Table K X) (newSize : Nat) : Except (Raised E) (Table K X) := do
  let newArr ← makeRwVector newSize []
  return table.foldl (fun newArr bucket => bucket.foldl (copyEntry newSize) newArr) newArr

def growTableIfNeeded (arr : Table K X) (nItems : Int) :
    Except (Raised E) (Table K X × Bool) :=
  let size := arr.length
  if nItems ≥ size then do return (← growTable arr (size + size), true)
  else return (arr, false)

def clear (table : Table K X) : Table K X := table.map fun _ => []

/-- The loops `f` and `g` of the lists; `f` has `i + 1` for the source's `i`. -/
def listLoop (item : K → X → Y) (table : Table K X) : Nat → List Y → Int → List Y
  | 0, l, _ => l
  | i + 1, l, n =>
      if n = 0 then l
      else
        let (l, n) := (bucketAt table i).foldl
          (fun (l, n) (_, k, v) => (item k v :: l, n - 1)) (l, n)
        listLoop item table i l n

def valsList (table : Table K X) (nItems : Int) : List X :=
  listLoop (fun _ v => v) table table.length [] nItems

def keyvalsList (table : Table K X) (nItems : Int) : List (K × X) :=
  listLoop Prod.mk table table.length [] nItems

def keyedMapInPlace (f : K → X → X) (table : Table K X) : Table K X :=
  table.map fun bucket => bucket.map fun (hash, key, item) => (hash, key, f key item)

def mapInPlace (f : X → X) (table : Table K X) : Table K X :=
  table.map fun bucket => bucket.map fun (hash, key, item) => (hash, key, f item)

def filterP (predicate : K → X → Bool) : Bucket K X → Nat → Bucket K X × Nat
  | [], nItems => ([], nItems)
  | (hash, key, item) :: rest, nItems =>
      if predicate key item then
        let (rest, nItems) := filterP predicate rest (nItems + 1)
        ((hash, key, item) :: rest, nItems)
      else filterP predicate rest nItems

/-- The vector after `map_in_place filter_p`, and the count. -/
def keyedFilterFrom (predicate : K → X → Bool) : Table K X → Nat → Table K X × Nat
  | [], nItems => ([], nItems)
  | bucket :: buckets, nItems =>
      let (bucket, nItems) := filterP predicate bucket nItems
      let (buckets, nItems) := keyedFilterFrom predicate buckets nItems
      (bucket :: buckets, nItems)

def keyedFilter (predicate : K → X → Bool) (table : Table K X) : Table K X × Nat :=
  keyedFilterFrom predicate table 0

def filter (predicate : X → Bool) (table : Table K X) : Table K X × Nat :=
  keyedFilterFrom (fun _ item => predicate item) table 0

/-! The hashtables search a bucket with loops of one shape. -/

def takeOut (key : HashKey K) (notFound : Raised E) (hash : Nat) (k : K) :
    Bucket K X → Except (Raised E) (X × Bucket K X)
  | [] => .error notFound
  | (h, k', v) :: r =>
      if hash = h ∧ key.sameKey k k' = true then .ok (v, r)
      else do
        let (item, r') ← takeOut key notFound hash k r
        return (item, (h, k', v) :: r')

def findLoop (key : HashKey K) (hash : Nat) (k : K) : Bucket K X → Option X
  | [] => none
  | (h, k', v) :: r =>
      if hash = h ∧ key.sameKey k k' = true then some v else findLoop key hash k r

def getLoop (key : HashKey K) (notFound : Raised E) (hash : Nat) (k : K) :
    Bucket K X → Except (Raised E) X
  | [] => .error notFound
  | (h, k', v) :: r =>
      if hash = h ∧ key.sameKey k k' = true then .ok v else getLoop key notFound hash k r

def containsLoop (key : HashKey K) (hash : Nat) (k : K) : Bucket K X → Bool
  | [] => false
  | (h, k', _) :: r => (hash == h && key.sameKey k k') || containsLoop key hash k r

end Operations

/-! # Entries, and the buckets they lie in -/

variable {K X Y : Type} {key : HashKey K} {k k' : K} {e : Entry K X} {es es' : List (Entry K X)}

section Keys

theorem HashKey.same_comm (key : HashKey K) (k k' : K) : key.sameKey k k' = key.sameKey k' k := by
  rw [Bool.eq_iff_iff]
  exact ⟨key.same_symm k k', key.same_symm k' k⟩

theorem HashKey.same_congr (key : HashKey K) {k k' : K} (same : key.sameKey k k' = true) (l : K) :
    key.sameKey l k = key.sameKey l k' := by
  rw [Bool.eq_iff_iff]
  exact ⟨fun h => key.same_trans l k k' h same,
    fun h => key.same_trans l k' k h (key.same_symm k k' same)⟩

theorem HashKey.same_left (key : HashKey K) {k k' : K} (same : key.sameKey k k' = true) (l : K) :
    key.sameKey k l = key.sameKey k' l := by
  rw [key.same_comm k, key.same_comm k', key.same_congr same]

def Distinct (key : HashKey K) (es : List (Entry K X)) : Prop :=
  es.Pairwise fun e e' => key.sameKey e.2.1 e'.2.1 = false

def lookup (key : HashKey K) (k : K) (es : List (Entry K X)) : Option (Entry K X) :=
  es.find? fun e => key.sameKey k e.2.1

theorem distinct_perm (perm : es.Perm es') : Distinct key es ↔ Distinct key es' :=
  perm.pairwise_iff fun {e e'} different => (key.same_comm e'.2.1 e.2.1).trans different

theorem lookup_eq_none : lookup key k es = none ↔ ∀ e ∈ es, key.sameKey k e.2.1 = false := by
  simp [lookup]

@[simp] theorem lookup_nil : lookup key k ([] : List (Entry K X)) = none := rfl

theorem lookup_cons : lookup key k (e :: es) =
    if key.sameKey k e.2.1 = true then some e else lookup key k es := by
  unfold lookup
  split
  · next same => exact List.find?_cons_of_pos same
  · next other => exact List.find?_cons_of_neg other

theorem lookup_cons_eq_none : lookup key k (e :: es) = none ↔
    key.sameKey k e.2.1 = false ∧ lookup key k es = none := by simp [lookup]

theorem lookup_eq_some (distinct : Distinct key es) :
    lookup key k es = some e ↔ e ∈ es ∧ key.sameKey k e.2.1 = true := by
  induction es with
  | nil => simp
  | cons e' es ih =>
    obtain ⟨others, distinct⟩ := List.pairwise_cons.mp distinct
    rw [lookup_cons, List.mem_cons]
    split
    · next same =>
        constructor
        · rintro ⟨⟩
          exact ⟨.inl rfl, same⟩
        · rintro ⟨rfl | mem, same'⟩
          · rfl
          · have both := key.same_trans _ _ _ (key.same_symm _ _ same) same'
            rw [others e mem] at both
            cases both
    · next other =>
        rw [ih distinct]
        constructor
        · rintro ⟨mem, same⟩
          exact ⟨.inr mem, same⟩
        · rintro ⟨rfl | mem, same⟩
          · exact absurd same other
          · exact ⟨mem, same⟩

theorem lookup_perm (distinct : Distinct key es) (perm : es.Perm es') :
    lookup key k es = lookup key k es' := by
  apply Option.ext
  intro e
  rw [lookup_eq_some distinct, lookup_eq_some ((distinct_perm perm).mp distinct), perm.mem_iff]

theorem lookup_congr (same : key.sameKey k k' = true) (es : List (Entry K X)) :
    lookup key k es = lookup key k' es := by
  unfold lookup
  congr
  funext e
  rw [key.same_comm k, key.same_comm k', key.same_congr same]

theorem lookup_filter (distinct : Distinct key es) (p : Entry K X → Bool) :
    lookup key k (es.filter p) = (lookup key k es).filter p := by
  apply Option.ext
  intro e
  rw [lookup_eq_some (List.Pairwise.filter p distinct), Option.filter_eq_some_iff,
    lookup_eq_some distinct, List.mem_filter]
  tauto

theorem lookup_map (f : Entry K X → Entry K Y) (keeps : ∀ e, (f e).2.1 = e.2.1) :
    lookup key k (es.map f) = (lookup key k es).map f := by
  have keys : (fun e => key.sameKey k e.2.1) ∘ f = fun e => key.sameKey k e.2.1 := by
    funext e
    exact congrArg (key.sameKey k) (keeps e)
  unfold lookup
  rw [List.find?_map, keys]

theorem distinct_map (f : Entry K X → Entry K Y) (keeps : ∀ e, (f e).2.1 = e.2.1)
    (distinct : Distinct key es) : Distinct key (es.map f) := by
  apply List.pairwise_map.mpr
  apply distinct.imp
  intro e e' different
  rw [keeps, keeps]
  exact different

theorem distinct_cons (distinct : Distinct key es) (absent : lookup key e.2.1 es = none) :
    Distinct key (e :: es) := by
  rw [lookup_eq_none] at absent
  exact List.pairwise_cons.mpr ⟨absent, distinct⟩

theorem lookup_more (distinct : Distinct key (e :: es)) (perm : es'.Perm (e :: es)) (k : K) :
    lookup key k es' = if key.sameKey k e.2.1 = true then some e else lookup key k es := by
  rw [← lookup_perm distinct perm.symm, lookup_cons]

theorem lookup_less (distinct : Distinct key es) (perm : es.Perm (e :: es')) (k : K) :
    lookup key k es' = if key.sameKey k e.2.1 = true then none else lookup key k es := by
  rw [lookup_perm distinct perm, lookup_cons]
  split
  · next same =>
      have others := (List.pairwise_cons.mp ((distinct_perm perm).mp distinct)).1
      rw [lookup_congr same, lookup_eq_none]
      exact others
  · rfl

end Keys

section Buckets

variable {table : Table K X} {i : Nat}

structure Placed (key : HashKey K) (table : Table K X) : Prop where
  size : ∃ bits, 5 ≤ bits ∧ table.length = 2 ^ bits
  hashed : ∀ e ∈ table.flatten, e.1 = key.hashValue e.2.1
  placed : ∀ i, ∀ e ∈ bucketAt table i, index e.1 table.length = i

theorem index_eq {bits h : Nat} : index h (2 ^ bits) = h % 2 ^ bits :=
  Nat.and_two_pow_sub_one_eq_mod h bits

theorem Placed.index_lt (placed : Placed key table) (h : Nat) :
    index h table.length < table.length := by
  obtain ⟨bits, -, size⟩ := placed.size
  rw [size, index_eq]
  exact Nat.mod_lt _ (Nat.two_pow_pos bits)

theorem bucketAt_eq (lt : i < table.length) : bucketAt table i = table[i] := by
  unfold bucketAt
  rw [List.getD_eq_getElem?_getD, List.getElem?_eq_getElem lt]
  rfl

theorem bucketAt_set (lt : i < table.length) (b : Bucket K X) (j : Nat) :
    bucketAt (table.set i b) j = if j = i then b else bucketAt table j := by
  unfold bucketAt
  rw [List.getD_eq_getElem?_getD, List.getD_eq_getElem?_getD, List.getElem?_set]
  split
  · next eq =>
      rw [if_pos eq.symm]
      rfl
  · next ne => rw [if_neg (Ne.symm ne)]

theorem flatten_split (lt : i < table.length) :
    ∃ rest, table.flatten.Perm (bucketAt table i ++ rest) ∧
      ∀ b, (table.set i b).flatten.Perm (b ++ rest) := by
  refine ⟨(table.take i).flatten ++ (table.drop (i + 1)).flatten, ?_, ?_⟩
  · have whole : table = table.take i ++ bucketAt table i :: table.drop (i + 1) := by
      rw [bucketAt_eq lt, ← List.drop_eq_getElem_cons lt, List.take_append_drop]
    conv => lhs; rw [whole]
    rw [List.flatten_append, List.flatten_cons]
    exact List.perm_append_comm_assoc ..
  · intro b
    rw [List.set_eq_take_append_cons_drop, if_pos lt, List.flatten_append, List.flatten_cons]
    exact List.perm_append_comm_assoc ..

theorem mem_of_bucketAt (lt : i < table.length) (mem : e ∈ bucketAt table i) :
    e ∈ table.flatten := by
  obtain ⟨rest, perm, -⟩ := flatten_split lt
  exact perm.mem_iff.mpr (List.mem_append_left rest mem)

theorem mem_flatten_iff : e ∈ table.flatten ↔ ∃ i, i < table.length ∧ e ∈ bucketAt table i := by
  constructor
  · intro mem
    obtain ⟨b, memB, mem⟩ := List.mem_flatten.mp mem
    obtain ⟨i, lt, rfl⟩ := List.getElem_of_mem memB
    refine ⟨i, lt, ?_⟩
    rwa [bucketAt_eq lt]
  · rintro ⟨i, lt, mem⟩
    exact mem_of_bucketAt lt mem

theorem Placed.mem_bucketAt (placed : Placed key table) (mem : e ∈ table.flatten) :
    e ∈ bucketAt table (index (key.hashValue e.2.1) table.length) := by
  obtain ⟨i, -, memB⟩ := mem_flatten_iff.mp mem
  have here := placed.placed i e memB
  rw [placed.hashed e mem] at here
  rwa [here]

theorem Placed.lookup_bucketAt (placed : Placed key table) (distinct : Distinct key table.flatten)
    (k : K) : lookup key k (bucketAt table (index (key.hashValue k) table.length)) =
      lookup key k table.flatten := by
  have lt := placed.index_lt (key.hashValue k)
  obtain ⟨rest, perm, -⟩ := flatten_split lt
  have distinctB := (List.pairwise_append.mp ((distinct_perm perm).mp distinct)).1
  apply Option.ext
  intro e
  rw [lookup_eq_some distinct, lookup_eq_some distinctB]
  constructor
  · rintro ⟨mem, same⟩
    exact ⟨mem_of_bucketAt lt mem, same⟩
  · rintro ⟨mem, same⟩
    rw [key.hash_same k e.2.1 same]
    exact ⟨placed.mem_bucketAt mem, same⟩

theorem Placed.set (placed : Placed key table) (lt : i < table.length) {b : Bucket K X}
    (hashed : ∀ e ∈ b, e.1 = key.hashValue e.2.1)
    (here : ∀ e ∈ b, index e.1 table.length = i) : Placed key (table.set i b) := by
  refine ⟨?_, ?_, ?_⟩
  · rw [List.length_set]
    exact placed.size
  · intro e mem
    obtain ⟨rest, perm, perm'⟩ := flatten_split lt
    rcases List.mem_append.mp ((perm' b).mem_iff.mp mem) with memB | memR
    · exact hashed e memB
    · exact placed.hashed e (perm.mem_iff.mpr (List.mem_append_right _ memR))
  · intro j e mem
    rw [List.length_set]
    rw [bucketAt_set lt] at mem
    split at mem
    · next eq => rw [eq, here e mem]
    · exact placed.placed j e mem

end Buckets

end Mythryl.HashtableRepresentation

/-!
# Tables made from tables

What the functions of `hashtable_representation` do to the entries of a table.
-/

namespace Mythryl.HashtableRepresentation

variable {E K X Y : Type} {key : HashKey K} {table table' : Table K X}

theorem flatten_empty (n : Nat) : (List.replicate n ([] : Bucket K X)).flatten = [] := by
  simp

theorem bucketAt_empty (n i : Nat) : bucketAt (List.replicate n ([] : Bucket K X)) i = [] := by
  unfold bucketAt
  rw [List.getD_eq_getElem?_getD, List.getElem?_replicate]
  split <;> rfl

theorem placed_empty (key : HashKey K) {bits n : Nat} (large : 5 ≤ bits) (size : n = 2 ^ bits) :
    Placed key (List.replicate n ([] : Bucket K X)) where
  size := ⟨bits, large, by rw [List.length_replicate, size]⟩
  hashed := by simp
  placed := by simp [bucketAt_empty]

theorem makeRwVector_ok {n : Nat} (made : makeRwVector (E := E) n [] = .ok table) :
    table = List.replicate n [] := by
  unfold makeRwVector at made
  split at made
  · cases made
  · cases made
    rfl

theorem roundUpFrom_ok {n : Int} {i m : Nat} {pos : 0 < i}
    (rounded : roundUpFrom (E := E) n i pos = .ok m) : ∃ j, m = i * 2 ^ j := by
  fun_induction roundUpFrom (E := E) n i pos with
  | case1 i pos done =>
    cases rounded
    exact ⟨0, (Nat.mul_one _).symm⟩
  | case2 i pos more full => cases rounded
  | case3 i pos more room ih =>
    obtain ⟨j, equal⟩ := ih rounded
    exact ⟨j + 1, by rw [equal, Nat.pow_succ', Nat.mul_assoc]⟩

theorem alloc_eq {sizeHint : Int} (made : alloc (E := E) sizeHint = .ok table) :
    ∃ n, roundUp (E := E) sizeHint = .ok n ∧ table = List.replicate n [] := by
  obtain ⟨n, rounded, made⟩ := bind_eq_ok.mp made
  exact ⟨n, rounded, makeRwVector_ok made⟩

theorem alloc_ok {sizeHint : Int} (made : alloc (E := E) sizeHint = .ok table) :
    Placed key table ∧ table.flatten = [] := by
  obtain ⟨n, rounded, rfl⟩ := alloc_eq made
  obtain ⟨j, equal⟩ := roundUpFrom_ok rounded
  refine ⟨placed_empty key (Nat.le_add_right 5 j) ?_, flatten_empty n⟩
  rw [equal, Nat.pow_add]

theorem copyEntry_placed (placed : Placed key table) {e : Entry K X}
    (hashed : e.1 = key.hashValue e.2.1) : Placed key (copyEntry table.length table e) ∧
      (copyEntry table.length table e).length = table.length ∧
      (copyEntry table.length table e).flatten.Perm (e :: table.flatten) := by
  have lt := placed.index_lt e.1
  refine ⟨placed.set lt ?_ ?_, List.length_set, ?_⟩
  · intro e' mem
    rcases List.mem_cons.mp mem with rfl | mem
    · exact hashed
    · exact placed.hashed e' (mem_of_bucketAt lt mem)
  · intro e' mem
    rcases List.mem_cons.mp mem with rfl | mem
    · rfl
    · exact placed.placed _ e' mem
  · obtain ⟨rest, perm, perm'⟩ := flatten_split lt
    exact (perm' _).trans (perm.symm.cons e)

theorem foldl_copyEntry (es : List (Entry K X)) (hashed : ∀ e ∈ es, e.1 = key.hashValue e.2.1)
    (placed : Placed key table) : Placed key (es.foldl (copyEntry table.length) table) ∧
      (es.foldl (copyEntry table.length) table).length = table.length ∧
      (es.foldl (copyEntry table.length) table).flatten.Perm (es ++ table.flatten) := by
  induction es generalizing table with
  | nil => exact ⟨placed, rfl, .refl _⟩
  | cons e es ih =>
    obtain ⟨placed', length, perm⟩ := copyEntry_placed placed (hashed e (by simp))
    obtain ⟨placed'', length', perm'⟩ :=
      ih (fun e' mem => hashed e' (List.mem_cons_of_mem e mem)) placed'
    rw [length] at placed'' length' perm'
    rw [List.foldl_cons]
    refine ⟨placed'', length', ?_⟩
    exact perm'.trans ((perm.append_left es).trans List.perm_middle)

theorem growTable_ok (placed : Placed key table)
    (grown : growTable (E := E) table (table.length + table.length) = .ok table') :
    Placed key table' ∧ table'.length = table.length + table.length ∧
      table'.flatten.Perm table.flatten := by
  obtain ⟨newArr, made, rfl⟩ := bind_pure_eq_ok.mp grown
  rw [makeRwVector_ok made, ← List.foldl_flatten]
  obtain ⟨bits, large, size⟩ := placed.size
  have new : Placed key (List.replicate (table.length + table.length) ([] : Bucket K X)) := by
    apply placed_empty key (Nat.le_succ_of_le large)
    rw [size, ← Nat.two_mul, Nat.pow_succ']
  have copied := foldl_copyEntry table.flatten placed.hashed new
  rwa [List.length_replicate, flatten_empty, List.append_nil] at copied

theorem growTableIfNeeded_ok (placed : Placed key table) {nItems : Int} {grew : Bool}
    (grown : growTableIfNeeded (E := E) table nItems = .ok (table', grew)) :
    Placed key table' ∧ table'.flatten.Perm table.flatten := by
  unfold growTableIfNeeded at grown
  dsimp only at grown
  split at grown
  · obtain ⟨new, made, ⟨⟩⟩ := bind_pure_eq_ok.mp grown
    obtain ⟨placed', -, perm⟩ := growTable_ok placed made
    exact ⟨placed', perm⟩
  · cases grown
    exact ⟨placed, .refl _⟩

theorem bucketAt_map (f : Bucket K X → Bucket K Y) (none : f [] = []) (table : Table K X)
    (i : Nat) : bucketAt (table.map f) i = f (bucketAt table i) := by
  unfold bucketAt
  rw [List.getD_eq_getElem?_getD, List.getD_eq_getElem?_getD, List.getElem?_map]
  cases table[i]? with
  | none => exact none.symm
  | some b => rfl

theorem Placed.map (placed : Placed key table) {f : Bucket K X → Bucket K Y} (none : f [] = [])
    (from' : ∀ b, ∀ e ∈ f b, ∃ e' ∈ b, e.1 = e'.1 ∧ e.2.1 = e'.2.1) : Placed key (table.map f) where
  size := by
    rw [List.length_map]
    exact placed.size
  hashed := by
    intro e mem
    obtain ⟨b, memB, mem⟩ := List.mem_flatten.mp mem
    obtain ⟨b', memB', rfl⟩ := List.mem_map.mp memB
    obtain ⟨e', mem', hash, same⟩ := from' b' e mem
    rw [hash, same]
    exact placed.hashed e' (List.mem_flatten.mpr ⟨b', memB', mem'⟩)
  placed := by
    intro i e mem
    rw [bucketAt_map f none] at mem
    obtain ⟨e', mem', hash, -⟩ := from' _ e mem
    rw [hash, List.length_map]
    exact placed.placed i e' mem'

theorem flatten_keyedMapInPlace (f : K → X → X) (table : Table K X) :
    (keyedMapInPlace f table).flatten =
      table.flatten.map fun (hash, key, item) => (hash, key, f key item) := by
  unfold keyedMapInPlace
  rw [List.map_flatten]

theorem placed_keyedMapInPlace (f : K → X → X) (placed : Placed key table) :
    Placed key (keyedMapInPlace f table) := by
  apply placed.map rfl
  intro b e mem
  obtain ⟨e', mem', rfl⟩ := List.mem_map.mp mem
  exact ⟨e', mem', rfl, rfl⟩

theorem flatten_clear (table : Table K X) : (clear table).flatten = [] := by
  unfold clear
  simp

theorem placed_clear (placed : Placed key table) : Placed key (clear table) := by
  apply placed.map rfl
  intro b e mem
  cases mem

theorem filterP_eq (predicate : K → X → Bool) (b : Bucket K X) (n : Nat) :
    filterP predicate b n = (b.filter fun e => predicate e.2.1 e.2.2,
      n + (b.filter fun e => predicate e.2.1 e.2.2).length) := by
  induction b generalizing n with
  | nil => rfl
  | cons e b ih =>
    rw [filterP]
    split
    · next holds => simp [ih, holds, Nat.add_assoc, Nat.add_comm 1]
    · next fails => simp [ih, fails]

theorem keyedFilterFrom_eq (predicate : K → X → Bool) (table : Table K X) (n : Nat) :
    keyedFilterFrom predicate table n =
      (table.map fun b => b.filter fun e => predicate e.2.1 e.2.2,
        n + (table.flatten.filter fun e => predicate e.2.1 e.2.2).length) := by
  induction table generalizing n with
  | nil => rfl
  | cons b table ih => simp [keyedFilterFrom, filterP_eq, ih, Nat.add_assoc]

theorem flatten_keyedFilter (predicate : K → X → Bool) (table : Table K X) :
    (keyedFilter predicate table).1.flatten =
      table.flatten.filter fun e => predicate e.2.1 e.2.2 := by
  rw [keyedFilter, keyedFilterFrom_eq, List.filter_flatten]

theorem placed_keyedFilter (predicate : K → X → Bool) (placed : Placed key table) :
    Placed key (keyedFilter predicate table).1 := by
  rw [keyedFilter, keyedFilterFrom_eq]
  apply placed.map rfl
  intro b e mem
  exact ⟨e, List.mem_of_mem_filter mem, rfl, rfl⟩

theorem count_keyedFilter (predicate : K → X → Bool) (table : Table K X) :
    (keyedFilter predicate table).2 = (keyedFilter predicate table).1.flatten.length := by
  rw [flatten_keyedFilter, keyedFilter, keyedFilterFrom_eq, Nat.zero_add]

section Searches

variable {k : K} {b : Bucket K X} (hashed : ∀ e ∈ b, e.1 = key.hashValue e.2.1)
include hashed

theorem hit_iff {e : Entry K X} (mem : e ∈ b) :
    (key.hashValue k = e.1 ∧ key.sameKey k e.2.1 = true) ↔ key.sameKey k e.2.1 = true := by
  constructor
  · intro both
    exact both.2
  · intro same
    exact ⟨(key.hash_same k e.2.1 same).trans (hashed e mem).symm, same⟩

theorem findLoop_eq : findLoop key (key.hashValue k) k b = (lookup key k b).map (·.2.2) := by
  induction b with
  | nil => rfl
  | cons e b ih =>
    have rest := ih fun e' mem => hashed e' (List.mem_cons_of_mem e mem)
    rw [findLoop, lookup_cons]
    simp only [hit_iff hashed (List.mem_cons_self ..), rest]
    split <;> rfl

theorem getLoop_eq (notFound : Raised E) : getLoop key notFound (key.hashValue k) k b =
    match lookup key k b with
    | none => .error notFound
    | some e => .ok e.2.2 := by
  induction b with
  | nil => rfl
  | cons e b ih =>
    have rest := ih fun e' mem => hashed e' (List.mem_cons_of_mem e mem)
    rw [getLoop, lookup_cons]
    simp only [hit_iff hashed (List.mem_cons_self ..), rest]
    split <;> rfl

theorem containsLoop_eq : containsLoop key (key.hashValue k) k b = (lookup key k b).isSome := by
  induction b with
  | nil => rfl
  | cons e b ih =>
    have rest := ih fun e' mem => hashed e' (List.mem_cons_of_mem e mem)
    have hit := hit_iff (k := k) hashed (List.mem_cons_self ..)
    rw [containsLoop, lookup_cons, rest]
    split
    · next same => simp [hit.mpr same]
    · next other => simp [other]

theorem takeOut_absent (absent : lookup key k b = none) (notFound : Raised E) :
    takeOut key notFound (key.hashValue k) k b = .error notFound := by
  induction b with
  | nil => rfl
  | cons e b ih =>
    obtain ⟨other, absent⟩ := lookup_cons_eq_none.mp absent
    rw [takeOut, if_neg (by simp [other]),
      ih (fun e' mem => hashed e' (List.mem_cons_of_mem e mem)) absent]
    rfl

theorem takeOut_present {e : Entry K X} (present : lookup key k b = some e) (notFound : Raised E) :
    ∃ b', takeOut key notFound (key.hashValue k) k b = .ok (e.2.2, b') ∧ b.Perm (e :: b') := by
  induction b with
  | nil => cases present
  | cons e' b ih =>
    have hit := hit_iff (k := k) hashed (List.mem_cons_self ..)
    rw [lookup_cons] at present
    rw [takeOut]
    split at present
    · next same =>
        cases present
        rw [if_pos (hit.mpr same)]
        exact ⟨b, rfl, .refl _⟩
    · next other =>
        obtain ⟨b', taken, perm⟩ :=
          ih (fun e' mem => hashed e' (List.mem_cons_of_mem _ mem)) present
        rw [if_neg (mt hit.mp other), taken]
        exact ⟨e' :: b', rfl, (perm.cons e').trans (.swap ..)⟩

end Searches

section OneBucket

variable {k : K} (placed : Placed key table) (distinct : Distinct key table.flatten)
include placed

theorem bucket_hashed (k : K) :
    ∀ e ∈ bucketAt table (index (key.hashValue k) table.length), e.1 = key.hashValue e.2.1 := by
  intro e mem
  exact placed.hashed e (mem_of_bucketAt (placed.index_lt _) mem)

theorem table_pushed (x : X) :
    let i := index (key.hashValue k) table.length
    let table' := table.set i ((key.hashValue k, k, x) :: bucketAt table i)
    Placed key table' ∧ table'.flatten.Perm ((key.hashValue k, k, x) :: table.flatten) := by
  have lt := placed.index_lt (key.hashValue k)
  obtain ⟨rest, perm, perm'⟩ := flatten_split lt
  constructor
  · apply placed.set lt
    · intro e mem
      rcases List.mem_cons.mp mem with rfl | mem
      · rfl
      · exact bucket_hashed placed k e mem
    · intro e mem
      rcases List.mem_cons.mp mem with rfl | mem
      · rfl
      · exact placed.placed _ e mem
  · exact (perm' _).trans (perm.symm.cons _)

theorem table_replaced (x : X) {e : Entry K X} {b others : List (Entry K X)}
    (before : (bucketAt table (index (key.hashValue k) table.length)).Perm (e :: others))
    (after : b.Perm ((key.hashValue k, k, x) :: others)) :
    let table' := table.set (index (key.hashValue k) table.length) b
    Placed key table' ∧ ∃ rest, table.flatten.Perm (e :: rest) ∧
      table'.flatten.Perm ((key.hashValue k, k, x) :: rest) := by
  have lt := placed.index_lt (key.hashValue k)
  obtain ⟨rest, perm, perm'⟩ := flatten_split lt
  constructor
  · apply placed.set lt
    · intro d mem
      rcases List.mem_cons.mp (after.mem_iff.mp mem) with rfl | mem
      · rfl
      · exact bucket_hashed placed k d (before.mem_iff.mpr (List.mem_cons_of_mem _ mem))
    · intro d mem
      rcases List.mem_cons.mp (after.mem_iff.mp mem) with rfl | mem
      · rfl
      · exact placed.placed _ d (before.mem_iff.mpr (List.mem_cons_of_mem _ mem))
  · exact ⟨others ++ rest, perm.trans (before.append_right rest),
      (perm' b).trans (after.append_right rest)⟩

include distinct

theorem table_taken {e : Entry K X} (present : lookup key k table.flatten = some e)
    (notFound : Raised E) :
    let i := index (key.hashValue k) table.length
    ∃ b, takeOut key notFound (key.hashValue k) k (bucketAt table i) = .ok (e.2.2, b) ∧
      Placed key (table.set i b) ∧ table.flatten.Perm (e :: (table.set i b).flatten) := by
  have lt := placed.index_lt (key.hashValue k)
  rw [← placed.lookup_bucketAt distinct] at present
  obtain ⟨b, taken, perm⟩ := takeOut_present (bucket_hashed placed k) present notFound
  obtain ⟨rest, split, split'⟩ := flatten_split lt
  refine ⟨b, taken, ?_, ?_⟩
  · apply placed.set lt
    · intro d mem
      exact bucket_hashed placed k d (perm.mem_iff.mpr (List.mem_cons_of_mem _ mem))
    · intro d mem
      exact placed.placed _ d (perm.mem_iff.mpr (List.mem_cons_of_mem _ mem))
  · exact split.trans ((perm.append_right rest).trans ((split' b).symm.cons e))

theorem table_untaken (absent : lookup key k table.flatten = none) (notFound : Raised E) :
    takeOut key notFound (key.hashValue k) k
      (bucketAt table (index (key.hashValue k) table.length)) = .error notFound := by
  rw [← placed.lookup_bucketAt distinct] at absent
  exact takeOut_absent (bucket_hashed placed k) absent notFound

end OneBucket

theorem foldl_push (item : K → X → Y) (b : Bucket K X) (l : List Y) (n : Int) :
    b.foldl (fun (l, n) (_, k, v) => (item k v :: l, n - 1)) (l, n) =
      ((b.map fun e => item e.2.1 e.2.2).reverse ++ l, n - b.length) := by
  induction b generalizing l n with
  | nil => simp
  | cons e b ih =>
    rw [List.foldl_cons, ih]
    simp
    omega

theorem listLoop_perm (item : K → X → Y) (table : Table K X) (i : Nat) (le : i ≤ table.length)
    (l : List Y) (n : Int) (count : n = (table.take i).flatten.length) :
    (listLoop item table i l n).Perm
      ((table.take i).flatten.map (fun e => item e.2.1 e.2.2) ++ l) := by
  induction i generalizing l n with
  | zero => simp [listLoop]
  | succ i ih =>
    have lt : i < table.length := le
    have last : table.take (i + 1) = table.take i ++ [bucketAt table i] := by
      rw [bucketAt_eq lt, List.take_append_getElem lt]
    rw [last, List.flatten_append, List.flatten_singleton] at count ⊢
    rw [listLoop]
    split
    · next zero =>
        rw [zero] at count
        have none : (table.take i).flatten ++ bucketAt table i = [] :=
          List.eq_nil_of_length_eq_zero (Int.natCast_eq_zero.mp count.symm)
        rw [none]
        exact .refl _
    · rw [foldl_push]
      apply (ih (Nat.le_of_lt lt) _ _ _).trans
      · rw [List.map_append, List.append_assoc]
        exact ((List.reverse_perm _).append_right l).append_left _
      · rw [List.length_append] at count
        omega

theorem keyvalsList_perm (table : Table K X) :
    (keyvalsList table table.flatten.length).Perm (table.flatten.map Prod.snd) := by
  have loop := listLoop_perm Prod.mk table table.length (Nat.le_refl _) [] table.flatten.length
    (by rw [List.take_length])
  rwa [List.take_length, List.append_nil] at loop

theorem valsList_perm (table : Table K X) :
    (valsList table table.flatten.length).Perm (table.flatten.map fun e => e.2.2) := by
  have loop := listLoop_perm (fun _ v => v) table table.length (Nat.le_refl _) []
    table.flatten.length (by rw [List.take_length])
  rwa [List.take_length, List.append_nil] at loop

end Mythryl.HashtableRepresentation
