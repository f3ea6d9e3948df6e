import Mythryl.Hashtable.Representation
import Mythryl.RaisingState

/-!
# Hashtables that are keyed by two keys

`typelocked_double_keyed_typelocked_hashtable_g`.
-/

namespace Mythryl.DoubleKeyedHashtable
open RaisingState HashtableRepresentation

structure Hashtable (E K1 K2 X : Type) where
  notFound : Raised E
  arrays1 : List (Table K1 (K2 × X))
  arrays2 : List (Table K2 (K1 × X))
  table1 : Nat
  table2 : Nat
  nItems : Int

abbrev Calling (E K1 K2 X : Type) := Raising (Raised E) (Hashtable E K1 K2 X)

section Operations

variable {E K1 K2 X : Type}

def Hashtable.array1 (t : Hashtable E K1 K2 X) (arr : Nat) : Table K1 (K2 × X) :=
  t.arrays1.getD arr []

def Hashtable.array2 (t : Hashtable E K1 K2 X) (arr : Nat) : Table K2 (K1 × X) :=
  t.arrays2.getD arr []

def Hashtable.current1 (t : Hashtable E K1 K2 X) : Table K1 (K2 × X) := t.array1 t.table1

def Hashtable.current2 (t : Hashtable E K1 K2 X) : Table K2 (K1 × X) := t.array2 t.table2

def Hashtable.write1 (t : Hashtable E K1 K2 X) (arr i : Nat) (b : Bucket K1 (K2 × X)) :
    Hashtable E K1 K2 X :=
  { t with arrays1 := t.arrays1.modify arr fun table => table.set i b }

def Hashtable.write2 (t : Hashtable E K1 K2 X) (arr i : Nat) (b : Bucket K2 (K1 × X)) :
    Hashtable E K1 K2 X :=
  { t with arrays2 := t.arrays2.modify arr fun table => table.set i b }

def Hashtable.store1 (t : Hashtable E K1 K2 X) (table : Table K1 (K2 × X)) :
    Hashtable E K1 K2 X :=
  { t with arrays1 := t.arrays1 ++ [table], table1 := t.arrays1.length }

def Hashtable.store2 (t : Hashtable E K1 K2 X) (table : Table K2 (K1 × X)) :
    Hashtable E K1 K2 X :=
  { t with arrays2 := t.arrays2 ++ [table], table2 := t.arrays2.length }

def makeHashtable (n : Int) (exn : Raised E) : Except (Raised E) (Hashtable E K1 K2 X) := do
  let table1 ← alloc n
  let table2 ← alloc n
  return ⟨exn, [table1], [table2], 0, 0, 0⟩

def place {K Y : Type} (key : HashKey K) (table : Table K Y) (k : K) : Nat :=
  index (key.hashValue k) table.length

def delete1 (key1 : HashKey K1) (arr : Nat) (notFound : Raised E) (k : K1) :
    Calling E K1 K2 X (K2 × X) := do
  let t ← get
  let i := place key1 (t.array1 arr) k
  let (item, bucket) ←
    takeOut key1 notFound (key1.hashValue k) k (bucketAt (t.array1 arr) i)
  modify fun t => t.write1 arr i bucket
  return item

def delete2 (key2 : HashKey K2) (arr : Nat) (notFound : Raised E) (k : K2) :
    Calling E K1 K2 X (K1 × X) := do
  let t ← get
  let i := place key2 (t.array2 arr) k
  let (item, bucket) ←
    takeOut key2 notFound (key2.hashValue k) k (bucketAt (t.array2 arr) i)
  modify fun t => t.write2 arr i bucket
  return item

def countDown : Calling E K1 K2 X Unit := modify fun t => { t with nItems := t.nItems - 1 }

variable (key1 : HashKey K1) (key2 : HashKey K2)

def remove1 (k1 : K1) : Calling E K1 K2 X X := do
  let t ← get
  let (k2, item) ← delete1 key1 t.table1 t.notFound k1
  let _ ← delete2 key2 t.table2 t.notFound k2
  countDown
  return item

def remove2 (k2 : K2) : Calling E K1 K2 X X := do
  let t ← get
  let (k1, item) ← delete2 key2 t.table2 t.notFound k2
  let _ ← delete1 key1 t.table1 t.notFound k1
  countDown
  return item

def growIfNeeded (arr2 : Nat) : Calling E K1 K2 X Unit := do
  let t ← get
  let (table, grew) ← growTableIfNeeded (E := E) t.current1 t.nItems
  if grew then
    modify fun t => t.store1 table
    let t ← get
    let table ← growTable (E := E) (t.array2 arr2) t.current1.length
    modify fun t => t.store2 table

def get1 (arr1 arr2 i1 h1 : Nat) (k1 : K1) (k2 : K2) (item : X) :
    Bucket K1 (K2 × X) → Calling E K1 K2 X (Bucket K1 (K2 × X))
  | [] => do
      modify fun t => t.write1 arr1 i1 ((h1, k1, (k2, item)) :: bucketAt (t.array1 arr1) i1)
      modify fun t => { t with nItems := t.nItems + 1 }
      growIfNeeded arr2
      return []
  | (h1', k1', (k2', v)) :: r =>
      if h1' = h1 ∧ key1.sameKey k1' k1 = true then do
        if key2.sameKey k2 k2' = false then
          let _ ← delete2 key2 arr2 (.fail "insert::lookUp1") k2'
        return (h1, k1, (k2, item)) :: r
      else do
        match ← get1 arr1 arr2 i1 h1 k1 k2 item r with
        | [] => return []
        | rest => return (h1', k1', (k2', v)) :: rest

/-- The function `get2` of `set`. The bucket before the entry is rebuilt with the new keys. -/
def get2 (arr1 arr2 i2 h2 : Nat) (k1 : K1) (k2 : K2) (item : X) :
    Bucket K2 (K1 × X) → Calling E K1 K2 X (Bucket K2 (K1 × X))
  | [] => do
      modify fun t => t.write2 arr2 i2 ((h2, k2, (k1, item)) :: bucketAt (t.array2 arr2) i2)
      return []
  | (h2', k2', (k1', v)) :: r =>
      if h2' = h2 ∧ key2.sameKey k2' k2 = true then do
        if key1.sameKey k1 k1' = false then
          let _ ← delete1 key1 arr1 (.fail "insert::lookUp2") k1'
        return (h2, k2, (k1, item)) :: r
      else do
        match ← get2 arr1 arr2 i2 h2 k1 k2 item r with
        | [] => return []
        | rest => return (h2, k2, (k1, v)) :: rest

def set (k1 : K1) (k2 : K2) (item : X) : Calling E K1 K2 X Unit := do
  let t ← get
  let arr1 := t.table1
  let arr2 := t.table2
  let size := (t.array1 arr1).length
  let h1 := key1.hashValue k1
  let h2 := key2.hashValue k2
  let i1 := index h1 size
  let i2 := index h2 size
  let b1 ← get1 key1 key2 arr1 arr2 i1 h1 k1 k2 item (bucketAt (t.array1 arr1) i1)
  let t ← get
  let b2 ← get2 key1 key2 arr1 arr2 i2 h2 k1 k2 item (bucketAt (t.array2 arr2) i2)
  match b1, b2 with
  | [], [] => return ()
  | b1, b2 => do
      modify fun t => t.write1 arr1 i1 b1
      modify fun t => t.write2 arr2 i2 b2

def find1 (t : Hashtable E K1 K2 X) (k : K1) : Option X :=
  (findLoop key1 (key1.hashValue k) k (bucketAt t.current1 (place key1 t.current1 k))).map
    Prod.snd

def find2 (t : Hashtable E K1 K2 X) (k : K2) : Option X :=
  (findLoop key2 (key2.hashValue k) k (bucketAt t.current2 (place key2 t.current2 k))).map
    Prod.snd

def valsCount (t : Hashtable E K1 K2 X) : Int := t.nItems

/-- `htrep::foldi` puts each entry before those it has met. -/
def keyvalsList (t : Hashtable E K1 K2 X) : List (K1 × K2 × X) :=
  t.current1.flatten.foldl (fun l (_, k1, (k2, item)) => (k1, k2, item) :: l) []

def keyedApply (ins : K1 → K2 × X → Calling E K1 K2 X Unit) (arr : Nat) :
    Nat → Nat → Calling E K1 K2 X Unit
  | 0, _ => return ()
  | n + 1, i => do
      let t ← get
      (bucketAt (t.array1 arr) i).forM fun (_, k1, item) => ins k1 item
      keyedApply ins arr n (i + 1)

def deleteBoth (notFound : Raised E) (k1 : K1) (k2 : K2) : Calling E K1 K2 X Unit := do
  let t ← get
  let _ ← delete1 key1 t.table1 notFound k1
  let t ← get
  let _ ← delete2 key2 t.table2 notFound k2
  countDown

def filter (prior : X → Bool) : Calling E K1 K2 X Unit := do
  let ins (k1 : K1) (k2v : K2 × X) : Calling E K1 K2 X Unit :=
    if prior k2v.2 = false then deleteBoth key1 key2 (.fail "filter") k1 k2v.1 else return ()
  let t ← get
  keyedApply ins t.table1 t.current1.length 0

/-- Deletes what satisfies the predicate, where `filter` deletes what does not. -/
def keyedFilter (prior : K1 → K2 → X → Bool) : Calling E K1 K2 X Unit := do
  let ins (k1 : K1) (k2v : K2 × X) : Calling E K1 K2 X Unit :=
    if prior k1 k2v.1 k2v.2 = true then deleteBoth key1 key2 (.fail "keyed_filter") k1 k2v.1
    else return ()
  let t ← get
  keyedApply ins t.table1 t.current1.length 0

end Operations

/-! # Two tables with the same triples -/

variable {E K1 K2 X : Type} {key1 : HashKey K1} {key2 : HashKey K2}

def flip (key2 : HashKey K2) (e : Entry K1 (K2 × X)) : Entry K2 (K1 × X) :=
  (key2.hashValue e.2.2.1, e.2.2.1, (e.2.1, e.2.2.2))

structure Sound (key1 : HashKey K1) (key2 : HashKey K2) (table1 : Table K1 (K2 × X))
    (table2 : Table K2 (K1 × X)) (n : Int) : Prop where
  placed1 : Placed key1 table1
  placed2 : Placed key2 table2
  distinct1 : Distinct key1 table1.flatten
  distinct2 : Distinct key2 table2.flatten
  sizes : table2.length = table1.length
  flipped : table2.flatten.Perm (table1.flatten.map (flip key2))
  counts : n = table1.flatten.length

section Tables

variable {table1 : Table K1 (K2 × X)} {table2 : Table K2 (K1 × X)} {n : Int}
  (sound : Sound key1 key2 table1 table2 n)
include sound

variable {e : Entry K1 (K2 × X)} {k1 : K1} {k2 : K2}

theorem Sound.flip_mem (mem : e ∈ table1.flatten) : flip key2 e ∈ table2.flatten :=
  sound.flipped.mem_iff.mpr (List.mem_map_of_mem mem)

theorem Sound.mem_flip {d : Entry K2 (K1 × X)} (mem : d ∈ table2.flatten) :
    ∃ e ∈ table1.flatten, flip key2 e = d :=
  List.mem_map.mp (sound.flipped.mem_iff.mp mem)

theorem Sound.lookup_flip (present : lookup key1 k1 table1.flatten = some e) :
    lookup key2 e.2.2.1 table2.flatten = some (flip key2 e) :=
  (lookup_eq_some sound.distinct2).mpr
    ⟨sound.flip_mem ((lookup_eq_some sound.distinct1).mp present).1, key2.same_refl _⟩

theorem Sound.taken (present1 : lookup key1 k1 table1.flatten = some e)
    (present2 : lookup key2 k2 table2.flatten = some (flip key2 e)) (notFound : Raised E) : ∃ b1 b2,
      takeOut key1 notFound (key1.hashValue k1) k1
        (bucketAt table1 (place key1 table1 k1)) = .ok (e.2.2, b1) ∧
      takeOut key2 notFound (key2.hashValue k2) k2
        (bucketAt table2 (place key2 table2 k2)) = .ok ((e.2.1, e.2.2.2), b2) ∧
      table1.flatten.Perm (e :: (table1.set (place key1 table1 k1) b1).flatten) ∧
      Sound key1 key2 (table1.set (place key1 table1 k1) b1)
        (table2.set (place key2 table2 k2) b2) (n - 1) := by
  obtain ⟨b1, taken1, placed1, perm1⟩ :=
    table_taken sound.placed1 sound.distinct1 present1 notFound
  obtain ⟨b2, taken2, placed2, perm2⟩ :=
    table_taken sound.placed2 sound.distinct2 present2 notFound
  refine ⟨b1, b2, taken1, taken2, perm1, placed1, placed2, ?_, ?_, ?_, ?_, ?_⟩
  · exact (List.pairwise_cons.mp ((distinct_perm perm1).mp sound.distinct1)).2
  · exact (List.pairwise_cons.mp ((distinct_perm perm2).mp sound.distinct2)).2
  · rw [List.length_set, List.length_set]
    exact sound.sizes
  · have both := perm2.symm.trans (sound.flipped.trans (perm1.map (flip key2)))
    exact both.cons_inv
  · rw [sound.counts, perm1.length_eq, List.length_cons, Int.natCast_succ, Int.add_sub_cancel]
    rfl

theorem Sound.pushed (absent1 : lookup key1 k1 table1.flatten = none)
    (absent2 : lookup key2 k2 table2.flatten = none) (item : X) :
    let e := (key1.hashValue k1, k1, (k2, item))
    let table1' := table1.set (place key1 table1 k1) (e :: bucketAt table1 (place key1 table1 k1))
    let table2' := table2.set (place key2 table2 k2)
      (flip key2 e :: bucketAt table2 (place key2 table2 k2))
    table1'.flatten.Perm (e :: table1.flatten) ∧ Sound key1 key2 table1' table2' (n + 1) := by
  obtain ⟨placed1, perm1⟩ := table_pushed (k := k1) sound.placed1 (k2, item)
  obtain ⟨placed2, perm2⟩ := table_pushed (k := k2) sound.placed2 (k1, item)
  refine ⟨perm1, placed1, placed2, ?_, ?_, ?_, ?_, ?_⟩
  · exact (distinct_perm perm1).mpr (distinct_cons sound.distinct1 absent1)
  · exact (distinct_perm perm2).mpr (distinct_cons sound.distinct2 absent2)
  · rw [List.length_set, List.length_set]
    exact sound.sizes
  · exact perm2.trans ((sound.flipped.cons _).trans (perm1.map (flip key2)).symm)
  · have length := perm1.length_eq
    unfold place
    rw [length, sound.counts]
    exact (Int.natCast_succ _).symm

theorem Sound.replaced (item : X)
    (same1 : key1.sameKey k1 e.2.1 = true) (same2 : key2.sameKey k2 e.2.2.1 = true)
    {b1 others1 : List (Entry K1 (K2 × X))} {b2 others2 : List (Entry K2 (K1 × X))}
    (before1 : (bucketAt table1 (place key1 table1 k1)).Perm (e :: others1))
    (after1 : b1.Perm ((key1.hashValue k1, k1, (k2, item)) :: others1))
    (before2 : (bucketAt table2 (place key2 table2 k2)).Perm (flip key2 e :: others2))
    (after2 : b2.Perm ((key2.hashValue k2, k2, (k1, item)) :: others2)) :
    let table1' := table1.set (place key1 table1 k1) b1
    let table2' := table2.set (place key2 table2 k2) b2
    ∃ rest, table1.flatten.Perm (e :: rest) ∧
      table1'.flatten.Perm ((key1.hashValue k1, k1, (k2, item)) :: rest) ∧
      Sound key1 key2 table1' table2' n := by
  obtain ⟨placed1, rest1, perm1, perm1'⟩ := table_replaced sound.placed1 _ before1 after1
  obtain ⟨placed2, rest2, perm2, perm2'⟩ := table_replaced sound.placed2 _ before2 after2
  have distinct1 := (distinct_perm perm1).mp sound.distinct1
  have distinct2 := (distinct_perm perm2).mp sound.distinct2
  have absent1 : lookup key1 k1 rest1 = none := by
    rw [lookup_less sound.distinct1 perm1, if_pos same1]
  have absent2 : lookup key2 k2 rest2 = none :=
    (lookup_less sound.distinct2 perm2 k2).trans (if_pos same2)
  refine ⟨rest1, perm1, perm1', placed1, placed2, ?_, ?_, ?_, ?_, ?_⟩
  · exact (distinct_perm perm1').mpr (distinct_cons (List.pairwise_cons.mp distinct1).2 absent1)
  · exact (distinct_perm perm2').mpr (distinct_cons (List.pairwise_cons.mp distinct2).2 absent2)
  · rw [List.length_set, List.length_set]
    exact sound.sizes
  · have rests : rest2.Perm (rest1.map (flip key2)) :=
      (perm2.symm.trans (sound.flipped.trans (perm1.map (flip key2)))).cons_inv
    exact perm2'.trans ((rests.cons _).trans (perm1'.map (flip key2)).symm)
  · have length := perm1'.length_eq
    rw [List.length_cons, ← List.length_cons (a := e), ← perm1.length_eq] at length
    unfold place
    rw [length, sound.counts]

end Tables

structure At (exn : Raised E) (a1 a2 : Nat) (table1 : Table K1 (K2 × X))
    (table2 : Table K2 (K1 × X)) (n : Int) (t : Hashtable E K1 K2 X) : Prop where
  notFound : t.notFound = exn
  ref1 : t.table1 = a1
  ref2 : t.table2 = a2
  made1 : a1 < t.arrays1.length
  made2 : a2 < t.arrays2.length
  current1 : t.array1 a1 = table1
  current2 : t.array2 a2 = table2
  nItems : t.nItems = n

section State

variable {exn : Raised E} {a1 a2 i : Nat} {table1 : Table K1 (K2 × X)}
  {table2 : Table K2 (K1 × X)} {n : Int} {t : Hashtable E K1 K2 X}
  (here : At exn a1 a2 table1 table2 n t)
include here

theorem At.write1 (b : Bucket K1 (K2 × X)) :
    At exn a1 a2 (table1.set i b) table2 n (t.write1 a1 i b) where
  __ := here
  made1 := by
    unfold Hashtable.write1
    rw [List.length_modify]
    exact here.made1
  current1 := by
    rw [← here.current1]
    simp [Hashtable.array1, Hashtable.write1, List.getD_eq_getElem?_getD, here.made1]

theorem At.write2 (b : Bucket K2 (K1 × X)) :
    At exn a1 a2 table1 (table2.set i b) n (t.write2 a2 i b) where
  __ := here
  made2 := by
    unfold Hashtable.write2
    rw [List.length_modify]
    exact here.made2
  current2 := by
    rw [← here.current2]
    simp [Hashtable.array2, Hashtable.write2, List.getD_eq_getElem?_getD, here.made2]

theorem At.count (m : Int) : At exn a1 a2 table1 table2 m { t with nItems := m } :=
  { here with nItems := rfl }

theorem At.current1_eq : t.current1 = table1 := by
  unfold Hashtable.current1
  rw [here.ref1, here.current1]

theorem At.current2_eq : t.current2 = table2 := by
  unfold Hashtable.current2
  rw [here.ref2, here.current2]

variable {nf : Raised E}

theorem delete1_ok {k : K1} {item : K2 × X} {b : Bucket K1 (K2 × X)}
    (taken : takeOut key1 nf (key1.hashValue k) k (bucketAt table1 (place key1 table1 k)) =
      .ok (item, b)) : ∃ t', outcome (delete1 key1 a1 nf k) t = (.ok item, t') ∧
      At exn a1 a2 (table1.set (place key1 table1 k) b) table2 n t' := by
  refine ⟨t.write1 a1 (place key1 table1 k) b, ?_, here.write1 b⟩
  simp only [delete1, outcome_bind, outcome_get, outcome_lift, here.current1, taken]
  rfl

theorem delete1_error {k : K1} {e : Raised E}
    (untaken : takeOut key1 nf (key1.hashValue k) k (bucketAt table1 (place key1 table1 k)) =
      .error e) : outcome (delete1 key1 a1 nf k) t = (.error e, t) := by
  simp only [delete1, outcome_bind, outcome_get, outcome_lift, here.current1, untaken]

theorem delete2_ok {k : K2} {item : K1 × X} {b : Bucket K2 (K1 × X)}
    (taken : takeOut key2 nf (key2.hashValue k) k (bucketAt table2 (place key2 table2 k)) =
      .ok (item, b)) : ∃ t', outcome (delete2 key2 a2 nf k) t = (.ok item, t') ∧
      At exn a1 a2 table1 (table2.set (place key2 table2 k) b) n t' := by
  refine ⟨t.write2 a2 (place key2 table2 k) b, ?_, here.write2 b⟩
  simp only [delete2, outcome_bind, outcome_get, outcome_lift, here.current2, taken]
  rfl

theorem delete2_error {k : K2} {e : Raised E}
    (untaken : takeOut key2 nf (key2.hashValue k) k (bucketAt table2 (place key2 table2 k)) =
      .error e) : outcome (delete2 key2 a2 nf k) t = (.error e, t) := by
  simp only [delete2, outcome_bind, outcome_get, outcome_lift, here.current2, untaken]

variable (sound : Sound key1 key2 table1 table2 n)
include sound

theorem remove1_present {k1 : K1} {e : Entry K1 (K2 × X)}
    (present : lookup key1 k1 table1.flatten = some e) :
    ∃ t' table1' table2', outcome (remove1 key1 key2 k1) t = (.ok e.2.2.2, t') ∧
      At exn a1 a2 table1' table2' (n - 1) t' ∧ Sound key1 key2 table1' table2' (n - 1) ∧
      table1.flatten.Perm (e :: table1'.flatten) := by
  obtain ⟨b1, b2, taken1, taken2, perm, sound'⟩ :=
    sound.taken present (sound.lookup_flip present) exn
  obtain ⟨t1, deleted1, here1⟩ := delete1_ok here taken1
  obtain ⟨t2, deleted2, here2⟩ := delete2_ok here1 taken2
  refine ⟨_, _, _, ?_, here2.count (n - 1), sound', perm⟩
  simp only [remove1, outcome_bind, outcome_get, here.ref1, here.ref2, here.notFound, deleted1,
    deleted2, countDown, outcome_modify, here2.nItems]
  rfl

theorem remove1_absent {k1 : K1} (absent : lookup key1 k1 table1.flatten = none) :
    outcome (remove1 key1 key2 k1) t = (.error exn, t) := by
  have deleted := delete1_error here (table_untaken sound.placed1 sound.distinct1 absent exn)
  simp only [remove1, outcome_bind, outcome_get, here.ref1, here.notFound, deleted]

theorem remove2_present {k2 : K2} {e : Entry K1 (K2 × X)}
    (present : lookup key2 k2 table2.flatten = some (flip key2 e)) (mem : e ∈ table1.flatten) :
    ∃ t' table1' table2', outcome (remove2 key1 key2 k2) t = (.ok e.2.2.2, t') ∧
      At exn a1 a2 table1' table2' (n - 1) t' ∧ Sound key1 key2 table1' table2' (n - 1) ∧
      table1.flatten.Perm (e :: table1'.flatten) := by
  have present1 : lookup key1 e.2.1 table1.flatten = some e :=
    (lookup_eq_some sound.distinct1).mpr ⟨mem, key1.same_refl _⟩
  obtain ⟨b1, b2, taken1, taken2, perm, sound'⟩ := sound.taken present1 present exn
  obtain ⟨t1, deleted2, here1⟩ := delete2_ok here taken2
  obtain ⟨t2, deleted1, here2⟩ := delete1_ok here1 taken1
  refine ⟨_, _, _, ?_, here2.count (n - 1), sound', perm⟩
  simp only [remove2, outcome_bind, outcome_get, here.ref1, here.ref2, here.notFound, deleted1,
    deleted2, countDown, outcome_modify, here2.nItems]
  rfl

theorem remove2_absent {k2 : K2} (absent : lookup key2 k2 table2.flatten = none) :
    outcome (remove2 key1 key2 k2) t = (.error exn, t) := by
  have deleted := delete2_error here (table_untaken sound.placed2 sound.distinct2 absent exn)
  simp only [remove2, outcome_bind, outcome_get, here.ref2, here.notFound, deleted]

end State

section Set

variable {exn : Raised E} {a1 a2 i1 i2 h1 h2 : Nat} {table1 : Table K1 (K2 × X)}
  {table2 : Table K2 (K1 × X)} {n : Int} {t t' : Hashtable E K1 K2 X} {k1 : K1} {k2 : K2} {item : X}

theorem growIfNeeded_room (here : At exn a1 a2 table1 table2 n t) (room : n < table1.length) :
    outcome (growIfNeeded a2) t = (.ok (), t) := by
  have stays : growTableIfNeeded (E := E) table1 n = .ok (table1, false) := by
    unfold growTableIfNeeded
    rw [if_neg (Int.not_le.mpr room)]
    rfl
  have step : outcome (growIfNeeded a2) t = outcome (do
      let (table, grew) ← (liftM (growTableIfNeeded (E := E) t.current1 t.nItems) :
        Calling E K1 K2 X (Table K1 (K2 × X) × Bool))
      if grew then
        modify fun t => t.store1 table
        let t ← get
        let table ← growTable (E := E) (t.array2 a2) t.current1.length
        modify fun t => t.store2 table) t := rfl
  rw [step, outcome_bind, outcome_lift, here.current1_eq, here.nItems, stays]
  rfl

variable (key1 key2 i1 h1 k1 k2 item) in
theorem get1_nil (here : At exn a1 a2 table1 table2 n t) (room : n + 1 < table1.length) :
    ∃ t', outcome (get1 key1 key2 a1 a2 i1 h1 k1 k2 item []) t = (.ok [], t') ∧
      At exn a1 a2 (table1.set i1 ((h1, k1, (k2, item)) :: bucketAt table1 i1)) table2 (n + 1)
        t' := by
  have counted := (here.write1 (i := i1) ((h1, k1, (k2, item)) :: bucketAt table1 i1)).count (n + 1)
  refine ⟨_, ?_, counted⟩
  have step : outcome (get1 key1 key2 a1 a2 i1 h1 k1 k2 item []) t =
      outcome (growIfNeeded a2 >>= fun _ => pure [])
        { t.write1 a1 i1 ((h1, k1, (k2, item)) :: bucketAt (t.array1 a1) i1) with
          nItems := t.nItems + 1 } := rfl
  rw [step, outcome_bind, here.current1, here.nItems, growIfNeeded_room counted]
  · rfl
  · rw [List.length_set]
    exact room

variable (key1 key2 i2 h2 k1 k2 item) in
theorem get2_nil (here : At exn a1 a2 table1 table2 n t) :
    ∃ t', outcome (get2 key1 key2 a1 a2 i2 h2 k1 k2 item []) t = (.ok [], t') ∧
      At exn a1 a2 table1 (table2.set i2 ((h2, k2, (k1, item)) :: bucketAt table2 i2)) n t' := by
  refine ⟨_, ?_, here.write2 (i := i2) ((h2, k2, (k1, item)) :: bucketAt table2 i2)⟩
  rw [← here.current2]
  rfl

theorem get1_absent {b : Bucket K1 (K2 × X)} (absent : lookup key1 k1 b = none)
    (pushed : outcome (get1 key1 key2 a1 a2 i1 h1 k1 k2 item []) t = (.ok [], t')) :
    outcome (get1 key1 key2 a1 a2 i1 h1 k1 k2 item b) t = (.ok [], t') := by
  induction b with
  | nil => exact pushed
  | cons e b ih =>
    obtain ⟨other, absent⟩ := lookup_cons_eq_none.mp absent
    rw [key1.same_comm] at other
    rw [get1, if_neg (by simp [other]), outcome_bind, ih absent]
    rfl

theorem get2_absent {b : Bucket K2 (K1 × X)} (absent : lookup key2 k2 b = none)
    (pushed : outcome (get2 key1 key2 a1 a2 i2 h2 k1 k2 item []) t = (.ok [], t')) :
    outcome (get2 key1 key2 a1 a2 i2 h2 k1 k2 item b) t = (.ok [], t') := by
  induction b with
  | nil => exact pushed
  | cons e b ih =>
    obtain ⟨other, absent⟩ := lookup_cons_eq_none.mp absent
    rw [key2.same_comm] at other
    rw [get2, if_neg (by simp [other]), outcome_bind, ih absent]
    rfl

variable (a1 a2 i1 t item) in
theorem get1_present {b : Bucket K1 (K2 × X)} (hashed : ∀ e ∈ b, e.1 = key1.hashValue e.2.1)
    {e : Entry K1 (K2 × X)} (present : lookup key1 k1 b = some e)
    (same2 : key2.sameKey k2 e.2.2.1 = true) :
    ∃ e' rest, outcome (get1 key1 key2 a1 a2 i1 (key1.hashValue k1) k1 k2 item b) t =
        (.ok (e' :: rest), t) ∧ ∃ others, b.Perm (e :: others) ∧
        (e' :: rest).Perm ((key1.hashValue k1, k1, (k2, item)) :: others) := by
  induction b with
  | nil => cases present
  | cons e' b ih =>
    have hit := hit_iff (k := k1) hashed (List.mem_cons_self ..)
    rw [lookup_cons] at present
    rw [get1]
    split at present
    · next same =>
        cases present
        have both := hit.mpr same
        rw [key1.same_comm] at both
        rw [if_pos ⟨both.1.symm, both.2⟩, same2]
        exact ⟨_, b, rfl, b, .refl _, .refl _⟩
    · next other =>
        obtain ⟨e1, rest, result, others, perm, perm'⟩ :=
          ih (fun e' mem => hashed e' (List.mem_cons_of_mem _ mem)) present
        rw [if_neg, outcome_bind, result]
        · refine ⟨e', e1 :: rest, rfl, e' :: others, ?_, ?_⟩
          · exact (perm.cons e').trans (.swap ..)
          · exact (perm'.cons e').trans (.swap ..)
        · rw [key1.same_comm]
          exact fun both => other both.2

theorem get2_first {h : Nat} {k2' : K2} {k1' : K1} {v : X} {r : Bucket K2 (K1 × X)}
    (hashes : h = h2) (same2 : key2.sameKey k2' k2 = true) (same1 : key1.sameKey k1 k1' = true) :
    outcome (get2 key1 key2 a1 a2 i2 h2 k1 k2 item ((h, k2', (k1', v)) :: r)) t =
      (.ok ((h2, k2, (k1, item)) :: r), t) := by
  rw [get2, if_pos ⟨hashes, same2⟩, same1]
  rfl

def setBuckets (a1 a2 i1 i2 : Nat) (b1 : Bucket K1 (K2 × X)) (b2 : Bucket K2 (K1 × X)) :
    Calling E K1 K2 X Unit :=
  match b1, b2 with
  | [], [] => return ()
  | b1, b2 => do
      modify fun t => t.write1 a1 i1 b1
      modify fun t => t.write2 a2 i2 b2

theorem outcome_set (here : At exn a1 a2 table1 table2 n t)
    (sizes : table2.length = table1.length) {t1 t2 : Hashtable E K1 K2 X}
    {b1 : Bucket K1 (K2 × X)} {b2 : Bucket K2 (K1 × X)}
    (first : outcome (get1 key1 key2 a1 a2 (place key1 table1 k1) (key1.hashValue k1) k1 k2 item
      (bucketAt table1 (place key1 table1 k1))) t = (.ok b1, t1)) (kept : t1.array2 a2 = table2)
    (second : outcome (get2 key1 key2 a1 a2 (place key2 table2 k2) (key2.hashValue k2) k1 k2 item
      (bucketAt table2 (place key2 table2 k2))) t1 = (.ok b2, t2)) :
    outcome (set key1 key2 k1 k2 item) t =
      outcome (setBuckets a1 a2 (place key1 table1 k1) (place key2 table2 k2) b1 b2) t2 := by
  have place2 : index (key2.hashValue k2) table1.length = place key2 table2 k2 := by
    rw [place, sizes]
  have place1 : index (key1.hashValue k1) table1.length = place key1 table1 k1 := rfl
  simp only [set, outcome_bind, outcome_get, here.ref1, here.ref2, here.current1, place1, place2,
    first, kept, second]
  rfl

variable (item) in
theorem set_new (here : At exn a1 a2 table1 table2 n t) (sound : Sound key1 key2 table1 table2 n)
    (absent1 : lookup key1 k1 table1.flatten = none)
    (absent2 : lookup key2 k2 table2.flatten = none) (room : n + 1 < table1.length) :
    ∃ t' table1' table2', outcome (set key1 key2 k1 k2 item) t = (.ok (), t') ∧
      At exn a1 a2 table1' table2' (n + 1) t' ∧ Sound key1 key2 table1' table2' (n + 1) ∧
      table1'.flatten.Perm ((key1.hashValue k1, k1, (k2, item)) :: table1.flatten) := by
  obtain ⟨perm, sound'⟩ := sound.pushed absent1 absent2 item
  obtain ⟨t1, pushed1, here1⟩ := get1_nil key1 key2 (place key1 table1 k1)
    (key1.hashValue k1) k1 k2 item here room
  obtain ⟨t2, pushed2, here2⟩ := get2_nil key1 key2 (place key2 table2 k2)
    (key2.hashValue k2) k1 k2 item here1
  rw [← sound.placed1.lookup_bucketAt sound.distinct1] at absent1
  rw [← sound.placed2.lookup_bucketAt sound.distinct2] at absent2
  have result1 := get1_absent absent1 pushed1
  have result2 := get2_absent absent2 pushed2
  refine ⟨t2, _, _, ?_, here2, sound', perm⟩
  exact outcome_set here sound.sizes result1 here1.current2 result2

variable (item) in
theorem set_same (here : At exn a1 a2 table1 table2 n t) (sound : Sound key1 key2 table1 table2 n)
    {h : Nat} {k2' : K2} {k1' : K1} {v : X} {r : Bucket K2 (K1 × X)}
    (first : bucketAt table2 (place key2 table2 k2) = (h, k2', (k1', v)) :: r)
    (same2 : key2.sameKey k2' k2 = true) (same1 : key1.sameKey k1 k1' = true) :
    ∃ t' table1' table2', outcome (set key1 key2 k1 k2 item) t = (.ok (), t') ∧
      At exn a1 a2 table1' table2' n t' ∧ Sound key1 key2 table1' table2' n ∧
      ∃ rest, table1.flatten.Perm ((key1.hashValue k1', k1', (k2', v)) :: rest) ∧
        table1'.flatten.Perm ((key1.hashValue k1, k1, (k2, item)) :: rest) := by
  have lt := sound.placed2.index_lt (key2.hashValue k2)
  have mem : (h, k2', (k1', v)) ∈ table2.flatten := by
    apply mem_of_bucketAt lt
    unfold place at first
    rw [first]
    exact List.mem_cons_self ..
  have hashes : h = key2.hashValue k2 :=
    (sound.placed2.hashed _ mem).trans (key2.hash_same _ _ same2)
  obtain ⟨e, memE, equal⟩ := sound.mem_flip mem
  have present : lookup key1 k1 table1.flatten = some e := by
    apply (lookup_eq_some sound.distinct1).mpr
    refine ⟨memE, ?_⟩
    cases equal
    exact same1
  rw [← sound.placed1.lookup_bucketAt sound.distinct1] at present
  have second : key2.sameKey k2 e.2.2.1 = true := by
    cases equal
    exact key2.same_symm _ _ same2
  obtain ⟨e1, rest, result1, others, before1, after1⟩ := get1_present a1 a2
    (place key1 table1 k1) t item (bucket_hashed sound.placed1 k1) present second
  have result2 : outcome (get2 key1 key2 a1 a2 (place key2 table2 k2) (key2.hashValue k2) k1 k2 item
      (bucketAt table2 (place key2 table2 k2))) t =
        (.ok ((key2.hashValue k2, k2, (k1, item)) :: r), t) := by
    rw [first]
    exact get2_first hashes same2 same1
  have before2 : (bucketAt table2 (place key2 table2 k2)).Perm (flip key2 e :: r) := by
    rw [first, equal]
  obtain ⟨outside, perm, perm', sound'⟩ := sound.replaced item
    (by
      cases equal
      exact same1) second before1 after1 before2 (.refl _)
  have entry : e = (key1.hashValue k1', k1', (k2', v)) := by
    cases equal
    rw [← sound.placed1.hashed e memE]
  refine ⟨_, _, _, outcome_set here sound.sizes result1 here.current2 result2,
    (here.write1 _).write2 _, sound', outside, entry ▸ perm, perm'⟩

end Set

end Mythryl.DoubleKeyedHashtable
