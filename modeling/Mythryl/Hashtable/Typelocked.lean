import Mythryl.Hashtable.Representation
import Mythryl.RaisingState

/-!
# Typelocked hashtables

`typelocked_hashtable_g`.
-/

namespace Mythryl.TypelockedHashtable
open RaisingState HashtableRepresentation

structure Hashtable (E K X : Type) where
  notFoundException : Raised E
  arrays : List (Table K X)
  table : Nat
  nItems : Int

abbrev Calling (E K X : Type) := Raising (Raised E) (Hashtable E K X)

section Operations

variable {E K X : Type}

def Hashtable.array (t : Hashtable E K X) (arr : Nat) : Table K X := t.arrays.getD arr []

def Hashtable.current (t : Hashtable E K X) : Table K X := t.array t.table

def Hashtable.write (t : Hashtable E K X) (arr i : Nat) (b : Bucket K X) : Hashtable E K X :=
  { t with arrays := t.arrays.modify arr fun table => table.set i b }

def Hashtable.store (t : Hashtable E K X) (table : Table K X) : Hashtable E K X :=
  { t with arrays := t.arrays ++ [table], table := t.arrays.length }

def Hashtable.overwrite (t : Hashtable E K X) (table : Table K X) : Hashtable E K X :=
  { t with arrays := t.arrays.set t.table table }

def makeHashtable (sizeHint : Int) (notFoundException : Raised E) :
    Except (Raised E) (Hashtable E K X) := do
  return ⟨notFoundException, [← alloc sizeHint], 0, 0⟩

def clear : Calling E K X Unit :=
  modify fun t => { t.overwrite (HashtableRepresentation.clear t.current) with nItems := 0 }

def growIfNeeded : Calling E K X Bool := do
  let t ← get
  let (table, grew) ← growTableIfNeeded (E := E) t.current t.nItems
  if grew then modify fun t => t.store table
  return grew

def setLoop (key : HashKey K) (arr i hash : Nat) (k : K) (item : X) :
    Bucket K X → Calling E K X (Bucket K X)
  | [] => do
      modify fun t => t.write arr i ((hash, k, item) :: bucketAt (t.array arr) i)
      modify fun t => { t with nItems := t.nItems + 1 }
      let _ ← growIfNeeded
      return []
  | (h, k', v) :: r =>
      if hash = h ∧ key.sameKey k k' = true then return (hash, k, item) :: r
      else do
        match ← setLoop key arr i hash k item r with
        | [] => return []
        | rest => return (h, k', v) :: rest

def set (key : HashKey K) (k : K) (item : X) : Calling E K X Unit := do
  let t ← get
  let arr := t.table
  let size := (t.array arr).length
  let hash := key.hashValue k
  let i := index hash size
  match ← setLoop key arr i hash k item (bucketAt (t.array arr) i) with
  | [] => return ()
  | b => modify fun t => t.write arr i b

def Hashtable.bucket (key : HashKey K) (t : Hashtable E K X) (k : K) : Bucket K X :=
  let arr := t.current
  bucketAt arr (index (key.hashValue k) arr.length)

def containsKey (key : HashKey K) (t : Hashtable E K X) (k : K) : Bool :=
  containsLoop key (key.hashValue k) k (t.bucket key k)

def getItem (key : HashKey K) (t : Hashtable E K X) (k : K) : Except (Raised E) X :=
  getLoop key t.notFoundException (key.hashValue k) k (t.bucket key k)

def find (key : HashKey K) (t : Hashtable E K X) (k : K) : Option X :=
  findLoop key (key.hashValue k) k (t.bucket key k)

def remove (key : HashKey K) (k : K) : Calling E K X X := do
  let t ← get
  let arr := t.table
  let size := (t.array arr).length
  let hash := key.hashValue k
  let i := index hash size
  let (item, bucket) ←
    takeOut key t.notFoundException hash k (bucketAt (t.array arr) i)
  modify fun t => t.write arr i bucket
  modify fun t => { t with nItems := t.nItems - 1 }
  return item

def valsCount (t : Hashtable E K X) : Int := t.nItems

def valsList (t : Hashtable E K X) : List X := HashtableRepresentation.valsList t.current t.nItems

def keyvalsList (t : Hashtable E K X) : List (K × X) := HashtableRepresentation.keyvalsList t.current t.nItems

def keyedMapInPlace (f : K → X → X) : Calling E K X Unit :=
  modify fun t => t.overwrite (HashtableRepresentation.keyedMapInPlace f t.current)

def mapInPlace (f : X → X) : Calling E K X Unit :=
  modify fun t => t.overwrite (HashtableRepresentation.mapInPlace f t.current)

def keyedFilter (prior : K → X → Bool) : Calling E K X Unit :=
  modify fun t =>
    let (table, nItems) := HashtableRepresentation.keyedFilter prior t.current
    { t.overwrite table with nItems := nItems }

def filter (prior : X → Bool) : Calling E K X Unit :=
  modify fun t =>
    let (table, nItems) := HashtableRepresentation.filter prior t.current
    { t.overwrite table with nItems := nItems }

end Operations

section Current

variable {E K X : Type} {key : HashKey K} {t : Hashtable E K X}

def Hashtable.entries (t : Hashtable E K X) : List (Entry K X) := t.current.flatten

structure Hashtable.Valid (key : HashKey K) (t : Hashtable E K X) : Prop where
  made : t.table < t.arrays.length
  placed : Placed key t.current
  distinct : Distinct key t.entries
  counts : t.nItems = t.entries.length

theorem current_write (made : t.table < t.arrays.length) (i : Nat) (b : Bucket K X) :
    (t.write t.table i b).current = t.current.set i b := by
  simp [Hashtable.current, Hashtable.array, Hashtable.write, List.getD_eq_getElem?_getD,
    made]

theorem current_store (t : Hashtable E K X) (table : Table K X) :
    (t.store table).current = table := by
  simp [Hashtable.current, Hashtable.array, Hashtable.store, List.getD_eq_getElem?_getD]

theorem current_overwrite (made : t.table < t.arrays.length) (table : Table K X) :
    (t.overwrite table).current = table := by
  simp [Hashtable.current, Hashtable.array, Hashtable.overwrite, List.getD_eq_getElem?_getD, made]

theorem Hashtable.Valid.bucket_hashed (valid : t.Valid key) (k : K) :
    ∀ e ∈ t.bucket key k, e.1 = key.hashValue e.2.1 := by
  intro e mem
  exact valid.placed.hashed e (mem_of_bucketAt (valid.placed.index_lt _) mem)

theorem Hashtable.Valid.lookup_bucket (valid : t.Valid key) (k : K) :
    lookup key k (t.bucket key k) = lookup key k t.entries :=
  valid.placed.lookup_bucketAt valid.distinct k

variable {arr i hash : Nat} {k : K} {item : X} {b : Bucket K X}

def Hashtable.insert (t : Hashtable E K X) (arr i : Nat) (e : Entry K X) : Hashtable E K X :=
  { t.write arr i (e :: bucketAt (t.array arr) i) with nItems := t.nItems + 1 }

theorem outcome_growIfNeeded (t : Hashtable E K X) :
    outcome growIfNeeded t = match growTableIfNeeded (E := E) t.current t.nItems with
      | .error e => (.error e, t)
      | .ok (table, grew) => (.ok grew, if grew then t.store table else t) := by
  rw [growIfNeeded, outcome_bind, outcome_get]
  dsimp only
  rw [outcome_bind, outcome_lift]
  cases growTableIfNeeded (E := E) t.current t.nItems with
  | error e => rfl
  | ok result =>
    obtain ⟨table, grew⟩ := result
    cases grew <;> rfl

theorem outcome_setLoop_nil (t : Hashtable E K X) :
    outcome (setLoop key arr i hash k item []) t =
      ((outcome growIfNeeded (t.insert arr i (hash, k, item))).1.map fun _ => [],
        (outcome growIfNeeded (t.insert arr i (hash, k, item))).2) := by
  have step : outcome (setLoop key arr i hash k item []) t =
      outcome (growIfNeeded >>= fun _ => pure []) (t.insert arr i (hash, k, item)) := rfl
  rw [step, outcome_bind]
  rcases outcome growIfNeeded (t.insert arr i (hash, k, item)) with ⟨e | grew, t'⟩
  · rfl
  · rfl

theorem setLoop_cons (e : Entry K X) (b : Bucket K X) :
    setLoop (E := E) key arr i hash k item (e :: b) =
      if hash = e.1 ∧ key.sameKey k e.2.1 = true then return (hash, k, item) :: b
      else do
        match ← setLoop key arr i hash k item b with
        | [] => return []
        | rest => return e :: rest := rfl

theorem setLoop_absent (absent : lookup key k b = none) (t : Hashtable E K X) :
    outcome (setLoop key arr i hash k item b) t = outcome (setLoop key arr i hash k item []) t := by
  induction b with
  | nil => rfl
  | cons e b ih =>
    obtain ⟨other, absent⟩ := lookup_cons_eq_none.mp absent
    rw [setLoop_cons, if_neg (by simp [other]), outcome_bind, ih absent, outcome_setLoop_nil]
    rcases outcome growIfNeeded (t.insert arr i (hash, k, item)) with ⟨e | grew, t'⟩
    · rfl
    · rfl

variable (arr i item) in
theorem setLoop_present (hashed : ∀ e ∈ b, e.1 = key.hashValue e.2.1) {e : Entry K X}
    (present : lookup key k b = some e) (t : Hashtable E K X) :
    ∃ e' rest, outcome (setLoop key arr i (key.hashValue k) k item b) t = (.ok (e' :: rest), t) ∧
      ∃ others, b.Perm (e :: others) ∧
        (e' :: rest).Perm ((key.hashValue k, k, item) :: others) := by
  induction b with
  | nil => cases present
  | cons e' b ih =>
    have hit := hit_iff (k := k) hashed (List.mem_cons_self ..)
    rw [lookup_cons] at present
    rw [setLoop_cons]
    split at present
    · next same =>
        cases present
        rw [if_pos (hit.mpr same)]
        exact ⟨_, b, rfl, b, .refl _, .refl _⟩
    · next other =>
        obtain ⟨e1, rest, result, others, perm, perm'⟩ :=
          ih (fun e' mem => hashed e' (List.mem_cons_of_mem _ mem)) present
        rw [if_neg (mt hit.mp other), outcome_bind, result]
        refine ⟨e', e1 :: rest, rfl, e' :: others, ?_, ?_⟩
        · exact (perm.cons e').trans (.swap ..)
        · exact (perm'.cons e').trans (.swap ..)

theorem write_valid (valid : t.Valid key) {b rest : List (Entry K X)} {n : Int}
    (placed : Placed key (t.current.set i b)) (perm : (t.current.set i b).flatten.Perm rest)
    (distinct : Distinct key rest) (counts : n = rest.length) :
    Hashtable.Valid key { t.write t.table i b with nItems := n } ∧
      ({ t.write t.table i b with nItems := n } : Hashtable E K X).entries.Perm rest := by
  have current := current_write valid.made i b
  have entries : ({ t.write t.table i b with nItems := n } : Hashtable E K X).entries.Perm rest := by
    change (t.write t.table i b).current.flatten.Perm rest
    rwa [current]
  refine ⟨⟨?_, ?_, (distinct_perm entries).mpr distinct,
    counts.trans (congrArg _ entries.length_eq.symm)⟩, entries⟩
  · change t.table < (t.arrays.modify t.table _).length
    rw [List.length_modify]
    exact valid.made
  · change Placed key (t.write t.table i b).current
    rwa [current]

theorem insert_valid (valid : t.Valid key) (absent : lookup key k t.entries = none) (item : X) :
    let e := (key.hashValue k, k, item)
    let t' := t.insert t.table (index (key.hashValue k) t.current.length) e
    t'.Valid key ∧ t'.entries.Perm (e :: t.entries) := by
  obtain ⟨placed, perm⟩ := table_pushed (k := k) valid.placed item
  apply write_valid valid placed perm (distinct_cons valid.distinct absent)
  rw [List.length_cons, valid.counts]
  exact (Int.natCast_succ _).symm

theorem grow_valid (valid : t.Valid key) :
    let t' := (outcome growIfNeeded t).2
    t'.Valid key ∧ t'.notFoundException = t.notFoundException ∧ t'.entries.Perm t.entries := by
  rw [outcome_growIfNeeded]
  cases grown : growTableIfNeeded (E := E) t.current t.nItems with
  | error e => exact ⟨valid, rfl, .refl _⟩
  | ok result =>
    obtain ⟨table, grew⟩ := result
    cases grew with
    | false => exact ⟨valid, rfl, .refl _⟩
    | true =>
      obtain ⟨placed, perm⟩ := growTableIfNeeded_ok valid.placed grown
      have entries : (t.store table).entries.Perm t.entries := by
        rw [Hashtable.entries, current_store]
        exact perm
      refine ⟨⟨?_, ?_, (distinct_perm entries).mpr valid.distinct, ?_⟩, rfl, entries⟩
      · simp [Hashtable.store]
      · dsimp only
        rw [if_pos rfl, current_store]
        exact placed
      · exact valid.counts.trans (congrArg _ entries.length_eq.symm)

theorem set_valid (valid : t.Valid key) (k : K) (item : X) :
    let t' := (outcome (set key k item) t).2
    t'.Valid key ∧ t'.notFoundException = t.notFoundException ∧
      ∀ l, lookup key l t'.entries =
        if key.sameKey l k = true then some (key.hashValue k, k, item)
        else lookup key l t.entries := by
  have start : outcome (set key k item) t =
      outcome (setLoop key t.table (index (key.hashValue k) t.current.length) (key.hashValue k) k
        item (t.bucket key k) >>= fun b => match b with
          | [] => return ()
          | b => modify fun t' =>
            t'.write t.table (index (key.hashValue k) t.current.length) b) t := rfl
  have bucket := valid.lookup_bucket k
  rw [start, outcome_bind]
  cases found : lookup key k t.entries with
  | none =>
    rw [found] at bucket
    obtain ⟨valid', perm⟩ := insert_valid valid found item
    obtain ⟨valid'', same, perm'⟩ := grow_valid valid'
    have more := lookup_more (distinct_cons valid.distinct found) (perm'.trans perm)
    rw [setLoop_absent bucket, outcome_setLoop_nil]
    revert valid'' same more
    rcases outcome growIfNeeded (t.insert t.table (index (key.hashValue k) t.current.length)
      (key.hashValue k, k, item)) with ⟨e | grew, t'⟩
    · exact fun valid'' same more => ⟨valid'', same, more⟩
    · exact fun valid'' same more => ⟨valid'', same, more⟩
  | some e =>
    rw [found] at bucket
    obtain ⟨e', rest, result, others, perm, perm'⟩ :=
      setLoop_present t.table (index (key.hashValue k) t.current.length) item
        (valid.bucket_hashed k) bucket t
    rw [result]
    obtain ⟨placed, outside, whole, whole'⟩ := table_replaced valid.placed item perm perm'
    have distinct := (distinct_perm whole).mp valid.distinct
    have same := ((lookup_eq_some valid.distinct).mp found).2
    have absent : lookup key k outside = none := by
      rw [lookup_less valid.distinct whole, if_pos same]
    have distinct' : Distinct key ((key.hashValue k, k, item) :: outside) :=
      distinct_cons (List.pairwise_cons.mp distinct).2 absent
    obtain ⟨valid', entries⟩ := write_valid (b := e' :: rest) (n := t.nItems) valid placed whole'
      distinct' (valid.counts.trans (congrArg _ whole.length_eq))
    refine ⟨valid', rfl, ?_⟩
    intro l
    have more := lookup_more distinct' entries l
    rw [lookup_less valid.distinct whole, ← key.same_congr same] at more
    refine more.trans ?_
    split <;> rfl

theorem find_eq (valid : t.Valid key) (k : K) :
    find key t k = (lookup key k t.entries).map (·.2.2) := by
  rw [find, findLoop_eq (valid.bucket_hashed k), valid.lookup_bucket]

theorem getItem_eq (valid : t.Valid key) (k : K) :
    getItem key t k = match lookup key k t.entries with
      | none => .error t.notFoundException
      | some e => .ok e.2.2 := by
  rw [getItem, getLoop_eq (valid.bucket_hashed k), valid.lookup_bucket] <;>
    cases lookup key k t.entries <;> rfl

theorem containsKey_eq (valid : t.Valid key) (k : K) :
    containsKey key t k = (lookup key k t.entries).isSome := by
  rw [containsKey, containsLoop_eq (valid.bucket_hashed k), valid.lookup_bucket]

theorem outcome_remove (t : Hashtable E K X) (k : K) :
    outcome (remove key k) t =
      match takeOut key t.notFoundException (key.hashValue k) k (t.bucket key k) with
      | .error e => (.error e, t)
      | .ok (item, b) => (.ok item,
          { t.write t.table (index (key.hashValue k) t.current.length) b with
            nItems := t.nItems - 1 }) := by
  simp only [remove, outcome_bind, outcome_get, outcome_lift]
  unfold Hashtable.bucket Hashtable.current
  cases takeOut key t.notFoundException (key.hashValue k) k
    (bucketAt (t.array t.table) (index (key.hashValue k) (t.array t.table).length)) <;> rfl

theorem remove_absent (valid : t.Valid key) (absent : lookup key k t.entries = none) :
    outcome (remove key k) t = (.error t.notFoundException, t) := by
  have bucket := valid.lookup_bucket k
  rw [absent] at bucket
  rw [outcome_remove, takeOut_absent (valid.bucket_hashed k) bucket t.notFoundException]

theorem remove_present (valid : t.Valid key) {e : Entry K X}
    (present : lookup key k t.entries = some e) :
    ∃ t', outcome (remove key k) t = (.ok e.2.2, t') ∧ t'.Valid key ∧
      t'.notFoundException = t.notFoundException ∧ ∀ l, lookup key l t'.entries =
          if key.sameKey l k = true then none else lookup key l t.entries := by
  obtain ⟨b', taken, placed, whole⟩ :=
    table_taken valid.placed valid.distinct present t.notFoundException
  have same := ((lookup_eq_some valid.distinct).mp present).2
  obtain ⟨valid', entries⟩ := write_valid (n := t.nItems - 1) valid placed (.refl _)
    (List.pairwise_cons.mp ((distinct_perm whole).mp valid.distinct)).2
    (by
      have length : t.entries.length = _ := whole.length_eq
      rw [valid.counts, length, List.length_cons, Int.natCast_succ, Int.add_sub_cancel])
  refine ⟨_, ?_, valid', rfl, ?_⟩
  · rw [outcome_remove]
    unfold Hashtable.bucket
    rw [taken]
  · intro l
    rw [lookup_perm valid'.distinct entries, lookup_less valid.distinct whole,
      ← key.same_congr same]

theorem overwrite_valid (valid : t.Valid key) {table : Table K X} {n : Int}
    (placed : Placed key table) (distinct : Distinct key table.flatten)
    (counts : n = table.flatten.length) :
    Hashtable.Valid key { t.overwrite table with nItems := n } ∧
      ({ t.overwrite table with nItems := n } : Hashtable E K X).entries = table.flatten := by
  have current := current_overwrite valid.made table
  have entries : ({ t.overwrite table with nItems := n } : Hashtable E K X).entries =
      table.flatten := congrArg List.flatten current
  refine ⟨⟨?_, ?_, entries ▸ distinct, entries ▸ counts⟩, entries⟩
  · change t.table < (t.arrays.set t.table table).length
    rw [List.length_set]
    exact valid.made
  · change Placed key (t.overwrite table).current
    rwa [current]

theorem keyedMapInPlace_valid (valid : t.Valid key) (f : K → X → X) :
    let t' := (outcome (keyedMapInPlace f) t).2
    t'.Valid key ∧ t'.entries = t.entries.map fun e => (e.1, e.2.1, f e.2.1 e.2.2) := by
  have flat := flatten_keyedMapInPlace f t.current
  obtain ⟨valid', entries⟩ := overwrite_valid valid (placed_keyedMapInPlace f valid.placed)
    (n := t.nItems)
    (by
      rw [flat]
      exact distinct_map _ (fun _ => rfl) valid.distinct)
    (by
      rw [flat, List.length_map]
      exact valid.counts)
  exact ⟨valid', entries.trans flat⟩

theorem keyedFilter_valid (valid : t.Valid key) (prior : K → X → Bool) :
    let t' := (outcome (keyedFilter prior) t).2
    t'.Valid key ∧ t'.entries = t.entries.filter fun e => prior e.2.1 e.2.2 := by
  have flat := flatten_keyedFilter prior t.current
  obtain ⟨valid', entries⟩ := overwrite_valid valid (placed_keyedFilter prior valid.placed)
    (by
      rw [flat]
      exact List.Pairwise.filter _ valid.distinct)
    (congrArg _ (count_keyedFilter prior t.current))
  exact ⟨valid', entries.trans flat⟩

theorem clear_valid (valid : t.Valid key) :
    let t' := (outcome clear t).2
    t'.Valid key ∧ t'.entries = [] := by
  have flat := flatten_clear t.current
  obtain ⟨valid', entries⟩ := overwrite_valid valid (placed_clear valid.placed) (n := 0)
    (by
      rw [flat]
      exact .nil)
    (by
      rw [flat]
      rfl)
  exact ⟨valid', entries.trans flat⟩

end Current

/-! # The hashtable is a finite map -/

abbrev Contents (K X : Type) := K → Option (K × X)

inductive Operation (K X : Type)
  | set (k : K) (item : X)
  | remove (k : K)
  | filter (prior : X → Bool)
  | keyedFilter (prior : K → X → Bool)
  | mapInPlace (f : X → X)
  | keyedMapInPlace (f : K → X → X)
  | clear

section Contents

variable {E K X : Type}

def Operation.call (key : HashKey K) : Operation K X → Calling E K X Unit
  | .set k item => TypelockedHashtable.set key k item
  | .remove k => do let _ ← TypelockedHashtable.remove key k
  | .filter prior => TypelockedHashtable.filter prior
  | .keyedFilter prior => TypelockedHashtable.keyedFilter prior
  | .mapInPlace f => TypelockedHashtable.mapInPlace f
  | .keyedMapInPlace f => TypelockedHashtable.keyedMapInPlace f
  | .clear => TypelockedHashtable.clear

def Operation.change (key : HashKey K) (c : Contents K X) : Operation K X → Contents K X
  | .set k item => fun l => if key.sameKey l k = true then some (k, item) else c l
  | .remove k => fun l => if key.sameKey l k = true then none else c l
  | .filter prior => fun l => (c l).filter fun kv => prior kv.2
  | .keyedFilter prior => fun l => (c l).filter fun kv => prior kv.1 kv.2
  | .mapInPlace f => fun l => (c l).map fun kv => (kv.1, f kv.2)
  | .keyedMapInPlace f => fun l => (c l).map fun kv => (kv.1, f kv.1 kv.2)
  | .clear => fun _ => none

inductive Reached (key : HashKey K) (exn : Raised E) : Hashtable E K X → Contents K X → Prop
  | made {sizeHint : Int} {t : Hashtable E K X} (made : makeHashtable sizeHint exn = .ok t) :
      Reached key exn t fun _ => none
  | called {t : Hashtable E K X} {c : Contents K X} (reached : Reached key exn t c)
      (op : Operation K X) : Reached key exn (outcome (op.call key) t).2 (op.change key c)

/-- The table is sound, and all that can be asked of it is answered from the contents. -/
structure Holds (key : HashKey K) (exn : Raised E) (t : Hashtable E K X) (c : Contents K X) :
    Prop where
  valid : t.Valid key
  find (k : K) : find key t k = (c k).map Prod.snd
  containsKey (k : K) : containsKey key t k = (c k).isSome
  getItem (k : K) : getItem key t k = ((c k).map Prod.snd).elim (.error exn) .ok
  remove_absent (k : K) : c k = none → outcome (remove key k) t = (.error exn, t)
  remove_present (k : K) (kv : K × X) : c k = some kv →
    ∃ t', outcome (remove key k) t = (.ok kv.2, t')
  keyvals (k : K) (item : X) : (k, item) ∈ keyvalsList t ↔ c k = some (k, item)
  keys : (keyvalsList t).Pairwise fun kv kv' => key.sameKey kv.1 kv'.1 = false
  valsCount : valsCount t = (keyvalsList t).length
  vals : (valsList t).Perm ((keyvalsList t).map Prod.snd)

def contents (key : HashKey K) (es : List (Entry K X)) : Contents K X :=
  fun k => (lookup key k es).map Prod.snd

variable {key : HashKey K} {exn : Raised E} {t : Hashtable E K X} {c : Contents K X}

theorem contents_filter {es : List (Entry K X)} (distinct : Distinct key es) (p : K → X → Bool)
    (l : K) : contents key (es.filter fun e => p e.2.1 e.2.2) l =
      (contents key es l).filter fun kv => p kv.1 kv.2 := by
  unfold contents
  rw [lookup_filter distinct]
  cases lookup key l es with
  | none => rfl
  | some e =>
    simp only [Option.filter_some, Option.map_some]
    split <;> rfl

theorem contents_map (es : List (Entry K X)) (f : K → X → X) (l : K) :
    contents key (es.map fun e => (e.1, e.2.1, f e.2.1 e.2.2)) l =
      (contents key es l).map fun kv => (kv.1, f kv.1 kv.2) := by
  have mapped : lookup key l (es.map fun e => (e.1, e.2.1, f e.2.1 e.2.2)) =
      (lookup key l es).map fun e => (e.1, e.2.1, f e.2.1 e.2.2) := lookup_map _ fun _ => rfl
  unfold contents
  rw [mapped, Option.map_map, Option.map_map]
  rfl

theorem call_valid (valid : t.Valid key) (same : t.notFoundException = exn)
    (op : Operation K X) :
    let t' := (outcome (op.call key) t).2
    t'.Valid key ∧ t'.notFoundException = exn ∧
      contents key t'.entries = op.change key (contents key t.entries) := by
  cases op with
  | set k item =>
    obtain ⟨valid', kept, found⟩ := set_valid valid k item
    refine ⟨valid', kept.trans same, ?_⟩
    funext l
    apply (congrArg (Option.map Prod.snd) (found l)).trans
    change _ = if key.sameKey l k = true then some (k, item) else contents key t.entries l
    split <;> rfl
  | remove k =>
    have step : (outcome ((Operation.remove k : Operation K X).call key) t).2 =
        (outcome (remove key k) t).2 := by
      change (outcome (remove key k >>= fun _ => pure ()) t).2 = _
      rw [outcome_bind]
      rcases outcome (remove key k) t with ⟨e | item, t'⟩ <;> rfl
    rw [step]
    cases found : lookup key k t.entries with
    | none =>
      rw [remove_absent valid found]
      refine ⟨valid, same, ?_⟩
      funext l
      change _ = if key.sameKey l k = true then none else contents key t.entries l
      split
      · next eq =>
          unfold contents
          rw [lookup_congr eq, found]
          rfl
      · rfl
    | some e =>
      obtain ⟨t', result, valid', kept, found'⟩ := remove_present valid found
      rw [result]
      refine ⟨valid', kept.trans same, ?_⟩
      funext l
      apply (congrArg (Option.map Prod.snd) (found' l)).trans
      change _ = if key.sameKey l k = true then none else contents key t.entries l
      split <;> rfl
  | filter prior =>
    obtain ⟨valid', entries⟩ := keyedFilter_valid valid fun _ => prior
    refine ⟨valid', same, ?_⟩
    funext l
    exact (congrArg (contents key · l) entries).trans
      (contents_filter valid.distinct (fun _ => prior) l)
  | keyedFilter prior =>
    obtain ⟨valid', entries⟩ := keyedFilter_valid valid prior
    refine ⟨valid', same, ?_⟩
    funext l
    exact (congrArg (contents key · l) entries).trans (contents_filter valid.distinct prior l)
  | mapInPlace f =>
    obtain ⟨valid', entries⟩ := keyedMapInPlace_valid valid fun _ => f
    refine ⟨valid', same, ?_⟩
    funext l
    exact (congrArg (contents key · l) entries).trans (contents_map t.entries (fun _ => f) l)
  | keyedMapInPlace f =>
    obtain ⟨valid', entries⟩ := keyedMapInPlace_valid valid f
    refine ⟨valid', same, ?_⟩
    funext l
    exact (congrArg (contents key · l) entries).trans (contents_map t.entries f l)
  | clear =>
    obtain ⟨valid', entries⟩ := clear_valid valid
    refine ⟨valid', same, ?_⟩
    funext l
    exact congrArg (contents key · l) entries

theorem made_valid {sizeHint : Int} (made : makeHashtable sizeHint exn = .ok t) :
    t.Valid key ∧ t.notFoundException = exn ∧ contents key t.entries = fun _ => none := by
  obtain ⟨table, allocated, rfl⟩ := bind_pure_eq_ok.mp made
  obtain ⟨placed, none⟩ : Placed key table ∧ table.flatten = [] := alloc_ok allocated
  have entries : Hashtable.entries (⟨exn, [table], 0, 0⟩ : Hashtable E K X) = [] := none
  refine ⟨⟨Nat.one_pos, placed, ?_, ?_⟩, rfl, ?_⟩
  · rw [entries]
    exact .nil
  · rw [entries]
    rfl
  · rw [entries]
    rfl

theorem reached_valid (reached : Reached key exn t c) :
    t.Valid key ∧ t.notFoundException = exn ∧ contents key t.entries = c := by
  induction reached with
  | made made => exact made_valid made
  | called reached op ih =>
    obtain ⟨valid, same, rfl⟩ := ih
    exact call_valid valid same op

theorem keyvalsList_entries (valid : t.Valid key) :
    (keyvalsList t).Perm (t.entries.map Prod.snd) := by
  unfold keyvalsList
  rw [valid.counts]
  exact keyvalsList_perm t.current

theorem mem_keyvalsList (valid : t.Valid key) (k : K) (item : X) :
    (k, item) ∈ keyvalsList t ↔ contents key t.entries k = some (k, item) := by
  rw [(keyvalsList_entries valid).mem_iff, List.mem_map]
  unfold contents
  rw [Option.map_eq_some_iff]
  constructor
  · rintro ⟨⟨h, kv⟩, mem, rfl⟩
    exact ⟨_, (lookup_eq_some valid.distinct).mpr ⟨mem, key.same_refl k⟩, rfl⟩
  · rintro ⟨e, found, equal⟩
    exact ⟨e, ((lookup_eq_some valid.distinct).mp found).1, equal⟩

theorem reached_holds (reached : Reached key exn t c) : Holds key exn t c := by
  obtain ⟨valid, same, rfl⟩ := reached_valid reached
  have perm := keyvalsList_entries valid
  constructor
  case valid => exact valid
  case find =>
    intro k
    rw [find_eq valid, contents, Option.map_map]
    rfl
  case containsKey =>
    intro k
    rw [containsKey_eq valid, contents, Option.isSome_map]
  case getItem =>
    intro k
    rw [getItem_eq valid, contents, same]
    cases lookup key k t.entries <;> rfl
  case remove_absent =>
    intro k absent
    rw [remove_absent valid (Option.map_eq_none_iff.mp absent), same]
  case remove_present =>
    intro k kv present
    obtain ⟨e, found, rfl⟩ := Option.map_eq_some_iff.mp present
    obtain ⟨t', result, -⟩ := remove_present valid found
    exact ⟨t', result⟩
  case keyvals => exact mem_keyvalsList valid
  case keys =>
    have symmetric {kv kv' : K × X} (other : key.sameKey kv.1 kv'.1 = false) :
        key.sameKey kv'.1 kv.1 = false := (key.same_comm _ _).trans other
    apply (perm.pairwise_iff symmetric).mpr
    exact List.pairwise_map.mpr valid.distinct
  case valsCount =>
    rw [perm.length_eq, List.length_map]
    exact valid.counts
  case vals =>
    have items := valsList_perm t.current
    have counts : t.nItems = t.current.flatten.length := valid.counts
    rw [← counts] at items
    apply items.trans
    have mapped := (perm.map Prod.snd).symm
    rwa [List.map_map] at mapped

end Contents

theorem reached_holds_colliding :
    let t : Hashtable Unit Nat Nat := ⟨.given (), [List.replicate 32 []], 0, 0⟩
    let ops : List (Operation Nat Nat) := [.set 1 10, .set 2 20, .set 1 11]
    let t' := ops.foldl (fun t op => (outcome (op.call colliding) t).2) t
    find colliding t' 1 = some 11 ∧ find colliding t' 2 = some 20 := by
  intro t ops t'
  have made : makeHashtable (X := Nat) (K := Nat) 10 (.given () : Raised Unit) = .ok t := by
    simp [makeHashtable, alloc, roundUp, roundUpFrom, makeRwVector, maximumVectorLength, t]
    rfl
  have holds : Holds colliding (.given ()) t' _ := reached_holds
    (((Reached.made made).called (.set 1 10)).called (.set 2 20) |>.called (.set 1 11))
  exact ⟨holds.find 1, holds.find 2⟩

end Mythryl.TypelockedHashtable
