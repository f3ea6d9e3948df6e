import Mythryl.Hashtable.DoubleKeyed
import Mathlib.Data.Set.Basic
import Mathlib.Data.List.Nodup

/-! # The hashtable as a one-to-one relation -/

namespace Mythryl.DoubleKeyedHashtable
open RaisingState HashtableRepresentation

section Keys

variable {K A : Type} {key : HashKey K} {f : A → K} {es rest : List A} {a b : A}

theorem mem_rest (different : es.Pairwise fun a b => key.sameKey (f a) (f b) = false)
    (perm : es.Perm (a :: rest)) :
    b ∈ rest ↔ b ∈ es ∧ key.sameKey (f a) (f b) = false := by
  have symmetric {a b : A} (other : key.sameKey (f a) (f b) = false) :
      key.sameKey (f b) (f a) = false := (key.same_comm _ _).trans other
  have parts := List.pairwise_cons.mp ((perm.pairwise_iff symmetric).mp different)
  rw [perm.mem_iff, List.mem_cons]
  constructor
  · intro mem
    exact ⟨.inr mem, parts.1 b mem⟩
  · rintro ⟨rfl | mem, other⟩
    · rw [key.same_refl] at other
      cases other
    · exact mem

theorem eq_of_same (different : es.Pairwise fun a b => key.sameKey (f a) (f b) = false)
    (memA : a ∈ es) (memB : b ∈ es) (same : key.sameKey (f a) (f b) = true) : a = b := by
  obtain ⟨before, after, rfl⟩ := List.append_of_mem memA
  have perm : (before ++ a :: after).Perm (a :: (before ++ after)) := List.perm_middle
  rcases List.mem_cons.mp (perm.mem_iff.mp memB) with equal | mem
  · exact equal.symm
  · have other := ((mem_rest different perm).mp mem).2
    rw [other] at same
    cases same

end Keys

variable {E K1 K2 X : Type} {key1 : HashKey K1} {key2 : HashKey K2}

section Relation

variable {table1 : Table K1 (K2 × X)} {table2 : Table K2 (K1 × X)} {n : Int}
  (sound : Sound key1 key2 table1 table2 n)

def triples (table1 : Table K1 (K2 × X)) : Set (K1 × K2 × X) :=
  { triple | ∃ h, (h, triple) ∈ table1.flatten }

variable {τ : K1 × K2 × X}

theorem triples_perm {es : List (Entry K1 (K2 × X))}
    (perm : table1.flatten.Perm es) : τ ∈ triples table1 ↔ ∃ h, (h, τ) ∈ es :=
  exists_congr fun _ => perm.mem_iff

theorem triples_cons {τ' : K1 × K2 × X} {h : Nat} {es : List (Entry K1 (K2 × X))} :
    (∃ h', (h', τ) ∈ (h, τ') :: es) ↔ τ = τ' ∨ ∃ h', (h', τ) ∈ es := by
  simp only [List.mem_cons, Prod.mk.injEq, exists_or, exists_eq_left]

include sound

theorem Sound.different :
    table1.flatten.Pairwise fun e e' => key2.sameKey e.2.2.1 e'.2.2.1 = false :=
  List.pairwise_map.mp ((distinct_perm sound.flipped).mp sound.distinct2)

theorem Sound.triple_second :
    (∃ h, (h, τ.2.1, (τ.1, τ.2.2)) ∈ table2.flatten) ↔ τ ∈ triples table1 := by
  constructor
  · rintro ⟨h, mem⟩
    obtain ⟨e, memE, equal⟩ := sound.mem_flip mem
    obtain ⟨h1, k1, k2, x⟩ := e
    cases equal
    exact ⟨h1, memE⟩
  · rintro ⟨h, mem⟩
    exact ⟨_, sound.flip_mem mem⟩

end Relation

section Filter

variable {exn nf : Raised E} {a1 a2 i m : Nat} {table1 : Table K1 (K2 × X)}
  {table2 : Table K2 (K1 × X)} {n : Int} {t : Hashtable E K1 K2 X}
  {doomed : K1 × K2 × X → Bool}

variable (nf) in
theorem deleteBoth_present (here : At exn a1 a2 table1 table2 n t)
    (sound : Sound key1 key2 table1 table2 n) {e : Entry K1 (K2 × X)} (mem : e ∈ table1.flatten) :
    ∃ t' table1' table2', outcome (deleteBoth key1 key2 nf e.2.1 e.2.2.1) t = (.ok (), t') ∧
      At exn a1 a2 table1' table2' (n - 1) t' ∧ Sound key1 key2 table1' table2' (n - 1) ∧
      table1'.length = table1.length ∧ table1.flatten.Perm (e :: table1'.flatten) := by
  have present : lookup key1 e.2.1 table1.flatten = some e :=
    (lookup_eq_some sound.distinct1).mpr ⟨mem, key1.same_refl _⟩
  obtain ⟨b1, b2, taken1, taken2, perm, sound'⟩ :=
    sound.taken present (sound.lookup_flip present) nf
  obtain ⟨t1, deleted1, here1⟩ := delete1_ok here taken1
  obtain ⟨t2, deleted2, here2⟩ := delete2_ok here1 taken2
  refine ⟨_, _, _, ?_, here2.count (n - 1), sound', List.length_set .., perm⟩
  simp only [deleteBoth, outcome_bind, outcome_get, here.ref1, deleted1, here1.ref2, deleted2,
    countDown, outcome_modify, here2.nItems]

def deleteDoomed (key1 : HashKey K1) (key2 : HashKey K2) (nf : Raised E)
    (doomed : K1 × K2 × X → Bool) (k1 : K1) (k2v : K2 × X) : Calling E K1 K2 X Unit :=
  if doomed (k1, k2v) = true then deleteBoth key1 key2 nf k1 k2v.1 else return ()

variable (nf doomed) in
theorem forM_deleteDoomed (here : At exn a1 a2 table1 table2 n t)
    (sound : Sound key1 key2 table1 table2 n) {es : List (Entry K1 (K2 × X))}
    (distinct : Distinct key1 es) (present : ∀ e ∈ es, e ∈ table1.flatten) :
    ∃ t' table1' table2' n',
      outcome (es.forM fun (_, k1, item) => deleteDoomed key1 key2 nf doomed k1 item) t =
        (.ok (), t') ∧
      At exn a1 a2 table1' table2' n' t' ∧ Sound key1 key2 table1' table2' n' ∧
      table1'.length = table1.length ∧
      ∀ e, e ∈ table1'.flatten ↔ e ∈ table1.flatten ∧ (e ∈ es → doomed e.2 = false) := by
  induction es generalizing table1 table2 n t with
  | nil => exact ⟨t, table1, table2, n, rfl, here, sound, rfl, by simp⟩
  | cons e es ih =>
    obtain ⟨others, distinct⟩ := List.pairwise_cons.mp distinct
    have mem := present e (List.mem_cons_self ..)
    have step : outcome ((e :: es).forM fun (_, k1, item) =>
        deleteDoomed key1 key2 nf doomed k1 item) t =
      outcome (deleteDoomed key1 key2 nf doomed e.2.1 e.2.2 >>= fun _ =>
        es.forM fun (_, k1, item) => deleteDoomed key1 key2 nf doomed k1 item) t := rfl
    rw [step, outcome_bind]
    cases kept : doomed e.2 with
    | false =>
      obtain ⟨t', table1', table2', n', result, here', sound', length, entries⟩ :=
        ih here sound distinct fun e' mem => present e' (List.mem_cons_of_mem _ mem)
      refine ⟨t', table1', table2', n', ?_, here', sound', length, ?_⟩
      · have stays : outcome (deleteDoomed key1 key2 nf doomed e.2.1 e.2.2) t = (.ok (), t) := by
          unfold deleteDoomed
          rw [if_neg (by simp [kept])]
          rfl
        simp only [stays, result]
      · intro e'
        rw [entries e', List.mem_cons]
        constructor
        · rintro ⟨mem', keeps⟩
          refine ⟨mem', ?_⟩
          rintro (rfl | inside)
          · exact kept
          · exact keeps inside
        · rintro ⟨mem', keeps⟩
          exact ⟨mem', fun inside => keeps (.inr inside)⟩
    | true =>
      obtain ⟨t1, table1a, table2a, deleted, here1, sound1, length1, perm⟩ :=
        deleteBoth_present nf here sound mem
      have rest (e' : Entry K1 (K2 × X)) := mem_rest (b := e') sound.distinct1 perm
      have present' : ∀ e' ∈ es, e' ∈ table1a.flatten := fun e' inside =>
        (rest e').mpr ⟨present e' (List.mem_cons_of_mem _ inside), others e' inside⟩
      obtain ⟨t', table1', table2', n', result, here', sound', length, entries⟩ :=
        ih here1 sound1 distinct present'
      refine ⟨t', table1', table2', n', ?_, here', sound', length.trans length1, ?_⟩
      · have goes : outcome (deleteDoomed key1 key2 nf doomed e.2.1 e.2.2) t = (.ok (), t1) := by
          unfold deleteDoomed
          rw [if_pos kept]
          exact deleted
        simp only [goes, result]
      · intro e'
        rw [entries e', rest e', List.mem_cons]
        constructor
        · rintro ⟨⟨mem', other⟩, keeps⟩
          refine ⟨mem', ?_⟩
          rintro (rfl | inside)
          · rw [key1.same_refl] at other
            cases other
          · exact keeps inside
        · rintro ⟨mem', keeps⟩
          refine ⟨⟨mem', ?_⟩, fun inside => keeps (.inr inside)⟩
          by_contra same
          have equal := eq_of_same sound.distinct1 mem mem' ((Bool.not_eq_false _).mp same)
          rw [← equal, kept] at keeps
          cases keeps (.inl rfl)

theorem mem_bucketAt (placed : Placed key1 table1) (lt : i < table1.length)
    {e : Entry K1 (K2 × X)} :
    e ∈ bucketAt table1 i ↔ e ∈ table1.flatten ∧ index e.1 table1.length = i := by
  constructor
  · intro mem
    exact ⟨mem_of_bucketAt lt mem, placed.placed i e mem⟩
  · rintro ⟨mem, rfl⟩
    rw [placed.hashed e mem]
    exact placed.mem_bucketAt mem

variable (nf doomed) in
theorem keyedApply_deleteDoomed (here : At exn a1 a2 table1 table2 n t)
    (sound : Sound key1 key2 table1 table2 n) (bound : i + m ≤ table1.length) :
    ∃ t' table1' table2' n',
      outcome (keyedApply (deleteDoomed key1 key2 nf doomed) a1 m i) t = (.ok (), t') ∧
      At exn a1 a2 table1' table2' n' t' ∧ Sound key1 key2 table1' table2' n' ∧
      table1'.length = table1.length ∧ ∀ e, e ∈ table1'.flatten ↔ e ∈ table1.flatten ∧
        (i ≤ index e.1 table1.length → index e.1 table1.length < i + m → doomed e.2 = false) := by
  induction m generalizing i table1 table2 n t with
  | zero =>
    refine ⟨t, table1, table2, n, rfl, here, sound, rfl, ?_⟩
    intro e
    constructor
    · intro mem
      exact ⟨mem, fun low high => absurd high (Nat.not_lt.mpr low)⟩
    · exact And.left
  | succ m ih =>
    have lt : i < table1.length := by omega
    have inside (e : Entry K1 (K2 × X)) := mem_bucketAt (e := e) sound.placed1 lt
    obtain ⟨rest, perm, -⟩ := flatten_split lt
    have distinct : Distinct key1 (bucketAt table1 i) :=
      (List.pairwise_append.mp ((distinct_perm perm).mp sound.distinct1)).1
    obtain ⟨t1, table1a, table2a, n1, first, here1, sound1, length1, entries1⟩ :=
      forM_deleteDoomed nf doomed here sound distinct
        fun e mem => ((inside e).mp mem).1
    obtain ⟨t', table1', table2', n', result, here', sound', length, entries⟩ :=
      ih here1 sound1 (i := i + 1) (by omega)
    refine ⟨t', table1', table2', n', ?_, here', sound', length.trans length1, ?_⟩
    · simp only [keyedApply, outcome_bind, outcome_get, here.current1, first, result]
    · intro e
      rw [entries e, entries1 e, inside e, length1]
      constructor
      · rintro ⟨⟨mem, now⟩, later⟩
        refine ⟨mem, fun low high => ?_⟩
        rcases Nat.eq_or_lt_of_le low with equal | less
        · exact now ⟨mem, equal.symm⟩
        · exact later less (by omega)
      · rintro ⟨mem, keeps⟩
        refine ⟨⟨mem, fun both => keeps both.2.ge (by omega)⟩, fun low high => ?_⟩
        exact keeps (by omega) (by omega)

end Filter

inductive Operation (K1 K2 X : Type)
  | set (k1 : K1) (k2 : K2) (item : X)
  | remove1 (k1 : K1)
  | remove2 (k2 : K2)
  | filter (prior : X → Bool)
  | keyedFilter (prior : K1 → K2 → X → Bool)

def Operation.call (key1 : HashKey K1) (key2 : HashKey K2) :
    Operation K1 K2 X → Calling E K1 K2 X Unit
  | .set k1 k2 item => DoubleKeyedHashtable.set key1 key2 k1 k2 item
  | .remove1 k1 => do let _ ← DoubleKeyedHashtable.remove1 key1 key2 k1
  | .remove2 k2 => do let _ ← DoubleKeyedHashtable.remove2 key1 key2 k2
  | .filter prior => DoubleKeyedHashtable.filter key1 key2 prior
  | .keyedFilter prior => DoubleKeyedHashtable.keyedFilter key1 key2 prior

def Operation.change (key1 : HashKey K1) (key2 : HashKey K2) (c : Set (K1 × K2 × X)) :
    Operation K1 K2 X → Set (K1 × K2 × X)
  | .set k1 k2 item => { τ | τ = (k1, k2, item) ∨
      τ ∈ c ∧ key1.sameKey k1 τ.1 = false ∧ key2.sameKey k2 τ.2.1 = false }
  | .remove1 k1 => { τ | τ ∈ c ∧ key1.sameKey k1 τ.1 = false }
  | .remove2 k2 => { τ | τ ∈ c ∧ key2.sameKey k2 τ.2.1 = false }
  | .filter prior => { τ | τ ∈ c ∧ prior τ.2.2 = true }
  | .keyedFilter prior => { τ | τ ∈ c ∧ prior τ.1 τ.2.1 τ.2.2 = true }

/-- `set` finds neither key and the tables need not grow, or the first entry in the bucket of the
second key has both keys. `keyed_filter` finds nothing in the tables. -/
def Operation.Meets (key1 : HashKey K1) (key2 : HashKey K2) (t : Hashtable E K1 K2 X) :
    Operation K1 K2 X → Prop
  | .set k1 k2 _ =>
      ((∀ e ∈ t.current1.flatten, key1.sameKey k1 e.2.1 = false) ∧
        (∀ e ∈ t.current2.flatten, key2.sameKey k2 e.2.1 = false) ∧
        t.nItems + 1 < t.current1.length) ∨
      ∃ h k2' k1' v r,
        bucketAt t.current2 (place key2 t.current2 k2) = (h, k2', (k1', v)) :: r ∧
        key2.sameKey k2' k2 = true ∧ key1.sameKey k1 k1' = true
  | .remove1 _ => True
  | .remove2 _ => True
  | .filter _ => True
  | .keyedFilter _ => t.current1.flatten = []

section Calls

variable {exn : Raised E} {a1 a2 : Nat} {table1 : Table K1 (K2 × X)}
  {table2 : Table K2 (K1 × X)} {n : Int} {t : Hashtable E K1 K2 X}

def Related (key1 : HashKey K1) (key2 : HashKey K2) (exn : Raised E) (t : Hashtable E K1 K2 X)
    (c : Set (K1 × K2 × X)) : Prop :=
  ∃ a1 a2 table1 table2 n, At exn a1 a2 table1 table2 n t ∧ Sound key1 key2 table1 table2 n ∧
    triples table1 = c

theorem outcome_discard {A : Type} (m : Calling E K1 K2 X A) (t : Hashtable E K1 K2 X) :
    (outcome (do let _ ← m) t).2 = (outcome m t).2 := by
  rw [outcome_bind]
  rcases outcome m t with ⟨e | a, t'⟩ <;> rfl

section Changes

variable (here : At exn a1 a2 table1 table2 n t) (sound : Sound key1 key2 table1 table2 n)
include here sound

theorem set_related {k1 : K1} {k2 : K2} {item : X}
    (meets : (Operation.set k1 k2 item).Meets key1 key2 t) :
    Related key1 key2 exn (outcome (set key1 key2 k1 k2 item) t).2
      ((Operation.set k1 k2 item).change key1 key2 (triples table1)) := by
  rcases meets with ⟨absent1, absent2, room⟩ | ⟨h, k2', k1', v, r, first, same2, same1⟩
  · rw [here.current1_eq] at absent1
    rw [here.current2_eq] at absent2
    rw [here.current1_eq, here.nItems] at room
    obtain ⟨t', table1', table2', result, here', sound', perm⟩ := set_new item here sound
      (lookup_eq_none.mpr absent1) (lookup_eq_none.mpr absent2) room
    rw [result]
    refine ⟨a1, a2, table1', table2', n + 1, here', sound', ?_⟩
    ext τ
    rw [triples_perm perm, triples_cons]
    apply or_congr_right
    constructor
    · rintro ⟨h, mem⟩
      exact ⟨⟨h, mem⟩, absent1 _ mem, absent2 _ (sound.flip_mem mem)⟩
    · exact And.left
  · rw [here.current2_eq] at first
    obtain ⟨t', table1', table2', result, here', sound', rest, perm, perm'⟩ :=
      set_same item here sound first same2 same1
    rw [result]
    refine ⟨a1, a2, table1', table2', n, here', sound', ?_⟩
    ext τ
    rw [triples_perm perm', triples_cons]
    apply or_congr_right
    constructor
    · rintro ⟨h', mem⟩
      obtain ⟨mem', other1⟩ := (mem_rest sound.distinct1 perm).mp mem
      have other2 := ((mem_rest sound.different perm).mp mem).2
      refine ⟨⟨h', mem'⟩, ?_, ?_⟩
      · rw [key1.same_left same1]
        exact other1
      · rw [← key2.same_left same2]
        exact other2
    · rintro ⟨⟨h', mem⟩, other1, -⟩
      rw [key1.same_left same1] at other1
      exact ⟨h', (mem_rest sound.distinct1 perm).mpr ⟨mem, other1⟩⟩

theorem remove1_related (k1 : K1) :
    Related key1 key2 exn (outcome (remove1 key1 key2 k1) t).2
      ((Operation.remove1 k1).change key1 key2 (triples table1)) := by
  cases found : lookup key1 k1 table1.flatten with
  | none =>
    rw [remove1_absent here sound found]
    refine ⟨a1, a2, table1, table2, n, here, sound, ?_⟩
    ext τ
    constructor
    · rintro ⟨h, mem⟩
      exact ⟨⟨h, mem⟩, lookup_eq_none.mp found _ mem⟩
    · exact And.left
  | some e =>
    obtain ⟨t', table1', table2', result, here', sound', perm⟩ := remove1_present here sound found
    have same := ((lookup_eq_some sound.distinct1).mp found).2
    rw [result]
    refine ⟨a1, a2, table1', table2', n - 1, here', sound', ?_⟩
    ext τ
    change _ ↔ τ ∈ triples table1 ∧ key1.sameKey k1 τ.1 = false
    unfold triples
    simp only [Set.mem_ofPred_eq, mem_rest sound.distinct1 perm, exists_and_right,
      key1.same_left same]

theorem remove2_related (k2 : K2) :
    Related key1 key2 exn (outcome (remove2 key1 key2 k2) t).2
      ((Operation.remove2 k2).change key1 key2 (triples table1)) := by
  cases found : lookup key2 k2 table2.flatten with
  | none =>
    rw [remove2_absent here sound found]
    refine ⟨a1, a2, table1, table2, n, here, sound, ?_⟩
    ext τ
    constructor
    · rintro ⟨h, mem⟩
      exact ⟨⟨h, mem⟩, lookup_eq_none.mp found _ (sound.flip_mem mem)⟩
    · exact And.left
  | some d =>
    obtain ⟨mem, same⟩ := (lookup_eq_some sound.distinct2).mp found
    obtain ⟨e, memE, rfl⟩ := sound.mem_flip mem
    obtain ⟨t', table1', table2', result, here', sound', perm⟩ :=
      remove2_present here sound found memE
    rw [result]
    refine ⟨a1, a2, table1', table2', n - 1, here', sound', ?_⟩
    ext τ
    change _ ↔ τ ∈ triples table1 ∧ key2.sameKey k2 τ.2.1 = false
    unfold triples
    simp only [Set.mem_ofPred_eq, mem_rest sound.different perm, exists_and_right,
      key2.same_left same]
    rfl

theorem filter_related (nf : Raised E) (doomed : K1 × K2 × X → Bool) :
    Related key1 key2 exn
      (outcome (keyedApply (deleteDoomed key1 key2 nf doomed) a1 table1.length 0) t).2
      { τ | τ ∈ triples table1 ∧ doomed τ = false } := by
  obtain ⟨t', table1', table2', n', result, here', sound', -, entries⟩ :=
    keyedApply_deleteDoomed nf doomed here sound (Nat.zero_add _).le
  rw [result]
  refine ⟨a1, a2, table1', table2', n', here', sound', ?_⟩
  ext τ
  constructor
  · rintro ⟨h, mem⟩
    obtain ⟨mem', keeps⟩ := (entries _).mp mem
    refine ⟨⟨h, mem'⟩, keeps (Nat.zero_le _) ?_⟩
    rw [Nat.zero_add]
    exact sound.placed1.index_lt h
  · rintro ⟨⟨h, mem⟩, keeps⟩
    exact ⟨h, (entries _).mpr ⟨mem, fun _ _ => keeps⟩⟩

end Changes

theorem call_related {c : Set (K1 × K2 × X)} (related : Related key1 key2 exn t c)
    (op : Operation K1 K2 X) (meets : op.Meets key1 key2 t) :
    Related key1 key2 exn (outcome (op.call key1 key2) t).2 (op.change key1 key2 c) := by
  obtain ⟨a1, a2, table1, table2, n, here, sound, rfl⟩ := related
  cases op with
  | set k1 k2 item => exact set_related here sound meets
  | remove1 k1 =>
    have step := outcome_discard (remove1 key1 key2 k1) t
    exact step ▸ remove1_related here sound k1
  | remove2 k2 =>
    have step := outcome_discard (remove2 key1 key2 k2) t
    exact step ▸ remove2_related here sound k2
  | filter prior =>
    have kept := filter_related here sound (.fail "filter") fun τ => !prior τ.2.2
    have inside : (fun k1 k2v => if prior k2v.2 = false then
          deleteBoth key1 key2 (.fail "filter") k1 k2v.1 else return ()) =
        deleteDoomed (E := E) key1 key2 (.fail "filter") fun τ => !prior τ.2.2 := by
      funext k1 k2v
      unfold deleteDoomed
      cases kept : prior k2v.2 with
      | false => simp [kept]
      | true => simp [kept]
    have step : outcome (filter key1 key2 prior) t =
        outcome (keyedApply (fun k1 k2v => if prior k2v.2 = false then
          deleteBoth key1 key2 (.fail "filter") k1 k2v.1 else return ())
            t.table1 t.current1.length 0) t := rfl
    change Related key1 key2 exn (outcome (filter key1 key2 prior) t).2 _
    rw [step, inside, here.ref1, here.current1_eq]
    have same : { τ | τ ∈ triples table1 ∧ (!prior τ.2.2) = false } =
        (Operation.filter prior).change key1 key2 (triples table1) := by
      simp only [Bool.not_eq_false', Operation.change]
    exact same ▸ kept
  | keyedFilter prior =>
    -- The entries that satisfy the predicate are deleted, but there is none.
    have kept := filter_related here sound (.fail "keyed_filter") fun τ => prior τ.1 τ.2.1 τ.2.2
    have step : outcome (keyedFilter key1 key2 prior) t =
        outcome (keyedApply (deleteDoomed key1 key2 (.fail "keyed_filter")
          fun τ => prior τ.1 τ.2.1 τ.2.2) t.table1 t.current1.length 0) t := rfl
    change Related key1 key2 exn (outcome (keyedFilter key1 key2 prior) t).2 _
    rw [step, here.ref1, here.current1_eq]
    have none : triples table1 = ∅ := by
      have empty : t.current1.flatten = [] := meets
      rw [here.current1_eq] at empty
      unfold triples
      rw [empty]
      simp
    rw [none] at kept ⊢
    simpa [Operation.change] using kept

/-- The hashtables that calls make of a new one, with their triples, when each call meets its
condition. -/
inductive Reached (key1 : HashKey K1) (key2 : HashKey K2) (exn : Raised E) :
    Hashtable E K1 K2 X → Set (K1 × K2 × X) → Prop
  | made {n : Int} {t : Hashtable E K1 K2 X} (made : makeHashtable n exn = .ok t) :
      Reached key1 key2 exn t ∅
  | called {t : Hashtable E K1 K2 X} {c : Set (K1 × K2 × X)} (reached : Reached key1 key2 exn t c)
      (op : Operation K1 K2 X) (meets : op.Meets key1 key2 t) :
      Reached key1 key2 exn (outcome (op.call key1 key2) t).2 (op.change key1 key2 c)

theorem made_related {size : Int} (made : makeHashtable size exn = .ok t) :
    Related key1 key2 exn t ∅ := by
  obtain ⟨table1, allocated1, made⟩ := bind_eq_ok.mp made
  obtain ⟨table2, allocated2, rfl⟩ := bind_pure_eq_ok.mp made
  obtain ⟨placed1, none1⟩ : Placed key1 table1 ∧ table1.flatten = [] := alloc_ok allocated1
  obtain ⟨placed2, none2⟩ : Placed key2 table2 ∧ table2.flatten = [] := alloc_ok allocated2
  refine ⟨0, 0, table1, table2, 0, ?_, ?_, ?_⟩
  · exact ⟨rfl, rfl, rfl, Nat.one_pos, Nat.one_pos, rfl, rfl, rfl⟩
  · refine ⟨placed1, placed2, ?_, ?_, ?_, ?_, ?_⟩
    · rw [none1]
      exact .nil
    · rw [none2]
      exact .nil
    · obtain ⟨n1, rounded1, rfl⟩ := alloc_eq allocated1
      obtain ⟨n2, rounded2, rfl⟩ := alloc_eq allocated2
      rw [rounded1] at rounded2
      cases rounded2
      rw [List.length_replicate, List.length_replicate]
    · rw [none1, none2]
      exact .nil
    · rw [none1]
      rfl
  · unfold triples
    rw [none1]
    simp

theorem reached_related {c : Set (K1 × K2 × X)} (reached : Reached key1 key2 exn t c) :
    Related key1 key2 exn t c := by
  induction reached with
  | made made => exact made_related made
  | called reached op meets ih => exact call_related ih op meets

end Calls

structure OneToOne (key1 : HashKey K1) (key2 : HashKey K2) (t : Hashtable E K1 K2 X)
    (c : Set (K1 × K2 × X)) : Prop where
  first (τ : K1 × K2 × X) : (∃ h, (h, τ) ∈ t.current1.flatten) ↔ τ ∈ c
  second (τ : K1 × K2 × X) : (∃ h, (h, τ.2.1, (τ.1, τ.2.2)) ∈ t.current2.flatten) ↔ τ ∈ c
  keys1 : ∀ τ ∈ c, ∀ τ' ∈ c, key1.sameKey τ.1 τ'.1 = true → τ = τ'
  keys2 : ∀ τ ∈ c, ∀ τ' ∈ c, key2.sameKey τ.2.1 τ'.2.1 = true → τ = τ'
  keyvals (τ : K1 × K2 × X) : τ ∈ keyvalsList t ↔ τ ∈ c
  nodup : (keyvalsList t).Nodup
  valsCount : valsCount t = (keyvalsList t).length
  find1 (k1 : K1) (item : X) :
    find1 key1 t k1 = some item ↔ ∃ τ ∈ c, key1.sameKey k1 τ.1 = true ∧ τ.2.2 = item
  find2 (k2 : K2) (item : X) :
    find2 key2 t k2 = some item ↔ ∃ τ ∈ c, key2.sameKey k2 τ.2.1 = true ∧ τ.2.2 = item

section Answers

variable {exn : Raised E} {t : Hashtable E K1 K2 X} {c : Set (K1 × K2 × X)}

theorem keyvalsList_eq (t : Hashtable E K1 K2 X) :
    keyvalsList t = (t.current1.flatten.map Prod.snd).reverse := by
  apply Eq.trans (List.foldl_flip_cons_eq_append (f := Prod.snd))
  exact List.append_nil _

theorem find1_iff (placed : Placed key1 t.current1) (distinct : Distinct key1 t.current1.flatten)
    (k1 : K1) (item : X) : find1 key1 t k1 = some item ↔
      ∃ τ ∈ triples t.current1, key1.sameKey k1 τ.1 = true ∧ τ.2.2 = item := by
  unfold find1 place
  rw [findLoop_eq (bucket_hashed placed k1), placed.lookup_bucketAt distinct, Option.map_map,
    Option.map_eq_some_iff]
  constructor
  · rintro ⟨e, found, rfl⟩
    obtain ⟨mem, same⟩ := (lookup_eq_some distinct).mp found
    exact ⟨e.2, ⟨e.1, mem⟩, same, rfl⟩
  · rintro ⟨τ, ⟨h, mem⟩, same, rfl⟩
    exact ⟨(h, τ), (lookup_eq_some distinct).mpr ⟨mem, same⟩, rfl⟩

theorem find2_iff (placed : Placed key2 t.current2) (distinct : Distinct key2 t.current2.flatten)
    (k2 : K2) (item : X) : find2 key2 t k2 = some item ↔
      ∃ k2' k1, (∃ h, (h, k2', (k1, item)) ∈ t.current2.flatten) ∧ key2.sameKey k2 k2' = true := by
  unfold find2 place
  rw [findLoop_eq (bucket_hashed placed k2), placed.lookup_bucketAt distinct, Option.map_map,
    Option.map_eq_some_iff]
  constructor
  · rintro ⟨⟨h, k2', k1, x⟩, found, rfl⟩
    obtain ⟨mem, same⟩ := (lookup_eq_some distinct).mp found
    exact ⟨k2', k1, ⟨h, mem⟩, same⟩
  · rintro ⟨k2', k1, ⟨h, mem⟩, same⟩
    exact ⟨_, (lookup_eq_some distinct).mpr ⟨mem, same⟩, rfl⟩

theorem reached_oneToOne (reached : Reached key1 key2 exn t c) : OneToOne key1 key2 t c := by
  obtain ⟨a1, a2, table1, table2, n, here, sound, rfl⟩ := reached_related reached
  rw [← here.current1_eq, ← here.current2_eq] at sound
  rw [← here.current1_eq]
  constructor
  case first => exact fun τ => Iff.rfl
  case second => exact fun τ => sound.triple_second
  case keys1 =>
    rintro τ ⟨h, mem⟩ τ' ⟨h', mem'⟩ same
    exact congrArg Prod.snd (eq_of_same sound.distinct1 mem mem' same)
  case keys2 =>
    rintro τ ⟨h, mem⟩ τ' ⟨h', mem'⟩ same
    exact congrArg Prod.snd (eq_of_same sound.different mem mem' same)
  case keyvals =>
    intro τ
    rw [keyvalsList_eq, List.mem_reverse, List.mem_map]
    constructor
    · rintro ⟨⟨h, τ⟩, mem, rfl⟩
      exact ⟨h, mem⟩
    · rintro ⟨h, mem⟩
      exact ⟨(h, τ), mem, rfl⟩
  case nodup =>
    rw [keyvalsList_eq, List.nodup_reverse]
    apply List.pairwise_map.mpr
    apply sound.distinct1.imp
    intro e e' other equal
    rw [equal, key1.same_refl] at other
    cases other
  case valsCount =>
    rw [keyvalsList_eq, List.length_reverse, List.length_map, ← sound.counts]
    exact here.nItems
  case find1 => exact find1_iff sound.placed1 sound.distinct1
  case find2 =>
    intro k2 item
    rw [find2_iff sound.placed2 sound.distinct2]
    constructor
    · rintro ⟨k2', k1, mem, same⟩
      exact ⟨(k1, k2', item), sound.triple_second.mp mem, same, rfl⟩
    · rintro ⟨τ, mem, same, rfl⟩
      exact ⟨τ.2.1, τ.1, sound.triple_second.mpr mem, same⟩

end Answers

def calls (t : Hashtable E Nat Nat Nat) (ops : List (Operation Nat Nat Nat)) :
    Hashtable E Nat Nat Nat :=
  ops.foldl (fun t op => (outcome (op.call colliding colliding) t).2) t

theorem made_numbers : makeHashtable 10 (.given ()) =
    .ok (⟨.given (), [List.replicate 32 []], [List.replicate 32 []], 0, 0, 0⟩ :
      Hashtable Unit Nat Nat Nat) := by
  simp [makeHashtable, alloc, roundUp, roundUpFrom, makeRwVector, maximumVectorLength]
  rfl

theorem reached_oneToOne_numbers :
    let t : Hashtable Unit Nat Nat Nat :=
      ⟨.given (), [List.replicate 32 []], [List.replicate 32 []], 0, 0, 0⟩
    find2 colliding (calls t [.set 1 7 10, .set 2 8 20, .set 2 8 21]) 8 = some 21 := by
  intro t
  have made : Reached colliding colliding (.given ()) t ∅ := .made made_numbers
  have one := made.called (.set 1 7 10) (.inl (by decide))
  have two := one.called (.set 2 8 20) (.inl (by decide))
  have three := two.called (.set 2 8 21) (.inr ⟨0, 8, 2, 20, [(0, 7, (1, 10))], by decide⟩)
  exact ((reached_oneToOne three).find2 8 21).mpr ⟨_, .inl rfl, by decide, rfl⟩

theorem set_loses_triple :
    let t : Hashtable Unit Nat Nat Nat :=
      ⟨.given (), [List.replicate 32 []], [List.replicate 32 []], 0, 0, 0⟩
    let ops : List (Operation Nat Nat Nat) := [.set 1 7 10, .set 2 7 20]
    makeHashtable 10 (.given ()) = .ok t ∧
      ¬ OneToOne colliding colliding (calls t ops) (ops.foldl (Operation.change colliding colliding) ∅) := by
  intro t ops
  refine ⟨made_numbers, ?_⟩
  intro oneToOne
  have found := (oneToOne.find1 2 20).mpr ⟨_, .inl rfl, by decide, rfl⟩
  have lost : find1 colliding (calls t ops) 2 = none := by decide
  rw [lost] at found
  cases found

end Mythryl.DoubleKeyedHashtable
