import Mythryl.Exceptions
import Mathlib.Data.List.Nodup
import Mathlib.Data.Nat.Bitwise
import Mathlib.Tactic.Linarith

/-!
# Sparse vectors

`sparse_rw_vector`: the entries are hashed by their indices into a table of lists.
-/

namespace Mythryl

inductive SparseRwVector.Raised
  | subscript
  | indexOutOfBounds
  | size
  | outside

abbrev SparseRwVector.Bucket (X : Type) := List (Int × X)

inductive SparseRwVector.Default (X : Type)
  | vvv (d : X)
  | fff (f : Int → Except Raised X)
  | uuu (f : Int → Except Raised X)

structure SparseRwVector (X : Type) where
  table : List (SparseRwVector.Bucket X)
  default : SparseRwVector.Default X
  n : Int
  size : Int

namespace SparseRwVector

attribute [local simp] ok_bind

variable {X R : Type}

def maximumVectorLength : Int := 2 ^ 24 - 1

def makeTable (n : Int) : Except Raised (List (Bucket X)) :=
  if 0 ≤ n ∧ n ≤ maximumVectorLength then .ok (List.replicate n.toNat []) else .error .size

def rwvGet (t : List (Bucket X)) (pos : Nat) : Except Raised (Bucket X) :=
  t[pos]?.elim (.error .indexOutOfBounds) .ok

def rwvSet (t : List (Bucket X)) (pos : Nat) (l : Bucket X) : Except Raised (List (Bucket X)) :=
  if pos < t.length then .ok (t.set pos l) else .error .indexOutOfBounds

/-- The check of `copy` lets writes past the end of `into` through. -/
def copy (src into : List (Bucket X)) : Except Raised (List (Bucket X)) :=
  if src.length ≤ into.length then .ok (src ++ into.drop src.length) else .error .outside

def makeRwVector (n : Int) (d : X) : Except Raised (SparseRwVector X) := do
  .ok ⟨← makeTable 16, .vvv d, n, 0⟩

def makeRwVector' (n : Int) (f : Int → Except Raised X) : Except Raised (SparseRwVector X) := do
  .ok ⟨← makeTable 16, .fff f, n, 0⟩

def makeRwVector'' (n : Int) (f : Int → Except Raised X) : Except Raised (SparseRwVector X) := do
  .ok ⟨← makeTable 16, .uuu f, n, 0⟩

def loop (n : Int) (i : Nat) (pos : 0 < i) : Nat :=
  if i ≥ n then i else loop n (i + i) (by omega)
termination_by (n - i).toNat
decreasing_by omega

def roundsize (n : Int) : Nat := loop n 1 Nat.one_pos

def copyRwVector (v : SparseRwVector X) : Except Raised (SparseRwVector X) := do
  .ok { v with table := ← copy v.table (← makeTable v.n) }

def itow (i : Int) : Nat := (i % 2 ^ 31).toNat

def index (len : Nat) (i : Int) : Nat := itow i &&& itow (len - 1)

def ins (t : List (Bucket X)) (p : Int × X) : Except Raised (List (Bucket X)) := do
  let pos := index t.length p.1
  rwvSet t pos (p :: (← rwvGet t pos))

def tableSize (n : Int) : Nat :=
  let nnn := n * n + 1
  if nnn < 16 then 16 else roundsize nnn

def insert (f : Int → X) : Nat → Int → List (Bucket X) → Option (Except Raised (List (Bucket X)))
  | 0, _, _ => none
  | fuel + 1, i, t =>
      match ins t (i, f i) with
      | .error e => some (.error e)
      | .ok t => if i = 0 then some (.ok t) else insert f fuel (i - 1) t

def fromFn (fuel : Nat) (n : Int) (f : Int → X) : Option (Except Raised (SparseRwVector X)) :=
  match makeTable (tableSize n) with
  | .error e => some (.error e)
  | .ok t =>
      if n < 0 then some (.ok ⟨t, .fff fun _ => .error .subscript, 0, 0⟩)
      else (insert f fuel (n - 1) t).map (Except.map fun t => ⟨t, .vvv (f 0), n, n⟩)

def insertList (i : Int) (t : List (Bucket X)) : List X → Except Raised (List (Bucket X) × Default X)
  | [] => .ok (t, .fff fun _ => .error .subscript)
  | [x] => do .ok (← ins t (i, x), .vvv x)
  | x :: y :: l => do insertList (i + 1) (← ins t (i, x)) (y :: l)

def fromList (l : List X) : Except Raised (SparseRwVector X) := do
  let n : Int := l.length
  let (t, d) ← insertList 0 (← makeTable (tableSize n)) l
  .ok ⟨t, d, n, n⟩

def length (v : SparseRwVector X) : Int := v.n

def search (i : Int) : Bucket X → Option X
  | [] => none
  | (j, x) :: l => if i = j then some x else search i l

def grow (v : SparseRwVector X) (i : Int) (x : X) : Except Raised (SparseRwVector X) := do
  let nnn : Int := v.table.length
  let t ← v.table.flatten.foldlM ins (← makeTable (nnn + nnn))
  .ok { v with table := ← ins t (i, x) }

def change (i : Int) (found missing : Bucket X → R) : Bucket X → Bucket X → R
  | [], l => missing l
  | (j, y) :: l', l => if j = i then found (l' ++ l) else change i found missing l' ((j, y) :: l)

def set (v : SparseRwVector X) (i : Int) (x : X) : Except Raised (SparseRwVector X) := do
  let nnn : Int := v.table.length
  let pos := index v.table.length i
  let v' ← change i (fun l => do .ok { v with table := ← rwvSet v.table pos ((i, x) :: l) })
    (fun l => if v.size + v.size ≥ nnn then grow v i x
      else do .ok { v with size := v.size + 1, table := ← rwvSet v.table pos ((i, x) :: l) })
    (← rwvGet v.table pos) []
  .ok (if i ≥ v'.n then { v' with n := i + 1 } else v')

def get (v : SparseRwVector X) (i : Int) : Except Raised (X × SparseRwVector X) := do
  match search i (← rwvGet v.table (index v.table.length i)) with
  | some x => .ok (x, v)
  | none =>
      match v.default with
      | .vvv d => .ok (d, v)
      | .fff f => do .ok (← f i, v)
      | .uuu f => do
          let x ← f i
          .ok (x, ← set v i x)

def remove (v : SparseRwVector X) (i : Int) : Except Raised (SparseRwVector X) := do
  let pos := index v.table.length i
  change i (fun l => do .ok { v with size := v.size - 1, table := ← rwvSet v.table pos l })
    (fun _ => .ok v) (← rwvGet v.table pos) []

inductive Operation (X : Type)
  | makeRwVector (n : Int) (d : X)
  | fromFn (n : Int) (f : Int → X)
  | fromList (l : List X)
  | copyRwVector
  | set (i : Int) (x : X)
  | remove (i : Int)

/-- The vector after a call that raises no exception, where `from_fn` may take `n` turns. -/
def perform (v : SparseRwVector X) : Operation X → Option (SparseRwVector X)
  | .makeRwVector n d => (makeRwVector n d).toOption
  | .fromFn n f => (fromFn n.toNat n f).bind Except.toOption
  | .fromList l => (fromList l).toOption
  | .copyRwVector => (copyRwVector v).toOption
  | .set i x => (set v i x).toOption
  | .remove i => (remove v i).toOption

structure Intended (X : Type) where
  entry : Int → Option X
  default : Except Raised X

def Intended.perform (s : Intended X) : Operation X → Intended X
  | .makeRwVector _ d => ⟨fun _ => none, .ok d⟩
  | .fromFn n f => ⟨fun i => if 0 ≤ i ∧ i < n then some (f i) else none,
      if n < 0 then .error .subscript else .ok (f 0)⟩
  | .fromList l => ⟨fun i => if 0 ≤ i then l[i.toNat]? else none,
      l.getLast?.elim (.error .subscript) .ok⟩
  | .copyRwVector => s
  | .set i x => ⟨Function.update s.entry i (some x), s.default⟩
  | .remove i => ⟨Function.update s.entry i none, s.default⟩

def run (v : SparseRwVector X) (s : Intended X) :
    List (Operation X) → SparseRwVector X × Intended X
  | [] => (v, s)
  | op :: ops =>
      match perform v op with
      | some v' => run v' (s.perform op) ops
      | none => run v s ops

/-- A copy has room for the table, and its length selects the same lists. -/
def Operation.Meets (v : SparseRwVector X) : Operation X → Prop
  | .copyRwVector => v.table.length ≤ v.n ∧ v.n ≤ maximumVectorLength ∧
      ∀ p ∈ v.table.flatten, index v.n.toNat p.1 = index v.table.length p.1
  | .fromFn n _ => n ≠ 0
  | _ => True

def AllMeet (v : SparseRwVector X) : List (Operation X) → Prop
  | [] => True
  | op :: ops => op.Meets v ∧ AllMeet ((perform v op).getD v) ops

def Correct (v : SparseRwVector X) (s : Intended X) : Prop :=
  ∀ i, (get v i).map Prod.fst = (s.entry i).elim s.default .ok

structure Holds (t : List (Bucket X)) (f : Int → Option X) : Prop where
  pos : 0 < t.length
  nodup : ∀ l ∈ t, (l.map Prod.fst).Nodup
  mem : ∀ b l, t[b]? = some l → ∀ j x, (j, x) ∈ l ↔ index t.length j = b ∧ f j = some x

section Tables

variable {t : List (Bucket X)} {f g : Int → Option X} {l r : Bucket X} {i : Int} {x : X}

theorem index_lt {len : Nat} (pos : 0 < len) : index len i < len := by
  have mask : itow (len - 1) ≤ len - 1 := by
    unfold itow
    omega
  exact (Nat.and_le_right.trans mask).trans_lt (by omega)

theorem search_eq (nodup : (l.map Prod.fst).Nodup) : search i l = some x ↔ (i, x) ∈ l := by
  induction l with
  | nil => simp [search]
  | cons p l ih =>
    obtain ⟨j, y⟩ := p
    rw [List.map_cons, List.nodup_cons] at nodup
    rw [search, List.mem_cons, Prod.mk.injEq]
    by_cases same : i = j
    · subst same
      have others : (i, x) ∉ l := fun mem => nodup.1 (List.mem_map.mpr ⟨_, mem, rfl⟩)
      simp [others, eq_comm]
    · simp [same, ih nodup.2]

theorem Holds.bucket (holds : Holds t f) (i : Int) :
    ∃ l, rwvGet t (index t.length i) = .ok l ∧ t[index t.length i]? = some l ∧
      (l.map Prod.fst).Nodup ∧ search i l = f i ∧ ∀ x, (i, x) ∈ l ↔ f i = some x := by
  have inside := @index_lt i _ holds.pos
  have at_pos := List.getElem?_eq_getElem inside
  have nodup := holds.nodup _ (List.getElem_mem inside)
  have mem (x : X) : (i, x) ∈ t[index t.length i] ↔ f i = some x := by
    simp [holds.mem _ _ at_pos]
  refine ⟨_, by rw [rwvGet, at_pos]; rfl, at_pos, nodup, Option.ext fun x => ?_, mem⟩
  exact (search_eq nodup).trans (mem x)

/-- The list that an index selects is replaced, with an entry for the index or without one. -/
theorem Holds.put (holds : Holds t f) (o : Option X) (at_pos : t[index t.length i]? = some l)
    (perm : r.Perm ((o.toList.map fun x => (i, x)) ++ l.filter fun p => p.1 ≠ i)) :
    rwvSet t (index t.length i) r = .ok (t.set (index t.length i) r) ∧
      Holds (t.set (index t.length i) r) (Function.update f i o) := by
  have inside := @index_lt i _ holds.pos
  have others := holds.mem _ _ at_pos
  refine ⟨if_pos inside, by simpa using holds.pos, ?_, ?_⟩
  · intro k mem
    rcases List.mem_or_eq_of_mem_set mem with old | rfl
    · exact holds.nodup k old
    · rw [(perm.map _).nodup_iff, List.map_append]
      have rest := ((List.filter_sublist (p := fun p => decide (p.1 ≠ i))).map Prod.fst).nodup
        (holds.nodup l (List.mem_of_getElem? at_pos))
      cases o with
      | none => simpa using rest
      | some x => simpa using rest
  · intro b k at_b j x
    rw [List.length_set]
    by_cases here : b = index t.length i
    · subst here
      rw [List.getElem?_set_self inside, Option.some.injEq] at at_b
      rw [← at_b, perm.mem_iff]
      by_cases same : j = i
      · cases o <;> simp [same, eq_comm]
      · simp [same, Ne.symm same, others]
    · rw [List.getElem?_set_ne (Ne.symm here)] at at_b
      rw [holds.mem b k at_b]
      apply and_congr_right
      intro selects
      rw [Function.update_of_ne]
      rintro rfl
      exact here selects.symm

theorem filter_absent (absent : i ∉ l.map Prod.fst) : (l.filter fun p => p.1 ≠ i) = l := by
  rw [List.filter_eq_self]
  intro p mem
  have other : p.1 ≠ i := fun same => absent (List.mem_map.mpr ⟨p, mem, same⟩)
  simpa using other

theorem Holds.ins (holds : Holds t f) (fresh : f i = none) (x : X) :
    ∃ t', ins t (i, x) = .ok t' ∧ t'.length = t.length ∧
      Holds t' (Function.update f i (some x)) := by
  obtain ⟨l, gets, at_pos, -, -, mem⟩ := holds.bucket i
  have absent : i ∉ l.map Prod.fst := by
    rw [List.mem_map]
    rintro ⟨⟨j, y⟩, inside, rfl⟩
    exact absurd ((mem y).mp inside) (by simp [fresh])
  obtain ⟨sets, holds'⟩ := holds.put (some x) (r := (i, x) :: l) at_pos
    (by rw [filter_absent absent]; rfl)
  refine ⟨_, ?_, List.length_set, holds'⟩
  rw [SparseRwVector.ins, gets]
  exact sets

theorem holds_empty {n : Int} (made : makeTable n = .ok t) (pos : 0 < n) :
    Holds t fun _ => none := by
  rw [makeTable] at made
  split at made
  · cases made
    refine ⟨by simpa using pos, fun l mem => ?_, fun b l at_b j x => ?_⟩
    · simp [List.eq_of_mem_replicate mem]
    · simp [List.eq_of_mem_replicate (List.mem_of_getElem? at_b)]
  · cases made

theorem Holds.insertAll (ps : Bucket X) (holds : Holds t f) (nodup : (ps.map Prod.fst).Nodup)
    (fresh : ∀ p ∈ ps, f p.1 = none) :
    ∃ t', ps.foldlM SparseRwVector.ins t = .ok t' ∧ Holds t' fun j => (search j ps).or (f j) := by
  induction ps generalizing t f with
  | nil => exact ⟨t, rfl, holds⟩
  | cons p ps ih =>
    obtain ⟨i, x⟩ := p
    obtain ⟨absent, distinct⟩ := List.nodup_cons.mp nodup
    obtain ⟨here, fresh⟩ := List.forall_mem_cons.mp fresh
    obtain ⟨t₁, inserts, -, holds₁⟩ := holds.ins here x
    obtain ⟨t', rest, holds'⟩ := ih holds₁ distinct fun p mem => by
      rw [Function.update_of_ne]
      · exact fresh p mem
      · exact fun same => absent (List.mem_map.mpr ⟨p, mem, same⟩)
    refine ⟨t', ?_, ?_⟩
    · rw [List.foldlM_cons, inserts]
      exact rest
    · convert holds' using 2 with j
      rw [search]
      by_cases same : j = i
      · subst same
        have none : search j ps = none := Option.eq_none_iff_forall_ne_some.mpr fun y found =>
          absent (List.mem_map.mpr ⟨_, (search_eq distinct).mp found, rfl⟩)
        simp [none]
      · simp [same]

theorem Holds.flatten (holds : Holds t f) :
    (t.flatten.map Prod.fst).Nodup ∧ ∀ j, search j t.flatten = f j := by
  have nodup : (t.flatten.map Prod.fst).Nodup := by
    rw [List.map_flatten, List.nodup_flatten]
    refine ⟨by simpa using holds.nodup, ?_⟩
    rw [List.pairwise_map, List.pairwise_iff_getElem]
    intro a b insideA insideB less j memA memB
    obtain ⟨⟨i, x⟩, inA, same⟩ := List.mem_map.mp memA
    obtain ⟨⟨i', x'⟩, inB, same'⟩ := List.mem_map.mp memB
    cases same
    cases same'
    have placeA := ((holds.mem a _ (List.getElem?_eq_getElem insideA) _ _).mp inA).1
    have placeB := ((holds.mem b _ (List.getElem?_eq_getElem insideB) _ _).mp inB).1
    omega
  refine ⟨nodup, fun j => Option.ext fun x => ?_⟩
  obtain ⟨l, -, at_pos, -, -, mem⟩ := holds.bucket j
  rw [search_eq nodup, List.mem_flatten, ← mem]
  constructor
  · rintro ⟨k, inside, found⟩
    obtain ⟨b, at_b⟩ := List.getElem?_of_mem inside
    have place := ((holds.mem b k at_b j x).mp found).1
    rw [place, at_b] at at_pos
    cases at_pos
    exact found
  · exact fun found => ⟨l, List.mem_of_getElem? at_pos, found⟩

theorem change_cases (i : Int) (found missing : Bucket X → R) (nodup : (l.map Prod.fst).Nodup) :
    (∃ rest : Bucket X, rest.Perm (l.filter (fun p => p.1 ≠ i) ++ r) ∧
      change i found missing l r = found rest) ∨
    i ∉ l.map Prod.fst ∧ change i found missing l r = missing (l.reverse ++ r) := by
  induction l generalizing r with
  | nil => exact .inr ⟨by simp, rfl⟩
  | cons p l ih =>
    obtain ⟨j, y⟩ := p
    obtain ⟨absent, nodup⟩ := List.nodup_cons.mp nodup
    rw [change]
    by_cases same : j = i
    · subst same
      rw [if_pos rfl]
      refine .inl ⟨_, ?_, rfl⟩
      rw [List.filter_cons_of_neg (by simp), filter_absent absent]
    · rw [if_neg same, List.filter_cons_of_pos (by simpa using same)]
      rcases ih (r := (j, y) :: r) nodup with ⟨rest, perm, changes⟩ | ⟨absent', changes⟩
      · exact .inl ⟨rest, perm.trans List.perm_middle, changes⟩
      · refine .inr ⟨by simpa [Ne.symm same] using absent', ?_⟩
        rw [changes]
        simp

end Tables

section Calls

variable {v v' : SparseRwVector X} {f : Int → Option X} {i : Int} {x : X} {α β : Type}

theorem grow_holds (holds : Holds v.table f) (fresh : f i = none) (made : grow v i x = .ok v') :
    Holds v'.table (Function.update f i (some x)) ∧ v'.default = v.default := by
  simp only [grow, bind_eq_ok, Except.ok.injEq] at made
  obtain ⟨t, empty, t', inserts, t'', last, rfl⟩ := made
  have pos := holds.pos
  obtain ⟨nodup, same⟩ := holds.flatten
  obtain ⟨u, inserts', holds'⟩ := (holds_empty empty (by omega)).insertAll _ nodup fun _ _ => rfl
  cases inserts.symm.trans inserts'
  have old : (fun j => (search j v.table.flatten).or none) = f := by
    funext j
    simp [same]
  rw [old] at holds'
  obtain ⟨u, last', -, holds''⟩ := holds'.ins fresh x
  cases last.symm.trans last'
  exact ⟨holds'', rfl⟩

theorem set_holds (holds : Holds v.table f) (made : set v i x = .ok v') :
    Holds v'.table (Function.update f i (some x)) ∧ v'.default = v.default := by
  obtain ⟨l, gets, at_pos, nodup, -, mem⟩ := holds.bucket i
  have put {r : Bucket X} := @Holds.put X _ _ l r i holds (some x) at_pos
  simp only [set, gets, ok_bind, bind_eq_ok, Except.ok.injEq] at made
  obtain ⟨w, changes, rfl⟩ := made
  have whole : Holds w.table (Function.update f i (some x)) ∧ w.default = v.default := by
    rcases change_cases (r := []) i _ _ nodup with ⟨rest, perm, whole⟩ | ⟨absent, whole⟩
    · rw [whole] at changes
      obtain ⟨sets, holds'⟩ := put (r := (i, x) :: rest) (by simpa using perm)
      rw [sets] at changes
      cases changes
      exact ⟨holds', rfl⟩
    · rw [whole] at changes
      split at changes
      · have fresh : f i = none := Option.eq_none_iff_forall_ne_some.mpr fun y found =>
          absent (List.mem_map.mpr ⟨_, (mem y).mpr found, rfl⟩)
        exact grow_holds holds fresh changes
      · obtain ⟨sets, holds'⟩ := put (r := (i, x) :: (l.reverse ++ [])) (by
          rw [filter_absent absent]
          simp)
        rw [sets] at changes
        cases changes
        exact ⟨holds', rfl⟩
  split
  · exact whole
  · exact whole

theorem remove_holds (holds : Holds v.table f) (made : remove v i = .ok v') :
    Holds v'.table (Function.update f i none) ∧ v'.default = v.default := by
  obtain ⟨l, gets, at_pos, nodup, -, mem⟩ := holds.bucket i
  simp only [remove, gets, ok_bind] at made
  rcases change_cases (r := []) i _ _ nodup with ⟨rest, perm, whole⟩ | ⟨absent, whole⟩
  · rw [whole] at made
    obtain ⟨sets, holds'⟩ := holds.put none at_pos (r := rest) (by simpa using perm)
    rw [sets] at made
    cases made
    exact ⟨holds', rfl⟩
  · cases whole.symm.trans made
    have fresh : f i = none := Option.eq_none_iff_forall_ne_some.mpr fun y found =>
      absent (List.mem_map.mpr ⟨_, (mem y).mpr found, rfl⟩)
    rw [← fresh, Function.update_eq_self]
    exact ⟨holds, rfl⟩

theorem copy_holds (holds : Holds v.table f) (meets : Operation.Meets v .copyRwVector)
    (made : copyRwVector v = .ok v') : Holds v'.table f ∧ v'.default = v.default := by
  obtain ⟨room, fits, same⟩ := meets
  have pos := holds.pos
  have empty : makeTable (X := X) v.n = .ok (List.replicate v.n.toNat []) :=
    if_pos ⟨by omega, fits⟩
  simp only [copyRwVector, empty, ok_bind, bind_eq_ok, Except.ok.injEq, copy] at made
  obtain ⟨t, copied, rfl⟩ := made
  rw [List.length_replicate, if_pos (by omega)] at copied
  cases copied
  set n := v.n.toNat with n_def
  have length : (v.table ++ (List.replicate n []).drop v.table.length).length = n := by
    simp
    omega
  refine ⟨⟨by rw [length]; omega, fun l mem => ?_, fun b l at_b j x => ?_⟩, rfl⟩
  · rcases List.mem_append.mp mem with old | new
    · exact holds.nodup l old
    · simp [List.eq_of_mem_replicate (List.mem_of_mem_drop new)]
  rw [length]
  by_cases old : b < v.table.length
  · rw [List.getElem?_append_left old] at at_b
    rw [holds.mem b l at_b]
    apply and_congr_left
    intro value
    obtain ⟨k, -, at_pos, -, -, mem⟩ := holds.bucket j
    rw [same (j, x) (List.mem_flatten.mpr ⟨k, List.mem_of_getElem? at_pos, (mem x).mpr value⟩)]
  · rw [List.getElem?_append_right (not_lt.mp old)] at at_b
    have none := List.eq_of_mem_replicate (List.mem_of_mem_drop (List.mem_of_getElem? at_b))
    rw [none]
    simp only [List.not_mem_nil, false_iff, not_and]
    intro place value
    obtain ⟨k, -, at_pos, -, -, mem⟩ := holds.bucket j
    rw [same (j, x) (List.mem_flatten.mpr ⟨k, List.mem_of_getElem? at_pos, (mem x).mpr value⟩)]
      at place
    exact old (place ▸ index_lt pos)

theorem insert_holds {t : List (Bucket X)} {g : Int → X} (holds : Holds t f) (k : Nat)
    (fresh : ∀ j : Int, 0 ≤ j → j ≤ k → f j = none) :
    ∃ t', insert g (k + 1) k t = some (.ok t') ∧
      Holds t' fun j => if 0 ≤ j ∧ j ≤ k then some (g j) else f j := by
  induction k generalizing t f with
  | zero =>
    obtain ⟨t', inserts, -, holds'⟩ := holds.ins (fresh 0 (by simp) (by simp)) (g 0)
    refine ⟨t', by simp [insert, inserts], ?_⟩
    convert holds' using 2 with j
    by_cases here : j = 0
    · simp [here]
    · rw [if_neg (by omega), Function.update_of_ne here]
  | succ k ih =>
    have last := fresh (k + 1 : Nat) (by omega) (by omega)
    obtain ⟨t₁, inserts, -, holds₁⟩ := holds.ins last (g (k + 1 : Nat))
    obtain ⟨t', rest, holds'⟩ := ih holds₁ fun j nonneg le => by
      rw [Function.update_of_ne (by omega)]
      exact fresh j nonneg (by omega)
    refine ⟨t', ?_, ?_⟩
    · have more : ((k + 1 : Nat) : Int) ≠ 0 := by omega
      have next : ((k + 1 : Nat) : Int) - 1 = k := by omega
      rw [insert, inserts]
      simp only [if_neg more, next]
      exact rest
    · convert holds' using 2 with j
      by_cases here : j = (k + 1 : Nat)
      · rw [if_pos (by omega), if_neg (by omega), here, Function.update_self]
      · rw [Function.update_of_ne here]
        exact if_congr (by omega) rfl rfl

theorem insertList_holds {t : List (Bucket X)} (holds : Holds t f) (l : List X)
    (fresh : ∀ j ≥ i, f j = none) : ∃ t', insertList i t l =
        .ok (t', l.getLast?.elim (.fff fun _ => .error .subscript) .vvv) ∧
      Holds t' fun j => if i ≤ j then l[(j - i).toNat]? else f j := by
  induction l generalizing i t f with
  | nil =>
    refine ⟨t, rfl, ?_⟩
    convert holds using 2 with j
    by_cases behind : i ≤ j
    · simp [behind, fresh j behind]
    · simp [behind]
  | cons x l ih =>
    obtain ⟨t₁, inserts, -, holds₁⟩ := holds.ins (fresh i (by omega)) x
    obtain ⟨t', rest, holds'⟩ := @ih _ (i + 1) t₁ holds₁ fun j behind => by
      rw [Function.update_of_ne (by omega)]
      exact fresh j (by omega)
    refine ⟨t', ?_, ?_⟩
    · cases l with
      | nil =>
        cases rest
        simp [insertList, inserts]
      | cons y l =>
        rw [insertList, inserts, ok_bind, rest]
        simp
    · convert holds' using 2 with j
      by_cases here : j = i
      · rw [here, if_pos le_rfl, if_neg (by omega), Function.update_self]
        simp
      · rw [Function.update_of_ne here]
        by_cases behind : i ≤ j
        · rw [if_pos behind, if_pos (by omega), show (j - i).toNat = (j - (i + 1)).toNat + 1 by omega,
            List.getElem?_cons_succ]
        · rw [if_neg behind, if_neg (by omega)]

theorem roundsize_pos (n : Int) : 0 < roundsize n := by
  have step (i : Nat) (pos : 0 < i) : 0 < loop n i pos := by
    fun_induction loop n i pos with
    | case1 i pos done => exact pos
    | case2 i pos more ih => exact ih
  exact step 1 _

theorem table_holds {t : List (Bucket X)} {n : Int} (made : makeTable (tableSize n) = .ok t) :
    Holds t fun _ => none := by
  apply holds_empty made
  have pos : 0 < tableSize n := by
    simp only [tableSize]
    split
    · simp
    · exact roundsize_pos _
  exact_mod_cast pos

theorem fromFn_holds {n : Int} {g : Int → X} (pos : 0 < n) (fits : tableSize n ≤ maximumVectorLength) :
    ∃ v, fromFn n.toNat n g = some (.ok v) ∧ v.default = .vvv (g 0) ∧
      Holds v.table fun i => if 0 ≤ i ∧ i < n then some (g i) else none := by
  have made : makeTable (X := X) (tableSize n) = .ok (List.replicate (tableSize n) []) :=
    if_pos ⟨by omega, fits⟩
  obtain ⟨t, inserts, holds⟩ := insert_holds (g := g) (table_holds made) (n - 1).toNat fun _ _ _ => rfl
  have last : ((n - 1).toNat : Int) = n - 1 := by omega
  have turns : (n - 1).toNat + 1 = n.toNat := by omega
  rw [last, turns] at inserts
  refine ⟨⟨t, .vvv (g 0), n, n⟩, ?_, rfl, ?_⟩
  · rw [fromFn, made]
    simp [show ¬n < 0 by omega, inserts, Except.map]
  · convert holds using 2 with j
    exact if_congr (by omega) rfl rfl

structure Sound (v : SparseRwVector X) (s : Intended X) : Prop where
  table : Holds v.table s.entry
  default : match v.default with
    | .vvv d => s.default = .ok d
    | .fff f => ∀ i, f i = s.default
    | .uuu _ => False

variable {s : Intended X} {op : Operation X}

theorem Sound.correct (sound : Sound v s) : Correct v s := by
  intro i
  obtain ⟨l, gets, -, -, searched, -⟩ := sound.table.bucket i
  have default := sound.default
  rw [get, gets, ok_bind, searched]
  cases s.entry i with
  | some x => rfl
  | none =>
    cases kind : v.default with
    | vvv d =>
      rw [kind] at default
      simp [default, Except.map]
    | fff f =>
      rw [kind] at default
      simp only [default, Option.elim]
      cases s.default <;> rfl
    | uuu f => simp [kind] at default

theorem toOption_eq {m : Except Raised α} {a : α} : m.toOption = some a ↔ m = .ok a := by
  cases m <;> simp [Except.toOption]

theorem Sound.perform (sound : Sound v s) (meets : op.Meets v) (made : perform v op = some v') :
    Sound v' (s.perform op) := by
  cases op with
  | makeRwVector n d =>
    simp only [SparseRwVector.perform, makeRwVector, toOption_eq, bind_eq_ok,
      Except.ok.injEq] at made
    obtain ⟨t, empty, rfl⟩ := made
    exact ⟨holds_empty empty (by simp), rfl⟩
  | fromFn n g =>
    simp only [SparseRwVector.perform, fromFn] at made
    cases empty : makeTable (X := X) (tableSize n) with
    | error e => simp [empty, Except.toOption] at made
    | ok t =>
      by_cases neg : n < 0
      · simp [empty, neg, Except.toOption] at made
        subst made
        refine ⟨?_, fun i => by simp [Intended.perform, neg]⟩
        convert table_holds empty using 2 with i
        exact if_neg (by omega)
      · have fits : tableSize n ≤ maximumVectorLength := by
          rw [makeTable] at empty
          split at empty
          · next fits => exact fits.2
          · cases empty
        have pos : 0 < n := lt_of_le_of_ne (not_lt.mp neg) (Ne.symm meets)
        obtain ⟨w, ends, default, holds⟩ := fromFn_holds (g := g) pos fits
        have whole : SparseRwVector.perform v (.fromFn n g) = some w := by
          simp [SparseRwVector.perform, ends, Except.toOption]
        cases whole.symm.trans made
        exact ⟨holds, by simp [default, Intended.perform, neg]⟩
  | fromList l =>
    simp only [SparseRwVector.perform, fromList, toOption_eq, bind_eq_ok, Except.ok.injEq] at made
    obtain ⟨t, empty, ⟨t', d⟩, inserts, rfl⟩ := made
    obtain ⟨u, whole, holds⟩ := @insertList_holds X _ 0 t (table_holds empty) l fun _ _ => rfl
    cases inserts.symm.trans whole
    refine ⟨by simpa [Intended.perform] using holds, ?_⟩
    cases last : l.getLast? with
    | none => simp [Intended.perform, last]
    | some x => simp [Intended.perform, last]
  | copyRwVector =>
    rw [SparseRwVector.perform, toOption_eq] at made
    obtain ⟨holds, default⟩ := copy_holds sound.table meets made
    exact ⟨holds, default ▸ sound.default⟩
  | set i x =>
    rw [SparseRwVector.perform, toOption_eq] at made
    obtain ⟨holds, default⟩ := set_holds sound.table made
    exact ⟨holds, default ▸ sound.default⟩
  | remove i =>
    rw [SparseRwVector.perform, toOption_eq] at made
    obtain ⟨holds, default⟩ := remove_holds sound.table made
    exact ⟨holds, default ▸ sound.default⟩

theorem run_sound (ops : List (Operation X)) (sound : Sound v s) (meet : AllMeet v ops) :
    Sound (run v s ops).1 (run v s ops).2 := by
  induction ops generalizing v s with
  | nil => exact sound
  | cons op ops ih =>
    obtain ⟨meets, meet⟩ := meet
    rw [run]
    cases made : SparseRwVector.perform v op with
    | none => exact ih sound (by rwa [made] at meet)
    | some v' => exact ih (sound.perform meets made) (by rwa [made] at meet)

end Calls

theorem run_answers (ops : List (Operation X)) (d : X)
    (meet : AllMeet ⟨List.replicate 16 [], .vvv d, 0, 0⟩ ops) :
    Correct (run ⟨List.replicate 16 [], .vvv d, 0, 0⟩ ⟨fun _ => none, .ok d⟩ ops).1
      (run ⟨List.replicate 16 [], .vvv d, 0, 0⟩ ⟨fun _ => none, .ok d⟩ ops).2 ∧
    ∀ (n : Int) (f : Int → X), 0 < n → tableSize n ≤ maximumVectorLength →
      ∃ fuel v, fromFn fuel n f = some (.ok v) ∧
        ∀ i, 0 ≤ i → i < n → (get v i).map Prod.fst = .ok (f i) := by
  constructor
  · apply Sound.correct
    apply run_sound ops _ meet
    exact ⟨holds_empty (n := 16) rfl (by simp), rfl⟩
  · intro n f pos fits
    obtain ⟨v, ends, default, holds⟩ := fromFn_holds (g := f) pos fits
    refine ⟨_, v, ends, fun i nonneg less => ?_⟩
    obtain ⟨l, gets, -, -, searched, -⟩ := holds.bucket i
    rw [if_pos ⟨nonneg, less⟩] at searched
    rw [get, gets, ok_bind, searched]
    rfl

theorem run_answers_two : Correct
    (run (⟨List.replicate 16 [], .vvv 0, 0, 0⟩ : SparseRwVector Nat) ⟨fun _ => none, .ok 0⟩
      [.set 15 5, .copyRwVector]).1
    (run ⟨List.replicate 16 [], .vvv 0, 0, 0⟩ ⟨fun _ => none, .ok 0⟩ [.set 15 5, .copyRwVector]).2 :=
  (run_answers [.set 15 5, .copyRwVector] 0 ⟨trivial, ⟨by decide, by decide, by decide⟩, trivial⟩).1

theorem copy_loses_entry : ¬∀ ops : List (Operation Nat),
    Correct (run ⟨List.replicate 16 [], .vvv 0, 0, 0⟩ ⟨fun _ => none, .ok 0⟩ ops).1
      (run ⟨List.replicate 16 [], .vvv 0, 0, 0⟩ ⟨fun _ => none, .ok 0⟩ ops).2 := by
  intro correct
  have wrong := correct [.makeRwVector 17 0, .set 16 5, .copyRwVector] 16
  exact absurd (Except.ok.inj wrong) (by decide)

end SparseRwVector

end Mythryl
