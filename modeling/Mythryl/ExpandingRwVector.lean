import Mythryl.Exceptions
import Mathlib.Data.List.Basic
import Mathlib.Tactic.Linarith

/-!
# Vectors of unbounded length

`expanding_rw_vector`: an array that grows, a default, and a bound on the indices that were set.
-/

namespace Mythryl

structure ExpandingRwVector (X : Type) where
  arr : List X
  default : X
  bnd : Int

namespace ExpandingRwVector

variable {X : Type}

inductive Raised
  | subscript
  | indexOutOfBounds
  | size

def makeRwVector (n : Int) (x : X) : Except Raised (List X) :=
  if 0 ≤ n then .ok (List.replicate n.toNat x) else .error .size

def rwvGet (arr : List X) (i : Int) : Except Raised X :=
  if i < 0 then .error .indexOutOfBounds
  else arr[i.toNat]?.elim (.error .indexOutOfBounds) .ok

def rwvSet (arr : List X) (i : Int) (x : X) : Except Raised (List X) :=
  if 0 ≤ i ∧ i < arr.length then .ok (arr.set i.toNat x) else .error .indexOutOfBounds

def tab (f : Int → Except Raised X) : Nat → Except Raised (List X)
  | 0 => .ok []
  | n + 1 => do
      let a ← tab f n
      .ok (a ++ [← f n])

def rwvFromFn (n : Int) (f : Int → Except Raised X) : Except Raised (List X) :=
  if n = 0 then .ok []
  else do
    let _ ← makeRwVector n (← f 0)
    tab f n.toNat

def rwVector (size : Int) (default : X) : Except Raised (ExpandingRwVector X) := do
  let arr ← makeRwVector size default
  .ok { arr, default, bnd := -1 }

def fill : List X → Int → List X → Except Raised (List X)
  | [], _, arr => .ok arr
  | x :: r, i, arr => do fill r (i + 1) (← rwvSet arr i x)

def fromList (initList : List X) (default : X) : Except Raised (ExpandingRwVector X) := do
  let len : Int := initList.length
  let arr ← fill initList 0 (← makeRwVector len default)
  .ok { arr, default, bnd := len - 1 }

def fromFn (size : Int) (fillG : Int → X) (default : X) : Except Raised (ExpandingRwVector X) := do
  let arr ← rwvFromFn size fun i => .ok (fillG i)
  .ok { arr, default, bnd := size - 1 }

def copyRwSubvector (a : ExpandingRwVector X) (lo hi : Int) : Except Raised (ExpandingRwVector X) :=
  let copy i := rwvGet a.arr (i + lo)
  if hi ≤ a.bnd then do
    .ok { arr := ← rwvFromFn (hi - lo) copy, default := a.default, bnd := hi - lo }
  else if lo ≤ a.bnd then do
    .ok { arr := ← rwvFromFn (a.bnd - lo) copy, default := a.default, bnd := a.bnd - lo }
  else rwVector 0 a.default

def get (a : ExpandingRwVector X) (idx : Int) : Except Raised X :=
  match rwvGet a.arr idx with
  | .ok x => .ok x
  | .error _ => if idx < 0 then .error .subscript else .ok a.default

def expand (arr : List X) (oldlen newlen : Int) (default : X) : Except Raised (List X) :=
  rwvFromFn newlen fun i => if i < oldlen then rwvGet arr i else .ok default

def set (a : ExpandingRwVector X) (idx : Int) (v : X) : Except Raised (ExpandingRwVector X) := do
  let len : Int := a.arr.length
  let arr ←
    (if idx ≥ len then expand a.arr len (max (len + len) (idx + 1)) a.default else .ok a.arr)
  .ok { a with arr := ← rwvSet arr idx v, bnd := if a.bnd < idx then idx else a.bnd }

def fillDefault (default : X) (stop i : Int) (arr : List X) : Except Raised (List X) :=
  if i = stop then .ok arr
  else if 0 ≤ i ∧ i < arr.length then
    fillDefault default stop (i - 1) (arr.set i.toNat default)
  else .error .indexOutOfBounds
termination_by (i + 1).toNat

def truncate (a : ExpandingRwVector X) (size : Int) : Except Raised (ExpandingRwVector X) :=
  let newbnd := size - 1
  if newbnd < 0 then do
    .ok { a with bnd := -1, arr := ← makeRwVector 0 a.default }
  else if newbnd < a.bnd then
    if 3 * size < a.arr.length then do
      let a' ← copyRwSubvector a 0 newbnd
      .ok { a with bnd := a'.bnd, arr := a'.arr }
    else do .ok { a with arr := ← fillDefault a.default newbnd a.bnd a.arr }
  else .ok a

inductive Operation (X : Type)
  | rwVector (size : Int) (default : X)
  | fromList (initList : List X) (default : X)
  | fromFn (size : Int) (fillG : Int → X) (default : X)
  | set (idx : Int) (v : X)
  | truncate (size : Int)
  | copyRwSubvector (lo hi : Int)

def perform (a : ExpandingRwVector X) : Operation X → Except Raised (ExpandingRwVector X)
  | .rwVector size default => rwVector size default
  | .fromList initList default => fromList initList default
  | .fromFn size fillG default => fromFn size fillG default
  | .set idx v => set a idx v
  | .truncate size => truncate a size
  | .copyRwSubvector lo hi => copyRwSubvector a lo hi

/-- What a vector is for: the values that were set, and the bound after a call of `truncate`. -/
structure Intended (X : Type) where
  value : Nat → Option X
  default : X
  bound : Option Int

@[grind =] def Intended.perform (s : Intended X) : Operation X → Intended X
  | .rwVector _ default => ⟨fun _ => none, default, none⟩
  | .fromList initList default => ⟨fun i => initList[i]?, default, none⟩
  | .fromFn size fillG default =>
      ⟨fun i => if (i : Int) < size then some (fillG i) else none, default, none⟩
  | .set idx v => ⟨Function.update s.value idx.toNat (some v), s.default, none⟩
  | .truncate size =>
      ⟨fun i => if (i : Int) < size then s.value i else none, s.default, some (size - 1)⟩
  | .copyRwSubvector lo hi =>
      ⟨fun j => if (j : Int) ≤ hi - lo then s.value (lo + j).toNat else none, s.default, none⟩

def run (a : ExpandingRwVector X) (s : Intended X) :
    List (Operation X) → ExpandingRwVector X × Intended X
  | [] => (a, s)
  | op :: ops =>
      match perform a op with
      | .ok a' => run a' (s.perform op) ops
      | .error _ => run a s ops

/-- The last value that is to be copied is the default already. -/
def Operation.Meets (a : ExpandingRwVector X) : Operation X → Prop
  | .truncate size => size = 0 ∨ 0 < size ∧ (a.bnd < size ∨ 3 * size < a.arr.length ∧
      a.arr[(size - 1).toNat]?.getD a.default = a.default)
  | .copyRwSubvector lo hi => a.bnd < lo ∨
      0 ≤ min hi a.bnd ∧ a.arr[(min hi a.bnd).toNat]?.getD a.default = a.default
  | _ => True

def AllMeet (a : ExpandingRwVector X) : List (Operation X) → Prop
  | [] => True
  | op :: ops => op.Meets a ∧
      match perform a op with
      | .ok a' => AllMeet a' ops
      | .error _ => AllMeet a ops

structure Correct (a : ExpandingRwVector X) (s : Intended X) : Prop where
  get : ∀ i : Nat, get a i = .ok ((s.value i).getD s.default)
  set : ∀ (i : Nat) (v : X), ∃ a', set a i v = .ok a'
  bound : ∀ i x, s.value i = some x → (i : Int) ≤ a.bnd
  truncated : ∀ b ∈ s.bound, a.bnd ≤ b

structure Sound (a : ExpandingRwVector X) (s : Intended X) : Prop where
  default : a.default = s.default
  value : ∀ i, a.arr[i]?.getD a.default = (s.value i).getD a.default
  bound : ∀ i x, s.value i = some x → (i : Int) ≤ a.bnd
  truncated : ∀ b ∈ s.bound, a.bnd ≤ b

section Arrays

variable {arr arr' : List X} {n : Int} {f : Int → Except Raised X} {g : Nat → X} {x : X}

theorem rwvGet_nat (i : Nat) : rwvGet arr i = arr[i]?.elim (.error .indexOutOfBounds) .ok := by
  rw [rwvGet, if_neg (not_lt.mpr (Int.natCast_nonneg i)), Int.toNat_natCast]

theorem tab_eq {n : Nat} (total : ∀ i < n, f i = .ok (g i)) :
    tab f n = .ok ((List.range n).map g) := by
  induction n with
  | zero => rfl
  | succ n ih =>
    rw [tab, ih fun i less => total i (less.trans n.lt_succ_self), ok_bind,
      total n n.lt_succ_self, ok_bind, List.range_succ, List.map_append]
    rfl

theorem tab_total {n : Nat} {l : List X} (made : tab f n = .ok l) : ∀ i < n, ∃ x, f i = .ok x := by
  induction n generalizing l with
  | zero => exact fun i less => absurd less (Nat.not_lt_zero i)
  | succ n ih =>
    rw [tab] at made
    cases first : tab f n with
    | error e => rw [first] at made; cases made
    | ok a =>
      rw [first, ok_bind] at made
      cases last : f n with
      | error e => rw [last] at made; cases made
      | ok x =>
        intro i less
        rcases Nat.lt_succ_iff_lt_or_eq.mp less with less | rfl
        · exact ih first i less
        · exact ⟨x, last⟩

theorem rwvFromFn_eq (inside : 0 ≤ n) (total : ∀ i < n.toNat, f i = .ok (g i)) :
    rwvFromFn n f = .ok ((List.range n.toNat).map g) := by
  rw [rwvFromFn]
  by_cases zero : n = 0
  · simp [zero]
  · have first := total 0 (by omega)
    rw [if_neg zero, show f 0 = .ok (g 0) from first, ok_bind, makeRwVector, if_pos inside, ok_bind,
      tab_eq total]

theorem rwvFromFn_total {l : List X} (made : rwvFromFn n f = .ok l) :
    0 ≤ n ∧ ∀ i < n.toNat, ∃ x, f i = .ok x := by
  rw [rwvFromFn] at made
  by_cases zero : n = 0
  · simp [zero]
  · rw [if_neg zero] at made
    cases first : f 0 with
    | error e => rw [first] at made; cases made
    | ok x =>
      rw [first, ok_bind, makeRwVector] at made
      by_cases inside : 0 ≤ n
      · rw [if_pos inside] at made
        exact ⟨inside, tab_total made⟩
      · rw [if_neg inside] at made
        cases made

theorem fill_eq (l pre : List X) :
    fill l pre.length (pre ++ List.replicate l.length x) = .ok (pre ++ l) := by
  induction l generalizing pre with
  | nil => simp [fill]
  | cons y l ih =>
    have wrote : rwvSet (pre ++ List.replicate (l.length + 1) x) pre.length y =
        .ok (pre ++ [y] ++ List.replicate l.length x) := by
      rw [rwvSet, if_pos (by simp), Int.toNat_natCast]
      simp [List.replicate_succ]
    have rest := ih (pre ++ [y])
    rw [fill, List.length_cons, wrote, ok_bind]
    simpa using rest

end Arrays

section Calls

variable {a a' : ExpandingRwVector X} {s : Intended X} {op : Operation X} {idx lo hi : Int} {v : X}

theorem copied {n : Int} {arr l : List X}
    (made : rwvFromFn n (fun i => rwvGet arr (i + lo)) = .ok l) (default : X) :
    0 ≤ n ∧ (0 < n → 0 ≤ lo) ∧
      ∀ i : Nat, l[i]?.getD default = if (i : Int) < n then arr[(lo + i).toNat]?.getD default
        else default := by
  obtain ⟨inside, total⟩ := rwvFromFn_total made
  have reads (i : Nat) (less : i < n.toNat) : 0 ≤ i + lo ∧
      rwvGet arr (i + lo) = .ok (arr[(lo + i).toNat]?.getD default) := by
    obtain ⟨x, read⟩ := total i less
    rw [rwvGet] at read ⊢
    by_cases neg : (i : Int) + lo < 0
    · rw [if_pos neg] at read
      cases read
    · rw [if_neg neg] at read ⊢
      rw [Int.add_comm lo]
      cases at_i : arr[((i : Int) + lo).toNat]? with
      | none => rw [at_i] at read; cases read
      | some y => exact ⟨not_lt.mp neg, rfl⟩
  have whole := @rwvFromFn_eq X n (fun i => rwvGet arr (i + lo))
    (fun i => arr[(lo + i).toNat]?.getD default) inside fun i less => (reads i less).2
  rw [made] at whole
  refine ⟨inside, fun pos => ?_, fun i => ?_⟩
  · simpa using (reads 0 (by omega)).1
  · rw [Except.ok.inj whole]
    by_cases less : (i : Int) < n
    · rw [if_pos less, List.getElem?_map, List.getElem?_range (by omega)]
      rfl
    · rw [if_neg less, List.getElem?_eq_none (by simp; omega)]
      rfl

theorem set_ok (inside : 0 ≤ idx) : ∃ arr, set a idx v =
      .ok { a with arr, bnd := if a.bnd < idx then idx else a.bnd } ∧
    ∀ i : Nat, arr[i]?.getD a.default = if i = idx then v else a.arr[i]?.getD a.default := by
  have grown : ∃ arr, (if idx ≥ a.arr.length then expand a.arr a.arr.length
        (max (a.arr.length + a.arr.length) (idx + 1)) a.default else .ok a.arr) = .ok arr ∧
      idx < arr.length ∧ ∀ i : Nat, arr[i]?.getD a.default = a.arr[i]?.getD a.default := by
    by_cases outside : idx ≥ a.arr.length
    · rw [if_pos outside]
      set n := max ((a.arr.length : Int) + a.arr.length) (idx + 1) with n_def
      have whole : expand a.arr a.arr.length n a.default =
          .ok ((List.range n.toNat).map fun i => a.arr[i]?.getD a.default) := by
        apply rwvFromFn_eq (by omega)
        intro i _
        by_cases old : (i : Int) < a.arr.length
        · rw [if_pos old, rwvGet_nat, List.getElem?_eq_getElem (by omega)]
          rfl
        · rw [if_neg old, List.getElem?_eq_none (by omega)]
          rfl
      refine ⟨_, whole, by simp; omega, fun i => ?_⟩
      by_cases less : i < n.toNat
      · rw [List.getElem?_map, List.getElem?_range less]
        rfl
      · rw [List.getElem?_eq_none (by simp; omega), List.getElem?_eq_none (by omega)]
    · rw [if_neg outside]
      exact ⟨a.arr, rfl, not_le.mp outside, fun i => rfl⟩
  obtain ⟨arr, made, room, same⟩ := grown
  refine ⟨arr.set idx.toNat v, ?_, fun i => ?_⟩
  · simp only [set]
    rw [made, ok_bind, rwvSet, if_pos ⟨inside, room⟩, ok_bind]
  · by_cases here : (i : Int) = idx
    · rw [if_pos here, ← here, Int.toNat_natCast, List.getElem?_set_self (by omega)]
      rfl
    · rw [if_neg here, List.getElem?_set_ne (by omega), same]

theorem Sound.correct (sound : Sound a s) : Correct a s := by
  refine ⟨fun i => ?_, fun i v => ?_, sound.bound, sound.truncated⟩
  · rw [← sound.default, ← sound.value i, ExpandingRwVector.get, rwvGet_nat]
    cases a.arr[i]? with
    | none => simp [not_lt.mpr (Int.natCast_nonneg i)]
    | some x => rfl
  · obtain ⟨arr, sets, -⟩ := @set_ok X a i v (Int.natCast_nonneg i)
    exact ⟨_, sets⟩

theorem Sound.unset (sound : Sound a s) {i : Nat} (above : a.bnd < i) : s.value i = none := by
  cases value : s.value i with
  | none => rfl
  | some x => exact absurd (sound.bound i x value) (not_le.mpr above)

theorem Sound.copy (sound : Sound a s) (meets : (Operation.copyRwSubvector lo hi).Meets a)
    (made : copyRwSubvector a lo hi = .ok a') : Sound a' (s.perform (.copyRwSubvector lo hi)) := by
  by_cases beyond : a.bnd < lo ∧ a.bnd < hi
  · rw [copyRwSubvector, if_neg (by omega), if_neg (by omega)] at made
    cases made
    have none (i : Nat) : (s.perform (.copyRwSubvector lo hi)).value i = none := by
      have unset := @Sound.unset X a s sound (lo + i).toNat (by omega)
      simp [Intended.perform, unset]
    refine ⟨sound.default, fun i => ?_, fun i x value => ?_, by simp [Intended.perform]⟩
    · rw [none]
      rfl
    · rw [none] at value
      cases value
  obtain ⟨l, copy, rfl⟩ : ∃ l, rwvFromFn (min hi a.bnd - lo) (fun i => rwvGet a.arr (i + lo)) =
      .ok l ∧ a' = ⟨l, a.default, min hi a.bnd - lo⟩ := by
    rw [copyRwSubvector] at made
    by_cases below : hi ≤ a.bnd
    · rw [if_pos below] at made
      rw [min_eq_left below]
      cases copy : rwvFromFn (hi - lo) fun i => rwvGet a.arr (i + lo) with
      | error e => rw [copy] at made; cases made
      | ok l => rw [copy] at made; exact ⟨l, rfl, (Except.ok.inj made).symm⟩
    · rw [if_neg below, if_pos (by omega)] at made
      rw [min_eq_right (not_le.mp below).le]
      cases copy : rwvFromFn (a.bnd - lo) fun i => rwvGet a.arr (i + lo) with
      | error e => rw [copy] at made; cases made
      | ok l => rw [copy] at made; exact ⟨l, rfl, (Except.ok.inj made).symm⟩
  obtain ⟨inside, start, values⟩ := copied copy a.default
  obtain ⟨nonneg, last⟩ := meets.resolve_left (by omega)
  have above (i : Nat) (less : min hi a.bnd - lo < i) :
      (s.perform (.copyRwSubvector lo hi)).value i = none := by
    simp only [Intended.perform]
    by_cases within : (i : Int) ≤ hi - lo
    · rw [if_pos within]
      exact sound.unset (by omega)
    · rw [if_neg within]
  refine ⟨sound.default, fun i => ?_, fun i x value => ?_, by simp [Intended.perform]⟩
  · rw [values i]
    by_cases less : (i : Int) ≤ min hi a.bnd - lo
    · have within : (i : Int) ≤ hi - lo := by omega
      simp only [Intended.perform, if_pos within]
      rw [← sound.value]
      by_cases final : (i : Int) < min hi a.bnd - lo
      · rw [if_pos final]
      · rw [if_neg final, show lo + i = min hi a.bnd by omega, last]
    · rw [above i (not_le.mp less), if_neg (by omega)]
      rfl
  · by_contra less
    rw [above i (not_le.mp less)] at value
    cases value

theorem Sound.truncate {size : Int} (sound : Sound a s) (meets : (Operation.truncate size).Meets a)
    (made : truncate a size = .ok a') : Sound a' (s.perform (.truncate size)) := by
  rw [ExpandingRwVector.truncate] at made
  rcases meets with rfl | ⟨pos, meets⟩
  · cases made
    have none (i : Nat) : (s.perform (.truncate 0)).value i = none := by simp [Intended.perform]
    refine ⟨sound.default, fun i => ?_, fun i x value => ?_, by simp [Intended.perform]⟩
    · rw [none]
      rfl
    · rw [none] at value
      cases value
  rw [if_neg (by omega)] at made
  by_cases inside : size - 1 < a.bnd
  · obtain ⟨few, last⟩ := meets.resolve_left (by omega)
    rw [if_pos inside, if_pos few] at made
    cases copy : copyRwSubvector a 0 (size - 1) with
    | error e => rw [copy] at made; cases made
    | ok b =>
      rw [copy] at made
      cases made
      have copied := sound.copy (.inr ⟨by omega, by rwa [min_eq_left inside.le]⟩) copy
      have same : (s.perform (.truncate size)).value =
          (s.perform (.copyRwSubvector 0 (size - 1))).value := by
        funext i
        simp [Intended.perform, Int.le_sub_one_iff]
      have top : b.bnd = size - 1 := by
        rw [copyRwSubvector, if_pos inside.le] at copy
        cases l : rwvFromFn (size - 1 - 0) fun i => rwvGet a.arr (i + 0) with
        | error e => rw [l] at copy; cases copy
        | ok l' =>
          rw [l] at copy
          cases copy
          exact Int.sub_zero _
      have default : b.default = a.default := copied.default.trans sound.default.symm
      refine ⟨sound.default, fun i => ?_, same ▸ copied.bound, by simp [Intended.perform, top]⟩
      rw [same, ← default]
      exact copied.value i
  · rw [if_neg inside] at made
    cases made
    have same (i : Nat) : (s.perform (.truncate size)).value i = s.value i := by
      simp only [Intended.perform]
      by_cases less : (i : Int) < size
      · rw [if_pos less]
      · rw [if_neg less, sound.unset (by omega)]
    refine ⟨sound.default, fun i => ?_, fun i x value => ?_, ?_⟩
    · rw [same]
      exact sound.value i
    · exact sound.bound i x (same i ▸ value)
    · simpa [Intended.perform] using inside

theorem Sound.perform (sound : Sound a s) (meets : op.Meets a)
    (made : perform a op = .ok a') : Sound a' (s.perform op) := by
  cases op with
  | rwVector size default =>
    simp only [ExpandingRwVector.perform, rwVector, makeRwVector] at made
    split at made
    · cases made
      refine ⟨rfl, fun i => ?_, by simp [Intended.perform], by simp [Intended.perform]⟩
      simp only [Intended.perform, List.getElem?_replicate]
      split <;> rfl
    · cases made
  | fromList l default =>
    have filled : fill l 0 (List.replicate l.length default) = .ok l := fill_eq l []
    simp only [ExpandingRwVector.perform, fromList, makeRwVector, Int.natCast_nonneg, if_true,
      Int.toNat_natCast, ok_bind, filled] at made
    cases made
    refine ⟨rfl, fun i => rfl, fun i x value => ?_, by simp [Intended.perform]⟩
    have less := (List.getElem?_eq_some_iff.mp value).1
    exact Int.le_sub_one_of_lt (Int.ofNat_lt.mpr less)
  | fromFn size g default =>
    rw [ExpandingRwVector.perform, fromFn] at made
    cases filled : rwvFromFn size fun i => .ok (g i) with
    | error e => rw [filled] at made; cases made
    | ok l =>
      have inside := (rwvFromFn_total filled).1
      have whole := @rwvFromFn_eq X size (fun i => .ok (g i)) (fun i => g i) inside
        fun i _ => rfl
      rw [whole] at filled made
      cases made
      refine ⟨rfl, fun i => ?_, fun i x value => ?_, by simp [Intended.perform]⟩
      · simp only [Intended.perform, List.getElem?_map]
        by_cases less : (i : Int) < size
        · rw [if_pos less, List.getElem?_range (by omega)]
          rfl
        · rw [if_neg less, List.getElem?_eq_none (by simp; omega)]
          rfl
      · by_contra less
        have beyond : ¬(i : Int) < size := fun inside => less (Int.le_sub_one_of_lt inside)
        simp [Intended.perform, beyond] at value
  | set idx v =>
    by_cases inside : 0 ≤ idx
    · obtain ⟨arr, sets, values⟩ := @set_ok X a idx v inside
      cases made.symm.trans sets
      have same (i : Nat) : (s.perform (.set idx v)).value i =
          if i = idx then some v else s.value i := by
        simp only [Intended.perform, Function.update_apply]
        exact if_congr (by omega) rfl rfl
      refine ⟨sound.default, fun i => ?_, fun i x value => ?_, by simp [Intended.perform]⟩
      · rw [values, same]
        by_cases here : (i : Int) = idx
        · rw [if_pos here, if_pos here]
          rfl
        · rw [if_neg here, if_neg here]
          exact sound.value i
      · rw [same] at value
        by_cases here : (i : Int) = idx
        · simp only
          omega
        · rw [if_neg here] at value
          have below := sound.bound i x value
          simp only
          omega
    · rw [ExpandingRwVector.perform, ExpandingRwVector.set] at made
      have outside : ¬idx ≥ a.arr.length := by omega
      simp only [if_neg outside, ok_bind, rwvSet, inside, false_and, if_false] at made
      cases made
  | truncate size => exact sound.truncate meets made
  | copyRwSubvector lo hi => exact sound.copy meets made

theorem run_sound (ops : List (Operation X)) (sound : Sound a s) (meet : AllMeet a ops) :
    Sound (run a s ops).1 (run a s ops).2 := by
  induction ops generalizing a s with
  | nil => exact sound
  | cons op ops ih =>
    obtain ⟨meets, meet⟩ := meet
    rw [run]
    cases made : ExpandingRwVector.perform a op with
    | error e => exact ih sound (by rwa [made] at meet)
    | ok a' => exact ih (sound.perform meets made) (by rwa [made] at meet)

end Calls

theorem run_correct (default : X) (ops : List (Operation X))
    (meet : AllMeet ⟨[], default, -1⟩ ops) :
    Correct (run ⟨[], default, -1⟩ ⟨fun _ => none, default, none⟩ ops).1
      (run ⟨[], default, -1⟩ ⟨fun _ => none, default, none⟩ ops).2 := by
  apply Sound.correct
  apply run_sound ops _ meet
  exact ⟨rfl, fun i => rfl, by simp, by simp⟩

theorem run_correct_two : Correct
    (run (⟨[], 0, -1⟩ : ExpandingRwVector Nat) ⟨fun _ => none, 0, none⟩
      [.fromList [0, 2] 0, .set 5 7, .truncate 1]).1
    (run ⟨[], 0, -1⟩ ⟨fun _ => none, 0, none⟩ [.fromList [0, 2] 0, .set 5 7, .truncate 1]).2 :=
  run_correct 0 [.fromList [0, 2] 0, .set 5 7, .truncate 1]
    ⟨trivial, trivial, .inr ⟨by decide, .inr ⟨by decide, rfl⟩⟩, trivial⟩

theorem copy_drops_last : ¬∀ ops : List (Operation Nat),
    Correct (run ⟨[], 0, -1⟩ ⟨fun _ => none, 0, none⟩ ops).1
      (run ⟨[], 0, -1⟩ ⟨fun _ => none, 0, none⟩ ops).2 := by
  intro correct
  have wrong := (correct [.fromList [1, 2, 3] 0, .copyRwSubvector 0 1]).get 1
  exact absurd (Except.ok.inj wrong) (by decide)

end ExpandingRwVector

end Mythryl
