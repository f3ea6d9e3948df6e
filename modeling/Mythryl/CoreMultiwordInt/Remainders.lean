import Mythryl.CoreMultiwordInt.Division

/-!
# Remainders on their own

`mod'` and `rem'` of `src/lib/core/init/core-multiword-int.pkg` give the remainders of `div_mod'`
and `quot_rem'`.
-/

namespace Mythryl.CoreMultiwordInt
open Nat Numeral

def mod' : Rep → Rep → Outcome Rep
  | ⟨_, []⟩, _ => return zero
  | ⟨_, low :: _⟩, ⟨negative, [2]⟩ =>
      if u31andb low 1 = 0 then return zero else return ⟨negative, [1]⟩
  | x, y => (divMod' x y).map Prod.snd

def rem' : Rep → Rep → Outcome Rep
  | ⟨_, []⟩, _ => return zero
  | ⟨negative, low :: _⟩, ⟨_, [2]⟩ =>
      if u31andb low 1 = 0 then return zero else return ⟨negative, [1]⟩
  | x, y => (quotRem' x y).map Prod.snd

theorem andb_one (low : Nat) (ds : List Nat) : u31andb low 1 = value (low :: ds) % 2 := by
  have mask : u31andb low 1 = low % 2 := u31andb_mask low 1
  rw [mask, value_cons, show base = 2 * 536870912 from rfl, Nat.mul_assoc, Nat.add_mul_mod_self_left]

theorem parity_denotes (negative : Bool) (low : Nat) (ds : List Nat) :
    ∃ r, (if u31andb low 1 = 0 then return zero else return ⟨negative, [1]⟩ : Outcome Rep) = .ok r ∧
      Denotes r (signed negative (value (low :: ds) % 2)) := by
  rw [andb_one low ds]
  split
  case isTrue even =>
    refine ⟨zero, rfl, ?_⟩
    rw [even]
    convert zero_denotes using 1
    cases negative <;> rfl
  case isFalse odd =>
    have one : value (low :: ds) % 2 = 1 := by omega
    refine ⟨⟨negative, [1]⟩, rfl, ?_⟩
    rw [one]
    exact ⟨⟨digits_singleton (by decide) (by decide), by simp⟩, rfl⟩

theorem fmod_two (sx sy : Bool) (m : Nat) :
    (signed sx m).fmod (signed sy 2) = signed sy (m % 2) := by
  have plain (i : ℤ) : i.fmod 2 = i % 2 := Int.fmod_eq_emod_of_nonneg i (by decide)
  have turned (i : ℤ) : i.fmod (-2) = -(-i % 2) := by
    rw [← plain, ← Int.neg_fmod_neg, neg_neg]
  cases sx <;> cases sy <;> simp only [signed, Bool.false_eq_true, if_false, if_true]
  · change (m : ℤ).fmod 2 = _
    rw [plain]
    rfl
  · change (m : ℤ).fmod (-2) = _
    rw [turned]
    omega
  · change (-m : ℤ).fmod 2 = _
    rw [plain]
    omega
  · change (-m : ℤ).fmod (-2) = _
    rw [turned]
    omega

theorem ReturnsPair.snd_eq {run : Outcome (Rep × Rep)} {q i : ℤ} (returns : ReturnsPair run q i)
    {r : Rep} (den : Denotes r i) : run.map Prod.snd = .ok r := by
  obtain ⟨x, y, rfl, _, denY⟩ := returns
  rw [Except.map, den.eq_ofInt, denY.eq_ofInt]

variable {x y : Rep}

theorem mod'_eq (hx : x.Normal) (hy : y.Normal) (nonzero : y.toInt ≠ 0) :
    mod' x y = (divMod' x y).map Prod.snd := by
  have returns := divMod'_returns hx hy nonzero
  rw [← Int.fmod_def] at returns
  obtain ⟨sx, _ | ⟨low, ds⟩⟩ := x
  · have none : Rep.toInt ⟨sx, []⟩ = 0 := by cases sx <;> rfl
    rw [none, Int.zero_fmod] at returns
    exact (returns.snd_eq zero_denotes).symm
  · by_cases two : y.digits = [2]
    · obtain ⟨sy, dy⟩ := y
      cases two
      obtain ⟨r, run, den⟩ := parity_denotes sy low ds
      rw [Rep.toInt_eq, Rep.toInt_eq ⟨sy, [2]⟩, show value [2] = 2 from rfl, fmod_two] at returns
      rw [returns.snd_eq den, ← run]
      rfl
    · unfold mod'
      split
      case h_1 => simp_all
      case h_2 => exact absurd rfl two
      case h_3 => rfl

theorem rem'_eq (hx : x.Normal) (hy : y.Normal) (nonzero : y.toInt ≠ 0) :
    rem' x y = (quotRem' x y).map Prod.snd := by
  have returns := quotRem'_returns hx hy nonzero
  rw [← Int.tmod_def] at returns
  obtain ⟨sx, _ | ⟨low, ds⟩⟩ := x
  · have none : Rep.toInt ⟨sx, []⟩ = 0 := by cases sx <;> rfl
    rw [none, Int.zero_tmod] at returns
    exact (returns.snd_eq zero_denotes).symm
  · by_cases two : y.digits = [2]
    · obtain ⟨sy, dy⟩ := y
      cases two
      obtain ⟨r, run, den⟩ := parity_denotes sx low ds
      rw [Rep.toInt_eq, Rep.toInt_eq ⟨sy, [2]⟩, show value [2] = 2 from rfl,
        (tdiv_tmod_signed sx sy _ 2).2] at returns
      rw [returns.snd_eq den, ← run]
      rfl
    · unfold rem'
      split
      case h_1 => simp_all
      case h_2 => exact absurd rfl two
      case h_3 => rfl

structure Agree (m n : MultiwordInt) : Prop where
  mod : mod' m.rep n.rep = (divMod' m.rep n.rep).map Prod.snd
  rem : rem' m.rep n.rep = (quotRem' m.rep n.rep).map Prod.snd
  mod_raises : mod' m.rep n.rep = .error .divideByZero ↔ n.toInt = 0
  rem_raises : rem' m.rep n.rep = .error .divideByZero ↔ n.toInt = 0

theorem MultiwordInt.digits_eq_nil_iff (n : MultiwordInt) : n.rep.digits = [] ↔ n.toInt = 0 := by
  rw [n.normal.digits.eq_nil_iff base_pos, toInt, ← Int.natAbs_eq_zero, ← value_digits]

theorem ReturnsPair.ne_error {run : Outcome (Rep × Rep)} {q i : ℤ} (returns : ReturnsPair run q i)
    (e : Failure) : run.map Prod.snd ≠ .error e := by
  obtain ⟨x, y, rfl, _⟩ := returns
  rintro ⟨⟩

theorem remainders_agree_iff (m n : MultiwordInt) : Agree m n ↔ ¬(m.toInt = 0 ∧ n.toInt = 0) := by
  by_cases divisor : n.toInt = 0
  · have digits := n.digits_eq_nil_iff.mpr divisor
    by_cases dividend : m.toInt = 0
    · -- The dividend zero is returned as the remainder before the divisor is looked at.
      have digits' := m.digits_eq_nil_iff.mpr dividend
      refine iff_of_false (fun agree => ?_) (not_not.mpr ⟨dividend, divisor⟩)
      have raises := agree.mod_raises.mpr divisor
      obtain ⟨⟨sx, dx⟩, hx⟩ := m
      cases digits'
      cases raises
    · refine iff_of_true ?_ fun both => dividend both.1
      have digits' := mt m.digits_eq_nil_iff.mp dividend
      obtain ⟨⟨sx, _ | ⟨low, ds⟩⟩, hx⟩ := m
      · exact absurd rfl digits'
      obtain ⟨⟨sy, dy⟩, hy⟩ := n
      cases digits
      exact ⟨rfl, rfl, iff_of_true rfl divisor, iff_of_true rfl divisor⟩
  · refine iff_of_true ?_ fun both => divisor both.2
    have mod := mod'_eq m.normal n.normal divisor
    have rem := rem'_eq m.normal n.normal divisor
    refine ⟨mod, rem, ?_, ?_⟩
    · rw [mod]
      exact iff_of_false ((divMod'_returns m.normal n.normal divisor).ne_error _) divisor
    · rw [rem]
      exact iff_of_false ((quotRem'_returns m.normal n.normal divisor).ne_error _) divisor

theorem zero_mod_zero : ∃ m : MultiwordInt, m.toInt = 0 ∧ mod' m.rep m.rep = .ok zero ∧
    divMod' m.rep m.rep = .error .divideByZero ∧ ¬Agree m m := by
  refine ⟨⟨zero, zero_denotes.1⟩, rfl, rfl, rfl, fun agree => ?_⟩
  cases agree.mod

end Mythryl.CoreMultiwordInt
