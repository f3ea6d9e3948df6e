import Mythryl.CoreMultiwordInt.Remainders
import Mythryl.CoreTwoWordInt.Order
import Mythryl.TaggedIntGuts.FromString
import Mythryl.TrialDivision

/-!
# Primes in the integer packages

`is_prime` and `factors` of `tagged_int`, `two_word_int` and `multiword_int`: the same loops over
three arithmetics, but `is_prime` of `multiword_int` has its own.
-/

namespace Mythryl.TaggedIntGuts
open TrialDivision

structure TaggedInt where
  val : ℤ
  ge : -2 ^ 30 ≤ val
  lt : val < 2 ^ 30

def arithmetic : Arithmetic Failure ℤ where
  lit n := n
  abs i := tagged |i|
  add i j := tagged (i + j)
  mul i j := tagged (i * j)
  div i j := if j = 0 then throw .divideByZero else tagged (i.fdiv j)
  mod i j := if j = 0 then throw .divideByZero else tagged (i.fmod j)
  lt i j := i < j
  gt i j := i > j
  ge i j := i ≥ j
  eq i j := i = j

def isPrime (fuel : Nat) (p : ℤ) : Option (Outcome Bool) := Loop.run arithmetic.test fuel (.start p)

def factors (fuel : Nat) (n : ℤ) : Option (Outcome (List ℤ)) :=
  Loop.run arithmetic.search fuel ⟨n, 2, []⟩

def Den (x : ℤ) (a : ℕ) : Prop := x = a ∧ a < 2 ^ 30

theorem tagged_den {a : ℕ} (fits : a < 2 ^ 30) : ∃ z, tagged a = .ok z ∧ Den z a :=
  ⟨a, tagged_ok (by omega), rfl, fits⟩

theorem operations_exact : arithmetic.Exact (· < 2 ^ 30) Den where
  down le lt := Nat.lt_of_le_of_lt le lt
  lit le := ⟨rfl, by omega⟩
  add := by
    intro x y a b ⟨ex, _⟩ ⟨ey, _⟩ fits
    have sum : ((a + b : ℕ) : ℤ) = x + y := by rw [ex, ey, Int.natCast_add]
    simp only [arithmetic, ← sum]
    exact tagged_den fits
  mul := by
    intro x y a b ⟨ex, _⟩ ⟨ey, _⟩ fits
    have product : ((a * b : ℕ) : ℤ) = x * y := by rw [ex, ey, Int.natCast_mul]
    simp only [arithmetic, ← product]
    exact tagged_den fits
  div := by
    intro x y a b ⟨ex, lt⟩ ⟨ey, _⟩ pos
    have zero : (b : ℤ) ≠ 0 := by omega
    have quotient : (a : ℤ).fdiv b = (a / b : ℕ) := by
      rw [Int.fdiv_eq_ediv_of_nonneg _ (by omega), Int.natCast_div]
    rw [ex, ey]
    simp only [arithmetic, zero, if_false, quotient]
    exact tagged_den ((Nat.div_le_self a b).trans_lt lt)
  mod := by
    intro x y a b ⟨ex, lt⟩ ⟨ey, _⟩ pos
    have zero : (b : ℤ) ≠ 0 := by omega
    have remainder : (a : ℤ).fmod b = (a % b : ℕ) := by
      rw [Int.fmod_eq_emod_of_nonneg _ (by omega), Int.natCast_mod]
    rw [ex, ey]
    simp only [arithmetic, zero, if_false, remainder]
    exact tagged_den ((Nat.mod_le a b).trans_lt lt)
  lt := by
    intro x y a b ⟨ex, _⟩ ⟨ey, _⟩
    simp [arithmetic, ex, ey]
  gt := by
    intro x y a b ⟨ex, _⟩ ⟨ey, _⟩
    simp [arithmetic, ex, ey]
  ge := by
    intro x y a b ⟨ex, _⟩ ⟨ey, _⟩
    simp [arithmetic, ex, ey]
  eq := by
    intro x y a b ⟨ex, _⟩ ⟨ey, _⟩
    simp [arithmetic, ex, ey]

end Mythryl.TaggedIntGuts

namespace Mythryl.TwoWordInt
open CoreMultiwordInt CoreTwoWordInt TrialDivision

def arithmetic : Arithmetic Failure TwoWord where
  lit := TwoWord.ofNat
  abs := abs64
  add := add64
  mul := mul64
  div := div64
  mod := mod64
  lt := lt64
  gt := gt64
  ge := ge64
  eq x y := x = y

def isPrime (fuel : Nat) (p : TwoWord) : Option (Outcome Bool) :=
  Loop.run arithmetic.test fuel (.start p)

def factors (fuel : Nat) (n : TwoWord) : Option (Outcome (List TwoWord)) :=
  Loop.run arithmetic.search fuel ⟨n, ⟨0, 2⟩, []⟩

def Den (x : TwoWord) (a : ℕ) : Prop := x = TwoWord.ofInt a ∧ a < 2 ^ 63

variable {a : ℕ}

theorem Den.exists {x : TwoWord} (den : Den x a) :
    ∃ w : TwoWordInt, w.toTwoWord = x ∧ w.toInt = a := by
  obtain ⟨rfl, lt⟩ := den
  exact ⟨.ofInt a, rfl, TwoWordInt.toInt_ofInt (by omega) (by omega)⟩

theorem Den.toInt_eq (x : TwoWord) (a : ℕ) (den : Den x a) : x.toInt = a := by
  obtain ⟨w, rfl, value⟩ := den.exists
  exact value

theorem checked_den {run : Outcome TwoWord} (checked : Checked run a) (fits : a < 2 ^ 63) :
    ∃ z, run = .ok z ∧ Den z a :=
  ⟨_, checked.range (by omega), rfl, fits⟩

theorem lt64_den {x y : TwoWord} {b : ℕ} (hx : Den x a) (hy : Den y b) :
    lt64 x y = decide (a < b) := by
  obtain ⟨v, rfl, hv⟩ := hx.exists
  obtain ⟨w, rfl, hw⟩ := hy.exists
  rw [lt64_eq v w (by omega), hv, hw]
  simp

theorem operations_exact : arithmetic.Exact (· < 2 ^ 63) Den where
  down le lt := Nat.lt_of_le_of_lt le lt
  lit := by
    intro a le
    exact ⟨TwoWord.ofNat_eq_ofInt rfl, by omega⟩
  add := by
    intro x y a b hx hy fits
    obtain ⟨v, rfl, hv⟩ := hx.exists
    obtain ⟨w, rfl, hw⟩ := hy.exists
    have sum := add64_checked v w
    rw [hv, hw, ← Int.natCast_add] at sum
    exact checked_den sum fits
  mul := by
    intro x y a b hx hy fits
    obtain ⟨v, rfl, hv⟩ := hx.exists
    obtain ⟨w, rfl, hw⟩ := hy.exists
    have product := mul64_checked v w
    rw [hv, hw, ← Int.natCast_mul] at product
    exact checked_den product fits
  div := by
    intro x y a b hx hy pos
    have lt := (Nat.div_le_self a b).trans_lt hx.2
    obtain ⟨v, rfl, hv⟩ := hx.exists
    obtain ⟨w, rfl, hw⟩ := hy.exists
    have quotient := div64_checked v w (by omega)
    rw [hv, hw, Int.fdiv_eq_ediv_of_nonneg _ (by omega), ← Int.natCast_div] at quotient
    exact checked_den quotient lt
  mod := by
    intro x y a b hx hy pos
    have lt := (Nat.mod_le a b).trans_lt hx.2
    obtain ⟨v, rfl, hv⟩ := hx.exists
    obtain ⟨w, rfl, hw⟩ := hy.exists
    have rounds : RoundsInRange v.toInt w.toInt := by
      rw [RoundsInRange, if_pos (by omega)]
      exact ⟨0, by omega, by omega⟩
    have remainder := mod64_ok v w (by omega) rounds
    rw [hv, hw, Int.fmod_eq_emod_of_nonneg _ (by omega), ← Int.natCast_mod] at remainder
    exact ⟨_, remainder, rfl, lt⟩
  lt := lt64_den
  gt := by
    intro x y a b hx hy
    exact lt64_den hy hx
  ge := by
    intro x y a b hx hy
    simp [arithmetic, ge64, lt64_den hx hy, ← decide_not]
  eq := by
    intro x y a b hx hy
    obtain ⟨v, rfl, hv⟩ := hx.exists
    obtain ⟨w, rfl, hw⟩ := hy.exists
    apply decide_eq_decide.mpr
    constructor
    · intro same
      rw [same] at hv
      omega
    · intro same
      rw [← v.ofInt_toInt, ← w.ofInt_toInt, hv, hw, same]

end Mythryl.TwoWordInt

namespace Mythryl.MultiwordIntGuts
open CoreMultiwordInt TrialDivision Loop

def arithmetic : Arithmetic Failure Rep where
  lit n := (MultiwordInt.ofInt n).rep
  abs x := return abs' x
  add := add
  mul x y := return mul x y
  div := div'
  mod := mod'
  lt := lt
  gt := gt
  ge := ge
  eq x y := x = y

def factors (fuel : Nat) (n : Rep) : Option (Outcome (List Rep)) :=
  Loop.run arithmetic.search fuel ⟨n, arithmetic.lit 2, []⟩

theorem lt_den {x y : Rep} {a b : ℕ} (hx : Denotes x a) (hy : Denotes y b) : lt x y = decide (a < b) := by
  rw [lt_eq hx.1 hy.1, hx.2, hy.2]
  simp

theorem operations_exact : arithmetic.Exact (fun _ => True) (fun x a => Denotes x a) where
  down _ _ := trivial
  lit := by
    intro a le
    exact ⟨(MultiwordInt.ofInt a).normal, MultiwordInt.toInt_ofInt a⟩
  add := by
    intro x y a b hx hy _
    have sum := add_returns hx.1 hy.1
    rw [hx.2, hy.2, ← Int.natCast_add] at sum
    exact sum
  mul := by
    intro x y a b hx hy _
    have product := mul_denotes hx.1 hy.1
    rw [hx.2, hy.2, ← Int.natCast_mul] at product
    exact ⟨_, rfl, product⟩
  div := by
    intro x y a b hx hy pos
    obtain ⟨q, r, run, hq, _⟩ := divMod'_returns hx.1 hy.1 (by rw [hy.2]; omega)
    rw [hx.2, hy.2, Int.fdiv_eq_ediv_of_nonneg _ (by omega), ← Int.natCast_div] at hq
    exact ⟨q, by simp [arithmetic, div', run, Except.map], hq⟩
  mod := by
    intro x y a b hx hy pos
    have nonzero : y.toInt ≠ 0 := by
      rw [hy.2]
      omega
    obtain ⟨q, r, run, _, hr⟩ := divMod'_returns hx.1 hy.1 nonzero
    rw [← Int.fmod_def, hx.2, hy.2, Int.fmod_eq_emod_of_nonneg _ (by omega), ← Int.natCast_mod] at hr
    exact ⟨r, by simp [arithmetic, mod'_eq hx.1 hy.1 nonzero, run, Except.map], hr⟩
  lt := lt_den
  gt := by
    intro x y a b hx hy
    exact lt_den hy hx
  ge := by
    intro x y a b hx hy
    simp [arithmetic, ge, lt_den hx hy, ← decide_not]
  eq := by
    intro x y a b hx hy
    apply decide_eq_decide.mpr
    constructor
    · intro same
      have values := hx.2
      rw [same, hy.2] at values
      omega
    · intro same
      rw [hx.eq_ofInt, hy.eq_ofInt, same]

inductive Halving
  | start (p : Rep)
  | loop (p lim i : Rep)

def halving : Halving → Outcome (Turn Halving Bool)
  | .start p => do
      let p ← arithmetic.abs p
      if arithmetic.lt p (arithmetic.lit 4) then return .done true
      else if arithmetic.eq (← arithmetic.mod p (arithmetic.lit 2)) (arithmetic.lit 0) then
        return .done true
      else return .next (.loop p (← arithmetic.div p (arithmetic.lit 2)) (arithmetic.lit 3))
  | .loop p lim i => do
      if arithmetic.eq i lim then return .done false
      else if arithmetic.eq (← arithmetic.mod p i) (arithmetic.lit 0) then return .done true
      else return .next (.loop p lim (← arithmetic.add i (arithmetic.lit 2)))

def isPrime (fuel : Nat) (p : Rep) : Option (Outcome Bool) := Loop.run halving fuel (.start p)

end Mythryl.MultiwordIntGuts

namespace Mythryl
open CoreMultiwordInt CoreTwoWordInt TrialDivision

theorem TaggedIntGuts.abs_den {i : ℤ} (ge : -2 ^ 30 < i) (lt : i < 2 ^ 30) :
    TaggedIntGuts.arithmetic.abs i = .ok |i| ∧ TaggedIntGuts.Den |i| i.natAbs :=
  ⟨TaggedIntGuts.tagged_ok (by rw [Int.abs_eq_natAbs]; omega), Int.abs_eq_natAbs i, by omega⟩

theorem TwoWordInt.abs_den (x : TwoWordInt) (ge : -2 ^ 63 < x.toInt) :
    ∃ z, TwoWordInt.arithmetic.abs x.toTwoWord = .ok z ∧ TwoWordInt.Den z x.toInt.natAbs := by
  have bounds := x.toInt_bounds
  simp only [TwoWordInt.arithmetic, abs64, isneg_eq, decide_eq_true_eq]
  split
  case isTrue neg =>
    have magnitude : -x.toInt = x.toInt.natAbs := by omega
    have negated := neg64_checked x
    rw [magnitude] at negated
    exact TwoWordInt.checked_den negated (by omega)
  case isFalse nonneg =>
    have magnitude : (x.toInt.natAbs : ℤ) = x.toInt := by omega
    exact ⟨_, rfl, by rw [magnitude, x.ofInt_toInt], by omega⟩

theorem lt_square {m l : ℕ} (one : l ≠ 1) (small : ¬(m.Prime ∧ l * l < m)) (prime : m.Prime) :
    m < l * l := by
  have le : m ≤ l * l := not_lt.mp fun lt => small ⟨prime, lt⟩
  have ne : m ≠ l * l := by
    rintro rfl
    exact Nat.not_prime_mul one one prime
  omega

/-- `is_prime` returns, and tells the primes and the numbers below 2 from the others, by the absolute
value. -/
def Judges {α : Type} (isPrime : Nat → α → Option (Outcome Bool)) (value : α → ℤ) (x : α) : Prop :=
  ∃ fuel, isPrime fuel x = some (.ok (decide ((value x).natAbs.Prime ∨ (value x).natAbs < 2)))

/-- `factors` returns the primes in ascending order whose product is the number. -/
def Factors {α : Type} (factors : Nat → α → Option (Outcome (List α))) (value : α → ℤ) (x : α) : Prop :=
  ∃ fuel fs, factors fuel x = some (.ok fs) ∧ ∃ ps : List ℕ, fs.map value = ps.map Nat.cast ∧
    ps.Pairwise (· ≤ ·) ∧ (∀ q ∈ ps, q.Prime) ∧ (ps.prod : ℤ) = value x

theorem map_value {α : Type} {den : α → ℕ → Prop} {value : α → ℤ} {fs : List α} {ps : List ℕ}
    (values : ∀ z a, den z a → value z = a) (dens : List.Forall₂ den fs ps) :
    fs.map value = ps.map Nat.cast := by
  induction dens with
  | nil => rfl
  | cons den dens ih => rw [List.map_cons, List.map_cons, values _ _ den, ih]

theorem factors_of_search {α : Type} {A : Arithmetic Failure α} {den : α → ℕ → Prop} {value : α → ℤ}
    {x y : α} {m : ℕ} (values : ∀ z a, den z a → value z = a) (hx : den x m)
    (ends : ∃ fs, Loop.Ends A.search ⟨x, y, []⟩ (.ok fs) ∧ Factorization den m fs) :
    Factors (fun fuel x => Loop.run A.search fuel ⟨x, y, []⟩) value x := by
  obtain ⟨fs, ⟨fuel, run⟩, ps, dens, ascending, primes, product⟩ := ends
  exact ⟨fuel, fs, run, ps, map_value values dens, ascending, primes, by rw [product, values _ _ hx]⟩

section FixedWidth

variable {α : Type} {A : Arithmetic Failure α} {den : α → ℕ → Prop} {value : α → ℤ} {limit l : ℕ} {x : α}

theorem judges_of_exact (exact : A.Exact (· < limit) den) (square : l * l < limit) (odd : l % 2 = 1)
    {z : α} (magnitude : A.abs x = .ok z) (hz : den z (value x).natAbs) (fits : (value x).natAbs < limit)
    (small : ¬((value x).natAbs.Prime ∧ l * l < (value x).natAbs)) :
    Judges (fun fuel x => Loop.run A.test fuel (.start x)) value x := by
  apply test_ends exact magnitude hz fits
  exact fun prime => ⟨l, odd, not_lt.mp fun lt => small ⟨prime, lt⟩, square⟩

theorem factors_of_exact (exact : A.Exact (· < limit) den) (square : l * l < limit) (one : l ≠ 1)
    (values : ∀ z a, den z a → value z = a) (hx : den x (value x).natAbs)
    (fits : (value x).natAbs < limit) (two : 2 ≤ value x) (four : 4 < limit)
    (small : ¬((value x).natAbs.Prime ∧ l * l < (value x).natAbs)) :
    Factors (fun fuel x => Loop.run A.search fuel ⟨x, A.lit 2, []⟩) value x := by
  apply factors_of_search values hx
  apply search_ends exact hx (by omega) fits four
  exact fun prime => ⟨l, lt_square one small prime, square⟩

end FixedWidth

/-- The loops of the packages find out what they are for, but for the primes whose root has a square
that does not fit, and for `is_prime` of `multiword_int`. -/
theorem primes_exact : (∀ n : TaggedIntGuts.TaggedInt, n.val ≠ -2 ^ 30 →
      ¬(n.val.natAbs.Prime ∧ 32767 * 32767 < n.val.natAbs) → Judges TaggedIntGuts.isPrime id n.val ∧
        (2 ≤ n.val → Factors TaggedIntGuts.factors id n.val)) ∧
    (∀ n : TwoWordInt, n.toInt ≠ -2 ^ 63 →
      ¬(n.toInt.natAbs.Prime ∧ 3037000499 * 3037000499 < n.toInt.natAbs) →
      Judges TwoWordInt.isPrime TwoWord.toInt n.toTwoWord ∧
        (2 ≤ n.toInt → Factors TwoWordInt.factors TwoWord.toInt n.toTwoWord)) ∧
    (∀ n : MultiwordInt, 2 ≤ n.toInt → Factors MultiwordIntGuts.factors Rep.toInt n.rep) := by
  refine ⟨fun n notLeast small => ⟨?_, fun two => ?_⟩, fun n notLeast small => ⟨?_, fun two => ?_⟩,
    fun n two => ?_⟩
  · have ge := n.ge
    have lt := n.lt
    obtain ⟨magnitude, den⟩ := TaggedIntGuts.abs_den (show -2 ^ 30 < n.val by omega) lt
    exact judges_of_exact TaggedIntGuts.operations_exact (show 32767 * 32767 < 2 ^ 30 by decide) rfl
      magnitude den den.2 small
  · have lt := n.lt
    have den : TaggedIntGuts.Den n.val n.val.natAbs := ⟨by omega, by omega⟩
    exact factors_of_exact TaggedIntGuts.operations_exact (show 32767 * 32767 < 2 ^ 30 by decide)
      (by decide) (fun _ _ den => den.1) den den.2 two (by decide) small
  · have bounds := n.toInt_bounds
    obtain ⟨z, magnitude, den⟩ := TwoWordInt.abs_den n (by omega)
    exact judges_of_exact TwoWordInt.operations_exact
      (show 3037000499 * 3037000499 < 2 ^ 63 by decide) rfl magnitude den den.2 small
  · have bounds := n.toInt_bounds
    have magnitude : (n.toInt.natAbs : ℤ) = n.toInt := by omega
    have den : TwoWordInt.Den n.toTwoWord n.toInt.natAbs :=
      ⟨by rw [magnitude, n.ofInt_toInt], by omega⟩
    exact factors_of_exact TwoWordInt.operations_exact
      (show 3037000499 * 3037000499 < 2 ^ 63 by decide) (by decide) TwoWordInt.Den.toInt_eq den den.2
      two (by decide) small
  · have den : Denotes n.rep n.toInt.natAbs := ⟨n.normal, by rw [MultiwordInt.toInt] at two ⊢; omega⟩
    have values (z : Rep) (a : ℕ) (holds : Denotes z a) : z.toInt = a := holds.2
    apply factors_of_search values den
    apply search_ends MultiwordIntGuts.operations_exact den (by omega) trivial trivial
    exact fun _ => ⟨n.toInt.natAbs + 1, by nlinarith, trivial⟩

theorem primes_exact_seven : Judges TaggedIntGuts.isPrime id 7 ∧
    Judges TwoWordInt.isPrime TwoWord.toInt ⟨0, 7⟩ ∧ Factors MultiwordIntGuts.factors Rep.toInt ⟨false, [7]⟩ := by
  have prime : ¬(Nat.Prime 7 ∧ 32767 * 32767 < 7) := by decide
  have value : TwoWord.toInt ⟨0, 7⟩ = 7 := by decide
  have prime' : ¬((TwoWord.toInt ⟨0, 7⟩).natAbs.Prime ∧
      3037000499 * 3037000499 < (TwoWord.toInt ⟨0, 7⟩).natAbs) := by
    rw [value]
    decide
  exact ⟨(primes_exact.1 ⟨7, by decide, by decide⟩ (by decide) prime).1,
    (primes_exact.2.1 ⟨⟨0, 7⟩, by decide, by decide⟩ (by decide) prime').1,
    primes_exact.2.2 ⟨⟨false, [7]⟩, ⟨by decide, by decide⟩, by decide⟩ (by decide)⟩

theorem isPrime_one_four : TaggedIntGuts.isPrime 1 1 = some (.ok true) ∧ ¬Nat.Prime 1 ∧
    MultiwordIntGuts.isPrime 1 ⟨false, [4]⟩ = some (.ok true) ∧ ¬Nat.Prime 4 := by
  exact ⟨by decide, by decide, by decide, by decide⟩

end Mythryl
