import Mythryl.CoreMultiwordInt.Conversions

/-!
# Two-word arithmetic

`core_two_word_int` and `core_two_word_unt`: signed and unsigned arithmetic on pairs of one-word
words.
-/

namespace Mythryl.CoreMultiwordInt

def div' (x y : Rep) : Outcome Rep := (divMod' x y).map Prod.fst

end Mythryl.CoreMultiwordInt

namespace Mythryl.CoreTwoWordInt
open Nat Numeral CoreMultiwordInt

def neg64 : TwoWord → Outcome TwoWord
  | ⟨0x80000000, 0⟩ => throw .overflow
  | ⟨hi, 0⟩ => return ⟨u32neg hi, 0⟩
  | ⟨hi, lo⟩ => return ⟨u32notb hi, u32neg lo⟩

def negbit (hi : Nat) : Nat := u32andb hi 0x80000000

def isneg (hi : Nat) : Bool := negbit hi != 0

def add64 (x y : TwoWord) : Outcome TwoWord :=
  let hi := u32add x.hi y.hi
  let lo := u32add x.lo y.lo
  let hi := if lo < x.lo then u32add hi 1 else hi
  let nb1 := negbit x.hi
  if nb1 ≠ negbit y.hi ∨ nb1 = negbit hi then return ⟨hi, lo⟩ else throw .overflow

def sub64 (x y : TwoWord) : Outcome TwoWord :=
  let hi := u32sub x.hi y.hi
  let lo := u32sub x.lo y.lo
  let hi := if x.lo < lo then u32sub hi 1 else hi
  let nb1 := negbit x.hi
  if nb1 = negbit y.hi ∨ nb1 = negbit hi then return ⟨hi, lo⟩ else throw .overflow

def mul64 (x y : TwoWord) : Outcome TwoWord := testInf64 (mul (extendInf64 x) (extendInf64 y))

def div64 : TwoWord → TwoWord → Outcome TwoWord
  | _, ⟨0, 0⟩ => throw .divideByZero
  | x, ⟨0, 1⟩ => return x
  | x, ⟨0xffffffff, 0xffffffff⟩ => neg64 x
  | x, y => do return truncInf64 (← div' (extendInf64 x) (extendInf64 y))

def mod64 (x y : TwoWord) : Outcome TwoWord := do sub64 x (← mul64 (← div64 x y) y)

end Mythryl.CoreTwoWordInt

namespace Mythryl.CoreTwoWordUnt
open CoreMultiwordInt

def split16 (w32 : Nat) : Nat × Nat := (u32rshiftl w32 16, u32andb w32 0xffff)

def add64 (x y : TwoWord) : TwoWord :=
  let lo := u32add x.lo y.lo
  let hi := u32add x.hi y.hi
  ⟨if lo < x.lo then u32add hi 1 else hi, lo⟩

def sub64 (x y : TwoWord) : TwoWord :=
  let lo := u32sub x.lo y.lo
  let hi := u32sub x.hi y.hi
  ⟨if x.lo < lo then u32sub hi 1 else hi, lo⟩

def mul64 (x y : TwoWord) : TwoWord :=
  let (a1, b1) := split16 x.hi
  let (c1, d1) := split16 x.lo
  let (a2, b2) := split16 y.hi
  let (c2, d2) := split16 y.lo
  let dd := u32mul d1 d2
  let (cd, dc) := (u32mul c1 d2, u32mul d1 c2)
  let (bd, cc, db) := (u32mul b1 d2, u32mul c1 c2, u32mul d1 b2)
  let (ad, bc, cb, da) := (u32mul a1 d2, u32mul b1 c2, u32mul c1 b2, u32mul d1 a2)
  let diag0 := dd
  let diag1 := u32add cd dc
  let diag1carry := if diag1 < cd then 0x10000 else 0
  let diag2 := u32add (u32add bd cc) db
  let diag3 := u32add (u32add (u32add ad bc) cb) da
  let lo := u32add diag0 (u32lshift diag1 16)
  let locarry := if lo < diag0 then 1 else 0
  let hi := u32add (u32add (u32add (u32add (u32rshiftl diag1 16) diag2) (u32lshift diag3 16))
    locarry) diag1carry
  ⟨hi, lo⟩

open Nat Numeral

section Words

variable (x y : TwoWordInt)

theorem add64_eq : add64 x.toTwoWord y.toTwoWord = TwoWord.ofNat (x.toNat + y.toNat) := by
  obtain ⟨⟨hi1, lo1⟩, hhi1, hlo1⟩ := x
  obtain ⟨⟨hi2, lo2⟩, hhi2, hlo2⟩ := y
  simp only at hhi1 hlo1 hhi2 hlo2
  have low : u32add lo1 lo2 = (lo1 + lo2) % 2 ^ 32 := rfl
  have lt : u32add lo1 lo2 < 2 ^ 32 := Nat.mod_lt _ (by decide)
  rw [add64]
  split
  case isTrue carry =>
    simp only at carry
    have sum : lo1 + lo2 = 2 ^ 32 + u32add lo1 lo2 := by omega
    have top : u32add (u32add hi1 hi2) 1 = (hi1 + hi2 + 1) % 2 ^ 32 := Nat.mod_add_mod ..
    rw [top, TwoWord.mk_mod _ lt]
    apply congrArg TwoWord.ofNat
    simp only [TwoWord.toNat]
    omega
  case isFalse none =>
    simp only at none
    have sum : lo1 + lo2 = u32add lo1 lo2 := by omega
    have top : u32add hi1 hi2 = (hi1 + hi2) % 2 ^ 32 := rfl
    rw [top, TwoWord.mk_mod _ lt]
    apply congrArg TwoWord.ofNat
    simp only [TwoWord.toNat]
    omega

theorem sub64_eq : sub64 x.toTwoWord y.toTwoWord = TwoWord.ofInt (x.toNat - y.toNat) := by
  obtain ⟨⟨hi1, lo1⟩, hhi1, hlo1⟩ := x
  obtain ⟨⟨hi2, lo2⟩, hhi2, hlo2⟩ := y
  simp only at hhi1 hlo1 hhi2 hlo2
  have diff {m n : Nat} (lt : n < 2 ^ 32) : u32sub m n = (m + (2 ^ 32 - n)) % 2 ^ 32 := by
    rw [u32sub, Word.sub, Nat.mod_eq_of_lt lt]
  have low := diff (m := lo1) hlo2
  have lt : u32sub lo1 lo2 < 2 ^ 32 := Nat.mod_lt _ (by decide)
  rw [sub64]
  split
  case isTrue borrow =>
    simp only at borrow
    have sum : lo1 + 2 ^ 32 = lo2 + u32sub lo1 lo2 := by omega
    have top : u32sub (u32sub hi1 hi2) 1 = (hi1 + (2 ^ 32 - hi2) + (2 ^ 32 - 1)) % 2 ^ 32 := by
      rw [diff (by decide), diff hhi2, Nat.mod_add_mod]
    rw [top, TwoWord.mk_mod _ lt]
    apply TwoWord.ofNat_eq_ofInt_of_add 2
    simp only [TwoWord.toNat]
    omega
  case isFalse none =>
    simp only at none
    have sum : lo1 = lo2 + u32sub lo1 lo2 := by omega
    rw [diff hhi2, TwoWord.mk_mod _ lt]
    apply TwoWord.ofNat_eq_ofInt_of_add 1
    simp only [TwoWord.toNat]
    omega

end Words

theorem exists_halves {w32 : Nat} (lt : w32 < 2 ^ 32) :
    ∃ m n, m < 2 ^ 16 ∧ n < 2 ^ 16 ∧ w32 = m * 2 ^ 16 + n ∧ split16 w32 = (m, n) := by
  apply Exists.intro (w32 / 2 ^ 16)
  apply Exists.intro (w32 % 2 ^ 16)
  have low : u32andb w32 0xffff = w32 % 2 ^ 16 := u32andb_mask w32 16
  simp only [split16, u32rshiftl_eq, low, and_true]
  omega

theorem halves_lt {m n : Nat} (hm : m < 2 ^ 16) (hn : n < 2 ^ 16) : m * n ≤ (2 ^ 16 - 1) * (2 ^ 16 - 1) :=
  Nat.mul_le_mul (by omega) (by omega)

theorem u32mul_eq {m n : Nat} (hm : m < 2 ^ 16) (hn : n < 2 ^ 16) : u32mul m n = m * n := by
  have le := halves_lt hm hn
  exact Word.mul_eq (by omega)

theorem diagonals_eq {dd cd dc : Nat} (hdd : dd < 2 ^ 32) (hcd : cd < 2 ^ 32) (hdc : dc < 2 ^ 32) :
    u32add dd (u32lshift (u32add cd dc) 16) = (dd + (cd + dc) * 2 ^ 16) % 2 ^ 32 ∧
    u32rshiftl (u32add cd dc) 16 + (if u32add cd dc < cd then 0x10000 else 0) +
      (if u32add dd (u32lshift (u32add cd dc) 16) < dd then 1 else 0) =
      (dd + (cd + dc) * 2 ^ 16) / 2 ^ 32 := by
  have shifted : u32lshift (u32add cd dc) 16 = 2 ^ 16 * (u32add cd dc % 2 ^ 16) :=
    u32lshift_eq _ (by decide)
  have dropped : u32rshiftl (u32add cd dc) 16 = u32add cd dc / 2 ^ 16 := u32rshiftl_eq _ 16
  have sum : cd + dc = (if u32add cd dc < cd then 2 ^ 32 else 0) + u32add cd dc := by
    rw [u32add, Word.add]
    split <;> omega
  have halves := Nat.div_add_mod' (u32add cd dc) (2 ^ 16)
  have small := Nat.mod_lt (u32add cd dc) (show 0 < 2 ^ 16 by decide)
  rw [shifted, dropped]
  generalize u32add cd dc / 2 ^ 16 = h at *
  generalize u32add cd dc % 2 ^ 16 = l at *
  have whole : dd + (cd + dc) * 2 ^ 16 =
      dd + 2 ^ 16 * l + 2 ^ 32 * (h + if u32add cd dc < cd then 0x10000 else 0) := by
    split at sum <;> rename_i carry <;> simp only [carry, if_true, if_false] <;> omega
  have low : u32add dd (2 ^ 16 * l) = (dd + 2 ^ 16 * l) % 2 ^ 32 := rfl
  rw [whole, Nat.add_mul_mod_self_left, Nat.add_mul_div_left _ _ (by decide)]
  have carry : (if u32add dd (2 ^ 16 * l) < dd then 1 else 0) = (dd + 2 ^ 16 * l) / 2 ^ 32 := by
    split <;> omega
  exact ⟨low, by rw [carry, Nat.add_comm]⟩

theorem columns_eq (shifted bd cc db ad bc cb da carry1 carry2 : Nat) :
    u32add (u32add (u32add (u32add shifted (u32add (u32add bd cc) db))
      (u32lshift (u32add (u32add (u32add ad bc) cb) da) 16)) carry1) carry2 =
    (shifted + carry2 + carry1 + (bd + cc + db + (ad + bc + cb + da) * 2 ^ 16)) % 2 ^ 32 := by
  rw [u32lshift_eq _ (by decide)]
  simp only [u32add, Word.add, Nat.mod_add_mod, Nat.add_mod_mod]
  generalize ad + bc + cb + da = high
  omega

theorem product_of_halves (a1 b1 c1 d1 a2 b2 c2 d2 : Nat) :
    ((a1 * 2 ^ 16 + b1) * 2 ^ 32 + (c1 * 2 ^ 16 + d1)) *
      ((a2 * 2 ^ 16 + b2) * 2 ^ 32 + (c2 * 2 ^ 16 + d2)) =
    (a1 * a2 * 2 ^ 32 + (a1 * b2 + b1 * a2) * 2 ^ 16 + (a1 * c2 + b1 * b2 + c1 * a2)) * 2 ^ 64 +
      (b1 * d2 + c1 * c2 + d1 * b2 + (a1 * d2 + b1 * c2 + c1 * b2 + d1 * a2) * 2 ^ 16) * 2 ^ 32 +
      (d1 * d2 + (c1 * d2 + d1 * c2) * 2 ^ 16) := by
  ring

theorem ofNat_parts (beyond above below : Nat) :
    TwoWord.ofNat (beyond * 2 ^ 64 + above * 2 ^ 32 + below) =
      ⟨(below / 2 ^ 32 + above) % 2 ^ 32, below % 2 ^ 32⟩ := by
  rw [TwoWord.ofNat, TwoWord.mk.injEq]
  omega

theorem mul64_eq (x y : TwoWordInt) :
    mul64 x.toTwoWord y.toTwoWord = TwoWord.ofNat (x.toNat * y.toNat) := by
  obtain ⟨⟨hi1, lo1⟩, hhi1, hlo1⟩ := x
  obtain ⟨⟨hi2, lo2⟩, hhi2, hlo2⟩ := y
  simp only at hhi1 hlo1 hhi2 hlo2
  obtain ⟨a1, b1, ha1, hb1, ehi1, shi1⟩ := exists_halves hhi1
  obtain ⟨c1, d1, hc1, hd1, elo1, slo1⟩ := exists_halves hlo1
  obtain ⟨a2, b2, ha2, hb2, ehi2, shi2⟩ := exists_halves hhi2
  obtain ⟨c2, d2, hc2, hd2, elo2, slo2⟩ := exists_halves hlo2
  have dd := halves_lt hd1 hd2
  have cd := halves_lt hc1 hd2
  have dc := halves_lt hd1 hc2
  obtain ⟨low, carried⟩ := diagonals_eq (Nat.lt_of_le_of_lt dd (by decide))
    (Nat.lt_of_le_of_lt cd (by decide)) (Nat.lt_of_le_of_lt dc (by decide))
  simp only [TwoWord.toNat]
  rw [mul64, shi1, slo1, shi2, slo2, ehi1, elo1, ehi2, elo2, product_of_halves]
  simp only [u32mul_eq, hb1, hc1, hd1, ha2, hb2, hc2, hd2, ha1]
  rw [columns_eq, carried, low]
  exact (ofNat_parts ..).symm

end Mythryl.CoreTwoWordUnt

namespace Mythryl.CoreTwoWordInt
open Nat Numeral CoreMultiwordInt

def Checked (run : Outcome TwoWord) (i : ℤ) : Prop :=
  run = if -2 ^ 63 ≤ i ∧ i < 2 ^ 63 then .ok (TwoWord.ofInt i) else .error .overflow

theorem negbit_eq {hi : Nat} (lt : hi < 2 ^ 32) : negbit hi = if hi < 2 ^ 31 then 0 else 2 ^ 31 := by
  have bit : negbit hi = (hi.testBit 31).toNat * 2 ^ 31 := Nat.and_two_pow hi 31
  rw [bit, Nat.testBit_eq_decide_div_mod_eq]
  split
  case isTrue low =>
    have none : hi / 2 ^ 31 % 2 ≠ 1 := by omega
    rw [decide_eq_false none]
    rfl
  case isFalse high =>
    have top : hi / 2 ^ 31 % 2 = 1 := by omega
    rw [decide_eq_true top]
    rfl

theorem negbit_eq_negbit_iff {hi1 hi2 : Nat} (h1 : hi1 < 2 ^ 32) (h2 : hi2 < 2 ^ 32) :
    negbit hi1 = negbit hi2 ↔ (hi1 < 2 ^ 31 ↔ hi2 < 2 ^ 31) := by
  rw [negbit_eq h1, negbit_eq h2]
  split
  case isTrue low => by_cases low' : hi2 < 2 ^ 31 <;> simp only [low, low'] <;> decide
  case isFalse high => by_cases low' : hi2 < 2 ^ 31 <;> simp only [high, low'] <;> decide

theorem hi_ofInt_lt (i : ℤ) : (TwoWord.ofInt i).hi < 2 ^ 32 := Nat.mod_lt _ (by decide)

theorem hi_ofInt_lt_iff (i : ℤ) : (TwoWord.ofInt i).hi < 2 ^ 31 ↔ i % 2 ^ 64 < 2 ^ 63 := by
  simp only [TwoWord.ofInt, TwoWord.ofNat]
  omega

theorem checked_of_signs {s : TwoWord} {i : ℤ} {test : Prop} [Decidable test]
    (words : s = TwoWord.ofInt i) (signs : test ↔ -2 ^ 63 ≤ i ∧ i < 2 ^ 63) :
    Checked (if test then .ok s else .error .overflow) i := by
  rw [Checked, words]
  simp only [signs]

section Words

variable (x y : TwoWordInt)

theorem hi_lt_iff : x.hi < 2 ^ 31 ↔ 0 ≤ x.toInt := by
  obtain ⟨⟨hi, lo⟩, hhi, hlo⟩ := x
  simp only at hhi hlo
  simp only [TwoWord.toInt, TwoWord.toNat]
  split <;> omega

theorem toNat_emod : (x.toNat : ℤ) % 2 ^ 64 = x.toInt % 2 ^ 64 := by
  rw [TwoWord.toInt]
  split
  · rfl
  · exact (Int.sub_emod_right ..).symm

theorem toInt_eq_least_iff : x.toInt = -2 ^ 63 ↔ x.toTwoWord = ⟨0x80000000, 0⟩ := by
  obtain ⟨⟨hi, lo⟩, hhi, hlo⟩ := x
  simp only [TwoWord.toInt, TwoWord.toNat, TwoWord.mk.injEq]
  split <;> omega

theorem neg64_words : CoreMultiwordInt.neg64 x.toTwoWord = TwoWord.ofInt (-x.toInt) := by
  have negated := CoreMultiwordInt.neg64_eq x.toNat
  rw [x.ofNat_toNat] at negated
  rw [negated, TwoWord.ofInt, TwoWord.ofInt, ← zero_sub, ← zero_sub x.toInt, Int.sub_emod,
    toNat_emod, ← Int.sub_emod]

theorem neg64_checked : Checked (neg64 x.toTwoWord) (-x.toInt) := by
  have bounds := x.toInt_bounds
  have words := neg64_words x
  have least := toInt_eq_least_iff x
  unfold neg64
  split
  case h_1 same =>
    have min := least.mpr same
    rw [Checked, if_neg (by omega)]
    rfl
  case h_2 hi notLeast whole =>
    have other : x.toInt ≠ -2 ^ 63 := by
      rw [Ne, least, whole, TwoWord.mk.injEq]
      exact fun same => notLeast same.1
    rw [Checked, if_pos (by omega), ← words, whole]
    rfl
  case h_3 hi lo notLeast notWhole both =>
    have other : x.toInt ≠ -2 ^ 63 := by
      rw [Ne, least, both, TwoWord.mk.injEq]
      exact fun same => notWhole same.2
    rw [Checked, if_pos (by omega), ← words, both]
    cases lo
    case zero => exact absurd rfl notWhole
    case succ lo => rfl

theorem add64_checked : Checked (add64 x.toTwoWord y.toTwoWord) (x.toInt + y.toInt) := by
  have hx := x.toInt_bounds
  have hy := y.toInt_bounds
  have words : CoreTwoWordUnt.add64 x.toTwoWord y.toTwoWord = TwoWord.ofInt (x.toInt + y.toInt) := by
    rw [CoreTwoWordUnt.add64_eq]
    apply TwoWord.ofNat_eq_ofInt
    rw [Nat.cast_add, Int.add_emod, toNat_emod, toNat_emod, ← Int.add_emod]
  apply checked_of_signs words
  change _ ∨ negbit x.hi = negbit (CoreTwoWordUnt.add64 x.toTwoWord y.toTwoWord).hi ↔ _
  rw [words, Ne, negbit_eq_negbit_iff x.hi_lt y.hi_lt, negbit_eq_negbit_iff x.hi_lt (hi_ofInt_lt _),
    hi_ofInt_lt_iff, hi_lt_iff, hi_lt_iff]
  omega

theorem sub64_checked : Checked (sub64 x.toTwoWord y.toTwoWord) (x.toInt - y.toInt) := by
  have hx := x.toInt_bounds
  have hy := y.toInt_bounds
  have words : CoreTwoWordUnt.sub64 x.toTwoWord y.toTwoWord = TwoWord.ofInt (x.toInt - y.toInt) := by
    rw [CoreTwoWordUnt.sub64_eq, TwoWord.ofInt, TwoWord.ofInt, Int.sub_emod, toNat_emod,
      toNat_emod, ← Int.sub_emod]
  apply checked_of_signs words
  change _ ∨ negbit x.hi = negbit (CoreTwoWordUnt.sub64 x.toTwoWord y.toTwoWord).hi ↔ _
  rw [words, negbit_eq_negbit_iff x.hi_lt y.hi_lt, negbit_eq_negbit_iff x.hi_lt (hi_ofInt_lt _),
    hi_ofInt_lt_iff, hi_lt_iff, hi_lt_iff]
  omega

theorem arithmetic_exact : (Checked (add64 x.toTwoWord y.toTwoWord) (x.toInt + y.toInt) ∧
      Checked (sub64 x.toTwoWord y.toTwoWord) (x.toInt - y.toInt) ∧
      Checked (neg64 x.toTwoWord) (-x.toInt)) ∧
    (CoreTwoWordUnt.add64 x.toTwoWord y.toTwoWord = TwoWord.ofNat (x.toNat + y.toNat) ∧
      CoreTwoWordUnt.sub64 x.toTwoWord y.toTwoWord = TwoWord.ofInt (x.toNat - y.toNat) ∧
      CoreTwoWordUnt.mul64 x.toTwoWord y.toTwoWord = TwoWord.ofNat (x.toNat * y.toNat)) :=
  ⟨⟨add64_checked x y, sub64_checked x y, neg64_checked x⟩,
    CoreTwoWordUnt.add64_eq x y, CoreTwoWordUnt.sub64_eq x y, CoreTwoWordUnt.mul64_eq x y⟩

variable {i a b : ℤ}

theorem Checked.range {run : Outcome TwoWord} (checked : Checked run i)
    (range : -2 ^ 63 ≤ i ∧ i < 2 ^ 63) : run = .ok (TwoWord.ofInt i) := by
  rw [checked, if_pos range]

theorem Checked.overflow {run : Outcome TwoWord} (checked : Checked run i)
    (range : ¬(-2 ^ 63 ≤ i ∧ i < 2 ^ 63)) : run = .error .overflow := by
  rw [checked, if_neg range]

theorem mul64_checked : Checked (mul64 x.toTwoWord y.toTwoWord) (x.toInt * y.toInt) := by
  obtain ⟨hx, vx⟩ := extendInf64_denotes x
  obtain ⟨hy, vy⟩ := extendInf64_denotes y
  obtain ⟨normal, value⟩ := mul_denotes hx hy
  have tested := testInf64_eq ⟨_, normal⟩
  rw [vx, vy] at value
  rw [Checked, mul64, tested, MultiwordInt.toInt, value]

theorem ediv_range (ge : -2 ^ 63 ≤ a) (le : a ≤ 2 ^ 63) (two : 2 ≤ b) :
    -2 ^ 63 ≤ a / b ∧ a / b < 2 ^ 63 := by
  have pos : 0 < b := by omega
  rw [Int.le_ediv_iff_mul_le pos, Int.ediv_lt_iff_lt_mul pos]
  constructor <;> nlinarith

theorem fdiv_range (ge : -2 ^ 63 ≤ a) (lt : a < 2 ^ 63) (zero : b ≠ 0) (one : b ≠ 1)
    (minusOne : b ≠ -1) : -2 ^ 63 ≤ a.fdiv b ∧ a.fdiv b < 2 ^ 63 := by
  rcases Int.lt_or_gt_of_ne zero with neg | pos
  · rw [← Int.neg_fdiv_neg, Int.fdiv_eq_ediv_of_nonneg _ (by omega)]
    exact ediv_range (by omega) (by omega) (by omega)
  · rw [Int.fdiv_eq_ediv_of_nonneg _ (by omega)]
    exact ediv_range ge (by omega) (by omega)

theorem eq_ofInt_of_toInt (value : y.toInt = i) : y.toTwoWord = TwoWord.ofInt i := by
  rw [← value, y.ofInt_toInt]

theorem div64_checked (nonzero : y.toInt ≠ 0) :
    Checked (div64 x.toTwoWord y.toTwoWord) (x.toInt.fdiv y.toInt) := by
  have bounds := x.toInt_bounds
  unfold div64
  split
  case h_1 zero =>
    rw [TwoWord.toInt, zero] at nonzero
    exact absurd rfl nonzero
  case h_2 _ one =>
    have value : y.toInt = 1 := by rw [TwoWord.toInt, one]; rfl
    rw [value, Int.fdiv_one, Checked, if_pos bounds, x.ofInt_toInt]
    rfl
  case h_3 _ minusOne =>
    have value : y.toInt = -1 := by rw [TwoWord.toInt, minusOne]; rfl
    have negated : x.toInt.fdiv (-1) = -x.toInt := by
      rw [← Int.neg_fdiv_neg, neg_neg, Int.fdiv_one]
    rw [value, negated]
    exact neg64_checked x
  case h_4 notZero notOne notMinusOne =>
    have range : -2 ^ 63 ≤ x.toInt.fdiv y.toInt ∧ x.toInt.fdiv y.toInt < 2 ^ 63 := by
      apply fdiv_range bounds.1 bounds.2 nonzero
      · exact fun one => notOne (eq_ofInt_of_toInt y one)
      · exact fun minusOne => notMinusOne (eq_ofInt_of_toInt y minusOne)
    obtain ⟨hx, vx⟩ := extendInf64_denotes x
    obtain ⟨hy, vy⟩ := extendInf64_denotes y
    obtain ⟨q, r, run, ⟨hq, vq⟩, _⟩ := divMod'_returns hx hy (by rwa [vy])
    rw [vx, vy] at vq
    rw [Checked, if_pos range, div', run, ← vq, Rep.toInt_eq, ← truncInf64_eq hq.digits]
    rfl

/-- Some multiple of the divisor lies between the dividend and the end of the range that the floor
rounds to. -/
def RoundsInRange (x y : ℤ) : Prop :=
  if 0 < y then ∃ k, -2 ^ 63 ≤ k * y ∧ k * y ≤ x
  else (∃ k, x ≤ k * y ∧ k * y < 2 ^ 63) ∧ ¬(x = -2 ^ 63 ∧ y = -1)

theorem fdiv_overflow_iff (ge : -2 ^ 63 ≤ a) (lt : a < 2 ^ 63) (nonzero : b ≠ 0) :
    ¬(-2 ^ 63 ≤ a.fdiv b ∧ a.fdiv b < 2 ^ 63) ↔ a = -2 ^ 63 ∧ b = -1 := by
  by_cases one : b = 1
  · rw [one, Int.fdiv_one]
    omega
  · by_cases minusOne : b = -1
    · rw [minusOne, ← Int.neg_fdiv_neg, neg_neg, Int.fdiv_one]
      omega
    · have range := fdiv_range ge lt nonzero one minusOne
      omega

def Remainder (r b : ℤ) : Prop := (0 < b → 0 ≤ r ∧ r < b) ∧ (b < 0 → b < r ∧ r ≤ 0)

theorem fmod_remainder (a b : ℤ) : Remainder (a.fmod b) b := by
  constructor
  · exact fun pos => ⟨Int.fmod_nonneg_of_pos a pos, Int.fmod_lt_of_pos a pos⟩
  · intro neg
    have turned : (-a).fmod (-b) = -a.fmod b := Int.neg_fmod_neg a b
    have ge := Int.fmod_nonneg_of_pos (-a) (show 0 < -b by omega)
    have lt := Int.fmod_lt_of_pos (-a) (show 0 < -b by omega)
    omega

theorem le_fdiv_of_mul_le {k : ℤ} (pos : 0 < b) (le : k * b ≤ a) : k ≤ a.fdiv b := by
  rw [Int.fdiv_eq_ediv_of_nonneg _ pos.le]
  exact (Int.le_ediv_iff_mul_le pos).mpr le

theorem roundsInRange_iff (ge : -2 ^ 63 ≤ a) (lt : a < 2 ^ 63) (nonzero : b ≠ 0) :
    RoundsInRange a b ↔ (-2 ^ 63 ≤ a.fdiv b ∧ a.fdiv b < 2 ^ 63) ∧
      (-2 ^ 63 ≤ a.fdiv b * b ∧ a.fdiv b * b < 2 ^ 63) := by
  have quotient := fdiv_overflow_iff ge lt nonzero
  have whole := Int.fmod_add_fdiv_mul a b
  obtain ⟨pos, neg⟩ := fmod_remainder a b
  rw [RoundsInRange]
  split
  case isTrue positive =>
    constructor
    · intro ⟨k, low, high⟩
      have most := mul_le_mul_of_nonneg_right (le_fdiv_of_mul_le positive high) positive.le
      omega
    · exact fun range => ⟨a.fdiv b, range.2.1, by omega⟩
  case isFalse notPositive =>
    have negative : b < 0 := by omega
    constructor
    · intro ⟨⟨k, low, high⟩, other⟩
      have least : k ≤ (-a).fdiv (-b) := le_fdiv_of_mul_le (by omega) (by rw [mul_neg]; omega)
      rw [Int.neg_fdiv_neg] at least
      have most := mul_le_mul_of_nonpos_right least negative.le
      omega
    · exact fun range => ⟨⟨a.fdiv b, by omega, range.2.2⟩, by omega⟩

theorem mul64_ofInt {q : ℤ} (range : -2 ^ 63 ≤ q ∧ q < 2 ^ 63) :
    Checked (mul64 (TwoWord.ofInt q) y.toTwoWord) (q * y.toInt) := by
  have checked := mul64_checked (.ofInt q) y
  rwa [TwoWordInt.toInt_ofInt range.1 range.2] at checked

theorem sub64_ofInt {p : ℤ} (range : -2 ^ 63 ≤ p ∧ p < 2 ^ 63) :
    Checked (sub64 x.toTwoWord (TwoWord.ofInt p)) (x.toInt - p) := by
  have checked := sub64_checked x (.ofInt p)
  rwa [TwoWordInt.toInt_ofInt range.1 range.2] at checked

theorem remainder_range {r : ℤ} (nonzero : y.toInt ≠ 0) (remainder : Remainder r y.toInt) :
    -2 ^ 63 ≤ r ∧ r < 2 ^ 63 := by
  have bounds := y.toInt_bounds
  obtain ⟨pos, neg⟩ := remainder
  omega

theorem mod64_ok (nonzero : y.toInt ≠ 0) (fits : RoundsInRange x.toInt y.toInt) :
    mod64 x.toTwoWord y.toTwoWord = .ok (TwoWord.ofInt (x.toInt.fmod y.toInt)) := by
  have bounds := x.toInt_bounds
  obtain ⟨quotient, product⟩ := (roundsInRange_iff bounds.1 bounds.2 nonzero).mp fits
  have divided := (div64_checked x y nonzero).range quotient
  have multiplied := (mul64_ofInt y quotient).range product
  have subtracted := sub64_ofInt x product
  rw [Int.mul_comm, ← Int.fmod_def] at subtracted
  rw [mod64, divided, ok_bind, multiplied, ok_bind, Int.mul_comm]
  exact subtracted.range (remainder_range y nonzero (fmod_remainder _ _))

theorem mod64_overflow (nonzero : y.toInt ≠ 0) (fits : ¬RoundsInRange x.toInt y.toInt) :
    mod64 x.toTwoWord y.toTwoWord = .error .overflow := by
  have bounds := x.toInt_bounds
  rw [roundsInRange_iff bounds.1 bounds.2 nonzero] at fits
  have divided := div64_checked x y nonzero
  by_cases quotient : -2 ^ 63 ≤ x.toInt.fdiv y.toInt ∧ x.toInt.fdiv y.toInt < 2 ^ 63
  · have product := fun range => fits ⟨quotient, range⟩
    rw [mod64, divided.range quotient, ok_bind, (mul64_ofInt y quotient).overflow product, error_bind]
  · rw [mod64, divided.overflow quotient, error_bind]

theorem div64_eq (nonzero : y.toInt ≠ 0) : div64 x.toTwoWord y.toTwoWord =
    if x.toInt = -2 ^ 63 ∧ y.toInt = -1 then .error .overflow
    else .ok (TwoWord.ofInt (x.toInt.fdiv y.toInt)) := by
  have bounds := x.toInt_bounds
  have divided := div64_checked x y nonzero
  have outside := fdiv_overflow_iff bounds.1 bounds.2 nonzero
  split
  case isTrue worst => exact divided.overflow (outside.mpr worst)
  case isFalse other => exact divided.range (not_not.mp (mt outside.mp other))

theorem div64_mod64_exact_iff (nonzero : y.toInt ≠ 0) : ((div64 x.toTwoWord y.toTwoWord =
        if x.toInt = -2 ^ 63 ∧ y.toInt = -1 then .error .overflow
        else .ok (TwoWord.ofInt (x.toInt.fdiv y.toInt))) ∧
      ∃ r : TwoWordInt, mod64 x.toTwoWord y.toTwoWord = .ok r.toTwoWord ∧
        r.toInt = x.toInt - y.toInt * x.toInt.fdiv y.toInt ∧ Remainder r.toInt y.toInt) ↔
    RoundsInRange x.toInt y.toInt := by
  constructor
  · intro ⟨_, r, returned, _⟩
    by_contra outside
    rw [mod64_overflow x y nonzero outside] at returned
    cases returned
  · intro fits
    have remainder := fmod_remainder x.toInt y.toInt
    have range := remainder_range y nonzero remainder
    apply And.intro (div64_eq x y nonzero)
    apply Exists.intro (.ofInt (x.toInt.fmod y.toInt))
    rw [TwoWordInt.toInt_ofInt range.1 range.2]
    exact ⟨mod64_ok x y nonzero fits, Int.fmod_def _ _, remainder⟩

end Words

theorem div64_mod64_exact_seven :
    ∃ r : TwoWordInt, mod64 ⟨0, 7⟩ ⟨0xffffffff, 0xfffffffe⟩ = .ok r.toTwoWord ∧ r.toInt = -1 := by
  have fits : RoundsInRange 7 (-2) := by
    rw [RoundsInRange, if_neg (by decide)]
    exact ⟨⟨-4, by decide, by decide⟩, by decide⟩
  have seven : TwoWord.toInt ⟨0, 7⟩ = 7 := by decide
  have minusTwo : TwoWord.toInt ⟨0xffffffff, 0xfffffffe⟩ = -2 := by decide
  have exact := div64_mod64_exact_iff ⟨⟨0, 7⟩, by decide, by decide⟩
    ⟨⟨0xffffffff, 0xfffffffe⟩, by decide, by decide⟩ (by decide)
  simp only [seven, minusTwo] at exact
  obtain ⟨_, r, returned, value, _⟩ := exact.mpr fits
  exact ⟨r, returned, value⟩

theorem mod64_least_three : mod64 ⟨0x80000000, 0⟩ ⟨0, 3⟩ = .error .overflow := by decide +kernel

end Mythryl.CoreTwoWordInt
