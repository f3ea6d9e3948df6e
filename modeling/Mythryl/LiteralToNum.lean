import Mythryl.CoreTwoWordInt.Arithmetic

/-!
# Literals of fixed size

`src/lib/compiler/src/stuff/literal-to-num.pkg`.
-/

namespace Mythryl.LiteralToNum
open CoreMultiwordInt

def two8 : MultiwordInt := .ofInt 0x100
def two31 : MultiwordInt := .ofInt 0x80000000
def two32 : MultiwordInt := .ofInt 0x100000000
def two64 : MultiwordInt := .ofInt 0x10000000000000000
def int2Min : MultiwordInt := .ofInt (-0x8000000000000000)
def int2Max : MultiwordInt := .ofInt 0x7fffffffffffffff

/-- The compiler's conversion to `bits` bits: `trunc_inf`, and of its word the low bits. -/
def truncUnt (bits : Nat) (i : Rep) : Nat := i32toW32 (truncInf i) % 2 ^ bits

def twowords (i : Rep) : Outcome TwoWord := do
  return ⟨truncUnt 32 (← div' i two32.rep), truncUnt 32 i⟩

def negtwowords (x : TwoWord) : TwoWord :=
  let x' := u32notb x.hi
  let y' := u32notb x.lo
  let y'' := u32add y' 1
  ⟨if y'' = 0 then u32add x' 1 else x', y''⟩

def twoWordInt (i : Rep) : Outcome TwoWord :=
  if lt i int2Min.rep || gt i int2Max.rep then throw .overflow
  else if lt i zero then do return negtwowords (← twowords (neg i))
  else twowords i

def below {α : Type} (limit : MultiwordInt) (convert : Rep → Outcome α) (i : Rep) : Outcome α :=
  if lt i zero || ge i limit.rep then throw .overflow else convert i

def oneByteUnt : Rep → Outcome Nat := below two8 fun i => .ok (trunc32To31 (truncUnt 8 i))
def unt : Rep → Outcome Nat := below two31 fun i => .ok (truncUnt 31 i)
def oneWordUnt : Rep → Outcome Nat := below two32 fun i => .ok (truncUnt 32 i)
def twoWordUnt : Rep → Outcome TwoWord := below two64 twowords

variable {i : Rep}

theorem truncUnt_eq (bits : Nat) (i : MultiwordInt) :
    truncUnt bits i.rep = (i.toInt % 2 ^ 32).toNat % 2 ^ bits := by
  rw [truncUnt, truncInf_eq, i32toW32]
  congr 2
  exact Int.bmod_emod

theorem twowords_eq (i : MultiwordInt) : twowords i.rep = .ok (TwoWord.ofInt i.toInt) := by
  obtain ⟨q, r, run, quotient, -⟩ := divMod'_returns i.normal two32.normal (by decide)
  have two : two32.rep.toInt = 2 ^ 32 := MultiwordInt.toInt_ofInt _
  rw [two, Int.fdiv_eq_ediv_of_nonneg _ (by decide)] at quotient
  have div : div' i.rep two32.rep = .ok (MultiwordInt.ofInt (i.rep.toInt / 2 ^ 32)).rep := by
    rw [div', run, ← quotient.eq_ofInt]
    rfl
  have low : (i.toInt % 2 ^ 32).toNat < 2 ^ 32 := by omega
  simp only [twowords, div, ok_bind, pure_eq, truncUnt_eq, MultiwordInt.toInt_ofInt,
    Except.ok.injEq, Nat.mod_eq_of_lt low]
  rw [TwoWord.mk_mod _ low]
  change TwoWord.ofNat ((i.toInt / 2 ^ 32 % 2 ^ 32).toNat * 2 ^ 32 + _) = _
  have upper := Int.mul_ediv_add_emod (i.toInt / 2 ^ 32) (2 ^ 32)
  apply TwoWord.ofNat_eq_ofInt_of_add (-(i.toInt / 2 ^ 32 / 2 ^ 32))
  rw [Nat.cast_add, Nat.cast_mul, Int.toNat_of_nonneg (Int.emod_nonneg _ (by decide)),
    Int.toNat_of_nonneg (Int.emod_nonneg _ (by decide))]
  generalize i.toInt / 2 ^ 32 / 2 ^ 32 = q at *
  generalize i.toInt / 2 ^ 32 % 2 ^ 32 = high at *
  omega

theorem negtwowords_words {x : TwoWord} (hhi : x.hi < 2 ^ 32) (hlo : x.lo < 2 ^ 32) :
    negtwowords x = CoreMultiwordInt.neg64 x := by
  obtain ⟨hi, lo⟩ := x
  simp only at hhi hlo
  cases lo with
  | zero =>
    have top : u32add (u32notb hi) 1 = u32neg hi := by
      rw [u32add, u32notb, Word.add, u32neg, Word.sub, Nat.mod_eq_of_lt hhi]
      congr 1
      omega
    have low : u32add (u32notb 0) 1 = 0 := rfl
    simp only [negtwowords, low, if_true]
    exact congrArg (TwoWord.mk · 0) top
  | succ lo =>
    have low : u32add (u32notb (lo + 1)) 1 = 2 ^ 32 - (lo + 1) := by
      rw [u32add, u32notb, Word.add, Nat.mod_eq_of_lt (by omega)]
      omega
    have low' : u32neg (lo + 1) = 2 ^ 32 - (lo + 1) := by
      rw [u32neg, Word.sub, Nat.mod_eq_of_lt hlo, Nat.mod_eq_of_lt (by omega), zero_add]
    have flipped : CoreMultiwordInt.neg64 ⟨hi, lo + 1⟩ = ⟨u32notb hi, u32neg (lo + 1)⟩ := rfl
    simp only [negtwowords, low]
    rw [if_neg (by omega), flipped, low']

theorem negtwowords_eq (n : ℤ) : negtwowords (TwoWord.ofInt n) = TwoWord.ofInt (-n) := by
  have words := negtwowords_words (x := TwoWord.ofInt n) (Nat.mod_lt _ (by decide))
    (Nat.mod_lt _ (by decide))
  have residue : ((n % 2 ^ 64).toNat : ℤ) = n % 2 ^ 64 :=
    Int.toNat_of_nonneg (Int.emod_nonneg _ (by decide))
  rw [words, TwoWord.ofInt, CoreMultiwordInt.neg64_eq, residue, TwoWord.ofInt, TwoWord.ofInt,
    ← zero_sub, ← zero_sub n, Int.sub_emod, Int.emod_emod, ← Int.sub_emod]

theorem lt_rep (x y : MultiwordInt) : lt x.rep y.rep = decide (x.toInt < y.toInt) :=
  lt_eq x.normal y.normal

theorem lt_zero (x : MultiwordInt) : lt x.rep zero = decide (x.toInt < 0) :=
  lt_eq x.normal zero_denotes.1

theorem below_eq {α : Type} {n : Nat} {limit : MultiwordInt} (bound : limit.toInt = 2 ^ n)
    (convert : Rep → Outcome α) (i : MultiwordInt) : below limit convert i.rep =
      if 0 ≤ i.toInt ∧ i.toInt < 2 ^ n then convert i.rep else .error .overflow := by
  simp only [below, lt_zero, ge, lt_rep, bound]
  by_cases inside : 0 ≤ i.toInt ∧ i.toInt < 2 ^ n
  · simp [inside]
  · rw [if_neg inside, if_pos]
    · rfl
    · simp only [not_and, not_lt] at inside
      simp only [Bool.or_eq_true, decide_eq_true_eq, Bool.not_eq_true', decide_eq_false_iff_not,
        not_lt]
      exact (lt_or_ge i.toInt 0).imp_right inside

theorem twoWordInt_eq (i : MultiwordInt) : twoWordInt i.rep =
    if -2 ^ 63 ≤ i.toInt ∧ i.toInt < 2 ^ 63 then .ok (TwoWord.ofInt i.toInt)
    else .error .overflow := by
  have low : int2Min.toInt = -2 ^ 63 := MultiwordInt.toInt_ofInt _
  have high : int2Max.toInt = 2 ^ 63 - 1 := MultiwordInt.toInt_ofInt _
  have negated : twowords (neg i.rep) = .ok (TwoWord.ofInt (-i.toInt)) := by
    rw [(neg_denotes i.normal).eq_ofInt, twowords_eq, MultiwordInt.toInt_ofInt]
    rfl
  simp only [twoWordInt, lt_rep, gt, lt_zero, low, high, negated, twowords_eq, ok_bind, pure_eq,
    negtwowords_eq, neg_neg, ite_self]
  by_cases inside : -2 ^ 63 ≤ i.toInt ∧ i.toInt < 2 ^ 63
  · rw [if_pos inside, if_neg]
    simp only [Bool.or_eq_true, decide_eq_true_eq]
    omega
  · rw [if_neg inside, if_pos]
    · rfl
    · simp only [Bool.or_eq_true, decide_eq_true_eq]
      omega

theorem truncUnt_of_lt {bits : Nat} {i : MultiwordInt} (le : bits ≤ 32) (nonneg : 0 ≤ i.toInt)
    (lt : i.toInt < 2 ^ bits) : (truncUnt bits i.rep : ℤ) = i.toInt := by
  have power : (2 : ℤ) ^ bits ≤ 2 ^ 32 := pow_le_pow_right₀ (by decide) le
  rw [truncUnt_eq, Int.emod_eq_of_lt nonneg (by omega), Int.natCast_mod,
    Int.toNat_of_nonneg nonneg]
  exact Int.emod_eq_of_lt nonneg (by exact_mod_cast lt)

theorem narrow_eq {n : Nat} (le : n ≤ 32) {limit : MultiwordInt} (bound : limit.toInt = 2 ^ n)
    {convert : Rep → Nat} (same : convert = truncUnt n) (i : MultiwordInt) :
    below limit (fun i => .ok (convert i)) i.rep =
      if 0 ≤ i.toInt ∧ i.toInt < 2 ^ n then .ok i.toInt.toNat else .error .overflow := by
  rw [below_eq bound]
  apply if_ctx_congr Iff.rfl
  · intro inside
    have value := truncUnt_of_lt le inside.1 inside.2
    rw [same]
    exact congrArg Except.ok (by omega)
  · exact fun _ => rfl

theorem literals_exact (i : MultiwordInt) :
    (twoWordInt i.rep = if -2 ^ 63 ≤ i.toInt ∧ i.toInt < 2 ^ 63 then .ok (TwoWord.ofInt i.toInt)
      else .error .overflow) ∧
    (twoWordUnt i.rep = if 0 ≤ i.toInt ∧ i.toInt < 2 ^ 64 then .ok (TwoWord.ofNat i.toInt.toNat)
      else .error .overflow) ∧
    (oneWordUnt i.rep = if 0 ≤ i.toInt ∧ i.toInt < 2 ^ 32 then .ok i.toInt.toNat
      else .error .overflow) ∧
    (unt i.rep = if 0 ≤ i.toInt ∧ i.toInt < 2 ^ 31 then .ok i.toInt.toNat
      else .error .overflow) ∧
    (oneByteUnt i.rep = if 0 ≤ i.toInt ∧ i.toInt < 2 ^ 8 then .ok i.toInt.toNat
      else .error .overflow) ∧
    (0 ≤ i.toInt → i.toInt < 2 ^ 64 → ((TwoWord.ofNat i.toInt.toNat).toNat : ℤ) = i.toInt) := by
  have bound8 : two8.toInt = 2 ^ 8 := (MultiwordInt.toInt_ofInt _).trans (by norm_num)
  have bound31 : two31.toInt = 2 ^ 31 := (MultiwordInt.toInt_ofInt _).trans (by norm_num)
  have bound32 : two32.toInt = 2 ^ 32 := (MultiwordInt.toInt_ofInt _).trans (by norm_num)
  have bound64 : two64.toInt = 2 ^ 64 := (MultiwordInt.toInt_ofInt _).trans (by norm_num)
  refine ⟨twoWordInt_eq i, ?_, narrow_eq le_rfl bound32 rfl i,
    narrow_eq (by decide) bound31 rfl i, narrow_eq (by decide) bound8 ?_ i, ?_⟩
  · rw [twoWordUnt, below_eq bound64]
    apply if_ctx_congr Iff.rfl
    · intro inside
      rw [twowords_eq, TwoWord.ofInt, Int.emod_eq_of_lt inside.1 inside.2]
    · exact fun _ => rfl
  · funext i
    exact Nat.mod_eq_of_lt (Nat.lt_trans (Nat.mod_lt _ (by decide)) (by decide))
  · intro nonneg lt
    simp only [TwoWord.ofNat, TwoWord.toNat]
    omega

end Mythryl.LiteralToNum
