import Mathlib.Data.Int.Bitwise
import Mathlib.Tactic.Linarith
import Mathlib.Tactic.Ring

/-!
# Two's complement

The infinite two's-complement expansion of an integer, cut into digits of `k` bits.
-/

namespace TwosComplement

variable {f : Bool → Bool → Bool}

theorem bit_split {a : Nat} {k : Nat} (lt : a < 2 ^ (k + 1)) (x : ℤ) :
    ∃ b r, r < 2 ^ k ∧ a = Nat.bit b r ∧
      (a : ℤ) + 2 ^ (k + 1) * x = Int.bit b ((r : ℤ) + 2 ^ k * x) := by
  refine ⟨a.bodd, a.div2, ?_, (Nat.bit_bodd_div2 a).symm, ?_⟩
  · rw [Nat.div2_val]
    omega
  · have eq := Nat.bit_bodd_div2 a
    conv_lhs => rw [← eq]
    rw [Nat.bit_val, Int.bit_val, pow_succ]
    cases a.bodd <;> simp <;> ring

theorem bitwise_split (hf : f false false = false) {k a b : Nat} (ha : a < 2 ^ k) (hb : b < 2 ^ k)
    (x y : ℤ) :
    Int.bitwise f (a + 2 ^ k * x) (b + 2 ^ k * y) = Nat.bitwise f a b + 2 ^ k * Int.bitwise f x y := by
  induction k generalizing a b with
  | zero =>
    obtain rfl : a = 0 := by omega
    obtain rfl : b = 0 := by omega
    simp
  | succ k ih =>
    obtain ⟨p, r, hr, eqa, ha⟩ := bit_split ha x
    obtain ⟨q, s, hs, eqb, hb⟩ := bit_split hb y
    rw [ha, hb, Int.bitwise_bit, ih hr hs, eqa, eqb, Nat.bitwise_bit hf, Int.bit_val, Nat.bit_val]
    cases f p q <;> simp [pow_succ] <;> ring

theorem bitwise_sign (hf : f false false = false) (p q : Bool) :
    Int.bitwise f (if p then -1 else 0) (if q then -1 else 0) = if f p q then -1 else 0 := by
  have neg : (-1 : ℤ) = Int.negSucc 0 := rfl
  have zero : (0 : ℤ) = ((0 : Nat) : ℤ) := rfl
  cases p <;> cases q <;>
    simp only [Bool.false_eq_true, if_true, if_false, neg, zero, Int.bitwise, Int.natBitwise,
      Nat.bitwise_zero, Bool.not_false, hf, cond_false]
  all_goals split <;> simp_all

def Fits (k : Nat) (x : ℤ) : Prop := -2 ^ k ≤ x ∧ x < 2 ^ k

variable {k : Nat} {x y : ℤ}

theorem Fits.split (h : Fits k x) :
    ∃ a : Nat, a < 2 ^ k ∧ x % 2 ^ k = a ∧ x = a + 2 ^ k * (if x < 0 then -1 else 0) := by
  have cast : ((2 ^ k : Nat) : ℤ) = 2 ^ k := by push_cast; rfl
  by_cases neg : x < 0
  · have low : x % 2 ^ k = x + 2 ^ k := by
      rw [← Int.add_mul_emod_self_left x (2 ^ k) 1, mul_one]
      exact Int.emod_eq_of_lt (by linarith [h.1]) (by linarith)
    refine ⟨(x + 2 ^ k).toNat, by have := h.1; omega, by have := h.1; omega, ?_⟩
    rw [if_pos neg]
    omega
  · refine ⟨x.toNat, by have := h.2; omega, ?_, ?_⟩
    · rw [Int.emod_eq_of_lt (by omega) h.2]
      omega
    · rw [if_neg neg]
      omega

theorem bitwise_fits (hf : f false false = false) (hx : Fits k x) (hy : Fits k y) :
    Int.bitwise f x y = Nat.bitwise f (x % 2 ^ k).toNat (y % 2 ^ k).toNat +
      2 ^ k * (if f (decide (x < 0)) (decide (y < 0)) then -1 else 0) := by
  obtain ⟨a, ha, lowx, eqx⟩ := hx.split
  obtain ⟨b, hb, lowy, eqy⟩ := hy.split
  have signs := bitwise_sign hf (decide (x < 0)) (decide (y < 0))
  simp only [decide_eq_true_eq] at signs
  have split := bitwise_split hf ha hb (if x < 0 then -1 else 0) (if y < 0 then -1 else 0)
  rw [← eqx, ← eqy, signs] at split
  rw [split, lowx, lowy, Int.toNat_natCast, Int.toNat_natCast]

theorem emod_split {a b m c : ℤ} (nonneg : 0 ≤ a) (lt : a < b) (pos : 0 < m) :
    (a + b * c) % (b * m) = a + b * (c % m) := by
  have low := Int.emod_nonneg c (ne_of_gt pos)
  have high := Int.emod_lt_of_pos c pos
  have split : a + b * c = a + b * (c % m) + b * m * (c / m) := by
    conv_lhs => rw [← Int.emod_add_mul_ediv c m]
    ring
  rw [split, Int.add_mul_emod_self_left]
  refine Int.emod_eq_of_lt (add_nonneg nonneg (mul_nonneg (by linarith) low)) ?_
  calc a + b * (c % m) < b * (c % m + 1) := by linarith
    _ ≤ b * m := mul_le_mul_of_nonneg_left high (by linarith)

def complement (s : Bool) (b : Nat) (v : ℤ) : ℤ := if s then -v - b else v

end TwosComplement
