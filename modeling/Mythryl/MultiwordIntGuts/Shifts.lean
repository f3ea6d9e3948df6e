import Mythryl.MultiwordIntGuts.Format

/-!
# Shifts

`lshift` and `rshift` of `src/lib/std/src/multiword-int-guts.pkg` shift the magnitude and keep the
sign.
-/

namespace Mythryl.MultiwordIntGuts
open Nat Numeral CoreMultiwordInt

def pad : Nat → List Nat → List Nat
  | 0, xs => xs
  | n + 1, xs => pad n (0 :: xs)

def shiftUp (bits : Nat) : List Nat → Nat → List Nat
  | [], 0 => []
  | [], carry => [carry]
  | x :: xs, carry =>
      let bits' := baseBits - bits
      let digit := u31andb (u31orb (u31lshift x bits) carry) maxDigit
      let carry' := u31rshiftl x bits'
      digit :: shiftUp bits xs carry'

def lshift (i : Rep) (w : Nat) : Rep :=
  match i.digits with
  | [] => i
  | digits =>
      let bytes := w / baseBits
      let bits := w % baseBits
      ⟨i.negative, if bits = 0 then pad bytes digits else pad bytes (shiftUp bits digits 0)⟩

theorem pad_spec (n : Nat) {ds : List Nat} (h : Digits ds) (pos : 0 < value ds) :
    Digits (pad n ds) ∧ value (pad n ds) = value ds * base ^ n := by
  induction n generalizing ds with
  | zero => exact ⟨h, by simp [pad]⟩
  | succ n ih =>
    have eq : value (0 :: ds) = base * value ds := by simp [value_cons]
    have pos' : 0 < value (0 :: ds) := by
      rw [eq]
      exact Nat.mul_pos base_pos pos
    obtain ⟨digits, val⟩ := ih (Digits.cons base_pos h pos') pos'
    refine ⟨digits, ?_⟩
    rw [pad, val, eq]
    ring

section
variable {b s : Nat}

theorem carry_up (split : b + s = 30) {c : Nat} (room : c < 2 ^ b) (x : Nat) :
    u31andb (u31orb (u31lshift x b) c) maxDigit = 2 ^ b * (x % 2 ^ s) + c := by
  have inner : x % 2 ^ (31 - b) % 2 ^ s = x % 2 ^ s := by
    rw [show 31 - b = s + 1 by omega, pow_succ, Nat.mod_mul_right_mod]
  rw [show maxDigit = 2 ^ 30 - 1 from rfl, u31andb_mask, u31lshift_eq _ (by omega), u31orb_eq room,
    show 2 ^ 30 = 2 ^ b * 2 ^ s by rw [← pow_add, split], Nat.mod_mul, Nat.mul_add_mod, Nat.mod_eq_of_lt room,
    Nat.mul_add_div (by positivity), Nat.div_eq_of_lt room, Nat.add_zero, inner, Nat.add_comm]

theorem shiftUp_spec (split : b + s = 30) {ds : List Nat} (h : Digits ds) {c : Nat}
    (room : c < 2 ^ b) :
    Digits (shiftUp b ds c) ∧ value (shiftUp b ds c) = value ds * 2 ^ b + c := by
  have radix := base_split split
  induction ds generalizing c with
  | nil =>
    cases c with
    | zero => exact ⟨normal_nil, by simp [shiftUp]⟩
    | succ c =>
      have lt : c + 1 < base := by
        rw [radix]
        exact room.trans_le (Nat.le_mul_of_pos_right _ (by positivity))
      exact ⟨digits_singleton (Nat.succ_pos c) lt, by simp [shiftUp]⟩
  | cons x xs ih =>
    have bits' : baseBits - b = s := by rw [show baseBits = 30 from rfl]; omega
    have handed : x / 2 ^ s < 2 ^ b := by
      rw [Nat.div_lt_iff_lt_mul (by positivity), ← radix]
      exact h.head_lt
    obtain ⟨digits, val⟩ := ih h.tail handed
    have kept : 2 ^ b * (x % 2 ^ s) + c < base := by
      have low : x % 2 ^ s + 1 ≤ 2 ^ s := Nat.mod_lt _ (by positivity)
      have := Nat.mul_le_mul_left (2 ^ b) low
      rw [radix]
      linarith
    have total : value ((2 ^ b * (x % 2 ^ s) + c) :: shiftUp b xs (x / 2 ^ s)) =
        value (x :: xs) * 2 ^ b + c := by
      rw [value_cons, value_cons, val, radix]
      conv_rhs => rw [← Nat.div_add_mod x (2 ^ s)]
      ring
    simp only [shiftUp, bits', u31rshiftl_eq, carry_up split room]
    refine ⟨Digits.cons kept digits ?_, total⟩
    rw [total]
    have pos := h.value_cons_pos
    positivity

end

theorem lshift_denotes (negative : Bool) {ds : List Nat} (h : Digits ds) (ne : ds ≠ []) (w : Nat) :
    Denotes (lshift ⟨negative, ds⟩ w) (signed negative (value ds * 2 ^ w)) := by
  have power : 2 ^ w = 2 ^ (w % 30) * base ^ (w / 30) := by
    conv_lhs => rw [← Nat.mod_add_div w 30]
    rw [pow_add, pow_mul]
    rfl
  have pos := Digits.pos h ne
  have shifted : ∃ es, lshift ⟨negative, ds⟩ w = ⟨negative, es⟩ ∧ Digits es ∧
      value es = value ds * 2 ^ w := by
    obtain ⟨x, xs, rfl⟩ := List.exists_cons_of_ne_nil ne
    refine ⟨_, rfl, ?_⟩
    rw [show baseBits = 30 from rfl, power, ← Nat.mul_assoc]
    split
    case isTrue zero =>
      rw [zero, pow_zero, Nat.mul_one]
      exact pad_spec _ h pos
    case isFalse =>
      obtain ⟨digits, val⟩ := shiftUp_spec (show w % 30 + (30 - w % 30) = 30 by omega) h
        (show 0 < 2 ^ (w % 30) by positivity)
      rw [Nat.add_zero] at val
      rw [← val]
      apply pad_spec _ digits
      rw [val]
      positivity
  obtain ⟨es, eq, digits, val⟩ := shifted
  have nonempty : es ≠ [] := by
    rintro rfl
    have positive : 0 < value ds * 2 ^ w := by positivity
    rw [← val, value_nil] at positive
    exact positive.false
  rw [eq, ← val]
  exact ⟨⟨digits, fun nil => absurd nil nonempty⟩, rfl⟩

theorem lshift_exact (i : MultiwordInt) (w : Nat) : Denotes (lshift i.rep w) (i.toInt * 2 ^ w) := by
  obtain ⟨⟨negative, ds⟩, digits, zero⟩ := i
  by_cases nil : ds = []
  · subst nil
    exact ⟨⟨digits, zero⟩, by simp [lshift, MultiwordInt.toInt, Rep.toInt]⟩
  · have den := lshift_denotes negative digits nil w
    convert den using 1
    cases negative <;> simp [MultiwordInt.toInt, Rep.toInt, signed]

theorem rshift_magnitude (i : MultiwordInt) (w : Nat) :
    Denotes (rshift i.rep w) (signed i.rep.negative (i.toInt.natAbs / 2 ^ w)) := by
  obtain ⟨⟨negative, ds⟩, digits, zero⟩ := i
  have abs : (MultiwordInt.toInt ⟨⟨negative, ds⟩, digits, zero⟩).natAbs = value ds := by
    cases negative <;> simp [MultiwordInt.toInt, Rep.toInt]
  rw [abs]
  by_cases nil : ds = []
  · subst nil
    refine ⟨⟨digits, zero⟩, ?_⟩
    cases negative <;> simp [rshift, Rep.toInt, signed]
  · exact rshift_denotes negative digits nil w

theorem signed_eq_fdiv_iff (i : ℤ) (m : Nat) (pos : 0 < m) :
    signed (decide (i < 0)) (i.natAbs / m) = i.fdiv m ↔ 0 ≤ i ∨ (m : ℤ) ∣ i := by
  rw [Int.fdiv_eq_ediv_of_nonneg _ (Int.natCast_nonneg m)]
  rcases lt_or_ge i 0 with neg | nonneg
  · obtain ⟨n, rfl⟩ : ∃ n : ℕ, i = -(n : ℤ) := ⟨i.natAbs, by omega⟩
    rw [decide_eq_true neg, signed, if_pos rfl, Int.natAbs_neg, Int.natAbs_natCast, Int.dvd_neg,
      or_iff_right (not_le.mpr neg)]
    constructor
    · intro eq
      have bound := Int.mul_ediv_add_emod (-(n : ℤ)) m
      have rest := Nat.div_add_mod n m
      have low := Int.emod_nonneg (-(n : ℤ)) (Int.natCast_pos.mpr pos).ne'
      rw [← eq] at bound
      have none : n % m = 0 := by
        have : (m : ℤ) * ((n / m : ℕ) : ℤ) + ((n % m : ℕ) : ℤ) = n := by exact_mod_cast rest
        have : ((n % m : ℕ) : ℤ) = -(-(n : ℤ) % m) := by linarith
        omega
      exact_mod_cast Nat.dvd_of_mod_eq_zero none
    · intro exact
      rw [Int.neg_ediv_of_dvd exact]
      rfl
  · obtain ⟨n, rfl⟩ := Int.eq_ofNat_of_zero_le nonneg
    simp [signed]

theorem shifts_exact_iff (i : MultiwordInt) (w : Nat) :
    (Denotes (lshift i.rep w) (i.toInt * 2 ^ w) ∧
      Denotes (rshift i.rep w) (i.toInt.fdiv (2 ^ w))) ↔ 0 ≤ i.toInt ∨ 2 ^ w ∣ i.toInt := by
  have den := rshift_magnitude i w
  rw [negative_iff i.normal] at den
  have rounds := signed_eq_fdiv_iff i.toInt (2 ^ w) (by positivity)
  push_cast at rounds
  rw [← rounds, and_iff_right (lshift_exact i w)]
  constructor
  · intro exact
    exact den.2.symm.trans exact.2
  · intro eq
    rw [← eq]
    exact den
theorem rshift_rounds_up : ∃ i : MultiwordInt, i.toInt = -1 ∧ rshift i.rep 1 = ⟨false, []⟩ ∧
    ¬Denotes (rshift i.rep 1) (i.toInt.fdiv (2 ^ 1)) := by
  refine ⟨⟨⟨true, [1]⟩, ⟨by decide, by decide⟩, by decide⟩, rfl, rfl, ?_⟩
  rintro ⟨_, val⟩
  exact absurd val (by decide)

end Mythryl.MultiwordIntGuts
