import Mythryl.CoreMultiwordInt.Division
import Mythryl.TwosComplement
import Mathlib.Data.Int.ModEq

/-!
# Bitwise operations

`binary` of `src/lib/std/src/multiword-int-guts.pkg` converts both operands to two's complement
digit by digit, combines the digits and converts back.
-/

namespace Mythryl.MultiwordIntGuts
open Nat Numeral CoreMultiwordInt TwosComplement

def twos : Bool → Nat → Nat → Nat × Nat
  | false, x, _ => (x, 0)
  | true, 0, 0 => (0, 0)
  | true, x, borrow => (u31sub (u31sub base x) borrow, 1)

def ones : Bool → Nat → Nat → Nat × Nat := twos

def strip : Nat → List Nat → List Nat
  | 0, [] => []
  | z, zs => z :: zs

section
variable (f : Nat → Nat → Nat) (sx sy sign : Bool)

mutual

def loop : List Nat → List Nat → Nat → Nat → Nat → List Nat
  | [], [], _, _, _ => []
  | [], y :: ys, bx, by', bz => loop1 0 [] y ys bx by' bz
  | x :: xs, [], bx, by', bz => loop1 x xs 0 [] bx by' bz
  | x :: xs, y :: ys, bx, by', bz => loop1 x xs y ys bx by' bz
termination_by xs ys => 2 * (xs.length + ys.length)

def loop1 (x : Nat) (xs : List Nat) (y : Nat) (ys : List Nat) (bx by' bz : Nat) : List Nat :=
  let (x, bx) := twos sx x bx
  let (y, by') := twos sy y by'
  let z := f x y
  let (z, bz) := ones sign z bz
  strip z (loop xs ys bx by' bz)
termination_by 2 * (xs.length + ys.length) + 1

end

end

def binary (f : Nat → Nat → Nat) (genSign : Bool → Bool → Bool) (x y : Rep) : Rep :=
  let sign := genSign x.negative y.negative
  match loop f x.negative y.negative sign x.digits y.digits 0 0 0 with
  | [] => ⟨false, []⟩
  | digits => ⟨sign, digits⟩

def bitwiseOr : Rep → Rep → Rep := binary u31orb fun x y => x || y
def bitwiseAnd : Rep → Rep → Rep := binary u31andb fun x y => x && y
def bitwiseXor : Rep → Rep → Rep := binary u31xorb fun x y => x != y

def bitwiseNot (x : Rep) : Outcome Rep := do
  return neg (← add x ⟨false, [1]⟩)

theorem twos_spec (s : Bool) {x b : Nat} (hx : x < base) (hb : b ≤ 1) :
    (twos s x b).1 < base ∧ (twos s x b).2 ≤ 1 ∧ ∀ v : ℤ, complement s b (x + base * v) =
        (twos s x b).1 + base * complement s (twos s x b).2 v := by
  unfold twos
  split
  · exact ⟨hx, Nat.zero_le 1, fun v => by simp [complement]⟩
  · refine ⟨base_pos, by decide, fun v => ?_⟩
    simp only [complement, if_true]
    ring
  · rename_i nonzero
    have borrow : 0 < x + b := by
      by_contra zero
      exact nonzero (by omega) (by omega)
    have first : u31sub base x = base - x := Word.sub_eq (by omega) (by decide)
    have second : u31sub (base - x) b = base - x - b :=
      Word.sub_eq (by omega) (by simp only [base] at *; omega)
    rw [first, second]
    refine ⟨by omega, le_refl 1, fun v => ?_⟩
    have cast : ((base - x - b : Nat) : ℤ) = base - x - b := by omega
    simp only [complement, if_true, cast]
    ring

theorem strip_spec {z : Nat} {zs : List Nat} (lt : z < base) (h : Digits zs) :
    Digits (strip z zs) ∧ value (strip z zs) = z + base * value zs := by
  exact consd_spec lt h

section
variable {f : Nat → Nat → Nat} (sx sy sign : Bool) {xs ys : List Nat} {bx by' bz : Nat}

theorem loop_cons (ne : xs ≠ [] ∨ ys ≠ []) :
    loop f sx sy sign xs ys bx by' bz =
      loop1 f sx sy sign (xs.headD 0) xs.tail (ys.headD 0) ys.tail bx by' bz := by
  rcases xs with _ | ⟨x, xs⟩ <;> rcases ys with _ | ⟨y, ys⟩
  · simp at ne
  all_goals
    rw [loop]
    rfl

theorem value_cast (xs : List Nat) :
    (value xs : ℤ) = (xs.headD 0 : ℕ) + (base : ℤ) * (value xs.tail : ℕ) :=
  (congrArg Nat.cast (value_head_tail xs)).trans (by rw [Nat.cast_add, Nat.cast_mul])

theorem loop_spec {g : Bool → Bool → Bool} (hg : g false false = false)
    (hf : ∀ x y, f x y = Nat.bitwise g x y) (hx : ∀ x ∈ xs, x < base) (hy : ∀ y ∈ ys, y < base)
    (hbx : bx ≤ 1) (hby : by' ≤ 1) (hbz : bz ≤ 1) :
    Digits (loop f sx sy sign xs ys bx by' bz) ∧
      (value (loop f sx sy sign xs ys bx by' bz) : ℤ) =
        complement sign bz
          (Int.bitwise g (complement sx bx (value xs)) (complement sy by' (value ys))) %
          base ^ max xs.length ys.length := by
  induction len : max xs.length ys.length generalizing xs ys bx by' bz with
  | zero =>
    obtain rfl : xs = [] := List.length_eq_zero_iff.mp (by omega)
    obtain rfl : ys = [] := List.length_eq_zero_iff.mp (by omega)
    rw [loop]
    exact ⟨normal_nil, by simp [Int.emod_one]⟩
  | succ n ih =>
    have ne : xs ≠ [] ∨ ys ≠ [] := by
      by_contra nil
      rw [not_or, not_not, not_not] at nil
      simp [nil.1, nil.2] at len
    obtain ⟨ltx, bx', splitx⟩ := twos_spec sx (headD_lt hx) hbx
    obtain ⟨lty, by'', splity⟩ := twos_spec sy (headD_lt hy) hby
    have ltz : f (twos sx (xs.headD 0) bx).1 (twos sy (ys.headD 0) by').1 < base := by
      rw [hf]
      exact Nat.bitwise_lt_two_pow (n := 30) ltx lty
    obtain ⟨ltz', bz', splitz⟩ := twos_spec sign ltz hbz
    have tailx : ∀ x ∈ xs.tail, x < base := fun x mem => hx x (List.mem_of_mem_tail mem)
    have taily : ∀ y ∈ ys.tail, y < base := fun y mem => hy y (List.mem_of_mem_tail mem)
    obtain ⟨normal, val⟩ := ih tailx taily bx' by'' bz' (by simp only [List.length_tail]; omega)
    rw [loop_cons sx sy sign ne, loop1]
    obtain ⟨digits, eq⟩ := strip_spec ltz' normal
    refine ⟨digits, ?_⟩
    have digit := bitwise_split hg (k := 30) ltx lty
      (complement sx (twos sx (xs.headD 0) bx).2 (value xs.tail))
      (complement sy (twos sy (ys.headD 0) by').2 (value ys.tail))
    have radix : (2 : ℤ) ^ 30 = base := by norm_num [base]
    have shift : (base : ℤ) ^ (n + 1) = base * base ^ n := by ring
    rw [radix, ← hf] at digit
    rw [value_cast xs, value_cast ys, splitx, splity, digit, splitz, shift,
      emod_split (by omega) (by omega) (by positivity), ← val]
    calc ((value _ : ℕ) : ℤ) = ((_ + base * _ : ℕ) : ℤ) := congrArg _ eq
      _ = _ := by rw [Nat.cast_add, Nat.cast_mul]

end

variable {x y : Rep}

theorem toInt_eq_complement (x : Rep) : x.toInt = complement x.negative 0 (value x.digits) := by
  simp [Rep.toInt, complement]

def width (x y : Rep) : Nat := max x.digits.length y.digits.length

theorem binary_denotes {f : Nat → Nat → Nat} {g : Bool → Bool → Bool} (genSign : Bool → Bool → Bool)
    (hg : g false false = false) (hf : ∀ x y, f x y = Nat.bitwise g x y)
    (hx : x.Normal) (hy : y.Normal) :
    let sign := genSign x.negative y.negative
    Denotes (binary f genSign x y)
      (complement sign 0 (complement sign 0 (Int.bitwise g x.toInt y.toInt) % base ^ width x y)) := by
  intro sign
  obtain ⟨normal, val⟩ := loop_spec x.negative y.negative sign hg hf
    hx.digits.lt hy.digits.lt (Nat.zero_le 1) (Nat.zero_le 1) (Nat.zero_le 1)
  rw [← toInt_eq_complement, ← toInt_eq_complement] at val
  have eq : binary f genSign x y =
      bi ⟨sign, loop f x.negative y.negative sign x.digits y.digits 0 0 0⟩ := by
    change (match loop f x.negative y.negative sign x.digits y.digits 0 0 0 with
      | [] => (⟨false, []⟩ : Rep)
      | digits => ⟨sign, digits⟩) = _
    cases loop f x.negative y.negative sign x.digits y.digits 0 0 0 <;> rfl
  rw [eq, width, ← val]
  convert bi_denotes sign normal using 1
  simp [complement]

theorem fits (hx : x.Normal) {n : Nat} (room : x.digits.length ≤ n) : Fits (30 * n) x.toInt := by
  have lt : value x.digits < base ^ n :=
    (Nat.ofDigits_lt_base_pow_length base_gt_one hx.digits.lt).trans_le
      (Nat.pow_le_pow_right base_pos room)
  have radix : base ^ n = 2 ^ (30 * n) := by rw [pow_mul]; rfl
  have cast : ((2 ^ (30 * n) : Nat) : ℤ) = 2 ^ (30 * n) := by push_cast; rfl
  rw [Fits, Rep.toInt]
  split <;> omega

theorem binary_exact_iff {f : Nat → Nat → Nat} {g : Bool → Bool → Bool}
    (hg : g false false = false) (hf : ∀ x y, f x y = Nat.bitwise g x y)
    (hx : x.Normal) (hy : y.Normal) : Denotes (binary f g x y) (Int.bitwise g x.toInt y.toInt) ↔
      ¬(g x.negative y.negative = true ∧
        Nat.bitwise g (x.toInt % base ^ width x y).toNat (y.toInt % base ^ width x y).toNat = 0) := by
  have den := binary_denotes g hg hf hx hy
  have bits := bitwise_fits hg (fits hx (n := width x y) (le_max_left _ _))
    (fits hy (n := width x y) (le_max_right _ _))
  have radix : (2 : ℤ) ^ (30 * width x y) = base ^ width x y := by rw [pow_mul]; rfl
  rw [← negative_iff hx, ← negative_iff hy, radix] at bits
  have pos : (0 : ℤ) < base ^ width x y := by rw [← radix]; positivity
  have low (z : ℤ) : (z % base ^ width x y).toNat < 2 ^ (30 * width x y) := by
    have := Int.emod_lt_of_pos z pos
    have cast : ((2 ^ (30 * width x y) : Nat) : ℤ) = base ^ width x y := by
      rw [← radix]; push_cast; rfl
    omega
  have room : (Nat.bitwise g (x.toInt % base ^ width x y).toNat (y.toInt % base ^ width x y).toNat : ℤ)
      < base ^ width x y := by
    have lt := Nat.bitwise_lt_two_pow (f := g) (low x.toInt) (low y.toInt)
    have cast : ((2 ^ (30 * width x y) : Nat) : ℤ) = base ^ width x y := by
      rw [← radix]; push_cast; rfl
    omega
  generalize Nat.bitwise g _ _ = b at *
  have unique : Denotes (binary f g x y) (Int.bitwise g x.toInt y.toInt) ↔
      complement (g x.negative y.negative) 0
        (complement (g x.negative y.negative) 0 (Int.bitwise g x.toInt y.toInt) %
          base ^ width x y) = Int.bitwise g x.toInt y.toInt :=
    ⟨fun exact => den.2.symm.trans exact.2, fun eq => eq ▸ den⟩
  rw [unique, bits]
  generalize (base : ℤ) ^ width x y = K at *
  cases g x.negative y.negative with
  | false => simp [complement, Int.emod_eq_of_lt (Int.natCast_nonneg b) room]
  | true =>
    simp only [complement, if_true, Nat.cast_zero, true_and]
    rcases Nat.eq_zero_or_pos b with rfl | bpos
    · simp
      omega
    · have magnitude : (-((b : ℤ) + K * -1) - 0) % K = K - b := by
        rw [show -((b : ℤ) + K * -1) - 0 = K - b by ring]
        exact Int.emod_eq_of_lt (by omega) (by omega)
      constructor <;> intro _ <;> omega

theorem bitwiseNot_returns (hx : x.Normal) : Returns (bitwiseNot x) (Int.lnot x.toInt) := by
  have one : Rep.Normal ⟨false, [1]⟩ := ⟨digits_singleton (by decide) (by decide), by decide⟩
  obtain ⟨r, run, normal, val⟩ := add_returns hx one
  obtain ⟨normal', val'⟩ := neg_denotes normal
  refine ⟨neg r, by simp [bitwiseNot, run], normal', ?_⟩
  have lnot (i : ℤ) : Int.lnot i = -(i + 1) := by
    cases i with
    | ofNat n => rfl
    | negSucc n => simp [Int.lnot, Int.negSucc_eq]
  rw [val', val, lnot]
  rfl

variable (x y : MultiwordInt)

def room : Nat := base ^ width x.rep y.rep

/-- Two negative numbers without a common bit that `binary` looks at. -/
def AndDropsBorrow : Prop :=
  x.toInt < 0 ∧ y.toInt < 0 ∧ (x.toInt % room x y).toNat &&& (y.toInt % room x y).toNat = 0

/-- Numbers of opposite signs whose bits that `binary` looks at are the same. -/
def XorDropsBorrow : Prop :=
  (x.toInt < 0 ↔ ¬y.toInt < 0) ∧ x.toInt ≡ y.toInt [ZMOD room x y]

theorem bitwiseAnd_exact_iff :
    Denotes (bitwiseAnd x.rep y.rep) (Int.land x.toInt y.toInt) ↔ ¬AndDropsBorrow x y := by
  have exact := binary_exact_iff (f := u31andb) (g := and) rfl (fun _ _ => rfl) x.normal y.normal
  rw [← Int.bitwise_and]
  refine exact.trans (not_congr ?_)
  rw [negative_iff x.normal, negative_iff y.normal, Bool.and_eq_true, decide_eq_true_eq,
    decide_eq_true_eq, and_assoc]
  rfl

theorem room_pos : (0 : ℤ) < room x y := Int.natCast_pos.mpr (Nat.pow_pos base_pos)

theorem bitwiseXor_exact_iff :
    Denotes (bitwiseXor x.rep y.rep) (Int.xor x.toInt y.toInt) ↔ ¬XorDropsBorrow x y := by
  have exact := binary_exact_iff (f := u31xorb) (g := xor) rfl (fun _ _ => rfl) x.normal y.normal
  rw [← Int.bitwise_xor]
  refine exact.trans (not_congr ?_)
  have nonneg (z : ℤ) := Int.emod_nonneg z (room_pos x y).ne'
  have signs : (xor x.rep.negative y.rep.negative) = true ↔ (x.toInt < 0 ↔ ¬y.toInt < 0) := by
    rw [negative_iff x.normal, negative_iff y.normal, Bool.xor_iff_ne, ne_eq, decide_eq_decide]
    tauto
  have low : Nat.bitwise xor (x.toInt % room x y).toNat (y.toInt % room x y).toNat = 0 ↔
      x.toInt ≡ y.toInt [ZMOD room x y] := by
    have cancel (a b : Nat) : Nat.bitwise xor a b = 0 ↔ a = b := Nat.xor_eq_zero_iff
    rw [cancel, Int.ModEq]
    have := nonneg x.toInt
    have := nonneg y.toInt
    omega
  rw [XorDropsBorrow, ← signs, ← low]
  simp [room, MultiwordInt.toInt]

theorem emod_room_ne_zero {z : MultiwordInt} (neg : z.toInt < 0)
    (lt : value z.rep.digits < room x y) : z.toInt % room x y ≠ 0 := by
  intro zero
  obtain ⟨c, eq⟩ := Int.dvd_of_emod_eq_zero zero
  have abs : -(room x y : ℤ) < z.toInt := by
    rw [MultiwordInt.toInt, Rep.toInt]
    split <;> omega
  have : c < 0 := by nlinarith
  have : -1 < c := by nlinarith
  omega

theorem value_lt_room {z : MultiwordInt} (short : z.rep.digits.length ≤ width x.rep y.rep) :
    value z.rep.digits < room x y :=
  (Nat.ofDigits_lt_base_pow_length base_gt_one z.normal.digits.lt).trans_le
    (Nat.pow_le_pow_right base_pos short)

theorem bitwiseOr_exact : Denotes (bitwiseOr x.rep y.rep) (Int.lor x.toInt y.toInt) := by
  have exact := binary_exact_iff (f := u31orb) (g := or) rfl (fun _ _ => rfl) x.normal y.normal
  rw [← Int.bitwise_or]
  refine exact.mpr ?_
  rintro ⟨sign, low⟩
  have low : (x.toInt % room x y).toNat ||| (y.toInt % room x y).toNat = 0 := low
  obtain ⟨lowx, lowy⟩ := Nat.or_eq_zero_iff.mp low
  have nonneg (z : ℤ) := Int.emod_nonneg z (room_pos x y).ne'
  rw [negative_iff x.normal, negative_iff y.normal, Bool.or_eq_true, decide_eq_true_eq,
    decide_eq_true_eq] at sign
  rcases sign with neg | neg
  · have := emod_room_ne_zero x y neg (value_lt_room x y (le_max_left _ _))
    have := nonneg x.toInt
    omega
  · have := emod_room_ne_zero x y neg (value_lt_room x y (le_max_right _ _))
    have := nonneg y.toInt
    omega

/-- All four operations are exact, unless `and` or `xor` drops the borrow out of the top digit. -/
theorem bitwise_exact_iff : (Denotes (bitwiseAnd x.rep y.rep) (Int.land x.toInt y.toInt) ∧
      Denotes (bitwiseOr x.rep y.rep) (Int.lor x.toInt y.toInt) ∧
      Denotes (bitwiseXor x.rep y.rep) (Int.xor x.toInt y.toInt) ∧
      Returns (bitwiseNot x.rep) (Int.lnot x.toInt)) ↔
    ¬AndDropsBorrow x y ∧ ¬XorDropsBorrow x y := by
  rw [← bitwiseAnd_exact_iff, ← bitwiseXor_exact_iff]
  exact ⟨fun ⟨hand, _, hxor, _⟩ => ⟨hand, hxor⟩, fun ⟨hand, hxor⟩ =>
    ⟨hand, bitwiseOr_exact x y, hxor, bitwiseNot_returns x.normal⟩⟩

/-- `-(2 ^ 30 - 1)` and `-(2 ^ 30 - 2)` have no common bit below bit 30: the code returns zero
for `-(2 ^ 30)`. -/
theorem bitwiseAnd_drops_borrow :
    ∃ x y : MultiwordInt, x.toInt = -(2 ^ 30 - 1) ∧ y.toInt = -(2 ^ 30 - 2) ∧
      (bitwiseAnd x.rep y.rep).toInt = 0 ∧ Int.land x.toInt y.toInt = -(2 ^ 30) ∧
      ¬Denotes (bitwiseAnd x.rep y.rep) (Int.land x.toInt y.toInt) := by
  have run : bitwiseAnd ⟨true, [2 ^ 30 - 1]⟩ ⟨true, [2 ^ 30 - 2]⟩ = ⟨false, []⟩ := by
    simp [bitwiseAnd, binary, loop, loop1, twos, ones, strip, u31andb, u31sub, Word.sub, base]
  refine ⟨⟨⟨true, [2 ^ 30 - 1]⟩, ⟨by decide, by decide⟩, by decide⟩,
    ⟨⟨true, [2 ^ 30 - 2]⟩, ⟨by decide, by decide⟩, by decide⟩, by decide, by decide, ?_, by decide, ?_⟩
  · rw [run]
    rfl
  · rintro ⟨_, val⟩
    rw [run] at val
    exact absurd val (by decide)

end Mythryl.MultiwordIntGuts
