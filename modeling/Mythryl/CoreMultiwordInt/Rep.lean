import Mythryl.Runtime
import Mythryl.Numeral
import Mathlib.Logic.Equiv.Defs

/-!
# Indefinite-precision integers: representation and operations

The functions of `src/lib/core/init/core-multiword-int.pkg` on the concrete representation: a sign
and a list of 30-bit digits, least significant first.
-/

namespace Mythryl.CoreMultiwordInt

structure Rep where
  negative : Bool
  digits : List Nat
  deriving DecidableEq, Repr

def hBaseBits : Nat := 15
def baseBits : Nat := u31lshift hBaseBits 1
def maxDigit : Nat := 0x3fffffff
def maxDigitL : Nat := 0x7fff
def base : Nat := 0x40000000

def bi : Rep → Rep
  | ⟨_, []⟩ => ⟨false, []⟩
  | arg => arg

def abs' (x : Rep) : Rep := ⟨false, x.digits⟩

def neg (x : Rep) : Rep := bi ⟨!x.negative, x.digits⟩

def dcmp (x y : Nat) : Ordering :=
  if x < y then .lt else if x > y then .gt else .eq

def natcmp : List Nat → List Nat → Ordering
  | [], [] => .eq
  | [], _ => .lt
  | _, [] => .gt
  | x :: xs, y :: ys =>
      match natcmp xs ys with
      | .eq => dcmp x y
      | unequal => unequal

def lt : Rep → Rep → Bool
  | ⟨false, _⟩, ⟨true, _⟩ => false
  | ⟨true, _⟩, ⟨false, _⟩ => true
  | ⟨negative, d1⟩, ⟨_, d2⟩ => natcmp d1 d2 == if negative then .gt else .lt

def gt (x y : Rep) : Bool := lt y x
def ge (x y : Rep) : Bool := !lt x y
def le (x y : Rep) : Bool := !gt x y

def compare' : Rep → Rep → Ordering
  | ⟨true, _⟩, ⟨false, _⟩ => .lt
  | ⟨false, _⟩, ⟨true, _⟩ => .gt
  | ⟨negative, d1⟩, ⟨_, d2⟩ => if negative then natcmp d2 d1 else natcmp d1 d2

def adddig (d1 d2 : Nat) : Bool × Nat :=
  let sum := u31add d1 d2
  (decide (base ≤ sum), u31andb sum maxDigit)

def natinc : List Nat → List Nat
  | [] => [1]
  | x :: xs => if x = maxDigit then 0 :: natinc xs else u31add x 1 :: xs

def natdec : List Nat → Outcome (List Nat)
  | 0 :: xs => do return maxDigit :: (← natdec xs)
  | [1] => return []
  | x :: xs => return u31sub x 1 :: xs
  | [] => throw .overflow

def natadd01 : Bool → List Nat → List Nat → List Nat
  | true, x, [] => natinc x
  | true, [], y => natinc y
  | false, x, [] => x
  | false, [], y => y
  | true, x :: xs, y :: ys =>
      let (carry, result) := adddig x y
      let (carry, result) :=
        if result = maxDigit then (true, 0) else (carry, u31add result 1)
      result :: natadd01 carry xs ys
  | false, x :: xs, y :: ys =>
      let (carry, result) := adddig x y
      result :: natadd01 carry xs ys

def natadd1 (xs ys : List Nat) : List Nat := natadd01 true xs ys
def natadd0 (xs ys : List Nat) : List Nat := natadd01 false xs ys

def subdig (x y : Nat) (c : Bool) : Nat × Bool :=
  let y' := if c then u31add y 1 else y
  if x < y' then (u31sub (u31add x base) y', true) else (u31sub x y', false)

def consdiff (result : Nat) : List Nat → List Nat
  | [] => if result = 0 then [] else [result]
  | more => result :: more

/-- The carry past the end of the second list is a digit `0` there, as in `natsub_nil_true`. -/
def natsub : List Nat → List Nat → Bool → Outcome (List Nat)
  | xs, [], false => return xs
  | [], _, _ => throw .negative
  | x :: xs, [], true => do
      let (result, carry) := subdig x 0 true
      return consdiff result (← natsub xs [] carry)
  | x :: xs, y :: ys, c => do
      let (result, carry) := subdig x y c
      return consdiff result (← natsub xs ys carry)

theorem natsub_nil_true (xs : List Nat) : natsub xs [] true = natsub xs [0] true := by
  cases xs <;> rfl

def natsub0 (xs ys : List Nat) : Outcome (List Nat) := natsub xs ys false

def sub0 (xs ys : List Nat) : Outcome Rep :=
  match natsub0 xs ys with
  | .ok digits => .ok ⟨false, digits⟩
  | .error .negative => do return bi ⟨true, ← natsub0 ys xs⟩
  | .error e => .error e

def add0 : Bool → List Nat → Bool → List Nat → Outcome Rep
  | false, xs1, false, xs2 => return ⟨false, natadd0 xs1 xs2⟩
  | true, xs1, true, xs2 => return ⟨true, natadd0 xs1 xs2⟩
  | false, xs1, true, xs2 => sub0 xs1 xs2
  | true, xs1, false, xs2 => sub0 xs2 xs1

def add (b1 b2 : Rep) : Outcome Rep := add0 b1.negative b1.digits b2.negative b2.digits

def sub (b1 b2 : Rep) : Outcome Rep := add0 b1.negative b1.digits (!b2.negative) b2.digits

def ddmul (x y : Nat) : Nat × Nat :=
  let high w32 := u32rshiftl w32 hBaseBits
  let low w32 := u32andb w32 maxDigitL
  let xh := high (copy31To32 x)
  let xl := low (copy31To32 x)
  let yh := high (copy31To32 y)
  let yl := low (copy31To32 y)
  let a := u32mul xh yh
  let c := u32mul xl yl
  -- `b = b' - a - c = xh * yl + xl * yh`
  let b' := u32mul (u32add xh xl) (u32add yh yl)
  let b := u32sub b' (u32add a c)
  let bh := high b
  let bl := low b
  let l0 := u32add c (u32lshift bl hBaseBits)
  let l32 := u32andb l0 maxDigit
  let lc := u32rshiftl l0 baseBits
  let h32 := u32add (u32add a bh) lc
  (trunc32To31 h32, trunc32To31 l32)

/-- The operations of a word size that can wrap around, each with a result it may refuse. -/
structure Arithmetic where
  add : Nat → Nat → Outcome Nat
  sub : Nat → Nat → Outcome Nat
  mul : Nat → Nat → Outcome Nat
  lshift : Nat → Nat → Outcome Nat
  trunc31 : Nat → Outcome Nat

def wrapping (w : Nat) : Arithmetic where
  add x y := .ok (Word.add w x y)
  sub x y := .ok (Word.sub w x y)
  mul x y := .ok (Word.mul w x y)
  lshift x n := .ok (Word.lshift w x n)
  trunc31 x := .ok (trunc32To31 x)

def fitting (w x : Nat) : Outcome Nat := if x < 2 ^ w then .ok x else .error .overflow

def checked (w : Nat) : Arithmetic where
  add x y := fitting w (x + y)
  sub x y := if y ≤ x ∧ x < 2 ^ w then .ok (x - y) else .error .overflow
  mul x y := fitting w (x * y)
  lshift x n := fitting w (x * 2 ^ n)
  trunc31 x := fitting 31 x

def ddmulWith (A : Arithmetic) (x y : Nat) : Outcome (Nat × Nat) := do
  let high w32 := u32rshiftl w32 hBaseBits
  let low w32 := u32andb w32 maxDigitL
  let xh := high (copy31To32 x)
  let xl := low (copy31To32 x)
  let yh := high (copy31To32 y)
  let yl := low (copy31To32 y)
  let a ← A.mul xh yh
  let c ← A.mul xl yl
  let b' ← A.mul (← A.add xh xl) (← A.add yh yl)
  let b ← A.sub b' (← A.add a c)
  let l0 ← A.add c (← A.lshift (low b) hBaseBits)
  let h32 ← A.add (← A.add a (high b)) (u32rshiftl l0 baseBits)
  return (← A.trunc31 h32, ← A.trunc31 (u32andb l0 maxDigit))

theorem ddmulWith_wrapping (x y : Nat) : ddmulWith (wrapping 32) x y = .ok (ddmul x y) := rfl

def maddig (w x c : Nat) : Nat × Nat :=
  let (h, l) := ddmul w x
  let (carry, l') := adddig l c
  (if carry then u31add h 1 else h, l')

def natmadd : Nat → List Nat → Nat → List Nat
  | 0, _, 0 => []
  | 0, _, c => [c]
  | _, [], 0 => []
  | _, [], c => [c]
  | 1, xs, 0 => xs
  | 1, xs, c => natadd0 xs [c]
  | w, x :: xs, c =>
      let (h', l') := maddig w x c
      l' :: natmadd w xs h'

def natmul : List Nat → List Nat → List Nat
  | [], _ => []
  | _, [] => []
  | xs, [1] => xs
  | [1], ys => ys
  | x :: xs, ys => natadd0 (natmadd x ys 0) (0 :: natmul xs ys)

def mul (x y : Rep) : Rep :=
  bi ⟨x.negative != y.negative, natmul x.digits y.digits⟩

/-! # The digit-list operations are exact -/

open Nat Numeral

abbrev value (ds : List Nat) : Nat := ofDigits base ds

abbrev Digits (ds : List Nat) : Prop := Normal base ds

theorem base_gt_one : 1 < base := by decide

theorem base_pos : 0 < base := by decide

@[simp] theorem value_nil : value [] = 0 := rfl

theorem value_cons (d : Nat) (ds : List Nat) : value (d :: ds) = d + base * value ds := ofDigits_cons

theorem value_head_tail (ds : List Nat) : value ds = ds.headD 0 + base * value ds.tail := by
  cases ds with
  | nil => rfl
  | cons d ds => exact value_cons d ds

variable {ds xs ys : List Nat} {d x y c w : Nat}

theorem headD_lt (lt : ∀ d ∈ ds, d < base) : ds.headD 0 < base := by
  cases ds with
  | nil => exact base_pos
  | cons d ds => exact lt d (by simp)

theorem digits_tail (h : Digits ds) : Digits ds.tail := by
  cases ds with
  | nil => exact normal_nil
  | cons d ds => exact h.tail

theorem andb_maxDigit (x : Nat) : x &&& maxDigit = x % base := and_two_pow_sub_one_eq_mod x 30

theorem Digits.pos (h : Digits ds) (ne : ds ≠ []) : 0 < value ds :=
  Normal.pos base_pos h ne

theorem Digits.cons (lt : d < base) (h : Digits ds)
    (pos : 0 < value (d :: ds)) : Digits (d :: ds) :=
  Normal.cons lt h (by rwa [value_cons] at pos)

theorem Digits.value_cons_pos (h : Digits (d :: ds)) : 0 < value (d :: ds) :=
  Digits.pos h (by simp)

theorem digits_singleton (pos : 0 < d) (lt : d < base) : Digits [d] :=
  Normal.singleton pos lt

theorem dcmp_eq (x y : Nat) : dcmp x y = compare x y := by
  unfold dcmp
  rcases lt_trichotomy x y with lt | rfl | lt
  · rw [if_pos lt, compare_lt_iff_lt.mpr lt]
  · simp
  · rw [if_neg (by omega), if_pos lt, compare_gt_iff_gt.mpr lt]

theorem natcmp_eq (hx : Digits xs) (hy : Digits ys) :
    natcmp xs ys = compare (value xs) (value ys) := by
  induction xs generalizing ys with
  | nil =>
    cases ys with
    | nil => simp [natcmp]
    | cons y ys =>
      rw [natcmp, compare_lt_iff_lt.mpr (by simpa using hy.value_cons_pos)]
      simp
  | cons x xs ih =>
    cases ys with
    | nil =>
      rw [natcmp, compare_gt_iff_gt.mpr (by simpa using hx.value_cons_pos)]
      simp
    | cons y ys =>
      rw [natcmp, ih hx.tail hy.tail, value_cons, value_cons,
        compare_cons hx.head_lt hy.head_lt, dcmp_eq]
      cases compare (value xs) (value ys) <;> rfl

theorem adddig_spec (hx : x < base) (hy : y < base) :
    (adddig x y).2 < base ∧ (adddig x y).2 + base * (adddig x y).1.toNat = x + y := by
  have sum : u31add x y = x + y := Word.add_eq (by norm_num [base] at *; omega)
  simp only [adddig, sum, u31andb, andb_maxDigit]
  refine ⟨Nat.mod_lt _ base_pos, ?_⟩
  norm_num [base] at *
  by_cases big : 1073741824 ≤ x + y
  · simp only [big, decide_true, Bool.toNat_true]; omega
  · simp only [big, decide_false, Bool.toNat_false]; omega

theorem u31add_one (small : x ≠ maxDigit) (lt : x < base) : u31add x 1 = x + 1 ∧ x + 1 < base := by
  norm_num [maxDigit, base] at small lt ⊢
  exact ⟨Word.add_eq (by norm_num; omega), by omega⟩

theorem maxDigit_add_one : maxDigit + 1 = base := rfl

theorem natinc_spec (hx : Digits xs) : Digits (natinc xs) ∧ value (natinc xs) = value xs + 1 := by
  induction xs with
  | nil => exact ⟨digits_singleton (by decide) (by decide), rfl⟩
  | cons x xs ih =>
    obtain ⟨normal, val⟩ := ih hx.tail
    have lt := hx.head_lt
    unfold natinc
    split
    case isTrue top =>
      have eq : value (0 :: natinc xs) = value (x :: xs) + 1 := by
        rw [value_cons, value_cons, val, top, ← maxDigit_add_one]
        ring
      exact ⟨Digits.cons base_pos normal (by omega), eq⟩
    case isFalse small =>
      obtain ⟨inc, room⟩ := u31add_one small lt
      have eq : value (u31add x 1 :: xs) = value (x :: xs) + 1 := by
        rw [value_cons, value_cons, inc]
        ring
      exact ⟨Digits.cons (by omega) hx.tail (by omega), eq⟩

theorem natadd01_spec (carry : Bool) (hx : Digits xs) (hy : Digits ys) :
    Digits (natadd01 carry xs ys) ∧
      value (natadd01 carry xs ys) = value xs + value ys + carry.toNat := by
  induction xs generalizing ys carry with
  | nil =>
    cases carry <;> cases ys
    · exact ⟨hx, rfl⟩
    · exact ⟨hy, by simp [natadd01]⟩
    · simpa [natadd01] using natinc_spec hx
    · simpa [natadd01] using natinc_spec hy
  | cons x xs ih =>
    cases ys with
    | nil =>
      cases carry
      · exact ⟨hx, by simp [natadd01]⟩
      · simpa [natadd01] using natinc_spec hx
    | cons y ys =>
      obtain ⟨lt, sum⟩ := adddig_spec hx.head_lt hy.head_lt
      have pos := hx.value_cons_pos
      -- the digit and the carry handed on, whichever carry came in
      have step : ∀ (r : Nat) (c : Bool), r < base → r + base * c.toNat = x + y + carry.toNat →
          Digits (r :: natadd01 c xs ys) ∧
            value (r :: natadd01 c xs ys) = value (x :: xs) + value (y :: ys) + carry.toNat := by
        intro r c lt eq
        obtain ⟨normal, val⟩ := ih c hx.tail hy.tail
        have total : value (r :: natadd01 c xs ys) =
            value (x :: xs) + value (y :: ys) + carry.toNat := by
          rw [value_cons, value_cons, value_cons, val]
          linarith
        exact ⟨Digits.cons lt normal (by omega), total⟩
      cases carry with
      | false => exact step _ _ lt sum
      | true =>
        simp only [natadd01]
        split
        case isTrue full =>
          refine step 0 true base_pos ?_
          have top := maxDigit_add_one
          have carryless : (adddig x y).1 = false := by
            by_contra carried
            rw [Bool.not_eq_false] at carried
            have := hx.head_lt
            have := hy.head_lt
            simp only [carried, Bool.toNat_true] at sum
            omega
          simp only [carryless, Bool.toNat_true, Bool.toNat_false] at sum ⊢
          omega
        case isFalse small =>
          obtain ⟨inc, room⟩ := u31add_one small lt
          rw [inc]
          exact step _ _ room (by simp only [Bool.toNat_true]; omega)

theorem natadd0_spec (hx : Digits xs) (hy : Digits ys) :
    Digits (natadd0 xs ys) ∧ value (natadd0 xs ys) = value xs + value ys := by
  simpa [natadd0] using natadd01_spec false hx hy

theorem natdec_spec (hx : Digits xs) (pos : 0 < value xs) :
    ∃ ds, natdec xs = .ok ds ∧ Digits ds ∧ value ds + 1 = value xs := by
  induction xs with
  | nil => simp at pos
  | cons x xs ih =>
    have lt := hx.head_lt
    rcases Nat.eq_zero_or_pos x with rfl | xpos
    · have rest : 0 < value xs := by
        rw [value_cons] at pos
        exact Nat.pos_of_mul_pos_left (by simpa using pos)
      obtain ⟨ds, run, normal, val⟩ := ih hx.tail rest
      have eq : value (maxDigit :: ds) + 1 = value (0 :: xs) := by
        rw [value_cons, value_cons, ← val, ← maxDigit_add_one]
        ring
      have big : maxDigit < base := by decide
      refine ⟨maxDigit :: ds, by simp [natdec, run], Digits.cons big normal ?_, eq⟩
      rw [value_cons]
      exact Nat.add_pos_left (by decide) _
    · by_cases one : x = 1 ∧ xs = []
      · obtain ⟨rfl, rfl⟩ := one
        exact ⟨[], rfl, normal_nil, rfl⟩
      · have dec : u31sub x 1 = x - 1 := Word.sub_eq xpos (by norm_num [base] at lt ⊢; omega)
        have eq : value (u31sub x 1 :: xs) + 1 = value (x :: xs) := by
          rw [value_cons, value_cons, dec]
          omega
        have run : natdec (x :: xs) = .ok (u31sub x 1 :: xs) := by
          rcases x with _ | _ | x
          · omega
          · cases xs with
            | nil => simp at one
            | cons => rfl
          · rfl
        refine ⟨_, run, Digits.cons (by omega) hx.tail ?_, eq⟩
        rw [value_cons, dec]
        rcases Nat.eq_zero_or_pos (x - 1) with zero | more
        · have ne : xs ≠ [] := fun nil => one ⟨by omega, nil⟩
          have := Nat.mul_pos base_pos (Digits.pos hx.tail ne)
          omega
        · omega

theorem subdig_spec (hx : x < base) (hy : y < base) (c : Bool) : (subdig x y c).1 < base ∧
      (subdig x y c).1 + y + c.toNat = x + base * (subdig x y c).2.toNat := by
  have y' : (if c then u31add y 1 else y) = y + c.toNat := by
    cases c
    · rfl
    · exact Word.add_eq (by norm_num [base] at hy ⊢; omega)
  have le := Bool.toNat_le c
  rw [subdig, y']
  norm_num [base] at *
  split
  case isTrue borrow =>
    have up : u31add x base = x + 1073741824 := Word.add_eq (by norm_num [base]; omega)
    have eq : u31sub (u31add x base) (y + c.toNat) = x + 1073741824 - (y + c.toNat) := by
      rw [up]
      exact Word.sub_eq (by omega) (by norm_num; omega)
    norm_num [base] at eq
    simp only [eq, Bool.toNat_true]
    omega
  case isFalse fits =>
    have eq : u31sub x (y + c.toNat) = x - (y + c.toNat) :=
      Word.sub_eq (by omega) (by norm_num; omega)
    simp only [eq, Bool.toNat_false]
    omega

theorem consdiff_spec {r : Nat} (lt : r < base) (h : Digits ds) :
    Digits (consdiff r ds) ∧ value (consdiff r ds) = r + base * value ds := by
  cases ds with
  | nil =>
    by_cases zero : r = 0
    · simp [consdiff, zero]
    · simpa [consdiff, zero, value_cons] using digits_singleton (Nat.pos_of_ne_zero zero) lt
  | cons d ds =>
    have pos := h.value_cons_pos
    refine ⟨Digits.cons lt h ?_, value_cons _ _⟩
    rw [value_cons]
    exact Nat.add_pos_right _ (Nat.mul_pos base_pos pos)

theorem borrow_le_iff {r X Y b : Nat} (lt : r < base) (eq : r + y + c = x + base * b) :
    y + base * Y + c ≤ x + base * X ↔ Y + b ≤ X := by
  constructor
  · intro le
    by_contra gt
    have := Nat.mul_le_mul_left base (show X + 1 ≤ Y + b by omega)
    linarith
  · intro le
    have := Nat.mul_le_mul_left base le
    linarith

theorem natsub_spec (hx : Digits xs) (hy : Digits ys) (c : Bool) :
    (value ys + c.toNat ≤ value xs ∧ ∃ ds, natsub xs ys c = .ok ds ∧ Digits ds ∧
        value ds + value ys + c.toNat = value xs) ∨
      (value xs < value ys + c.toNat ∧ natsub xs ys c = .error .negative) := by
  induction xs generalizing ys c with
  | nil =>
    cases ys with
    | nil =>
      cases c
      · exact Or.inl ⟨le_rfl, [], rfl, normal_nil, rfl⟩
      · exact Or.inr ⟨by simp, rfl⟩
    | cons y ys =>
      have pos := hy.value_cons_pos
      exact Or.inr ⟨by simp only [value_nil]; omega, by cases c <;> rfl⟩
  | cons x xs ih =>
    -- one digit, then the rest with the borrow it leaves
    have step : ∀ (y : Nat) (ys : List Nat), y < base → Digits ys →
        natsub (x :: xs) (y :: ys) c =
          (do return consdiff (subdig x y c).1 (← natsub xs ys (subdig x y c).2)) →
        (y + base * value ys + c.toNat ≤ value (x :: xs) ∧ ∃ ds,
            natsub (x :: xs) (y :: ys) c = .ok ds ∧ Digits ds ∧
            value ds + (y + base * value ys) + c.toNat = value (x :: xs)) ∨
          (value (x :: xs) < y + base * value ys + c.toNat ∧
            natsub (x :: xs) (y :: ys) c = .error .negative) := by
      intro y ys lty hys run
      obtain ⟨lt, eq⟩ := subdig_spec hx.head_lt lty c
      have order := borrow_le_iff (X := value xs) (Y := value ys) lt eq
      rw [run, value_cons]
      rcases ih hx.tail hys (subdig x y c).2 with ⟨le, ds, rest, normal, val⟩ | ⟨gt, rest⟩
      · obtain ⟨hn, hv⟩ := consdiff_spec lt normal
        refine Or.inl ⟨order.mpr le, _, by rw [rest]; rfl, hn, ?_⟩
        rw [hv, ← val]
        linarith
      · exact Or.inr ⟨not_le.mp (fun h => (order.mp h).not_gt gt), by rw [rest]; rfl⟩
    cases ys with
    | nil =>
      cases c with
      | false => exact Or.inl ⟨by simp, x :: xs, rfl, hx, rfl⟩
      | true => simpa [natsub_nil_true] using step 0 [] base_pos normal_nil rfl
    | cons y ys => simpa only [value_cons] using step y ys hy.head_lt hy.tail rfl

def Rep.toInt (x : Rep) : ℤ := if x.negative then -(value x.digits : ℤ) else value x.digits

structure Rep.Normal (x : Rep) : Prop where
  digits : Digits x.digits
  zero : x.digits = [] → x.negative = false

def Denotes (x : Rep) (i : ℤ) : Prop := x.Normal ∧ x.toInt = i

theorem bi_denotes (negative : Bool) (h : Digits ds) :
    Denotes (bi ⟨negative, ds⟩) (if negative then -(value ds : ℤ) else value ds) := by
  cases ds with
  | nil => exact ⟨⟨normal_nil, fun _ => rfl⟩, by cases negative <;> rfl⟩
  | cons d ds => exact ⟨⟨h, by simp [bi]⟩, rfl⟩

theorem posi_denotes (h : Digits ds) : Denotes ⟨false, ds⟩ (value ds) :=
  ⟨⟨h, fun _ => rfl⟩, rfl⟩

theorem negi_denotes (h : Digits ds) (ne : ds ≠ []) : Denotes ⟨true, ds⟩ (-(value ds : ℤ)) :=
  ⟨⟨h, fun nil => absurd nil ne⟩, rfl⟩

theorem Rep.Normal.abs_pos {x : Rep} (h : x.Normal) (neg : x.negative = true) : 0 < value x.digits :=
  Digits.pos h.digits (fun nil => by simp [h.zero nil] at neg)

theorem natsub0_spec (hx : Digits xs) (hy : Digits ys) :
    (value ys ≤ value xs ∧ ∃ ds, natsub0 xs ys = .ok ds ∧ Digits ds ∧
        value ds + value ys = value xs) ∨
      (value xs < value ys ∧ natsub0 xs ys = .error .negative) := by
  simpa [natsub0] using natsub_spec hx hy false

theorem sub0_spec (hx : Digits xs) (hy : Digits ys) :
    ∃ r, sub0 xs ys = .ok r ∧ Denotes r (value xs - value ys) := by
  rcases natsub0_spec hx hy with ⟨_, ds, run, normal, val⟩ | ⟨gt, run⟩
  · refine ⟨_, by rw [sub0, run], ?_⟩
    convert posi_denotes normal using 1
    omega
  · rcases natsub0_spec hy hx with ⟨_, ds, run', normal, val⟩ | ⟨gt', _⟩
    · refine ⟨_, by rw [sub0, run, run']; rfl, ?_⟩
      convert bi_denotes true normal using 1
      simp only [if_true]
      omega
    · omega

theorem add0_spec {sx : Bool} (sy : Bool) (hx : Digits xs) (hy : Digits ys)
    (zx : xs = [] → sx = false) : ∃ r, add0 sx xs sy ys = .ok r ∧
      Denotes r ((if sx then -(value xs : ℤ) else value xs) +
        if sy then -(value ys : ℤ) else value ys) := by
  obtain ⟨normal, val⟩ := natadd0_spec hx hy
  cases sx <;> cases sy
  · exact ⟨_, rfl, by simpa [val] using posi_denotes normal⟩
  · simpa [add0, sub_eq_add_neg] using sub0_spec hx hy
  · simpa [add0, sub_eq_add_neg, add_comm] using sub0_spec hy hx
  · have ne : natadd0 xs ys ≠ [] := by
      intro nil
      have pos := Digits.pos hx (fun nil => absurd (zx nil) (by decide))
      rw [nil, value_nil] at val
      omega
    refine ⟨_, rfl, ?_⟩
    convert negi_denotes normal ne using 1
    simp only [val, if_true]
    push_cast
    ring

theorem high_eq (x : Nat) : u32rshiftl x hBaseBits = x / 32768 := Nat.shiftRight_eq_div_pow x 15

theorem low_eq (x : Nat) : u32andb x maxDigitL = x % 32768 := Nat.and_two_pow_sub_one_eq_mod x 15

theorem rshiftl_baseBits (x : Nat) : u32rshiftl x baseBits = x / base :=
  Nat.shiftRight_eq_div_pow x 30

def Agrees {α : Type} (x y : Outcome α) : Prop := ∀ a, x = .ok a → y = .ok a

section Agrees
variable {α β : Type} {w : Nat}

theorem Agrees.bind {x y : Outcome α} {f g : α → Outcome β} (h : Agrees x y)
    (hf : ∀ a, Agrees (f a) (g a)) : Agrees (x >>= f) (y >>= g) := by
  intro b eq
  obtain ⟨a, ha, hb⟩ := bind_eq_ok.mp eq
  exact bind_eq_ok.mpr ⟨a, h a ha, hf a b hb⟩

theorem fitting_agrees {x y : Nat} (h : x < 2 ^ w → y = x) : Agrees (fitting w x) (.ok y) := by
  intro a eq
  unfold fitting at eq
  split at eq
  case isTrue lt => rwa [h lt]
  case isFalse => cases eq

theorem checked_add (x y : Nat) : Agrees ((checked w).add x y) ((wrapping w).add x y) :=
  fitting_agrees Word.add_eq

theorem checked_mul (x y : Nat) : Agrees ((checked w).mul x y) ((wrapping w).mul x y) :=
  fitting_agrees Word.mul_eq

theorem checked_lshift (x n : Nat) : Agrees ((checked w).lshift x n) ((wrapping w).lshift x n) :=
  fitting_agrees Word.lshift_eq

theorem checked_trunc31 (x : Nat) : Agrees ((checked w).trunc31 x) ((wrapping w).trunc31 x) :=
  fitting_agrees Nat.mod_eq_of_lt

theorem checked_sub (x y : Nat) : Agrees ((checked w).sub x y) ((wrapping w).sub x y) := by
  intro a eq
  simp only [checked] at eq
  split at eq
  case isTrue h => rwa [← Word.sub_eq h.1 h.2] at eq
  case isFalse => cases eq

section Checked
variable {x y n : Nat}

theorem add_checked (h : x + y < 2 ^ w) : (checked w).add x y = .ok (x + y) := if_pos h

theorem sub_checked (le : y ≤ x) (h : x < 2 ^ w) : (checked w).sub x y = .ok (x - y) :=
  if_pos ⟨le, h⟩

theorem mul_checked (h : x * y < 2 ^ w) : (checked w).mul x y = .ok (x * y) := if_pos h

theorem lshift_checked (h : x * 2 ^ n < 2 ^ w) : (checked w).lshift x n = .ok (x * 2 ^ n) :=
  if_pos h

theorem trunc31_checked (h : x < 2 ^ 31) : (checked w).trunc31 x = .ok x := if_pos h

end Checked

end Agrees

theorem ddmulWith_agrees (x y : Nat) :
    Agrees (ddmulWith (checked 32) x y) (ddmulWith (wrapping 32) x y) :=
  (checked_mul _ _).bind fun _ => (checked_mul _ _).bind fun _ =>
    (checked_add _ _).bind fun _ => (checked_add _ _).bind fun _ => (checked_mul _ _).bind fun _ =>
    (checked_add _ _).bind fun _ => (checked_sub _ _).bind fun _ =>
    (checked_lshift _ _).bind fun _ => (checked_add _ _).bind fun _ =>
    (checked_add _ _).bind fun _ => (checked_add _ _).bind fun _ =>
    (checked_trunc31 _).bind fun _ => (checked_trunc31 _).bind fun _ _ h => h

theorem ddmulWith_checked (hx : x < base) (hy : y < base) :
    ddmulWith (checked 32) x y = .ok (x * y / base, x * y % base) := by
  have hxh : x / 32768 < 32768 := by norm_num [base] at hx; omega
  have hyh : y / 32768 < 32768 := by norm_num [base] at hy; omega
  have hxl : x % 32768 < 32768 := Nat.mod_lt _ (by decide)
  have hyl : y % 32768 < 32768 := Nat.mod_lt _ (by decide)
  have bound : x * y < base * base := Nat.mul_lt_mul'' hx hy
  have product : x * y = x / 32768 * (y / 32768) * base + (x / 32768 * (y % 32768) +
      x % 32768 * (y / 32768)) * 32768 + x % 32768 * (y % 32768) := by
    conv_lhs => rw [← Nat.div_add_mod x 32768, ← Nat.div_add_mod y 32768]
    norm_num [base]
    ring
  have hc : x % 32768 * (y % 32768) ≤ 32767 * 32767 := Nat.mul_le_mul (by omega) (by omega)
  have whole : (x / 32768 + x % 32768) * (y / 32768 + y % 32768) ≤ 65534 * 65534 :=
    Nat.mul_le_mul (by omega) (by omega)
  have expand : (x / 32768 + x % 32768) * (y / 32768 + y % 32768) =
      x / 32768 * (y % 32768) + x % 32768 * (y / 32768) +
        (x / 32768 * (y / 32768) + x % 32768 * (y % 32768)) := by ring
  simp only [ddmulWith, copy31To32, high_eq, low_eq, rshiftl_baseBits]
  generalize x / 32768 = xh at *
  generalize x % 32768 = xl at *
  generalize y / 32768 = yh at *
  generalize y % 32768 = yl at *
  generalize eqp : (xh + xl) * (yh + yl) = p at *
  generalize eqa : xh * yh = a at *
  generalize xh * yl + xl * yh = b at *
  generalize eqc : xl * yl = c at *
  norm_num [base] at product bound
  have middle : p - (a + c) = b := by omega
  have result : a + b / 32768 + (c + b % 32768 * 2 ^ 15) / 1073741824 = x * y / 1073741824 ∧
      (c + b % 32768 * 2 ^ 15) % 1073741824 = x * y % 1073741824 := by omega
  rw [mul_checked (by omega), ok_bind, mul_checked (by omega), ok_bind, add_checked (by omega),
    ok_bind, add_checked (by omega), ok_bind, mul_checked (by omega), ok_bind,
    add_checked (by omega), ok_bind, eqp, eqa, eqc, sub_checked (by omega) (by omega), ok_bind,
    middle, lshift_checked (by simp only [hBaseBits]; omega), ok_bind]
  simp only [hBaseBits, base, u32andb, andb_maxDigit]
  rw [add_checked (by omega), ok_bind, add_checked (by omega), ok_bind, add_checked (by omega),
    ok_bind, trunc31_checked (by omega), ok_bind, trunc31_checked (by omega)]
  exact congrArg Except.ok (Prod.ext result.1 result.2)

theorem ddmul_spec (hx : x < base) (hy : y < base) : ddmul x y = (x * y / base, x * y % base) := by
  have eq := ddmulWith_agrees x y _ (ddmulWith_checked hx hy)
  exact Except.ok.inj eq

theorem carry_spec (hc : c < base)
    (eq : ds = if c = 0 then [] else [c]) : Digits ds ∧ value ds = c := by
  subst eq
  split
  case isTrue zero => exact ⟨normal_nil, by simp [zero]⟩
  case isFalse nonzero => exact ⟨digits_singleton (Nat.pos_of_ne_zero nonzero) hc, by simp [value]⟩

theorem natmadd_nil (w c : Nat) : natmadd w [] c = if c = 0 then [] else [c] := by
  rcases w with _ | _ | w <;> cases c <;> rfl

theorem natmadd_zero (xs : List Nat) (c : Nat) : natmadd 0 xs c = if c = 0 then [] else [c] := by
  cases c <;> cases xs <;> rfl

theorem natmadd_cons (hw : 1 < w) (x : Nat) (xs : List Nat) (c : Nat) :
    natmadd w (x :: xs) c = (maddig w x c).2 :: natmadd w xs (maddig w x c).1 := by
  obtain ⟨v, rfl⟩ : ∃ v, w = v + 2 := ⟨w - 2, by omega⟩
  cases c <;> rfl

theorem maddig_spec (hw : w < base) (hx : x < base) (hc : c < base) :
    (maddig w x c).1 < base ∧ (maddig w x c).2 < base ∧
      (maddig w x c).2 + base * (maddig w x c).1 = w * x + c := by
  have bound : w * x ≤ (base - 1) * (base - 1) :=
    Nat.mul_le_mul (Nat.le_sub_one_of_lt hw) (Nat.le_sub_one_of_lt hx)
  obtain ⟨lt, sum⟩ := adddig_spec (Nat.mod_lt (w * x) base_pos) hc
  simp only [maddig, ddmul_spec hw hx]
  generalize adddig (w * x % base) c = digit at lt sum ⊢
  obtain ⟨carry, l'⟩ := digit
  simp only [base] at *
  cases carry with
  | false =>
    simp only [Bool.toNat_false, Bool.false_eq_true, if_false] at sum ⊢
    omega
  | true =>
    have inc : u31add (w * x / 1073741824) 1 = w * x / 1073741824 + 1 :=
      Word.add_eq (by norm_num; omega)
    simp only [Bool.toNat_true, if_true, inc] at sum ⊢
    omega

theorem natmadd_spec (hw : w < base) (hx : Digits xs) (hc : c < base) :
    Digits (natmadd w xs c) ∧ value (natmadd w xs c) = w * value xs + c := by
  induction xs generalizing c with
  | nil => simpa using carry_spec hc (natmadd_nil w c)
  | cons x xs ih =>
    rcases Nat.lt_trichotomy w 1 with zero | rfl | more
    · obtain rfl : w = 0 := by omega
      simpa using carry_spec hc (natmadd_zero (x :: xs) c)
    · cases c with
      | zero => exact ⟨hx, by simp [natmadd]⟩
      | succ c =>
        have one := natadd0_spec hx (digits_singleton c.succ_pos hc)
        simpa [natmadd, value] using one
    · obtain ⟨lt', lt, eq⟩ := maddig_spec hw hx.head_lt hc
      obtain ⟨normal, val⟩ := ih hx.tail lt'
      have total : value (natmadd w (x :: xs) c) = w * value (x :: xs) + c := by
        rw [natmadd_cons more, value_cons, value_cons, val]
        linarith
      have pos : 0 < w * value (x :: xs) := Nat.mul_pos (by omega) hx.value_cons_pos
      rw [total, natmadd_cons more]
      refine ⟨Digits.cons lt normal ?_, rfl⟩
      rw [← natmadd_cons more, total]
      omega

theorem natadd0_zero (hx : Digits xs) (ne : xs ≠ []) : natadd0 xs [0] = xs := by
  obtain ⟨x, xs, rfl⟩ := List.exists_cons_of_ne_nil ne
  obtain ⟨lt, sum⟩ := adddig_spec hx.head_lt base_pos
  have head := hx.head_lt
  have carryless : (adddig x 0).1 = false := by
    by_contra carried
    rw [Bool.not_eq_false] at carried
    simp only [carried, Bool.toNat_true] at sum
    omega
  rw [carryless, Bool.toNat_false] at sum
  have digit : (adddig x 0).2 = x := by omega
  cases xs <;> simp [natadd0, natadd01, carryless, digit]

theorem natmul_spec (hx : Digits xs) (hy : Digits ys) :
    Digits (natmul xs ys) ∧ value (natmul xs ys) = value xs * value ys := by
  induction xs with
  | nil => exact ⟨normal_nil, by simp [natmul]⟩
  | cons x xs ih =>
    rcases ys with _ | ⟨y, ys⟩
    · exact ⟨normal_nil, by simp [natmul]⟩
    by_cases one : y :: ys = [1]
    · rw [one]
      exact ⟨by simpa [natmul] using hx, by simp [natmul, value]⟩
    by_cases unit : x :: xs = [1]
    · rw [unit]
      have eq : natmul [1] (y :: ys) = y :: ys := by unfold natmul; split <;> simp_all
      rw [eq]
      exact ⟨hy, by simp [value]⟩
    have step : natmul (x :: xs) (y :: ys) =
        natadd0 (natmadd x (y :: ys) 0) (0 :: natmul xs (y :: ys)) := by
      conv_lhs => unfold natmul
      split <;> simp_all
    have ypos := hy.value_cons_pos
    obtain ⟨hm, vm⟩ := natmadd_spec hx.head_lt hy base_pos
    obtain ⟨hr, vr⟩ := ih hx.tail
    rw [step]
    by_cases last : xs = []
    · subst last
      have xpos : 0 < x := hx.head_pos
      have ne : natmadd x (y :: ys) 0 ≠ [] := by
        intro nil
        rw [nil, value_nil] at vm
        have := Nat.mul_pos xpos ypos
        omega
      have single : natmul [] (y :: ys) = [] := rfl
      rw [single, natadd0_zero hm ne, vm]
      exact ⟨hm, by simp [value]⟩
    · have shifted : Digits (0 :: natmul xs (y :: ys)) := by
        refine Digits.cons base_pos hr ?_
        rw [value_cons, vr]
        have := Nat.mul_pos base_pos (Nat.mul_pos (Digits.pos hx.tail last) ypos)
        omega
      obtain ⟨ha, va⟩ := natadd0_spec hm shifted
      refine ⟨ha, ?_⟩
      rw [va, vm, value_cons 0, vr, value_cons x]
      ring

end Mythryl.CoreMultiwordInt

/-! # Multiword integers are the integers -/

namespace Mythryl.CoreMultiwordInt
open Nat Numeral

structure MultiwordInt where
  rep : Rep
  normal : rep.Normal

namespace MultiwordInt

def toInt (x : MultiwordInt) : ℤ := x.rep.toInt

def ofInt (i : ℤ) : MultiwordInt where
  rep := ⟨decide (i < 0), Nat.digits base i.natAbs⟩
  normal := ⟨normal_digits base_gt_one _, fun nil => by
    have zero : i.natAbs = 0 := by
      rw [← ofDigits_digits base i.natAbs, show Nat.digits base i.natAbs = [] from nil, ofDigits_nil]
    simp only [decide_eq_false_iff_not]
    omega⟩

theorem toInt_ofInt (i : ℤ) : (ofInt i).toInt = i := by
  simp only [toInt, Rep.toInt, ofInt, value, ofDigits_digits, decide_eq_true_eq]
  split <;> omega

end MultiwordInt

theorem Rep.Normal.ext {x y : Rep} (hx : x.Normal) (hy : y.Normal) (eq : x.toInt = y.toInt) :
    x = y := by
  have px := hx.abs_pos
  have py := hy.abs_pos
  obtain ⟨sx, dx⟩ := x
  obtain ⟨sy, dy⟩ := y
  simp only [Rep.toInt] at eq px py
  have signs : sx = sy := by
    cases sx <;> cases sy <;>
      simp only [Bool.false_eq_true, if_false, if_true, forall_const] at eq px py ⊢
    · omega
    · omega
  subst signs
  have abs : value dx = value dy := by cases sx <;> simpa using eq
  obtain rfl : dx = dy := Numeral.Normal.ext base_gt_one hx.digits hy.digits abs
  rfl

namespace MultiwordInt

theorem toInt_injective : Function.Injective toInt := by
  rintro ⟨x, hx⟩ ⟨y, hy⟩ eq
  have := hx.ext hy eq
  congr

def equivInt : MultiwordInt ≃ ℤ where
  toFun := toInt
  invFun := ofInt
  left_inv x := toInt_injective (toInt_ofInt x.toInt)
  right_inv := toInt_ofInt

end MultiwordInt

def Returns (run : Outcome Rep) (i : ℤ) : Prop := ∃ r, run = .ok r ∧ Denotes r i

theorem Denotes.eq_ofInt {r : Rep} {i : ℤ} (h : Denotes r i) : r = (MultiwordInt.ofInt i).rep :=
  h.1.ext (MultiwordInt.ofInt i).normal (h.2.trans (MultiwordInt.toInt_ofInt i).symm)

variable {x y : Rep}

theorem negative_iff (hx : x.Normal) : x.negative = decide (x.toInt < 0) := by
  have pos := hx.abs_pos
  rw [Rep.toInt]
  cases h : x.negative <;> simp_all

theorem value_digits (x : Rep) : value x.digits = x.toInt.natAbs := by
  rw [Rep.toInt]
  split <;> simp

theorem add_returns (hx : x.Normal) (hy : y.Normal) : Returns (add x y) (x.toInt + y.toInt) := by
  obtain ⟨r, run, den⟩ := add0_spec y.negative hx.digits hy.digits hx.zero
  exact ⟨r, run, den⟩

theorem sub_returns (hx : x.Normal) (hy : y.Normal) : Returns (sub x y) (x.toInt - y.toInt) := by
  obtain ⟨r, run, den⟩ := add0_spec (!y.negative) hx.digits hy.digits hx.zero
  refine ⟨r, run, ?_⟩
  convert den using 1
  unfold Rep.toInt
  cases y.negative <;> simp [sub_eq_add_neg]

theorem neg_denotes (hx : x.Normal) : Denotes (neg x) (-x.toInt) := by
  have den := bi_denotes (!x.negative) hx.digits
  rw [neg, Rep.toInt]
  cases h : x.negative <;> simpa [h] using den

theorem mul_denotes (hx : x.Normal) (hy : y.Normal) : Denotes (mul x y) (x.toInt * y.toInt) := by
  obtain ⟨normal, val⟩ := natmul_spec hx.digits hy.digits
  have den := bi_denotes (x.negative != y.negative) normal
  rw [val] at den
  rw [mul, Rep.toInt, Rep.toInt]
  cases hx : x.negative <;> cases hy : y.negative <;> simpa [hx, hy] using den

theorem compare_natCast (m n : Nat) : compare (m : ℤ) n = compare m n := by
  rcases lt_trichotomy m n with lt | rfl | lt
  · rw [compare_lt_iff_lt.mpr lt, compare_lt_iff_lt.mpr (by omega)]
  · simp
  · rw [compare_gt_iff_gt.mpr lt, compare_gt_iff_gt.mpr (by omega)]

theorem compare_neg_natCast (m n : Nat) : compare (-m : ℤ) (-n) = compare n m := by
  rcases lt_trichotomy m n with lt | rfl | lt
  · rw [compare_gt_iff_gt.mpr lt, compare_gt_iff_gt.mpr (by omega)]
  · simp
  · rw [compare_lt_iff_lt.mpr lt, compare_lt_iff_lt.mpr (by omega)]

theorem compare'_eq (hx : x.Normal) (hy : y.Normal) : compare' x y = compare x.toInt y.toInt := by
  have px := hx.abs_pos
  have py := hy.abs_pos
  have hxy := natcmp_eq hx.digits hy.digits
  have hyx := natcmp_eq hy.digits hx.digits
  obtain ⟨sx, dx⟩ := x
  obtain ⟨sy, dy⟩ := y
  cases sx <;> cases sy <;>
    simp only [compare', Rep.toInt, Bool.false_eq_true, if_false, if_true, forall_const] at *
  · rw [hxy, compare_natCast]
  · exact (compare_gt_iff_gt.mpr (by omega)).symm
  · exact (compare_lt_iff_lt.mpr (by omega)).symm
  · rw [hyx, compare_neg_natCast]

theorem lt_eq (hx : x.Normal) (hy : y.Normal) : lt x y = decide (x.toInt < y.toInt) := by
  have order := compare'_eq hx hy
  have hxy := natcmp_eq hx.digits hy.digits
  have hyx := natcmp_eq hy.digits hx.digits
  have key : lt x y = (compare' x y == .lt) := by
    obtain ⟨sx, dx⟩ := x
    obtain ⟨sy, dy⟩ := y
    cases sx <;> cases sy <;> try rfl
    simp only [lt, compare', if_true, hxy, hyx]
    rcases lt_trichotomy (value dx) (value dy) with h | h | h
    · rw [compare_lt_iff_lt.mpr h, compare_gt_iff_gt.mpr h]; rfl
    · rw [h]; simp
    · rw [compare_gt_iff_gt.mpr h, compare_lt_iff_lt.mpr h]; rfl
  rw [key, order, Bool.eq_iff_iff]
  simp [compare_lt_iff_lt]

theorem core_operations_exact (x y : MultiwordInt) : Returns (add x.rep y.rep) (x.toInt + y.toInt) ∧
    Returns (sub x.rep y.rep) (x.toInt - y.toInt) ∧ Denotes (mul x.rep y.rep) (x.toInt * y.toInt) ∧
    Denotes (neg x.rep) (-x.toInt) ∧ compare' x.rep y.rep = compare x.toInt y.toInt ∧
    lt x.rep y.rep = decide (x.toInt < y.toInt) ∧ le x.rep y.rep = decide (x.toInt ≤ y.toInt) ∧
    gt x.rep y.rep = decide (x.toInt > y.toInt) ∧ ge x.rep y.rep = decide (x.toInt ≥ y.toInt) := by
  have below := lt_eq x.normal y.normal
  have above := lt_eq y.normal x.normal
  refine ⟨add_returns x.normal y.normal, sub_returns x.normal y.normal,
    mul_denotes x.normal y.normal, neg_denotes x.normal, compare'_eq x.normal y.normal,
    below, ?_, above, ?_⟩
  · rw [le, gt, above, ← decide_not]
    exact decide_eq_decide.mpr not_lt
  · rw [ge, below, ← decide_not]
    exact decide_eq_decide.mpr not_lt

end Mythryl.CoreMultiwordInt
