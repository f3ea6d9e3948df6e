import Mythryl.Exceptions
import Mathlib.Data.Nat.Bitwise
import Mathlib.Tactic.Ring
import Mathlib.Tactic.Linarith

/-! # Exceptions and machine words -/

namespace Mythryl

/-- Why an evaluation fails: an exception of the source, or a loop that used up its fuel. -/
inductive Failure
  | overflow | divideByZero | negative | domain | subscript | size | badChar | format | fail
  | unfinished
  deriving DecidableEq, Repr

abbrev Outcome := Except Failure

variable {α β : Type} {n : Nat}

@[simp] theorem Outcome.ok_bind (a : α) (f : α → Outcome β) : Except.ok a >>= f = f a := rfl

@[simp] theorem error_bind (e : Failure) (f : α → Outcome β) :
    (Except.error e : Outcome α) >>= f = .error e := rfl

@[simp] theorem pure_eq (a : α) : (pure a : Outcome α) = .ok a := rfl

namespace Word

def add (w x y : Nat) : Nat := (x + y) % 2 ^ w
def sub (w x y : Nat) : Nat := (x + (2 ^ w - y % 2 ^ w)) % 2 ^ w
def mul (w x y : Nat) : Nat := (x * y) % 2 ^ w
def lshift (w x n : Nat) : Nat := (x <<< n) % 2 ^ w

variable {w x y : Nat}

theorem add_eq (h : x + y < 2 ^ w) : add w x y = x + y := Nat.mod_eq_of_lt h

theorem sub_eq (le : y ≤ x) (h : x < 2 ^ w) : sub w x y = x - y := by
  have hy : y % 2 ^ w = y := Nat.mod_eq_of_lt (by omega)
  rw [sub, hy, show x + (2 ^ w - y) = x - y + 2 ^ w by omega, Nat.add_mod_right]
  exact Nat.mod_eq_of_lt (by omega)

theorem mul_eq (h : x * y < 2 ^ w) : mul w x y = x * y := Nat.mod_eq_of_lt h

theorem lshift_eq {n : Nat} (h : x * 2 ^ n < 2 ^ w) : lshift w x n = x * 2 ^ n := by
  rw [lshift, Nat.shiftLeft_eq]
  exact Nat.mod_eq_of_lt h

end Word

def u31add (x y : Nat) : Nat := Word.add 31 x y
def u31sub (x y : Nat) : Nat := Word.sub 31 x y
def u31mul (x y : Nat) : Nat := Word.mul 31 x y
def u31div (x y : Nat) : Nat := x / y
def u31mod (x y : Nat) : Nat := x % y
def u31andb (x y : Nat) : Nat := x &&& y
def u31orb (x y : Nat) : Nat := x ||| y
def u31xorb (x y : Nat) : Nat := x ^^^ y
def u31lshift (x n : Nat) : Nat := Word.lshift 31 x n
def u31rshiftl (x n : Nat) : Nat := x >>> n

theorem u31rshiftl_eq (x n : Nat) : u31rshiftl x n = x / 2 ^ n := Nat.shiftRight_eq_div_pow x n

theorem u31andb_mask (x n : Nat) : u31andb x (2 ^ n - 1) = x % 2 ^ n :=
  Nat.and_two_pow_sub_one_eq_mod x n

theorem u31orb_eq {c : Nat} (lt : c < 2 ^ n) (x : Nat) : u31orb (2 ^ n * x) c = 2 ^ n * x + c :=
  (Nat.two_pow_add_eq_or_of_lt lt x).symm

theorem u31lshift_eq (x : Nat) (le : n ≤ 31) : u31lshift x n = 2 ^ n * (x % 2 ^ (31 - n)) := by
  have power : 2 ^ 31 = 2 ^ n * 2 ^ (31 - n) := by rw [← pow_add, Nat.add_sub_cancel' le]
  rw [u31lshift, Word.lshift, Nat.shiftLeft_eq, power, Nat.mul_comm, Nat.mul_mod_mul_left]

def u32add (x y : Nat) : Nat := Word.add 32 x y
def u32sub (x y : Nat) : Nat := Word.sub 32 x y
def u32mul (x y : Nat) : Nat := Word.mul 32 x y
def u32neg (x : Nat) : Nat := Word.sub 32 0 x
def u32notb (x : Nat) : Nat := 2 ^ 32 - 1 - x
def u32andb (x y : Nat) : Nat := x &&& y
def u32orb (x y : Nat) : Nat := x ||| y
def u32lshift (x n : Nat) : Nat := Word.lshift 32 x n
def u32rshiftl (x n : Nat) : Nat := x >>> n

theorem u32rshiftl_eq (x n : Nat) : u32rshiftl x n = x / 2 ^ n := Nat.shiftRight_eq_div_pow x n

theorem u32orb_eq {c : Nat} (lt : c < 2 ^ n) (x : Nat) : u32orb (2 ^ n * x) c = 2 ^ n * x + c :=
  (Nat.two_pow_add_eq_or_of_lt lt x).symm

theorem u32orb_comm (x y : Nat) : u32orb x y = u32orb y x := Nat.or_comm x y

theorem u32lshift_eq (x : Nat) (le : n ≤ 32) : u32lshift x n = 2 ^ n * (x % 2 ^ (32 - n)) := by
  have power : 2 ^ 32 = 2 ^ n * 2 ^ (32 - n) := by rw [← pow_add, Nat.add_sub_cancel' le]
  rw [u32lshift, Word.lshift, Nat.shiftLeft_eq, power, Nat.mul_comm, Nat.mul_mod_mul_left]

theorem u32andb_mask (x n : Nat) : u32andb x (2 ^ n - 1) = x % 2 ^ n :=
  Nat.and_two_pow_sub_one_eq_mod x n

def copy31To32 (x : Nat) : Nat := x
def trunc32To31 (x : Nat) : Nat := x % 2 ^ 31

end Mythryl
