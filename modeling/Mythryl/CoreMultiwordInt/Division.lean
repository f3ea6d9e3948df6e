import Mythryl.CoreMultiwordInt.Rep

/-!
# Division

`natdivmod` and the signed divisions of `src/lib/core/init/core-multiword-int.pkg`.
-/

namespace Mythryl.CoreMultiwordInt
open Nat Numeral

def zero : Rep := ⟨false, []⟩

def posi (digits : List Nat) : Rep := ⟨false, digits⟩
def negi (digits : List Nat) : Rep := ⟨true, digits⟩
def zneg (digits : List Nat) : Rep := bi ⟨true, digits⟩

def consd : Nat → List Nat → List Nat
  | 0, [] => []
  | x, xs => x :: xs

def scale (w : Nat) : Nat := u31div base (u31add w 1)

def lengthAndLast : List Nat → Nat × Nat
  | [] => (0, 0)
  | [x] => (0, x)
  | _ :: l =>
      let (len, last) := lengthAndLast l
      (len + 1, last)

def nth : Nat → List Nat → Nat
  | _, [] => 0
  | 0, x :: _ => x
  | n + 1, _ :: xs => nth n xs

def adjLoop (i y : Nat) : Nat → Nat → Nat → Outcome (Nat × Nat)
  | 0, _, _ => throw .unfinished
  | fuel + 1, q, x =>
      if x ≥ y then return (q, u31sub x y) else adjLoop i y fuel (u31sub q 1) (u31add x i)

def adj (i q r vx : Nat) : Outcome (Nat × Nat) :=
  let x := u31add (u31lshift r hBaseBits) vx
  let y := u31mul q (u31andb i maxDigitL)
  adjLoop i y (q + 1) q x

def natdivmod2 (u v i : Nat) : Outcome (Nat × Nat) := do
  let low w := u31andb w maxDigitL
  let high w := u31rshiftl w hBaseBits
  let (vh, vl) := (high v, low v)
  let ih := high i
  let (q1, r1) ← adj i (u31div u ih) (u31mod u ih) vh
  let (q0, r0) ← adj i (u31div r1 ih) (u31mod r1 ih) vl
  return (u31add (u31lshift q1 hBaseBits) q0, r0)

def adjLoopWith (A : Arithmetic) (i y : Nat) : Nat → Nat → Nat → Outcome (Nat × Nat)
  | 0, _, _ => throw .unfinished
  | fuel + 1, q, x =>
      if x ≥ y then do return (q, ← A.sub x y)
      else do adjLoopWith A i y fuel (← A.sub q 1) (← A.add x i)

/-- `corrections` bounds how often the quotient is corrected; the code has no such bound. -/
def adjWith (A : Arithmetic) (corrections : Nat → Nat) (i q r vx : Nat) : Outcome (Nat × Nat) := do
  let x ← A.add (← A.lshift r hBaseBits) vx
  let y ← A.mul q (u31andb i maxDigitL)
  adjLoopWith A i y (corrections q + 1) q x

/-- `natdivmod2` where `A` does the arithmetic: the code is the case of `wrapping 31`. -/
def natdivmod2With (A : Arithmetic) (corrections : Nat → Nat) (u v i : Nat) :
    Outcome (Nat × Nat) := do
  let low w := u31andb w maxDigitL
  let high w := u31rshiftl w hBaseBits
  let (vh, vl) := (high v, low v)
  let ih := high i
  let (q1, r1) ← adjWith A corrections i (u31div u ih) (u31mod u ih) vh
  let (q0, r0) ← adjWith A corrections i (u31div r1 ih) (u31mod r1 ih) vl
  return (← A.add (← A.lshift q1 hBaseBits) q0, r0)

def dmi (i' : Nat) : List Nat → Outcome (List Nat × Nat)
  | [] => return ([], 0)
  | d :: r => do
      let (qt, rm) ← dmi i' r
      let (q1, r1) ← natdivmod2 rm d i'
      return (consd q1 qt, r1)

def natdivmodd (m : List Nat) (i : Nat) : Outcome (List Nat × Nat) :=
  if i = 1 then return (m, 0)
  else do
    let i' := u31mul i (scale i)
    let m' := natmadd (scale i) m 0
    let (q, r) ← dmi i' m'
    return (q, u31div r (scale i))

def msds : List Nat → ℤ → Nat × Nat
  | [], _ => (0, 0)
  | [d], i => if i = 0 then (0, d) else msds [] (i - 1)
  | [d2, d1], i => if i = 0 then (d1, d2) else msds [d1] (i - 1)
  | _ :: r, i => msds r (i - 1)

def trialDigit (m1 m2 n1 : Nat) : Outcome Nat :=
  if m1 = n1 then return maxDigit else (natdivmod2 m1 m2 n1).map Prod.fst

def tryDigit (m n' : List Nat) : Nat → Nat → List Nat → Outcome (Nat × List Nat)
  | 0, _, _ => throw .unfinished
  | fuel + 1, q, qn' =>
      match natsub0 m qn' with
      | .ok rr => return (q, rr)
      | .error .negative => do tryDigit m n' fuel (u31sub q 1) (← natsub0 qn' n')
      | .error e => throw e

def divl (ln n1 : Nat) (n' : List Nat) : List Nat → Outcome (List Nat × List Nat)
  | [] => return ([], [])
  | d :: r => do
      let (qt, rm) ← divl ln n1 n' r
      let m := consd d rm
      let (m1, m2) := msds m ln
      let tq ← trialDigit m1 m2 n1
      let (q, rr) ← tryDigit m n' (tq + 1) tq (natmadd tq n' 0)
      return (consd q qt, rr)

def natdivmod : List Nat → List Nat → Outcome (List Nat × List Nat)
  | _, [] => throw .divideByZero
  | [], _ => return ([], [])
  | d :: r, 0 :: s => do
      let (qt, rm) ← natdivmod r s
      return (qt, consd d rm)
  | m, [d] => do
      let (qt, rm) ← natdivmodd m d
      return (qt, if rm = 0 then [] else [rm])
  | m, n => do
      let (ln, last) := lengthAndLast n
      let m' := natmadd (scale last) m 0
      let n' := natmadd (scale last) n 0
      let n1 := nth ln n'
      let (qt, rm') ← divl ln n1 n' m'
      let (rm, _) ← natdivmodd rm' (scale last)
      return (qt, rm)

def quotRem' : Rep → Rep → Outcome (Rep × Rep)
  | _, ⟨_, []⟩ => throw .divideByZero
  | ⟨_, []⟩, _ => return (zero, zero)
  | x, y => do
      let (q, r) ← natdivmod x.digits y.digits
      return (if x.negative != y.negative then zneg q else posi q,
        if x.negative then zneg r else posi r)

def divMod' : Rep → Rep → Outcome (Rep × Rep)
  | _, ⟨_, []⟩ => throw .divideByZero
  | ⟨_, []⟩, _ => return (zero, zero)
  | x, y =>
      if x.negative == y.negative then do
        let (q, r) ← natdivmod x.digits y.digits
        return (posi q, if x.negative then zneg r else posi r)
      else do
        let (m, n) := (x.digits, y.digits)
        let (q, r) ← natdivmod (← natdec m) n
        let mdd ← natsub n r true
        return (negi (natinc q), if x.negative then posi mdd else zneg mdd)

/-! # Division is exact -/

theorem scale_spec {w : Nat} (pos : 0 < w) (lt : w < base) :
    0 < scale w ∧ (w + 1) * scale w ≤ base ∧ base ≤ 2 * (w * scale w) := by
  have inc : u31add w 1 = w + 1 := Word.add_eq (by simp only [base] at lt; omega)
  have split := Nat.div_add_mod base (w + 1)
  have rem := Nat.mod_lt base (Nat.succ_pos w)
  simp only [scale, u31div, inc]
  have spos : 0 < base / (w + 1) := Nat.div_pos (by omega) (by omega)
  generalize base / (w + 1) = s at *
  generalize base % (w + 1) = t at *
  refine ⟨spos, by omega, ?_⟩
  rcases Nat.lt_or_ge 1 s with two | one
  · have grow : w * 2 ≤ w * s := Nat.mul_le_mul_left w two
    rcases Nat.lt_or_ge 1 w with big | small
    · have : 2 * s ≤ w * s := Nat.mul_le_mul_right s big
      nlinarith
    · obtain rfl : w = 1 := by omega
      simp only [base] at *
      omega
  · obtain rfl : s = 1 := by omega
    simp only [base] at *
    omega

variable {i R k : Nat} {m n ds n' : List Nat}

theorem adjLoopWith_wrapping (i y fuel q x : Nat) :
    adjLoopWith (wrapping 31) i y fuel q x = adjLoop i y fuel q x := by
  induction fuel generalizing q x with
  | zero => rfl
  | succ fuel ih => exact if_congr Iff.rfl rfl (ih _ _)

theorem natdivmod2With_wrapping (u v i : Nat) :
    natdivmod2With (wrapping 31) id u v i = natdivmod2 u v i := by
  have eq (q r vx : Nat) : adjWith (wrapping 31) id i q r vx = adj i q r vx :=
    adjLoopWith_wrapping _ _ _ _ _
  simp only [natdivmod2With, eq]
  rfl

theorem adjLoopWith_agrees (i y fuel q x : Nat) :
    Agrees (adjLoopWith (checked 31) i y fuel q x) (adjLoopWith (wrapping 31) i y fuel q x) := by
  induction fuel generalizing q x with
  | zero => exact fun _ h => h
  | succ fuel ih =>
    unfold adjLoopWith
    split
    · exact (checked_sub _ _).bind fun _ _ h => h
    · exact (checked_sub _ _).bind fun _ => (checked_add _ _).bind fun _ => ih _ _

theorem adjWith_agrees (corrections : Nat → Nat) (i q r vx : Nat) :
    Agrees (adjWith (checked 31) corrections i q r vx)
      (adjWith (wrapping 31) corrections i q r vx) :=
  (checked_lshift _ _).bind fun _ => (checked_add _ _).bind fun _ => (checked_mul _ _).bind fun _ =>
    adjLoopWith_agrees _ _ _ _ _

theorem natdivmod2With_agrees (corrections : Nat → Nat) (u v i : Nat) :
    Agrees (natdivmod2With (checked 31) corrections u v i)
      (natdivmod2With (wrapping 31) corrections u v i) :=
  (adjWith_agrees _ _ _ _ _).bind fun _ => (adjWith_agrees _ _ _ _ _).bind fun _ =>
    (checked_lshift _ _).bind fun _ => (checked_add _ _).bind fun _ _ h => h

theorem adjLoopWith_done {q x y t : Nat} (fuel : Nat) (lt : x < 2 ^ 31) (le : y ≤ x)
    (inv : t + y = q * i + x) (less : x < y + i) :
    adjLoopWith (checked 31) i y (fuel + 1) q x = .ok (t / i, t % i) := by
  have ipos : 0 < i := by omega
  have eq : t = (x - y) + q * i := by omega
  have quot : t / i = q := by
    rw [eq, Nat.add_mul_div_right _ _ ipos, Nat.div_eq_of_lt (by omega)]
    omega
  have rem : t % i = x - y := by
    rw [eq, Nat.add_mul_mod_self_right, Nat.mod_eq_of_lt (by omega)]
  rw [adjLoopWith, if_pos le, sub_checked le lt, quot, rem]
  rfl

/-- The quotient is corrected while the product `y` exceeds `x`, here at most `fuel` times. -/
theorem adjLoopWith_checked {y t : Nat} (hi : i < base) (hy : y < base) (fuel q x : Nat)
    (enough : y ≤ x + fuel * i) (small : q < 2 ^ 31) (inv : t + y = q * i + x) (less : x < y + i) :
    adjLoopWith (checked 31) i y (fuel + 1) q x = .ok (t / i, t % i) := by
  simp only [base] at hi hy
  induction fuel generalizing q x with
  | zero => exact adjLoopWith_done _ (by omega) (by omega) inv less
  | succ fuel ih =>
    by_cases le : y ≤ x
    · exact adjLoopWith_done _ (by omega) le inv less
    · have qpos : 0 < q := by
        by_contra zero
        obtain rfl : q = 0 := by omega
        omega
      have step : q * i = (q - 1) * i + i := by
        rw [← Nat.succ_mul, Nat.succ_eq_add_one, Nat.sub_add_cancel qpos]
      rw [adjLoopWith, if_neg le, sub_checked qpos small, ok_bind, add_checked (by omega), ok_bind]
      rw [Nat.succ_mul] at enough
      exact ih (q - 1) (x + i) (by omega) (by omega) (by omega) (by omega)

theorem adjWith_checked {u vx : Nat} {corrections : Nat → Nat} (half : base ≤ 2 * i)
    (enough : ∀ q, q ≤ corrections q ∨ 2 ≤ corrections q) (hi : i < base) (hu : u < i)
    (hv : vx < 32768) : adjWith (checked 31) corrections i (u / (i / 32768)) (u % (i / 32768)) vx =
      .ok ((u * 32768 + vx) / i, (u * 32768 + vx) % i) := by
  have high : 16384 ≤ i / 32768 := by simp only [base] at half; omega
  have high' : i / 32768 < 32768 := by simp only [base] at hi; omega
  have quot : u / (i / 32768) < 32770 := by
    rw [Nat.div_lt_iff_lt_mul (by omega)]
    omega
  have rem : u % (i / 32768) < i / 32768 := Nat.mod_lt _ (by omega)
  have split : u / (i / 32768) * (i / 32768) + u % (i / 32768) = u := by
    rw [Nat.mul_comm]
    exact Nat.div_add_mod u _
  have isplit : i = i / 32768 * 32768 + i % 32768 := by omega
  have prod : u / (i / 32768) * (i % 32768) ≤ 32769 * 32767 := Nat.mul_le_mul (by omega) (by omega)
  simp only [adjWith, show u31andb i maxDigitL = i % 32768 from low_eq i, hBaseBits]
  generalize u / (i / 32768) = q at *
  generalize u % (i / 32768) = r at *
  rw [lshift_checked (by omega), ok_bind, add_checked (by omega), ok_bind, mul_checked (by omega),
    ok_bind]
  have whole : u * 32768 + vx + q * (i % 32768) = q * i + (r * 32768 + vx) := by
    conv_rhs => rw [isplit]
    rw [← split]
    ring
  refine adjLoopWith_checked hi (by simp only [base]; omega) _ _ _ ?_ (by omega) whole (by omega)
  -- the quotient of the halves is at most two too large
  rcases enough q with all | two
  · have := Nat.mul_le_mul_right i all
    omega
  · have := Nat.mul_le_mul_right i two
    omega

theorem natdivmod2With_checked {u v : Nat} {corrections : Nat → Nat} (half : base ≤ 2 * i)
    (enough : ∀ q, q ≤ corrections q ∨ 2 ≤ corrections q) (hi : i < base) (hu : u < i)
    (hv : v < base) : natdivmod2With (checked 31) corrections u v i =
      .ok ((u * base + v) / i, (u * base + v) % i) := by
  have ipos : 0 < i := by omega
  have vh : v / 32768 < 32768 := by simp only [base] at hv; omega
  have vl : v % 32768 < 32768 := Nat.mod_lt _ (by decide)
  have shifts (w : Nat) : u31rshiftl w hBaseBits = w / 32768 := Nat.shiftRight_eq_div_pow w 15
  have lows (w : Nat) : u31andb w maxDigitL = w % 32768 := low_eq w
  have first := adjWith_checked half enough hi hu vh
  have below : (u * 32768 + v / 32768) % i < i := Nat.mod_lt _ ipos
  have second := adjWith_checked half enough hi below vl
  have q1 : (u * 32768 + v / 32768) / i < 32768 := by
    rw [Nat.div_lt_iff_lt_mul ipos]
    omega
  have q0 : ((u * 32768 + v / 32768) % i * 32768 + v % 32768) / i < 32768 := by
    rw [Nat.div_lt_iff_lt_mul ipos]
    omega
  -- the dividend, one half digit after the other
  have dividend : u * base + v =
      (u * 32768 + v / 32768) % i * 32768 + v % 32768 +
        (u * 32768 + v / 32768) / i * 32768 * i := by
    have h1 := Nat.div_add_mod (u * 32768 + v / 32768) i
    have h2 : (u * 32768 + v / 32768) / i * 32768 * i =
        i * ((u * 32768 + v / 32768) / i) * 32768 := by ring
    simp only [base]
    omega
  rw [dividend, Nat.add_mul_div_right _ _ ipos, Nat.add_mul_mod_self_right]
  simp only [natdivmod2With, shifts, lows, u31div, u31mod]
  rw [first, ok_bind]
  rw [second, ok_bind]
  rw [lshift_checked (by simp only [hBaseBits]; omega), ok_bind, hBaseBits,
    add_checked (by omega), ok_bind, pure_eq, Nat.add_comm]
  norm_num only

theorem natdivmod2_spec {u v : Nat} (half : base ≤ 2 * i) (hi : i < base) (hu : u < i)
    (hv : v < base) : natdivmod2 u v i = .ok ((u * base + v) / i, (u * base + v) % i) := by
  rw [← natdivmod2With_wrapping]
  exact natdivmod2With_agrees _ _ _ _ _
    (natdivmod2With_checked half (fun _ => .inl le_rfl) hi hu hv)

theorem digit_steps_exact :
    (∀ u v i, base ≤ 2 * i → i < base → u < i → v < base →
      natdivmod2With (checked 31) (fun _ => 2) u v i =
        .ok ((u * base + v) / i, (u * base + v) % i) ∧
      natdivmod2 u v i = .ok ((u * base + v) / i, (u * base + v) % i) ∧
      (u * base + v) / i < base) ∧
    ∀ a b, a < base → b < base → ∃ hi lo, ddmulWith (checked 32) a b = .ok (hi, lo) ∧
      ddmul a b = (hi, lo) ∧ hi * base + lo = a * b ∧ hi < base ∧ lo < base := by
  constructor
  · intro u v i half hi hu hv
    refine ⟨natdivmod2With_checked half (fun _ => .inr le_rfl) hi hu hv,
      natdivmod2_spec half hi hu hv, ?_⟩
    rw [Nat.div_lt_iff_lt_mul (by omega)]
    nlinarith
  · intro a b ha hb
    refine ⟨_, _, ddmulWith_checked ha hb, ddmul_spec ha hb, Nat.div_add_mod' _ _, ?_,
      Nat.mod_lt _ base_pos⟩
    rw [Nat.div_lt_iff_lt_mul base_pos]
    exact Nat.mul_lt_mul'' ha hb

theorem digit_steps_exact_least :
    natdivmod2 (2 ^ 29 - 1) (base - 1) (2 ^ 29) = .ok (base - 1, 2 ^ 29 - 1) ∧
      ∃ hi lo, ddmul (base - 1) (base - 1) = (hi, lo) ∧
        hi * base + lo = (base - 1) * (base - 1) := by
  have step := digit_steps_exact.1 (2 ^ 29 - 1) (base - 1) (2 ^ 29) (by decide) (by decide)
    (by decide) (by decide)
  obtain ⟨hi, lo, _, run, eq, _⟩ := digit_steps_exact.2 (base - 1) (base - 1) (by decide) (by decide)
  exact ⟨step.2.1, hi, lo, run, eq⟩

theorem consd_spec {x : Nat} {xs : List Nat} (lt : x < base) (h : Digits xs) :
    Digits (consd x xs) ∧ value (consd x xs) = x + base * value xs := by
  by_cases empty : x = 0 ∧ xs = []
  · obtain ⟨rfl, rfl⟩ := empty
    exact ⟨normal_nil, rfl⟩
  · have eq : consd x xs = x :: xs := by unfold consd; split <;> simp_all
    have pos : 0 < value (x :: xs) := by
      rw [value_cons]
      rcases Nat.eq_zero_or_pos x with rfl | xpos
      · exact Nat.add_pos_right _ (Nat.mul_pos base_pos (Digits.pos h (by simpa using empty)))
      · omega
    rw [eq]
    exact ⟨Digits.cons lt h pos, value_cons x xs⟩

theorem long_step {n d Q : Nat} (pos : 0 < n) :
    (d + base * (n * Q + R)) / n = (R * base + d) / n + base * Q ∧
      (d + base * (n * Q + R)) % n = (R * base + d) % n := by
  have eq : d + base * (n * Q + R) = R * base + d + n * (base * Q) := by ring
  rw [eq]
  exact ⟨Nat.add_mul_div_left _ _ pos, Nat.add_mul_mod_self_left _ _ _⟩

theorem digit_lt {n d : Nat} (pos : 0 < n) (lt : R < n) (hd : d < base) :
    (R * base + d) / n < base := by
  rw [Nat.div_lt_iff_lt_mul pos]
  have := Nat.mul_le_mul_right base (show R + 1 ≤ n from lt)
  linarith

theorem dmi_spec (half : base ≤ 2 * i) (hi : i < base) (hm : Digits m) :
    ∃ q, dmi i m = .ok (q, value m % i) ∧ Digits q ∧ value q = value m / i := by
  have ipos : 0 < i := by simp only [base] at half; omega
  induction m with
  | nil => exact ⟨[], by simp [dmi], normal_nil, by simp⟩
  | cons d r ih =>
    obtain ⟨qt, run, normal, val⟩ := ih hm.tail
    have below : value r % i < i := Nat.mod_lt _ ipos
    have digit := natdivmod2_spec half hi below hm.head_lt
    obtain ⟨quot, rem⟩ := long_step (d := d) (R := value r % i) (Q := value r / i) ipos
    rw [Nat.div_add_mod, ← value_cons] at quot rem
    obtain ⟨hc, vc⟩ := consd_spec (digit_lt ipos below hm.head_lt) normal
    refine ⟨_, ?_, hc, by rw [vc, val, quot]⟩
    simp [dmi, run, digit, rem]

theorem natdivmodd_spec (hm : Digits m) (pos : 0 < i) (hi : i < base) :
    ∃ q, natdivmodd m i = .ok (q, value m % i) ∧ Digits q ∧ value q = value m / i := by
  by_cases one : i = 1
  · subst one
    exact ⟨m, by simp [natdivmodd, Nat.mod_one], hm, by simp⟩
  · obtain ⟨spos, room, half⟩ := scale_spec pos hi
    have expand : (i + 1) * scale i = i * scale i + scale i := by ring
    have hi' : u31mul i (scale i) = i * scale i := Word.mul_eq (by simp only [base] at *; omega)
    obtain ⟨hm', vm'⟩ := natmadd_spec (c := 0) (show scale i < base by omega) hm base_pos
    obtain ⟨q, run, normal, val⟩ := dmi_spec half (show i * scale i < base by omega) hm'
    rw [vm', Nat.add_zero, Nat.mul_comm i] at run val
    rw [Nat.mul_mod_mul_left] at run
    rw [Nat.mul_div_mul_left _ _ spos] at val
    refine ⟨q, ?_, normal, val⟩
    rw [natdivmodd, if_neg one]
    simp [hi', Nat.mul_comm i, run, u31div, Nat.mul_div_cancel_left _ spos]

theorem msds_eq (short : m.length ≤ i + 2) : msds m i = (m.getD (i + 1) 0, m.getD i 0) := by
  induction m generalizing i with
  | nil => simp [msds]
  | cons d r ih =>
    cases i with
    | zero =>
      rcases r with _ | ⟨d1, _ | ⟨d0, r⟩⟩
      · rfl
      · rfl
      · simp at short
    | succ i =>
      have step : msds (d :: r) ((i + 1 : Nat) : ℤ) = msds r i := by
        have pos : ((i + 1 : Nat) : ℤ) ≠ 0 := by omega
        have pred : ((i + 1 : Nat) : ℤ) - 1 = i := by omega
        rcases r with _ | ⟨d1, _ | ⟨d0, r⟩⟩ <;> simp only [msds, if_neg pos, pred]
      rw [step, ih (by simpa using short)]
      simp

theorem lengthAndLast_spec (hn : Digits n) (ne : n ≠ []) :
    0 < (lengthAndLast n).2 ∧ (lengthAndLast n).2 < base ∧ ∃ low < base ^ (lengthAndLast n).1,
        value n = (lengthAndLast n).2 * base ^ (lengthAndLast n).1 + low := by
  induction n with
  | nil => simp at ne
  | cons d n ih =>
    cases n with
    | nil => exact ⟨hn.head_pos, hn.head_lt, 0, by simp [lengthAndLast], by simp [lengthAndLast, value]⟩
    | cons e n =>
      obtain ⟨pos, lt, low, small, eq⟩ := ih hn.tail (by simp)
      have step : lengthAndLast (d :: e :: n) =
          ((lengthAndLast (e :: n)).1 + 1, (lengthAndLast (e :: n)).2) := rfl
      have hd := hn.head_lt
      rw [step]
      refine ⟨pos, lt, d + base * low, ?_, ?_⟩
      · have := Nat.mul_le_mul_left base (show low + 1 ≤ _ from small)
        rw [Nat.pow_succ]
        linarith
      · rw [value_cons, eq, Nat.pow_succ]
        ring

theorem nth_eq (k : Nat) (n : List Nat) : nth k n = n.getD k 0 := by
  induction n generalizing k with
  | nil => cases k <;> rfl
  | cons d n ih => cases k <;> simp [nth, ih]

theorem value_top (h : Digits ds) (lt : value ds < base ^ (k + 1)) :
    ∃ low < base ^ k, value ds = ds.getD k 0 * base ^ k + low :=
  ofDigits_top base_gt_one h.lt (h.length_le base_gt_one lt)

theorem value_top_two (h : Digits ds) (lt : value ds < base ^ (k + 2)) :
    ∃ low < base ^ k, value ds = (ds.getD (k + 1) 0 * base + ds.getD k 0) * base ^ k + low :=
  ofDigits_top_two base_gt_one h.lt (h.length_le base_gt_one lt)

theorem trialDigit_spec {M N P M0 N0 m1 m2 n1 : Nat} (hM : M = (m1 * base + m2) * P + M0)
    (hN : N = n1 * P + N0) (hM0 : M0 < P) (hN0 : N0 < P) (lt : M < base * N)
    (half : base ≤ 2 * n1) (hn1 : n1 < base) (hm2 : m2 < base) :
    ∃ tq, trialDigit m1 m2 n1 = .ok tq ∧ M / N ≤ tq ∧ tq < base := by
  have Ppos : 0 < P := by omega
  have Npos : 0 < N := by
    rw [hN]
    exact Nat.add_pos_left (Nat.mul_pos (by simp only [base] at half; omega) Ppos) _
  have below : M / N < base := (Nat.div_lt_iff_lt_mul Npos).mpr lt
  by_cases top : m1 = n1
  · exact ⟨maxDigit, by simp [trialDigit, top], Nat.le_sub_one_of_lt below, by decide⟩
  · -- the two leading digits are at most `n1 * base + base - 1`
    have lead : m1 * base + m2 < base * (n1 + 1) := by
      by_contra ge
      nlinarith
    have m1lt : m1 < n1 := by
      by_contra ge
      have := Nat.mul_le_mul_left base (show n1 + 1 ≤ m1 by omega)
      linarith
    have digit := natdivmod2_spec half hn1 m1lt hm2
    refine ⟨_, by rw [trialDigit, if_neg top, digit]; rfl, ?_, digit_lt (by omega) m1lt hm2⟩
    rw [Nat.le_div_iff_mul_le (by omega)]
    by_contra gt
    have h1 := Nat.mul_le_mul_right P (show m1 * base + m2 + 1 ≤ M / N * n1 by omega)
    have h2 := Nat.div_mul_le_self M N
    have h3 : M / N * N = M / N * n1 * P + M / N * N0 := by rw [hN]; ring
    have h5 := Nat.zero_le (M / N * N0)
    linarith

theorem tryDigit_spec {Q : Nat} (hm : Digits m) (hn : Digits n')
    (eq : value m = Q * value n' + R) (lt : R < value n') (fuel q : Nat) (qn' : List Nat)
    (enough : q < fuel) (small : q < base) (hq : Digits qn') (val : value qn' = q * value n')
    (trial : Q ≤ q) : ∃ rr, tryDigit m n' fuel q qn' = .ok (Q, rr) ∧ Digits rr ∧ value rr = R := by
  induction fuel generalizing q qn' with
  | zero => omega
  | succ fuel ih =>
    rw [tryDigit]
    rcases Nat.eq_or_lt_of_le trial with rfl | strict
    · rcases natsub0_spec hm hq with ⟨_, rr, run, normal, diff⟩ | ⟨gt, _⟩
      · exact ⟨rr, by simp [run], normal, by omega⟩
      · omega
    · have more := Nat.mul_le_mul_right (value n') (show Q + 1 ≤ q from strict)
      have next : (Q + 1) * value n' = Q * value n' + value n' := by ring
      have step : (q - 1) * value n' + value n' = q * value n' := by
        rw [← Nat.succ_mul, Nat.succ_eq_add_one, Nat.sub_add_cancel (by omega)]
      have dec : u31sub q 1 = q - 1 :=
        Word.sub_eq (by omega) (by simp only [base] at small; omega)
      rcases natsub0_spec hm hq with ⟨le, _⟩ | ⟨_, run⟩
      · omega
      rcases natsub0_spec hq hn with ⟨_, less, run', normal', diff'⟩ | ⟨gt', _⟩
      · obtain ⟨rr, done⟩ := ih (q - 1) less (by omega) (by omega) normal' (by omega) (by omega)
        exact ⟨rr, by simpa [run, run', dec] using done⟩
      · omega

def ExactDigit (ln : Nat) (n' m : List Nat) : Prop :=
  let (m1, m2) := msds m ln
  ∃ tq, trialDigit m1 m2 (nth ln n') = .ok tq ∧ value m / value n' ≤ tq ∧
    ∀ fuel, tq < fuel → ∃ rr,
      tryDigit m n' fuel tq (natmadd tq n' 0) = .ok (value m / value n', rr) ∧
        Digits rr ∧ value rr = value m % value n'

theorem exactDigit {ln : Nat} (hn : Digits n') (short : value n' < base ^ (ln + 1))
    (half : base ≤ 2 * nth ln n') (hm : Digits m) (lt : value m < base * value n') :
    ExactDigit ln n' m := by
  rw [nth_eq] at half
  obtain ⟨N0, hN0, hN⟩ := value_top hn short
  have npos : 0 < value n' := by
    by_contra zero
    rw [Nat.eq_zero_of_not_pos zero, Nat.mul_zero] at lt
    omega
  have shorter : value m < base ^ (ln + 2) := by
    rw [Nat.pow_succ']
    exact lt.trans (Nat.mul_lt_mul_of_pos_left short base_pos)
  obtain ⟨M0, hM0, hM⟩ := value_top_two hm shorter
  obtain ⟨tq, trial, ge, tqlt⟩ := trialDigit_spec hM hN hM0 hN0 lt half
    (getD_lt base_pos hn.lt ln) (getD_lt base_pos hm.lt ln)
  obtain ⟨ht, vt⟩ := natmadd_spec (c := 0) tqlt hn base_pos
  rw [ExactDigit, msds_eq (hm.length_le base_gt_one shorter), nth_eq]
  refine ⟨tq, trial, ge, fun fuel enough => ?_⟩
  exact tryDigit_spec hm hn (by rw [Nat.mul_comm]; exact (Nat.div_add_mod _ _).symm)
    (Nat.mod_lt _ npos) fuel tq _ enough tqlt ht vt ge

theorem divl_spec {ln : Nat} (hn : Digits n') (short : value n' < base ^ (ln + 1))
    (half : base ≤ 2 * nth ln n') (hm : Digits m) :
    ∃ q r, divl ln (nth ln n') n' m = .ok (q, r) ∧ Digits q ∧ Digits r ∧
      value q = value m / value n' ∧ value r = value m % value n' := by
  have ne : n' ≠ [] := by
    rintro rfl
    simp [nth_eq, base] at half
  have npos := Digits.pos hn ne
  induction m with
  | nil => exact ⟨[], [], rfl, normal_nil, normal_nil, by simp, by simp⟩
  | cons d r ih =>
    obtain ⟨qt, rm, run, hqt, hrm, vqt, vrm⟩ := ih hm.tail
    have below : value r % value n' < value n' := Nat.mod_lt _ npos
    obtain ⟨hc, vc⟩ := consd_spec hm.head_lt hrm
    rw [vrm, Nat.add_comm, Nat.mul_comm] at vc
    -- the running remainder with the next digit is less than `base` times the divisor
    have lt : value (consd d rm) < base * value n' := by
      have := Nat.mul_le_mul_left base (show value r % value n' + 1 ≤ value n' from below)
      have := hm.head_lt
      rw [vc]
      linarith
    obtain ⟨tq, trial, _, loop⟩ := exactDigit hn short half hc lt
    obtain ⟨rr, loop, hrr, vrr⟩ := loop (tq + 1) (Nat.lt_succ_self tq)
    obtain ⟨quot, rem⟩ := long_step (d := d) (R := value r % value n') (Q := value r / value n') npos
    rw [Nat.div_add_mod, ← value_cons] at quot rem
    obtain ⟨hq, vq⟩ := consd_spec (digit_lt npos below hm.head_lt) hqt
    rw [vc] at loop vrr
    refine ⟨_, rr, ?_, hq, hrr, by rw [vq, vqt, quot], by rw [vrr, rem]⟩
    simp only [divl, run, ok_bind, trial, loop, pure_eq]

theorem scaled_divisor (hn : Digits n) (ne : n ≠ []) :
    let (ln, last) := lengthAndLast n
    let n' := natmadd (scale last) n 0
    0 < scale last ∧ scale last < base ∧ Digits n' ∧ value n' = scale last * value n ∧
      value n' < base ^ (ln + 1) ∧ base ≤ 2 * nth ln n' := by
  obtain ⟨pos, lt, low, small, eq⟩ := lengthAndLast_spec hn ne
  generalize lengthAndLast n = top at *
  obtain ⟨ln, last⟩ := top
  simp only at *
  obtain ⟨spos, room, half⟩ := scale_spec pos lt
  have slt : scale last < base := by
    have expand : (last + 1) * scale last = last * scale last + scale last := by ring
    omega
  obtain ⟨hn', vn'⟩ := natmadd_spec (c := 0) slt hn base_pos
  have short : value (natmadd (scale last) n 0) < base ^ (ln + 1) := by
    rw [vn', eq, Nat.pow_succ']
    calc scale last * (last * base ^ ln + low)
        < scale last * ((last + 1) * base ^ ln) :=
          Nat.mul_lt_mul_of_pos_left (by linarith) spos
      _ = (last + 1) * scale last * base ^ ln := by ring
      _ ≤ base * base ^ ln := Nat.mul_le_mul_right _ room
  refine ⟨spos, slt, hn', vn', short, ?_⟩
  rw [nth_eq]
  obtain ⟨N0, hN0, hN⟩ := value_top hn' short
  have top : last * scale last < (natmadd (scale last) n 0).getD ln 0 + 1 := by
    by_contra ge
    have h1 := Nat.mul_le_mul_right (base ^ ln) (not_lt.mp ge)
    have h2 : scale last * (last * base ^ ln) ≤ scale last * value n := by
      rw [eq]
      exact Nat.mul_le_mul_left _ (Nat.le_add_right _ _)
    linarith
  omega

theorem natdivmod_long (hm : Digits m) (hn : Digits n) (ne : n ≠ []) :
    ∃ q r, (do
        let (ln, last) := lengthAndLast n
        let n' := natmadd (scale last) n 0
        let (qt, rm') ← divl ln (nth ln n') n' (natmadd (scale last) m 0)
        let (rm, _) ← natdivmodd rm' (scale last)
        return (qt, rm) : Outcome (List Nat × List Nat)) = .ok (q, r) ∧ Digits q ∧ Digits r ∧
      value q = value m / value n ∧ value r = value m % value n := by
  have top := scaled_divisor hn ne
  generalize lengthAndLast n = len at *
  obtain ⟨spos, slt, hn', vn', short, half⟩ := top
  obtain ⟨hm', vm'⟩ := natmadd_spec (c := 0) slt hm base_pos
  obtain ⟨q, r', run, hq, hr', vq, vr'⟩ := divl_spec hn' short half hm'
  obtain ⟨r, run', hr, vr⟩ := natdivmodd_spec hr' spos slt
  rw [vm', vn', Nat.add_zero] at vq vr'
  refine ⟨q, r, by simp only [run, run', ok_bind, pure_eq], hq, hr, ?_, ?_⟩
  · rw [vq, Nat.mul_div_mul_left _ _ spos]
  · rw [vr, vr', Nat.mul_mod_mul_left, Nat.mul_div_cancel_left _ spos]

theorem natdivmod_spec (hm : Digits m) (hn : Digits n) (ne : n ≠ []) :
    ∃ q r, natdivmod m n = .ok (q, r) ∧ Digits q ∧ Digits r ∧
      value q = value m / value n ∧ value r = value m % value n := by
  induction m generalizing n with
  | nil =>
    obtain ⟨e, s, rfl⟩ := List.exists_cons_of_ne_nil ne
    exact ⟨[], [], rfl, normal_nil, normal_nil, by simp, by simp⟩
  | cons d r ih =>
    obtain ⟨e, s, rfl⟩ := List.exists_cons_of_ne_nil ne
    rcases Nat.eq_zero_or_pos e with rfl | epos
    · -- the divisor ends in a zero digit: divide without the last digits
      have sne : s ≠ [] := by
        rintro rfl
        exact absurd hn.head_pos (lt_irrefl 0)
      have spos := Digits.pos hn.tail sne
      obtain ⟨q, rm, run, hq, hr, vq, vr⟩ := ih hm.tail hn.tail sne
      obtain ⟨hc, vc⟩ := consd_spec hm.head_lt hr
      have zero : value (0 :: s) = base * value s := by rw [value_cons]; omega
      have eq : value (d :: r) = d + base * (value r % value s) + base * value s * (value r / value s) := by
        have := Nat.div_add_mod (value r) (value s)
        rw [value_cons]
        conv_lhs => rw [← this]
        ring
      have small : d + base * (value r % value s) < base * value s := by
        have := Nat.mul_le_mul_left base (show value r % value s + 1 ≤ value s from Nat.mod_lt _ spos)
        have := hm.head_lt
        linarith
      refine ⟨q, consd d rm, by simp [natdivmod, run], hq, hc, ?_, ?_⟩
      · rw [zero, vq, eq, Nat.add_mul_div_left _ _ (Nat.mul_pos base_pos spos),
          Nat.div_eq_of_lt small, Nat.zero_add]
      · rw [zero, vc, vr, eq, Nat.add_mul_mod_self_left, Nat.mod_eq_of_lt small]
    · obtain ⟨e, rfl⟩ : ∃ v, e = v + 1 := ⟨e - 1, by omega⟩
      rcases s with _ | ⟨f, s⟩
      · obtain ⟨q, run, hq, vq⟩ := natdivmodd_spec hm epos hn.head_lt
        have single : value [e + 1] = e + 1 := by simp [value]
        obtain ⟨hr, vr⟩ := carry_spec (c := value (d :: r) % (e + 1))
          ((Nat.mod_lt _ epos).trans hn.head_lt) rfl
        refine ⟨q, _, ?_, hq, hr, by rw [vq, single], by rw [vr, single]⟩
        simp only [natdivmod, run, ok_bind, pure_eq]
      · exact natdivmod_long hm hn ne

def signed (s : Bool) (v : Nat) : ℤ := if s then -(v : ℤ) else v

theorem Rep.toInt_eq (x : Rep) : x.toInt = signed x.negative (value x.digits) := rfl

theorem tdiv_tmod_signed (sx sy : Bool) (m n : Nat) :
    (signed sx m).tdiv (signed sy n) = signed (sx != sy) (m / n) ∧
      (signed sx m).tmod (signed sy n) = signed sx (m % n) := by
  have quot := Int.ofNat_tdiv m n
  have rem := Int.ofNat_tmod m n
  cases sx <;> cases sy <;> simp [signed, quot, rem]

theorem fdiv_fmod_same (s : Bool) (m n : Nat) : (signed s m).fdiv (signed s n) = (m / n : Nat) ∧
      (signed s m).fmod (signed s n) = signed s (m % n) := by
  have quot : (signed s m).fdiv (signed s n) = (m / n : Nat) := by
    cases s
    · exact (Int.ofNat_fdiv m n).symm
    · exact (Int.neg_fdiv_neg _ _).trans (Int.ofNat_fdiv m n).symm
  refine ⟨quot, ?_⟩
  have split : ((m / n : Nat) : ℤ) * n + (m % n : Nat) = m := by
    exact_mod_cast (Nat.div_add_mod' m n)
  rw [Int.fmod_def, quot]
  cases s
  · simp only [signed, Bool.false_eq_true, if_false]
    linarith
  · simp only [signed, if_true]
    linarith

theorem fdiv_fmod_opposite (s : Bool) {m n q r : Nat} (npos : 0 < n) (pred : k + 1 = m)
    (quot : q = k / n) (rem : r = k % n) :
    (signed s m).fdiv (signed (!s) n) = -((q + 1 : Nat) : ℤ) ∧
      (signed s m).fmod (signed (!s) n) = signed (!s) (n - r - 1 : Nat) := by
  have below : r < n := rem ▸ Nat.mod_lt k npos
  have split : (q : ℤ) * n + r + 1 = m := by
    have := Nat.div_add_mod' k n
    rw [← quot, ← rem] at this
    omega
  have mdd : ((n - r - 1 : Nat) : ℤ) = n - r - 1 := by omega
  cases s
  · simp only [signed, Bool.not_false, Bool.false_eq_true, if_false, if_true, mdd]
    refine (Int.fdiv_fmod_unique' (by omega)).mpr ⟨?_, by omega, by omega⟩
    push_cast
    linarith
  · simp only [signed, Bool.not_true, Bool.false_eq_true, if_false, if_true, mdd]
    refine (Int.fdiv_fmod_unique (by omega)).mpr ⟨?_, by omega, by omega⟩
    push_cast
    linarith

def ReturnsPair (run : Outcome (Rep × Rep)) (q r : ℤ) : Prop :=
  ∃ x y, run = .ok (x, y) ∧ Denotes x q ∧ Denotes y r

theorem zero_denotes : Denotes zero 0 := posi_denotes normal_nil

theorem signed_denotes (s : Bool) (h : Digits ds) :
    Denotes (if s then zneg ds else posi ds) (signed s (value ds)) := by
  cases s
  · exact posi_denotes h
  · exact bi_denotes true h

theorem natinc_ne_nil (xs : List Nat) : natinc xs ≠ [] := by
  cases xs with
  | nil => simp [natinc]
  | cons x xs => unfold natinc; split <;> simp

variable {x y : Rep}

theorem quotRem'_cons (hx : x.digits ≠ []) (hy : y.digits ≠ []) :
    quotRem' x y = (do
      let (q, r) ← natdivmod x.digits y.digits
      return (if x.negative != y.negative then zneg q else posi q,
        if x.negative then zneg r else posi r)) := by
  obtain ⟨sx, _ | ⟨d, dx⟩⟩ := x
  · simp at hx
  obtain ⟨sy, _ | ⟨e, dy⟩⟩ := y
  · simp at hy
  rfl

theorem divMod'_cons (hx : x.digits ≠ []) (hy : y.digits ≠ []) :
    divMod' x y =
      if x.negative == y.negative then do
        let (q, r) ← natdivmod x.digits y.digits
        return (posi q, if x.negative then zneg r else posi r)
      else do
        let (q, r) ← natdivmod (← natdec x.digits) y.digits
        let mdd ← natsub y.digits r true
        return (negi (natinc q), if x.negative then posi mdd else zneg mdd) := by
  obtain ⟨sx, _ | ⟨d, dx⟩⟩ := x
  · simp at hx
  obtain ⟨sy, _ | ⟨e, dy⟩⟩ := y
  · simp at hy
  rfl

theorem division_of_zero (hy : y.digits ≠ []) (hx : x.digits = []) :
    quotRem' x y = .ok (zero, zero) ∧ divMod' x y = .ok (zero, zero) := by
  obtain ⟨sx, dx⟩ := x
  obtain ⟨sy, _ | ⟨e, dy⟩⟩ := y
  · simp at hy
  · simp only at hx
    subst hx
    exact ⟨rfl, rfl⟩

theorem quotRem'_returns (hx : x.Normal) (hy : y.Normal) (nonzero : y.toInt ≠ 0) :
    ReturnsPair (quotRem' x y) (x.toInt.tdiv y.toInt) (x.toInt - y.toInt * x.toInt.tdiv y.toInt) := by
  have ney : y.digits ≠ [] := fun nil => nonzero (by simp [Rep.toInt, nil])
  rw [← Int.tmod_def]
  by_cases nex : x.digits = []
  · have zx : x.toInt = 0 := by simp [Rep.toInt, nex]
    rw [zx, Int.zero_tdiv, Int.zero_tmod]
    exact ⟨zero, zero, (division_of_zero ney nex).1, zero_denotes, zero_denotes⟩
  · obtain ⟨q, r, run, hq, hr, vq, vr⟩ := natdivmod_spec hx.digits hy.digits ney
    obtain ⟨quot, rem⟩ :=
      tdiv_tmod_signed x.negative y.negative (value x.digits) (value y.digits)
    rw [Rep.toInt_eq, Rep.toInt_eq, quot, rem, ← vq, ← vr]
    exact ⟨_, _, by rw [quotRem'_cons nex ney, run]; rfl, signed_denotes _ hq, signed_denotes _ hr⟩

theorem divMod'_returns (hx : x.Normal) (hy : y.Normal) (nonzero : y.toInt ≠ 0) :
    ReturnsPair (divMod' x y) (x.toInt.fdiv y.toInt) (x.toInt - y.toInt * x.toInt.fdiv y.toInt) := by
  have ney : y.digits ≠ [] := fun nil => nonzero (by simp [Rep.toInt, nil])
  rw [← Int.fmod_def]
  by_cases nex : x.digits = []
  · have zx : x.toInt = 0 := by simp [Rep.toInt, nex]
    rw [zx, Int.zero_fdiv, Int.zero_fmod]
    exact ⟨zero, zero, (division_of_zero ney nex).2, zero_denotes, zero_denotes⟩
  rw [Rep.toInt_eq, Rep.toInt_eq]
  by_cases same : x.negative = y.negative
  · obtain ⟨q, r, run, hq, hr, vq, vr⟩ := natdivmod_spec hx.digits hy.digits ney
    obtain ⟨quot, rem⟩ := fdiv_fmod_same y.negative (value x.digits) (value y.digits)
    rw [same, quot, rem, ← vq, ← vr]
    refine ⟨posi q, _, ?_, posi_denotes hq, signed_denotes y.negative hr⟩
    simp [divMod'_cons nex ney, same, run]
  · obtain ⟨k, dec, hk, vk⟩ := natdec_spec hx.digits (Digits.pos hx.digits nex)
    obtain ⟨q, r, run, hq, hr, vq, vr⟩ := natdivmod_spec hk hy.digits ney
    have below : value r < value y.digits := by
      rw [vr]
      exact Nat.mod_lt _ (Digits.pos hy.digits ney)
    rcases natsub_spec hy.digits hr true with ⟨_, mdd, sub, hm, vm⟩ | ⟨gt, _⟩
    · have signs : y.negative = !x.negative := by
        cases hsx : x.negative <;> cases hsy : y.negative <;> simp_all
      obtain ⟨quot, rem⟩ := fdiv_fmod_opposite x.negative (Digits.pos hy.digits ney) vk vq vr
      obtain ⟨hi, vi⟩ := natinc_spec hq
      have vmdd : value y.digits - value r - 1 = value mdd := by
        simp only [Bool.toNat_true] at vm
        omega
      rw [signs, quot, rem, ← vi, vmdd]
      refine ⟨negi (natinc q), if (!x.negative) then zneg mdd else posi mdd, ?_,
        negi_denotes hi (natinc_ne_nil q), signed_denotes _ hm⟩
      have differ : (x.negative == y.negative) = false := by simpa using same
      rw [divMod'_cons nex ney, differ]
      cases x.negative <;> simp [dec, run, sub]
    · simp only [Bool.toNat_true] at gt
      omega

theorem division_exact (x y : MultiwordInt) (nonzero : y.toInt ≠ 0) :
    ReturnsPair (divMod' x.rep y.rep)
      (x.toInt.fdiv y.toInt) (x.toInt - y.toInt * x.toInt.fdiv y.toInt) ∧
    ReturnsPair (quotRem' x.rep y.rep)
      (x.toInt.tdiv y.toInt) (x.toInt - y.toInt * x.toInt.tdiv y.toInt) ∧
    let (ln, last) := lengthAndLast y.rep.digits
    let n' := natmadd (scale last) y.rep.digits 0
    ∀ m, Digits m → value m < base * value n' → ExactDigit ln n' m := by
  refine ⟨divMod'_returns x.normal y.normal nonzero, quotRem'_returns x.normal y.normal nonzero, ?_⟩
  have top := scaled_divisor y.normal.digits (fun nil => nonzero (by
    rw [MultiwordInt.toInt, Rep.toInt, nil]
    simp))
  generalize lengthAndLast y.rep.digits = len at *
  obtain ⟨ln, last⟩ := len
  simp only at top ⊢
  obtain ⟨_, _, hn', _, short, half⟩ := top
  exact fun m hm lt => exactDigit hn' short half hm lt

theorem division_exact_below_divisor : (∃ q r, divMod' ⟨true, [7]⟩ ⟨false, [0, 2]⟩ = .ok (q, r) ∧
      q.toInt = -1 ∧ r.toInt = 2147483641) ∧
    (∃ q r, quotRem' ⟨true, [7]⟩ ⟨false, [0, 2]⟩ = .ok (q, r) ∧ q.toInt = 0 ∧ r.toInt = -7) ∧
    ExactDigit 1 [0, 715827882] [5] := by
  obtain ⟨⟨q, r, floor, hq, hr⟩, ⟨q', r', trunc, hq', hr'⟩, digit⟩ :=
    division_exact ⟨⟨true, [7]⟩, ⟨by decide, by decide⟩, by decide⟩
      ⟨⟨false, [0, 2]⟩, ⟨by decide, by decide⟩, by decide⟩ (by decide)
  refine ⟨⟨q, r, floor, ?_, ?_⟩, ⟨q', r', trunc, ?_, ?_⟩, ?_⟩
  · exact hq.2.trans (by decide)
  · exact hr.2.trans (by decide)
  · exact hq'.2.trans (by decide)
  · exact hr'.2.trans (by decide)
  · exact digit [5] ⟨by decide, by decide⟩ (by decide)

/-! # Two-word integers -/

structure TwoWord where
  hi : Nat
  lo : Nat
  deriving DecidableEq, Repr

def gap : Nat := u31sub 32 baseBits
def slc : Nat := u31sub baseBits gap

def neg64 : TwoWord → TwoWord
  | ⟨hi, 0⟩ => ⟨u32neg hi, 0⟩
  | ⟨hi, lo⟩ => ⟨u32notb hi, u32neg lo⟩

def truncInf64 (i : Rep) : TwoWord :=
  let hilo :=
    match i.digits with
    | [] => ⟨0, 0⟩
    | [d0] => ⟨0, copy31To32 d0⟩
    | [d0, d1] =>
        let (w0, w1) := (copy31To32 d0, copy31To32 d1)
        ⟨u32rshiftl w1 gap, u32orb w0 (u32lshift w1 baseBits)⟩
    | d0 :: d1 :: d2 :: _ =>
        let (w0, w1, w2) := (copy31To32 d0, copy31To32 d1, copy31To32 d2)
        ⟨u32orb (u32rshiftl w1 gap) (u32lshift w2 slc), u32orb w0 (u32lshift w1 baseBits)⟩
  if i.negative then neg64 hilo else hilo

def copyInf64' (negative : Bool) (x : TwoWord) : Rep :=
  match x with
  | ⟨0, 0⟩ => ⟨false, []⟩
  | ⟨hi, lo⟩ =>
      let d0 := trunc32To31 (u32andb lo 0x3fffffff)
      let d1 := trunc32To31 (u32orb (u32lshift (u32andb hi 0xfffffff) 2) (u32rshiftl lo 30))
      let d2 := trunc32To31 (u32rshiftl hi 28)
      ⟨negative,
        if d2 ≠ 0 then [d0, d1, d2] else if d1 ≠ 0 then [d0, d1] else if d0 ≠ 0 then [d0] else []⟩

def extendInf64 (x : TwoWord) : Rep :=
  if u32andb x.hi 0x80000000 ≠ 0 then copyInf64' true (neg64 x) else copyInf64' false x

namespace TwoWord

def toNat (x : TwoWord) : Nat := x.hi * 2 ^ 32 + x.lo

def toInt (x : TwoWord) : ℤ := if x.hi < 2 ^ 31 then x.toNat else x.toNat - 2 ^ 64

def ofNat (n : Nat) : TwoWord := ⟨n / 2 ^ 32 % 2 ^ 32, n % 2 ^ 32⟩

def ofInt (i : ℤ) : TwoWord := ofNat (i % 2 ^ 64).toNat

theorem exists_ofNat (n : Nat) : ∃ q hi lo, hi < 2 ^ 32 ∧ lo < 2 ^ 32 ∧
    n = (q * 2 ^ 32 + hi) * 2 ^ 32 + lo ∧ ofNat n = ⟨hi, lo⟩ :=
  ⟨n / 2 ^ 32 / 2 ^ 32, _, _, Nat.mod_lt _ (by decide), Nat.mod_lt _ (by decide), by
    rw [Nat.div_add_mod', Nat.div_add_mod'], rfl⟩

theorem mk_mod (hi : Nat) {lo : Nat} (lt : lo < 2 ^ 32) :
    (⟨hi % 2 ^ 32, lo⟩ : TwoWord) = ofNat (hi * 2 ^ 32 + lo) := by
  rw [ofNat, TwoWord.mk.injEq]
  omega

theorem ofNat_eq_ofInt {n : Nat} {i : ℤ} (same : (n : ℤ) % 2 ^ 64 = i % 2 ^ 64) :
    ofNat n = ofInt i := by
  have whole : (i % 2 ^ 64).toNat = n % 2 ^ 64 := by
    rw [← same]
    rfl
  rw [ofInt, whole, ofNat, ofNat, show 2 ^ 64 = 2 ^ 32 * 2 ^ 32 from rfl,
    Nat.mod_mul_right_div_self, Nat.mod_mod, Nat.mod_mul_right_mod]

theorem ofNat_eq_ofInt_of_add {n : Nat} {i : ℤ} (k : ℤ) (same : (n : ℤ) = i + 2 ^ 64 * k) :
    ofNat n = ofInt i :=
  ofNat_eq_ofInt (by rw [same, Int.add_mul_emod_self_left])

theorem ofInt_natCast (n : Nat) : ofInt n = ofNat n := (ofNat_eq_ofInt rfl).symm

end TwoWord

structure TwoWordInt extends TwoWord where
  hi_lt : hi < 2 ^ 32
  lo_lt : lo < 2 ^ 32

namespace TwoWordInt

theorem ofNat_toNat (x : TwoWordInt) : TwoWord.ofNat x.toTwoWord.toNat = x.toTwoWord := by
  obtain ⟨⟨hi, lo⟩, hhi, hlo⟩ := x
  simp only at hhi hlo
  simp only [TwoWord.ofNat, TwoWord.toNat, TwoWord.mk.injEq]
  omega

theorem toInt_bounds (x : TwoWordInt) : -2 ^ 63 ≤ x.toTwoWord.toInt ∧ x.toTwoWord.toInt < 2 ^ 63 := by
  obtain ⟨⟨hi, lo⟩, hhi, hlo⟩ := x
  simp only at hhi hlo
  simp only [TwoWord.toInt, TwoWord.toNat]
  split <;> omega

theorem ofInt_toInt (x : TwoWordInt) : TwoWord.ofInt x.toTwoWord.toInt = x.toTwoWord := by
  rw [← TwoWord.ofNat_eq_ofInt, x.ofNat_toNat]
  rw [TwoWord.toInt]
  split
  · rfl
  · exact (Int.sub_emod_right ..).symm

/-- The two-word integer of a number; of one out of range, its low 64 bits. -/
def ofInt (i : ℤ) : TwoWordInt where
  toTwoWord := TwoWord.ofInt i
  hi_lt := Nat.mod_lt _ (by decide)
  lo_lt := Nat.mod_lt _ (by decide)

theorem toInt_ofInt {i : ℤ} (ge : -2 ^ 63 ≤ i) (lt : i < 2 ^ 63) :
    (ofInt i).toTwoWord.toInt = i := by
  rw [TwoWord.toInt]
  split <;> rename_i sign <;>
    simp only [ofInt, TwoWord.ofInt, TwoWord.ofNat, TwoWord.toNat] at sign ⊢ <;> omega

end TwoWordInt

theorem neg64_eq (n : Nat) : neg64 (TwoWord.ofNat n) = TwoWord.ofInt (-n) := by
  obtain ⟨q, hi, lo, hhi, hlo, rfl, words⟩ := TwoWord.exists_ofNat n
  have neg {x : Nat} (lt : x < 2 ^ 32) : u32neg x = (2 ^ 32 - x) % 2 ^ 32 := by
    rw [u32neg, Word.sub, Nat.mod_eq_of_lt lt, zero_add]
  rw [words]
  cases lo with
  | zero =>
    have top : neg64 ⟨hi, 0⟩ = ⟨u32neg hi, 0⟩ := rfl
    rw [top, neg hhi, TwoWord.mk_mod _ (by decide)]
    exact TwoWord.ofNat_eq_ofInt_of_add (q + 1) (by omega)
  | succ lo =>
    have flipped : neg64 ⟨hi, lo + 1⟩ = ⟨(2 ^ 32 - 1 - hi) % 2 ^ 32, 2 ^ 32 - (lo + 1)⟩ := by
      rw [neg64, u32notb, neg hlo, Nat.mod_eq_of_lt (a := 2 ^ 32 - (lo + 1)) (by omega),
        Nat.mod_eq_of_lt (by omega)]
      exact Nat.succ_ne_zero lo
    rw [flipped, TwoWord.mk_mod _ (by omega)]
    exact TwoWord.ofNat_eq_ofInt_of_add (q + 1) (by omega)

theorem words_eq {d0 d1 : Nat} (d2 : Nat) (h0 : d0 < base) (h1 : d1 < base) :
    (⟨u32orb (u32rshiftl d1 gap) (u32lshift d2 slc), u32orb d0 (u32lshift d1 baseBits)⟩ : TwoWord) =
      TwoWord.ofNat (d0 + base * (d1 + base * d2)) := by
  have top : u32lshift d2 slc = 2 ^ 28 * (d2 % 2 ^ 4) := u32lshift_eq d2 (by decide)
  have middle : u32lshift d1 baseBits = 2 ^ 30 * (d1 % 2 ^ 2) := u32lshift_eq d1 (by decide)
  have low : u32rshiftl d1 gap = d1 / 2 ^ 2 := u32rshiftl_eq d1 2
  simp only [base] at h0 h1
  rw [top, middle, low, u32orb_comm, u32orb_eq (by omega), u32orb_comm d0, u32orb_eq (by omega)]
  simp only [TwoWord.ofNat, TwoWord.mk.injEq, base]
  omega

theorem truncInf64_eq {i : Rep} (h : Digits i.digits) :
    truncInf64 i = TwoWord.ofInt (signed i.negative (value i.digits)) := by
  obtain ⟨negative, ds⟩ := i
  have magnitude : truncInf64 ⟨false, ds⟩ = TwoWord.ofNat (value ds) := by
    have lt := h.lt
    rcases ds with _ | ⟨d0, _ | ⟨d1, _ | ⟨d2, ds⟩⟩⟩
    · rfl
    · have h0 := lt d0 (by simp)
      simp only [base] at h0
      simp only [truncInf64, copy31To32, TwoWord.ofNat, value_cons, value_nil, Nat.mul_zero,
        Nat.add_zero, Bool.false_eq_true, if_false, TwoWord.mk.injEq]
      omega
    · have words := words_eq 0 (lt d0 (by simp)) (lt d1 (by simp))
      have none : u32lshift 0 slc = 0 := by decide
      rw [none, show ∀ w, u32orb w 0 = w from Nat.or_zero] at words
      simpa [truncInf64, copy31To32, value_cons] using words
    · have words := words_eq d2 (lt d0 (by simp)) (lt d1 (by simp))
      simp only [truncInf64, copy31To32, Bool.false_eq_true, if_false, words, value_cons]
      simp only [TwoWord.ofNat, TwoWord.mk.injEq, base]
      omega
  cases negative with
  | false => rw [magnitude, signed, if_neg Bool.false_ne_true, TwoWord.ofInt_natCast]
  | true =>
    have negate : truncInf64 ⟨true, ds⟩ = neg64 (truncInf64 ⟨false, ds⟩) := rfl
    rw [negate, magnitude, neg64_eq]
    rfl

theorem copyInf64'_denotes (negative : Bool) {x : TwoWord} (hhi : x.hi < 2 ^ 32)
    (hlo : x.lo < 2 ^ 32) : Denotes (copyInf64' negative x) (signed negative x.toNat) := by
  obtain ⟨hi, lo⟩ := x
  simp only at hhi hlo
  by_cases zero : hi = 0 ∧ lo = 0
  · obtain ⟨rfl, rfl⟩ := zero
    exact ⟨zero_denotes.1, by cases negative <;> rfl⟩
  have hd0 : trunc32To31 (u32andb lo 0x3fffffff) = lo % 2 ^ 30 := by
    rw [show u32andb lo 0x3fffffff = lo % 2 ^ 30 from u32andb_mask lo 30, trunc32To31]
    omega
  have hd1 : trunc32To31 (u32orb (u32lshift (u32andb hi 0xfffffff) 2) (u32rshiftl lo 30)) =
      hi % 2 ^ 28 * 4 + lo / 2 ^ 30 := by
    have low : u32rshiftl lo 30 < 2 ^ 2 := by rw [u32rshiftl_eq]; omega
    rw [show u32andb hi 0xfffffff = hi % 2 ^ 28 from u32andb_mask hi 28, u32lshift_eq _ (by decide),
      u32orb_eq low, u32rshiftl_eq, trunc32To31]
    omega
  have hd2 : trunc32To31 (u32rshiftl hi 28) = hi / 2 ^ 28 := by
    rw [u32rshiftl_eq, trunc32To31]
    omega
  have copy : copyInf64' negative ⟨hi, lo⟩ =
      ⟨negative, consd (lo % 2 ^ 30) (consd (hi % 2 ^ 28 * 4 + lo / 2 ^ 30) (consd (hi / 2 ^ 28) []))⟩ := by
    rw [copyInf64']
    · simp only [hd0, hd1, hd2]
      generalize lo % 2 ^ 30 = d0
      generalize hi % 2 ^ 28 * 4 + lo / 2 ^ 30 = d1
      generalize hi / 2 ^ 28 = d2
      rcases d2 with _ | d2 <;> rcases d1 with _ | d1 <;> rcases d0 with _ | d0 <;> rfl
    · exact fun hhi hlo => zero ⟨hhi, hlo⟩
  obtain ⟨h2, v2⟩ := consd_spec (show hi / 2 ^ 28 < base by simp only [base]; omega) normal_nil
  obtain ⟨h1, v1⟩ := consd_spec (show hi % 2 ^ 28 * 4 + lo / 2 ^ 30 < base by simp only [base]; omega) h2
  obtain ⟨h0, v0⟩ := consd_spec (show lo % 2 ^ 30 < base by simp only [base]; omega) h1
  have whole : value (consd (lo % 2 ^ 30) (consd (hi % 2 ^ 28 * 4 + lo / 2 ^ 30)
      (consd (hi / 2 ^ 28) []))) = TwoWord.toNat ⟨hi, lo⟩ := by
    rw [v0, v1, v2, value_nil]
    simp only [TwoWord.toNat, base]
    omega
  rw [copy, ← whole]
  refine ⟨⟨h0, fun nil => ?_⟩, rfl⟩
  have digits : consd (lo % 2 ^ 30) (consd (hi % 2 ^ 28 * 4 + lo / 2 ^ 30) (consd (hi / 2 ^ 28) [])) =
    [] := nil
  rw [digits, value_nil] at whole
  simp only [TwoWord.toNat] at whole
  omega

theorem andb_sign {w : Nat} (lt : w < 2 ^ 32) : u32andb w 0x80000000 ≠ 0 ↔ ¬w < 2 ^ 31 := by
  have bit : u32andb w 0x80000000 = (w.testBit 31).toNat * 2 ^ 31 := Nat.and_two_pow w 31
  rw [bit, Nat.testBit_eq_decide_div_mod_eq]
  by_cases top : w / 2 ^ 31 % 2 = 1
  · simp only [top, decide_true, Bool.toNat_true]
    omega
  · simp only [top, decide_false, Bool.toNat_false]
    omega

theorem extendInf64_denotes (x : TwoWordInt) :
    Denotes (extendInf64 x.toTwoWord) x.toTwoWord.toInt := by
  obtain ⟨hhi, hlo⟩ := And.intro x.hi_lt x.lo_lt
  have sign := andb_sign hhi
  rw [extendInf64, TwoWord.toInt]
  by_cases neg : x.hi < 2 ^ 31
  · rw [if_neg (mt sign.mp (not_not.mpr neg)), if_pos neg]
    exact copyInf64'_denotes false hhi hlo
  · rw [if_pos (sign.mpr neg), if_neg neg, ← x.ofNat_toNat, neg64_eq, x.ofNat_toNat]
    have den := copyInf64'_denotes true (x := TwoWord.ofInt (-x.toTwoWord.toNat))
      (Nat.mod_lt _ (by decide)) (Nat.mod_lt _ (by decide))
    convert den using 1
    simp only [signed, if_true, TwoWord.ofInt, TwoWord.ofNat, TwoWord.toNat]
    omega

end Mythryl.CoreMultiwordInt
