import Mythryl.CoreMultiwordInt.Division

/-!
# Conversions to and from machine words

The conversions of `src/lib/core/init/core-multiword-int.pkg` between multiword integers and the
words of one or two machine words, signed and unsigned.
-/

namespace Mythryl.CoreMultiwordInt
open Nat Numeral

structure OneWordInt where
  val : ℤ
  ge : -2 ^ 31 ≤ val
  lt : val < 2 ^ 31

def w31toI32 (x : Nat) : ℤ := x
def w32toI32 (x : Nat) : ℤ := if x < 2 ^ 31 then x else x - 2 ^ 32
def i32toW31 (i : ℤ) : Nat := (i % 2 ^ 31).toNat
def i32toW32 (i : ℤ) : Nat := (i % 2 ^ 32).toNat
def i32neg (i : ℤ) : Outcome ℤ := if i = -0x80000000 then throw .overflow else return -i

def testInf (i : Rep) : Outcome ℤ :=
  let negif i32 := if i.negative then i32neg i32 else .ok i32
  match i.digits with
  | [] => return 0
  | [d] => negif (w31toI32 d)
  | [d0, 1] => negif (w32toI32 (u32orb (copy31To32 d0) (copy31To32 base)))
  | [0, 2] => if i.negative then return -0x80000000 else throw .overflow
  | _ => throw .overflow

def testInf64 (i : Rep) : Outcome TwoWord :=
  let negif hilo := if i.negative then neg64 hilo else hilo
  match i.digits with
  | [] => return ⟨0, 0⟩
  | [d] => return negif ⟨0, copy31To32 d⟩
  | [d0, d1] =>
      let (w0, w1) := (copy31To32 d0, copy31To32 d1)
      return negif ⟨u32rshiftl w1 gap, u32orb w0 (u32lshift w1 baseBits)⟩
  | [0, 0, 8] => if i.negative then return ⟨0x80000000, 0⟩ else throw .overflow
  | [d0, d1, d2] =>
      if 8 ≤ d2 then throw .overflow
      else
        let (w0, w1, w2) := (copy31To32 d0, copy31To32 d1, copy31To32 d2)
        return negif ⟨u32orb (u32rshiftl w1 gap) (u32lshift w2 slc), u32orb w0 (u32lshift w1 baseBits)⟩
  | _ => throw .overflow

def lowWord : List Nat → Nat
  | [] => 0
  | [d] => copy31To32 d
  | d0 :: d1 :: _ => u32orb (copy31To32 d0) (u32lshift (copy31To32 d1) baseBits)

def truncInf (i : Rep) : ℤ :=
  let b := lowWord i.digits
  w32toI32 (if i.negative then u32neg b else b)

def extendMagnitude : Bool → Nat → Rep
  | _, 0 => ⟨false, []⟩
  | negative, w31 => ⟨negative, if base ≤ w31 then [u31sub w31 base, 1] else [w31]⟩

def extendInf (i32 : ℤ) : Outcome Rep := do
  if i32 = -0x80000000 then return ⟨true, [0, 2]⟩
  else if i32 < 0 then return extendMagnitude true (i32toW31 (← i32neg i32))
  else return extendMagnitude false (i32toW31 i32)

def copyInf64 (hilo : TwoWord) : Rep := copyInf64' false hilo

def copyInf (i32 : ℤ) : Rep :=
  let w32 := i32toW32 i32
  ⟨false,
    if w32 = 0 then []
    else if copy31To32 base ≤ w32 then
      [trunc32To31 (u32andb w32 maxDigit), trunc32To31 (u32rshiftl w32 baseBits)]
    else [trunc32To31 w32]⟩

theorem i32neg_of_nonneg {i : ℤ} (nonneg : 0 ≤ i) : i32neg i = .ok (-i) :=
  if_neg (by omega)

theorem two_digits {d0 d1 : Nat} (h0 : d0 < base) :
    u32orb d0 (u32lshift d1 baseBits) = (d0 + base * d1) % 2 ^ 32 := by
  have high : u32lshift d1 baseBits = 2 ^ 30 * (d1 % 2 ^ 2) := u32lshift_eq d1 (by decide)
  simp only [base] at h0 ⊢
  rw [high, u32orb_comm, u32orb_eq (by omega)]
  omega

theorem lowWord_eq {ds : List Nat} (h : Digits ds) : lowWord ds = value ds % 2 ^ 32 := by
  have lt := h.lt
  rcases ds with _ | ⟨d0, _ | ⟨d1, ds⟩⟩
  · rfl
  · have h0 := lt d0 (by simp)
    simp only [base] at h0
    simp only [lowWord, copy31To32, value_cons, value_nil]
    omega
  · simp only [lowWord, copy31To32, two_digits (lt d0 (by simp)), value_cons, base]
    omega

theorem truncInf_eq (i : MultiwordInt) : truncInf i.rep = i.toInt.bmod (2 ^ 32) := by
  obtain ⟨⟨negative, ds⟩, ⟨normal, _⟩⟩ := i
  simp only [truncInf, lowWord_eq normal, MultiwordInt.toInt, Rep.toInt, w32toI32, Int.bmod]
  generalize value ds = v
  cases negative
  · simp only [Bool.false_eq_true, if_false]
    split <;> split <;> omega
  · simp only [if_true, u32neg, Word.sub]
    split <;> split <;> omega

theorem testInf_eq (i : MultiwordInt) : testInf i.rep =
    if -2 ^ 31 ≤ i.toInt ∧ i.toInt < 2 ^ 31 then .ok i.toInt else .error .overflow := by
  obtain ⟨⟨negative, ds⟩, ⟨normal, _⟩⟩ := i
  have lt := normal.lt
  have last := normal.last
  simp only [MultiwordInt.toInt, Rep.toInt]
  -- The magnitude that one or two digits stand for, as long as it has 31 bits.
  have small {v : Nat} (room : v < 2 ^ 31) :
      (if negative then i32neg (v : ℤ) else .ok v : Outcome ℤ) =
        if -2 ^ 31 ≤ (if negative then -(v : ℤ) else v) ∧ (if negative then -(v : ℤ) else v) < 2 ^ 31
        then .ok (if negative then -(v : ℤ) else v) else .error .overflow := by
    cases negative
    · simp only [Bool.false_eq_true, if_false]
      rw [if_pos (by omega)]
    · simp only [if_true]
      rw [i32neg_of_nonneg (by omega), if_pos (by omega)]
  have large {v : Nat} (more : 2 ^ 31 < v) :
      ¬(-2 ^ 31 ≤ (if negative then -(v : ℤ) else v) ∧
        (if negative then -(v : ℤ) else v) < 2 ^ 31) := by
    cases negative
    · simp only [Bool.false_eq_true, if_false]
      omega
    · simp only [if_true]
      omega
  rcases ds with _ | ⟨d0, _ | ⟨d1, _ | ⟨d2, ds⟩⟩⟩
  · simp [testInf]
  · have h0 := lt d0 (by simp)
    simp only [base] at h0
    exact small (by omega)
  · have h0 := lt d0 (by simp)
    have h1 := lt d1 (by simp)
    have eq : value [d0, d1] = d0 + base * d1 := by simp [value_cons]
    rw [eq]
    unfold testInf
    simp only [base] at h0 h1 ⊢
    split
    case h_1 nil => cases nil
    case h_2 one => cases one
    case h_3 c0 two =>
      cases two
      have word : u32orb (copy31To32 d0) (copy31To32 1073741824) = d0 + 1073741824 * 1 := by
        have orb := u32orb_eq (n := 30) (c := d0) (by omega) 1
        rw [u32orb_comm]
        exact orb.trans (by omega)
      have signed : w32toI32 (d0 + 1073741824 * 1) = ((d0 + 1073741824 * 1 : Nat) : ℤ) :=
        if_pos (by omega)
      rw [word, signed]
      exact small (by omega)
    case h_4 two =>
      cases two
      cases negative <;> rfl
    case h_5 notOne notTwo =>
      have pos : d1 ≠ 0 := by simpa using last (by simp)
      have notOne' : d1 ≠ 1 := fun one => notOne d0 (by rw [one])
      refine (if_neg (large ?_)).symm
      by_contra le
      have two : d1 = 2 := by omega
      have zero : d0 = 0 := by omega
      exact notTwo (by rw [two, zero])
  · have top : value (d0 :: d1 :: d2 :: ds) = d0 + base * (d1 + base * value (d2 :: ds)) := by
      rw [value_cons, value_cons]
    have pos := Digits.value_cons_pos normal.tail.tail
    rw [top]
    refine Eq.trans ?_ (if_neg (large ?_)).symm
    · simp only [testInf]
      rfl
    · simp only [base]
      omega

theorem extendMagnitude_denotes (negative : Bool) {w : Nat} (lt : w < 2 ^ 31) :
    Denotes (extendMagnitude negative w) (signed negative w) := by
  rcases Nat.eq_zero_or_pos w with rfl | pos
  · refine ⟨⟨normal_nil, fun _ => rfl⟩, ?_⟩
    cases negative <;> rfl
  obtain ⟨ds, eq, normal, val⟩ : ∃ ds, extendMagnitude negative w = ⟨negative, ds⟩ ∧ Digits ds ∧
      value ds = w := by
    have eq : extendMagnitude negative w =
        ⟨negative, if base ≤ w then [u31sub w base, 1] else [w]⟩ := by
      cases w with
      | zero => exact absurd pos (lt_irrefl 0)
      | succ w => rfl
    refine ⟨_, eq, ?_⟩
    split
    case isTrue le =>
      have sub : u31sub w base = w - base := Word.sub_eq le lt
      have kept : w - base < base := by
        simp only [base] at le ⊢
        omega
      have val : value [w - base, 1] = w := by
        simp only [value_cons, value_nil]
        omega
      rw [sub]
      exact ⟨Digits.cons kept (digits_singleton (by decide) (by decide)) (by omega), val⟩
    case isFalse less =>
      exact ⟨digits_singleton pos (not_le.mp less), by simp⟩
  have nonempty : ds ≠ [] := by
    rintro rfl
    simp at val
    omega
  rw [eq, ← val]
  exact ⟨⟨normal, fun nil => absurd nil nonempty⟩, rfl⟩

theorem extendInf_returns (w : OneWordInt) : Returns (extendInf w.val) w.val := by
  obtain ⟨i, ge, lt⟩ := w
  unfold extendInf
  by_cases least : i = -0x80000000
  · rw [if_pos least]
    subst least
    exact ⟨_, rfl, ⟨⟨by decide, by decide⟩, by decide⟩, rfl⟩
  rw [if_neg least]
  by_cases negative : i < 0
  · obtain ⟨n, rfl⟩ : ∃ n : ℕ, i = -(n : ℤ) := ⟨i.natAbs, by omega⟩
    have word : i32toW31 (- -(n : ℤ)) = n := by
      simp only [i32toW31]
      omega
    rw [if_pos negative, i32neg, if_neg least]
    refine ⟨_, rfl, ?_⟩
    rw [word]
    exact extendMagnitude_denotes true (by omega)
  · obtain ⟨n, rfl⟩ := Int.eq_ofNat_of_zero_le (not_lt.mp negative)
    have word : i32toW31 (n : ℤ) = n := by
      simp only [i32toW31]
      omega
    rw [if_neg negative]
    refine ⟨_, rfl, ?_⟩
    rw [word]
    exact extendMagnitude_denotes false (by omega)

theorem copyInf_denotes (w : OneWordInt) : Denotes (copyInf w.val) (w.val % 2 ^ 32) := by
  obtain ⟨n, eq⟩ : ∃ n : ℕ, w.val % 2 ^ 32 = (n : ℤ) :=
    Int.eq_ofNat_of_zero_le (Int.emod_nonneg _ (by decide))
  have word : i32toW32 w.val = n := by
    rw [i32toW32, eq]
    rfl
  have copied : ∃ ds, copyInf w.val = ⟨false, ds⟩ ∧ Digits ds ∧ value ds = n := by
    refine ⟨_, rfl, ?_⟩
    rw [word]
    split
    case isTrue zero => exact ⟨normal_nil, zero.symm⟩
    case isFalse pos =>
      split
      case isTrue le =>
        have le' : 1073741824 ≤ n := le
        have low : trunc32To31 (u32andb n maxDigit) = n % 2 ^ 30 := by
          rw [show u32andb n maxDigit = n % 2 ^ 30 from u32andb_mask n 30, trunc32To31]
          omega
        have high : trunc32To31 (u32rshiftl n baseBits) = n / 2 ^ 30 := by
          rw [u32rshiftl_eq, trunc32To31, show baseBits = 30 from rfl]
          omega
        have val : value [n % 2 ^ 30, n / 2 ^ 30] = n := by
          simp only [value_cons, value_nil, base]
          omega
        rw [low, high]
        refine ⟨Digits.cons ?_ (digits_singleton ?_ ?_) ?_, val⟩
        · exact Nat.mod_lt _ (by decide)
        · omega
        · simp only [base]
          omega
        · omega
      case isFalse less =>
        have less' : ¬1073741824 ≤ n := less
        have kept : trunc32To31 n = n := by
          rw [trunc32To31]
          omega
        rw [kept]
        refine ⟨digits_singleton (by omega) ?_, by simp⟩
        simp only [base]
        omega
  obtain ⟨ds, copy, normal, val⟩ := copied
  rw [copy, eq, ← val]
  exact posi_denotes normal

theorem testInf64_eq (i : MultiwordInt) : testInf64 i.rep =
    if -2 ^ 63 ≤ i.toInt ∧ i.toInt < 2 ^ 63 then .ok (TwoWord.ofInt i.toInt)
    else .error .overflow := by
  obtain ⟨⟨negative, ds⟩, ⟨normal, _⟩⟩ := i
  have lt := normal.lt
  have toInt : MultiwordInt.toInt ⟨⟨negative, ds⟩, ⟨normal, ‹_›⟩⟩ = signed negative (value ds) := rfl
  rw [toInt]
  have small {v : Nat} (room : v < 2 ^ 63) :
      (.ok (if negative then neg64 (TwoWord.ofNat v) else TwoWord.ofNat v) : Outcome TwoWord) =
        if -2 ^ 63 ≤ signed negative v ∧ signed negative v < 2 ^ 63
        then .ok (TwoWord.ofInt (signed negative v)) else .error .overflow := by
    cases negative
    · simp only [signed, Bool.false_eq_true, if_false]
      rw [if_pos (by omega), TwoWord.ofInt_natCast]
    · simp only [signed, if_true]
      rw [if_pos (by omega), neg64_eq]
  have large {v : Nat} (more : 2 ^ 63 < v) :
      ¬(-2 ^ 63 ≤ signed negative v ∧ signed negative v < 2 ^ 63) := by
    cases negative
    · simp only [signed, Bool.false_eq_true, if_false]
      omega
    · simp only [signed, if_true]
      omega
  rcases ds with _ | ⟨d0, _ | ⟨d1, _ | ⟨d2, _ | ⟨d3, ds⟩⟩⟩⟩
  · cases negative <;> rfl
  · have h0 := lt d0 (by simp)
    simp only [base] at h0
    have word : (⟨0, copy31To32 d0⟩ : TwoWord) = TwoWord.ofNat d0 := by
      simp only [copy31To32, TwoWord.ofNat, TwoWord.mk.injEq]
      omega
    have eq : value [d0] = d0 := by simp
    rw [eq, ← small (by omega), ← word]
    rfl
  · have h0 := lt d0 (by simp)
    have h1 := lt d1 (by simp)
    have words := words_eq 0 h0 h1
    have none : u32lshift 0 slc = 0 := by decide
    rw [none, show ∀ w, u32orb w 0 = w from Nat.or_zero] at words
    have eq : value [d0, d1] = d0 + base * (d1 + base * 0) := by simp [value_cons]
    simp only [base] at h0 h1
    rw [eq, ← small (by simp only [base]; omega), ← words]
    rfl
  · have h0 := lt d0 (by simp)
    have h1 := lt d1 (by simp)
    have words := words_eq d2 h0 h1
    have eq : value [d0, d1, d2] = d0 + base * (d1 + base * d2) := by simp [value_cons]
    simp only [base] at h0 h1
    rw [eq]
    unfold testInf64
    simp only
    split
    case h_1 nil => cases nil
    case h_2 one => cases one
    case h_3 two => cases two
    case h_4 least =>
      cases least
      cases negative <;> rfl
    case h_5 c0 c1 c2 notLeast three =>
      cases three
      by_cases high : 8 ≤ d2
      · rw [if_pos high]
        refine (if_neg (large ?_)).symm
        simp only [base]
        by_contra le
        have two : d2 = 8 := by omega
        have one : d1 = 0 := by omega
        have zero : d0 = 0 := by omega
        exact notLeast zero one two
      · rw [if_neg high, ← small (by simp only [base]; omega), ← words]
        rfl
    case h_6 more => exact (more d0 d1 d2 rfl).elim
  · have top : value (d0 :: d1 :: d2 :: d3 :: ds) =
        d0 + base * (d1 + base * (d2 + base * value (d3 :: ds))) := by
      rw [value_cons, value_cons, value_cons]
    have pos := Digits.value_cons_pos normal.tail.tail.tail
    rw [top]
    refine Eq.trans ?_ (if_neg (large ?_)).symm
    · simp only [testInf64]
      rfl
    · simp only [base]
      omega

theorem copyInf64_denotes (x : TwoWordInt) : Denotes (copyInf64 x.toTwoWord) x.toTwoWord.toNat :=
  copyInf64'_denotes false x.hi_lt x.lo_lt

/-- To machine words, out of the signed range with `OVERFLOW` or modulo the size of the word. -/
structure ToWords (i : MultiwordInt) : Prop where
  trunc : truncInf i.rep = i.toInt.bmod (2 ^ 32)
  trunc64 : truncInf64 i.rep = TwoWord.ofInt i.toInt
  test : testInf i.rep =
    if -2 ^ 31 ≤ i.toInt ∧ i.toInt < 2 ^ 31 then .ok i.toInt else .error .overflow
  test64 : (-2 ^ 63 ≤ i.toInt ∧ i.toInt < 2 ^ 63 ∧
      ∃ x : TwoWordInt, testInf64 i.rep = .ok x.toTwoWord ∧ x.toTwoWord.toInt = i.toInt) ∨
    (¬(-2 ^ 63 ≤ i.toInt ∧ i.toInt < 2 ^ 63) ∧ testInf64 i.rep = .error .overflow)

structure FromWord (w : OneWordInt) : Prop where
  extend : Returns (extendInf w.val) w.val
  copy : Denotes (copyInf w.val) (w.val % 2 ^ 32)
  test_extend : (extendInf w.val >>= testInf) = .ok w.val
  trunc_copy : truncInf (copyInf w.val) = w.val

structure FromTwoWords (x : TwoWordInt) : Prop where
  extend : Denotes (extendInf64 x.toTwoWord) x.toTwoWord.toInt
  copy : Denotes (copyInf64 x.toTwoWord) x.toTwoWord.toNat
  test_extend : testInf64 (extendInf64 x.toTwoWord) = .ok x.toTwoWord
  trunc_copy : truncInf64 (copyInf64 x.toTwoWord) = x.toTwoWord

theorem toWords (i : MultiwordInt) : ToWords i where
  trunc := truncInf_eq i
  trunc64 := truncInf64_eq i.normal.digits
  test := testInf_eq i
  test64 := by
    rw [testInf64_eq]
    by_cases range : -2 ^ 63 ≤ i.toInt ∧ i.toInt < 2 ^ 63
    · rw [if_pos range]
      exact .inl ⟨range.1, range.2, .ofInt i.toInt, rfl, TwoWordInt.toInt_ofInt range.1 range.2⟩
    · rw [if_neg range]
      exact .inr ⟨range, rfl⟩

theorem fromWord (w : OneWordInt) : FromWord w where
  extend := extendInf_returns w
  copy := copyInf_denotes w
  test_extend := by
    obtain ⟨r, run, normal, val⟩ := extendInf_returns w
    have tested := testInf_eq ⟨r, normal⟩
    rw [MultiwordInt.toInt, val, if_pos ⟨w.ge, w.lt⟩] at tested
    rw [run]
    exact tested
  trunc_copy := by
    obtain ⟨normal, val⟩ := copyInf_denotes w
    have truncated := truncInf_eq ⟨copyInf w.val, normal⟩
    rw [MultiwordInt.toInt, val] at truncated
    rw [truncated]
    obtain ⟨ge, lt⟩ := And.intro w.ge w.lt
    simp only [Int.bmod]
    split <;> omega

theorem fromTwoWords (x : TwoWordInt) : FromTwoWords x where
  extend := extendInf64_denotes x
  copy := copyInf64_denotes x
  test_extend := by
    obtain ⟨normal, val⟩ := extendInf64_denotes x
    have tested := testInf64_eq ⟨extendInf64 x.toTwoWord, normal⟩
    rw [MultiwordInt.toInt, val, if_pos x.toInt_bounds, x.ofInt_toInt] at tested
    exact tested
  trunc_copy := by
    obtain ⟨normal, val⟩ := copyInf64_denotes x
    have truncated := truncInf64_eq normal.digits
    rw [← Rep.toInt_eq, val, TwoWord.ofInt_natCast, x.ofNat_toNat] at truncated
    exact truncated

theorem conversions_exact : (∀ i : MultiwordInt, ToWords i) ∧ (∀ w : OneWordInt, FromWord w) ∧
    ∀ x : TwoWordInt, FromTwoWords x :=
  ⟨toWords, fromWord, fromTwoWords⟩

end Mythryl.CoreMultiwordInt
