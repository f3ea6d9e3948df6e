import Mythryl.Runtime
import Mythryl.Numeral
import Mythryl.Reader

/-!
# Writing numbers

`src/lib/std/src/number-format.pkg`: the text of a one-word integer in four radices.
-/

namespace Mythryl.Number
open Numeral

inductive Radix
  | binary | octal | decimal | hex
  deriving DecidableEq, Repr

def Radix.base : Radix → Nat
  | .binary => 2
  | .octal => 8
  | .decimal => 10
  | .hex => 16

def implode (len : Nat) (cl : List Char) : List Char := cl.takeD len '\x00'

def makeDigit (w : Nat) : Char := "0123456789ABCDEF".toList.getD w '\x00'

def makeBit (w : Nat) : Char := if u32andb w 1 = 0 then '0' else '1'

namespace WordToBin

def f (w n : Nat) (l : List Char) : Nat × List Char :=
  match w with
  | 0 => (n + 1, '0' :: l)
  | 1 => (n + 1, '1' :: l)
  | w + 2 => f (u32rshiftl (w + 2) 1) (n + 1) (makeBit (w + 2) :: l)
termination_by w
decreasing_by simp only [u32rshiftl, Nat.shiftRight_eq_div_pow]; omega

end WordToBin

def wordToBin (w : Nat) : Nat × List Char := WordToBin.f w 0 []

namespace WordToOct

def f (w n : Nat) (l : List Char) : Nat × List Char :=
  if w < 8 then (n + 1, makeDigit w :: l)
  else f (u32rshiftl w 3) (n + 1) (makeDigit (u32andb w 0x7) :: l)
termination_by w
decreasing_by simp only [u32rshiftl, Nat.shiftRight_eq_div_pow]; omega

end WordToOct

def wordToOct (w : Nat) : Nat × List Char := WordToOct.f w 0 []

namespace WordToDec

def f (w n : Nat) (l : List Char) : Nat × List Char :=
  if w < 10 then (n + 1, makeDigit w :: l)
  else
    let j := w / 10
    f j (n + 1) (makeDigit (u32sub w (u32mul 10 j)) :: l)
termination_by w
decreasing_by omega

end WordToDec

def wordToDec (w : Nat) : Nat × List Char := WordToDec.f w 0 []

namespace WordToHex

def f (w n : Nat) (l : List Char) : Nat × List Char :=
  if w < 16 then (n + 1, makeDigit w :: l)
  else f (u32rshiftl w 4) (n + 1) (makeDigit (u32andb w 0xf) :: l)
termination_by w
decreasing_by simp only [u32rshiftl, Nat.shiftRight_eq_div_pow]; omega

end WordToHex

def wordToHex (w : Nat) : Nat × List Char := WordToHex.f w 0 []

def formatW : Radix → Nat → Nat × List Char
  | .binary => wordToBin
  | .octal => wordToOct
  | .decimal => wordToDec
  | .hex => wordToHex

def formatUnt (radix : Radix) (w : Nat) : List Char :=
  let (n, digits) := formatW radix w
  implode n digits

def i2w (i : ℤ) : Nat := (i % 2 ^ 32).toNat

def formatInt (radix : Radix) (i : ℤ) : List Char :=
  if i2w i = 0x80000000 then "-2147483648".toList
  else
    let w32 := i2w (if i < 0 then -i else i)
    let (n, digits) := formatW radix w32
    if i < 0 then implode (n + 1) ('-' :: digits) else implode n digits

theorem implode_eq (l : List Char) : implode l.length l = l := by
  rw [implode, List.takeD_eq_take _ le_rfl, List.take_length]

theorem makeBit_eq (w : Nat) : makeBit w = makeDigit (w % 2) := by
  rw [makeBit, show u32andb w 1 = w % 2 from u32andb_mask w 1]
  rcases Nat.mod_two_eq_zero_or_one w with h | h <;> rw [h] <;> rfl

theorem formatW_spec (radix : Radix) {w : Nat} (lt : w < 2 ^ 32) :
    ∃ ds, Spells radix.base w ds ∧ Short radix.base w ds ∧
      formatW radix w = (ds.length, ds.map makeDigit) := by
  have run : ∃ ds, Spells radix.base w ds ∧ Short radix.base w ds ∧
      formatW radix w = (0 + ds.length, ds.map makeDigit ++ []) := by
    cases radix with
    | binary =>
      refine peel_spec (f := WordToBin.f) (by decide) (fun w n l _ => ?_) lt 0 []
      rcases w with _ | _ | w
      · simp [WordToBin.f, Radix.base, makeDigit]
      · simp [WordToBin.f, Radix.base, makeDigit]
      · rw [WordToBin.f, makeBit_eq, u32rshiftl_eq, if_neg (by simp [Radix.base])]
        rfl
    | octal =>
      refine peel_spec (f := WordToOct.f) (by decide) (fun w n l _ => ?_) lt 0 []
      rw [WordToOct.f, u32rshiftl_eq, show u32andb w 0x7 = w % 8 from u32andb_mask w 3]
      rfl
    | decimal =>
      refine peel_spec (f := WordToDec.f) (by decide) (fun w n l small => ?_) lt 0 []
      have mul : u32mul 10 (w / 10) = 10 * (w / 10) := Word.mul_eq (by omega)
      have sub : u32sub w (10 * (w / 10)) = w % 10 :=
        (Word.sub_eq (by omega) small).trans (by omega)
      rw [WordToDec.f]
      simp only [mul, sub]
      rfl
    | hex =>
      refine peel_spec (f := WordToHex.f) (by decide) (fun w n l _ => ?_) lt 0 []
      rw [WordToHex.f, u32rshiftl_eq, show u32andb w 0xf = w % 16 from u32andb_mask w 4]
      rfl
  simpa using run

theorem formatUnt_spec (radix : Radix) {w : Nat} (lt : w < 2 ^ 32) :
    ∃ ds, Spells radix.base w ds ∧ Short radix.base w ds ∧ formatUnt radix w = ds.map makeDigit := by
  obtain ⟨ds, spells, short, run⟩ := formatW_spec radix lt
  refine ⟨ds, spells, short, ?_⟩
  simp only [formatUnt, run]
  simpa using implode_eq (ds.map makeDigit)

theorem formatInt_spec (radix : Radix) {i : ℤ} (ge : -2 ^ 31 ≤ i) (lt : i < 2 ^ 31)
    (least : i = -2 ^ 31 → radix = .decimal) : ∃ ds, Spells radix.base i.natAbs ds ∧
      formatInt radix i = (if i < 0 then ['-'] else []) ++ ds.map makeDigit := by
  by_cases top : i2w i = 0x80000000
  · obtain rfl : i = -2 ^ 31 := by
      rw [i2w] at top
      omega
    obtain rfl := least rfl
    exact ⟨[2, 1, 4, 7, 4, 8, 3, 6, 4, 8], ⟨by decide, by decide, by decide⟩, by decide⟩
  · have word : i2w (if i < 0 then -i else i) = i.natAbs := by
      rw [i2w]
      split <;> omega
    obtain ⟨ds, spells, _, run⟩ := formatW_spec radix (w := i.natAbs) (by omega)
    refine ⟨ds, spells, ?_⟩
    rw [formatInt, if_neg top]
    simp only [word, run]
    split
    · simpa using implode_eq ('-' :: ds.map makeDigit)
    · simpa using implode_eq (ds.map makeDigit)

/-!
# Reading numbers

`src/lib/std/src/number-scan.pkg`: scanning one-word integers in four radices.
-/

open Reader

variable {σ : Type}

def cvtTable : List Nat :=
  [255, 255, 255, 255, 255, 255, 255, 255, 255, 128, 128, 255, 255, 255, 255, 255,
   255, 255, 255, 255, 255, 255, 255, 255, 255, 255, 255, 255, 255, 255, 255, 255,
   128, 255, 255, 255, 255, 255, 255, 255, 255, 255, 255, 129, 255, 130, 131, 255,
   0, 1, 2, 3, 4, 5, 6, 7, 8, 9, 255, 255, 255, 255, 255, 255,
   255, 10, 11, 12, 13, 14, 15, 16, 17, 18, 19, 20, 21, 22, 23, 24,
   25, 26, 27, 28, 29, 30, 31, 255, 33, 34, 35, 255, 255, 255, 255, 255,
   255, 10, 11, 12, 13, 14, 15, 16, 17, 18, 19, 20, 21, 22, 23, 24,
   25, 26, 27, 28, 29, 30, 31, 32, 33, 34, 35, 255, 255, 255, 130, 255] ++
  List.replicate 128 255

def code (c : Char) : Nat := cvtTable.getD c.toNat 255

def wsCode : Nat := 128
def plusCode : Nat := 129
def minusCode : Nat := 130
def ptCode : Nat := 131
def wCode : Nat := 32
def xCode : Nat := 33

structure PrefixPat where
  /-- A `0w` prefix is all right; then signs are not. -/
  wOkay : Bool
  xOkay : Bool
  ptOkay : Bool
  isDigit : Nat → Bool

structure PrefixResult (σ : Type) where
  neg : Bool
  next : Nat
  rest : σ

section ScanPrefix
variable (p : PrefixPat) (getc : Getc σ)

def getNext (cs : σ) : Option (Nat × σ) :=
  match getc cs with
  | some (c, cs) => some (code c, cs)
  | none => none

def skipWs : Nat → σ → Outcome (Option (Nat × σ))
  | 0, _ => throw .unfinished
  | fuel + 1, cs =>
      match getNext getc cs with
      | some (c, cs') => if c = wsCode then skipWs fuel cs' else return some (c, cs')
      | none => return none

def finish (neg : Bool) : Nat × σ → Option (PrefixResult σ)
  | (c, cs) => if p.isDigit c || (c == ptCode && p.ptOkay) then some ⟨neg, c, cs⟩ else none

def checkDigit (neg : Bool) (savedCs : Nat × σ) : Option (Nat × σ) → Option (PrefixResult σ)
  | some (c, cs) => if p.isDigit c then some ⟨neg, c, cs⟩ else finish p neg savedCs
  | none => finish p neg savedCs

def getOptX (neg : Bool) (savedCs : Nat × σ) : Option (Nat × σ) → Option (PrefixResult σ)
  | none => finish p neg savedCs
  | some (c, cs) =>
      if c == xCode && p.xOkay then checkDigit p neg savedCs (getNext getc cs)
      else checkDigit p neg savedCs (some (c, cs))

def getOptW (neg : Bool) (savedCs : Nat × σ) : Option (Nat × σ) → Option (PrefixResult σ)
  | some (c, cs) =>
      if c == wCode && p.wOkay then getOptX p getc neg savedCs (getNext getc cs)
      else getOptX p getc neg savedCs (some (c, cs))
  | none => finish p neg savedCs

def getOpt0 (neg : Bool) : Option (Nat × σ) → Option (PrefixResult σ)
  | some (c, cs) =>
      if c == 0 && (p.wOkay || p.xOkay) then getOptW p getc neg (c, cs) (getNext getc cs)
      else finish p neg (c, cs)
  | none => none

def getOptSign : Option (Nat × σ) → Option (PrefixResult σ)
  | some (c, cs) =>
      if p.wOkay then getOpt0 p getc false (some (c, cs))
      else if c = plusCode then getOpt0 p getc false (getNext getc cs)
      else if c = minusCode then getOpt0 p getc true (getNext getc cs)
      else getOpt0 p getc false (some (c, cs))
  | none => none

def scanPrefix (fuel : Nat) (cs : σ) : Outcome (Option (PrefixResult σ)) := do
  return getOptSign p getc (← skipWs getc fuel cs)

end ScanPrefix

def isBinDigit (d : Nat) : Bool := d < 2
def isOctDigit (d : Nat) : Bool := d < 8
def isDecDigit (d : Nat) : Bool := d < 10
def isHexDigit (d : Nat) : Bool := d < 16

def binPattern (wOkay : Bool) : PrefixPat := ⟨wOkay, false, false, isBinDigit⟩
def octPattern (wOkay : Bool) : PrefixPat := ⟨wOkay, false, false, isOctDigit⟩
def hexPattern (wOkay : Bool) : PrefixPat := ⟨wOkay, true, false, isHexDigit⟩
def decPattern (wOkay ptOkay : Bool) : PrefixPat := ⟨wOkay, false, ptOkay, isDecDigit⟩

def checkOverflow (mask w : Nat) : Outcome Unit :=
  if u32andb mask w ≠ 0 then throw .overflow else return ()

def largestWordDiv10 : Nat := 429496729
def largestWordMod10 : Nat := 5

def digitCode (isDigit : Nat → Bool) (c : Char) : Option Nat :=
  if isDigit (code c) then some (code c) else none

structure ScanResult (σ : Type) where
  neg : Bool
  word : Nat
  rest : σ

def scanG (p : PrefixPat) (step : Nat → Nat → Outcome Nat) (getc : Getc σ) (fuel : Nat) (cs : σ) :
    Outcome (Option (ScanResult σ)) := do
  match ← scanPrefix p getc fuel cs with
  | some ⟨neg, next, rest⟩ =>
      let (word, rest) ← digits .unfinished getc (digitCode p.isDigit) step fuel next rest
      return some ⟨neg, word, rest⟩
  | none => return none

def shiftIn (mask bits : Nat) (w d : Nat) : Outcome Nat := do
  checkOverflow mask w
  return u32add (u32lshift w bits) d

def timesTen (w d : Nat) : Outcome Nat :=
  if w ≥ largestWordDiv10 ∧ (largestWordDiv10 < w ∨ largestWordMod10 < d) then throw .overflow
  else return u32add (u32mul 10 w) d

def scanBin (isWord : Bool) : Getc σ → Nat → σ → Outcome (Option (ScanResult σ)) :=
  scanG (binPattern isWord) (shiftIn 0x80000000 1)

def scanOct (isWord : Bool) : Getc σ → Nat → σ → Outcome (Option (ScanResult σ)) :=
  scanG (octPattern isWord) (shiftIn 0xE0000000 3)

def scanDec (isWord : Bool) : Getc σ → Nat → σ → Outcome (Option (ScanResult σ)) :=
  scanG (decPattern isWord false) timesTen

def scanHex (isWord : Bool) : Getc σ → Nat → σ → Outcome (Option (ScanResult σ)) :=
  scanG (hexPattern isWord) (shiftIn 0xF0000000 4)

def largestNegInt1 : Nat := 0x80000000
def largestPosInt1 : Nat := 0x7fffffff
def minInt1 : ℤ := -2147483648

def finalWord (scan : Bool → Getc σ → Nat → σ → Outcome (Option (ScanResult σ)))
    (getc : Getc σ) (fuel : Nat) (cs : σ) : Outcome (Option (Nat × σ)) := do
  match ← scan true getc fuel cs with
  | some ⟨_, word, rest⟩ => return some (word, rest)
  | none => return none

def scanWord : Radix → Getc σ → Nat → σ → Outcome (Option (Nat × σ))
  | .binary => finalWord scanBin
  | .octal => finalWord scanOct
  | .decimal => finalWord scanDec
  | .hex => finalWord scanHex

def fromword32 (w : Nat) : ℤ := if w < 2 ^ 31 then w else w - 2 ^ 32

def i1neg (i : ℤ) : Outcome ℤ := if i = minInt1 then throw .overflow else return -i

def finalInt (scan : Bool → Getc σ → Nat → σ → Outcome (Option (ScanResult σ)))
    (getc : Getc σ) (fuel : Nat) (cs : σ) : Outcome (Option (ℤ × σ)) := do
  match ← scan false getc fuel cs with
  | some ⟨true, word, rest⟩ =>
      if word < largestNegInt1 then return some (← i1neg (fromword32 word), rest)
      else if largestNegInt1 < word then throw .overflow
      else return some (minInt1, rest)
  | some ⟨false, word, rest⟩ =>
      if largestPosInt1 < word then throw .overflow else return some (fromword32 word, rest)
  | none => return none

def scanInt : Radix → Getc σ → Nat → σ → Outcome (Option (ℤ × σ))
  | .binary => finalInt scanBin
  | .octal => finalInt scanOct
  | .decimal => finalInt scanDec
  | .hex => finalInt scanHex

/-! # Reading back what was written -/

variable {getc : Getc σ}

def Radix.pattern : Radix → Bool → PrefixPat
  | .binary, isWord => binPattern isWord
  | .octal, isWord => octPattern isWord
  | .decimal, isWord => decPattern isWord false
  | .hex, isWord => hexPattern isWord

def Radix.step : Radix → Nat → Nat → Outcome Nat
  | .binary => shiftIn 0x80000000 1
  | .octal => shiftIn 0xE0000000 3
  | .decimal => timesTen
  | .hex => shiftIn 0xF0000000 4

theorem scanWord_eq (radix : Radix) :
    scanWord (σ := σ) radix = finalWord fun isWord => scanG (radix.pattern isWord) radix.step := by
  cases radix <;> rfl

theorem scanInt_eq (radix : Radix) :
    scanInt (σ := σ) radix = finalInt fun isWord => scanG (radix.pattern isWord) radix.step := by
  cases radix <;> rfl

variable {radix : Radix} {isWord : Bool}

theorem Radix.one_lt_base (radix : Radix) : 1 < radix.base := by cases radix <;> decide

theorem Radix.base_le (radix : Radix) : radix.base ≤ 16 := by cases radix <;> decide

@[simp] theorem pattern_isDigit (d : Nat) :
    (radix.pattern isWord).isDigit d = decide (d < radix.base) := by
  cases radix <;> rfl

@[simp] theorem pattern_wOkay : (radix.pattern isWord).wOkay = isWord := by cases radix <;> rfl

@[simp] theorem pattern_ptOkay : (radix.pattern isWord).ptOkay = false := by cases radix <;> rfl

theorem shiftLeft_and (a w m : Nat) : a <<< m &&& w = (a &&& w >>> m) <<< m := by
  apply Nat.eq_of_testBit_eq
  intro i
  simp only [Nat.testBit_and, Nat.testBit_shiftLeft, Nat.testBit_shiftRight]
  by_cases le : m ≤ i
  · rw [Nat.add_sub_cancel' le, Bool.and_assoc]
  · simp [le]

variable {w d fuel v : Nat}

theorem checkOverflow_eq {k m : Nat} (width : k + m = 32) (lt : w < 2 ^ 32) :
    checkOverflow ((2 ^ k - 1) <<< m) w =
      if w * 2 ^ k < 2 ^ 32 then .ok () else .error .overflow := by
  have power : 2 ^ k * 2 ^ m = 2 ^ 32 := by rw [← pow_add, width]
  have high : w / 2 ^ m < 2 ^ k := by
    rw [Nat.div_lt_iff_lt_mul (by positivity)]
    omega
  have masked : u32andb ((2 ^ k - 1) <<< m) w = w / 2 ^ m * 2 ^ m := by
    rw [u32andb, shiftLeft_and, Nat.and_comm, Nat.and_two_pow_sub_one_eq_mod,
      Nat.shiftRight_eq_div_pow, Nat.mod_eq_of_lt high, Nat.shiftLeft_eq]
  have clear : w / 2 ^ m * 2 ^ m = 0 ↔ w * 2 ^ k < 2 ^ 32 := by
    rw [Nat.mul_eq_zero, or_iff_left (by positivity), Nat.div_eq_zero_iff_lt (by positivity), ← power,
      Nat.mul_comm (2 ^ k)]
    exact (Nat.mul_lt_mul_right (by positivity)).symm
  rw [checkOverflow, masked]
  by_cases fits : w * 2 ^ k < 2 ^ 32
  · rw [if_neg (not_not.mpr (clear.mpr fits)), if_pos fits]
    rfl
  · rw [if_pos (mt clear.mp fits), if_neg fits]
    rfl

theorem shiftIn_eq {k m : Nat} (width : k + m = 32) (lt : w < 2 ^ 32) (hd : d < 2 ^ k) :
    shiftIn ((2 ^ k - 1) <<< m) k w d =
      if w * 2 ^ k + d < 2 ^ 32 then .ok (w * 2 ^ k + d) else .error .overflow := by
  have power : 2 ^ m * 2 ^ k = 2 ^ 32 := by rw [← pow_add, Nat.add_comm, width]
  -- a multiple of `2 ^ k` below `2 ^ 32` leaves room for the digit
  have room : w * 2 ^ k < 2 ^ 32 ↔ w * 2 ^ k + d < 2 ^ 32 := by
    refine ⟨fun fits => ?_, fun fits => by omega⟩
    rw [← power] at fits
    have less : w < 2 ^ m := Nat.lt_of_mul_lt_mul_right fits
    have := Nat.mul_le_mul_right (2 ^ k) (show w + 1 ≤ 2 ^ m from less)
    rw [Nat.add_mul] at this
    omega
  rw [shiftIn, checkOverflow_eq width lt]
  by_cases fits : w * 2 ^ k < 2 ^ 32
  · rw [if_pos fits, if_pos (room.mp fits)]
    have shift : u32lshift w k = w * 2 ^ k := Word.lshift_eq fits
    have sum : u32add (w * 2 ^ k) d = w * 2 ^ k + d := Word.add_eq (room.mp fits)
    simp [shift, sum]
  · rw [if_neg fits, if_neg (mt room.mpr fits)]
    rfl

theorem timesTen_eq (lt : w < 2 ^ 32) (hd : d < 10) :
    timesTen w d = if w * 10 + d < 2 ^ 32 then .ok (w * 10 + d) else .error .overflow := by
  unfold timesTen largestWordDiv10 largestWordMod10
  by_cases fits : w * 10 + d < 2 ^ 32
  · have mul : u32mul 10 w = w * 10 := (Word.mul_eq (by omega)).trans (Nat.mul_comm 10 w)
    have sum : u32add (w * 10) d = w * 10 + d := Word.add_eq fits
    rw [if_neg (by omega), if_pos fits, mul, sum]
    rfl
  · rw [if_pos (by omega), if_neg fits]
    rfl

theorem step_eq (radix : Radix) (w d : Nat) (hw : w < 2 ^ 32) (hd : d < radix.base) :
    radix.step w d =
      if w * radix.base + d < 2 ^ 32 then .ok (w * radix.base + d) else .error .overflow := by
  cases radix with
  | binary => exact shiftIn_eq (k := 1) (m := 31) rfl hw hd
  | octal => exact shiftIn_eq (k := 3) (m := 29) rfl hw hd
  | decimal => exact timesTen_eq hw hd
  | hex => exact shiftIn_eq (k := 4) (m := 28) rfl hw hd

inductive Letters (p : PrefixPat) : List Nat → Prop
  | w : p.wOkay = true → Letters p [wCode]
  | x : p.xOkay = true → Letters p [xCode]
  | wx : p.wOkay = true → p.xOkay = true → Letters p [wCode, xCode]

/-- A numeral: a sign if it is not of a word, maybe a prefix, and digits of either case. -/
structure NumeralText (radix : Radix) (isWord : Bool) where
  sign : List Char
  lead : List Char
  body : List Char
  neg : Bool
  value : Nat
  sign_codes : (sign = [] ∧ neg = false) ∨
    (isWord = false ∧ sign.map code = [if neg then minusCode else plusCode])
  lead_codes : lead = [] ∨ ∃ ls, lead.map code = 0 :: ls ∧ Letters (radix.pattern isWord) ls
  spells : Spells radix.base value (body.map code)

namespace NumeralText

def text (t : NumeralText radix isWord) : List Char := t.sign ++ t.lead ++ t.body

def toInt (t : NumeralText radix isWord) : ℤ := if t.neg then -(t.value : ℤ) else t.value

end NumeralText

def PrefixedDigit (p : PrefixPat) (getc : Getc σ) (s : σ) : Prop :=
  ∃ cs d m, Letters p (cs.map code) ∧ p.isDigit (code d) = true ∧ Reads getc (cs ++ [d]) s m

/-- The numeral ends at `s`: no digit follows, and a lone zero is not the start of a prefix. -/
structure EndsAt (t : NumeralText radix isWord) (getc : Getc σ) (s : σ) : Prop where
  stops : Stops getc (fun c => code c < radix.base) s
  bare : t.lead = [] → t.body.map code = [0] → ¬PrefixedDigit (radix.pattern isWord) getc s

theorem getNext_eq {c : Char} {s m : σ} (get : getc s = some (c, m)) :
    getNext getc s = some (code c, m) := by
  rw [getNext, get]

theorem skipWs_eq {c : Char} {s m : σ} (get : getc s = some (c, m))
    (black : code c ≠ wsCode) (enough : 0 < fuel) : skipWs getc fuel s = .ok (getNext getc s) := by
  obtain ⟨fuel, rfl⟩ : ∃ n, fuel = n + 1 := ⟨fuel - 1, by omega⟩
  rw [skipWs, getNext_eq get]
  simp [black]

variable {neg : Bool} {saved : Nat × σ} {c : Char} {s s' m : σ}

theorem finish_digit (digit : code c < radix.base) :
    finish (radix.pattern isWord) neg (code c, m) = some ⟨neg, code c, m⟩ := by
  simp [finish, digit]

theorem code_ne (digit : code c < radix.base) : code c ≠ wCode ∧ code c ≠ xCode := by
  have := radix.base_le
  simp only [wCode, xCode]
  omega

theorem checkDigit_digit (get : getc s = some (c, m)) (digit : code c < radix.base) :
    checkDigit (radix.pattern isWord) neg saved (getNext getc s) = some ⟨neg, code c, m⟩ := by
  simp [getNext_eq get, checkDigit, digit]

theorem getOptX_digit (get : getc s = some (c, m)) (digit : code c < radix.base) :
    getOptX (radix.pattern isWord) getc neg saved (getNext getc s) = some ⟨neg, code c, m⟩ := by
  simp [getNext_eq get, getOptX, (code_ne digit).2, checkDigit, digit]

theorem getOptW_digit (get : getc s = some (c, m)) (digit : code c < radix.base) :
    getOptW (radix.pattern isWord) getc neg saved (getNext getc s) = some ⟨neg, code c, m⟩ := by
  simp [getNext_eq get, getOptW, (code_ne digit).1, getOptX, (code_ne digit).2, checkDigit, digit]

theorem getOptW_letters {cs : List Char} (letters : Letters (radix.pattern isWord) (cs.map code))
    (digit : code c < radix.base) (reads : Reads getc (cs ++ [c]) s m) :
    getOptW (radix.pattern isWord) getc neg saved (getNext getc s) = some ⟨neg, code c, m⟩ := by
  generalize codes : cs.map code = ls at letters
  cases letters with
  | w ok =>
    obtain ⟨w, rfl, hw⟩ := List.map_eq_singleton_iff.mp codes
    obtain ⟨s1, get, s2, get1, rfl⟩ := reads
    rw [getNext_eq get, hw, getOptW, ok]
    exact getOptX_digit get1 digit
  | x ok =>
    obtain ⟨x, rfl, hx⟩ := List.map_eq_singleton_iff.mp codes
    obtain ⟨s1, get, s2, get1, rfl⟩ := reads
    rw [getNext_eq get, hx, getOptW, show (xCode == wCode) = false from rfl, Bool.false_and,
      if_neg Bool.false_ne_true, getOptX, ok]
    exact checkDigit_digit get1 digit
  | wx okw okx =>
    obtain ⟨w, xs, rfl, hw, codes⟩ := List.map_eq_cons_iff.mp codes
    obtain ⟨x, rfl, hx⟩ := List.map_eq_singleton_iff.mp codes
    obtain ⟨s1, get, s2, get1, s3, get2, rfl⟩ := reads
    rw [getNext_eq get, hw, getOptW, okw, getNext_eq get1, hx]
    simp only [beq_self_eq_true, Bool.and_self, if_true, getOptX, okx]
    exact checkDigit_digit get2 digit

theorem checkDigit_stops (stops : ∀ c m, getc s = some (c, m) → ¬code c < radix.base) :
    checkDigit (radix.pattern isWord) neg saved (getNext getc s) =
      finish (radix.pattern isWord) neg saved := by
  rcases get : getc s with _ | ⟨c, m⟩
  · simp [getNext, get, checkDigit]
  · simp [getNext_eq get, checkDigit, stops c m get]

theorem getOptW_stops (stops : Stops getc (fun c => code c < radix.base) s)
    (bare : ¬PrefixedDigit (radix.pattern isWord) getc s) :
    getOptW (radix.pattern isWord) getc neg saved (getNext getc s) =
      finish (radix.pattern isWord) neg saved := by
  rcases get : getc s with _ | ⟨c, m⟩
  · simp [getNext, get, getOptW]
  rw [getNext_eq get, getOptW]
  split
  case isTrue isW =>
    simp only [Bool.and_eq_true, beq_iff_eq] at isW
    rcases get1 : getc m with _ | ⟨c1, m1⟩
    · simp [getNext, get1, getOptX]
    rw [getNext_eq get1, getOptX]
    split
    case isTrue isX =>
      simp only [Bool.and_eq_true, beq_iff_eq] at isX
      refine checkDigit_stops fun c2 m2 get2 digit => bare ⟨[c, c1], c2, m2, ?_, by simpa using digit, ?_⟩
      · simpa [isW.1, isX.1] using Letters.wx isW.2 isX.2
      · exact ⟨m, get, m1, get1, m2, get2, rfl⟩
    case isFalse =>
      rw [← getNext_eq get1]
      refine checkDigit_stops fun c2 m2 get2 digit => bare ⟨[c], c2, m2, ?_, by simpa using digit, ?_⟩
      · simpa [isW.1] using Letters.w isW.2
      · exact ⟨m, get, m2, get2, rfl⟩
  case isFalse =>
    rw [getOptX]
    split
    case isTrue isX =>
      simp only [Bool.and_eq_true, beq_iff_eq] at isX
      refine checkDigit_stops fun c2 m2 get2 digit => bare ⟨[c], c2, m2, ?_, by simpa using digit, ?_⟩
      · simpa [isX.1] using Letters.x isX.2
      · exact ⟨m, get, m2, get2, rfl⟩
    case isFalse =>
      rw [← getNext_eq get]
      exact checkDigit_stops stops

def Found (t : NumeralText radix isWord) (getc : Getc σ) (s' : σ) : Option (PrefixResult σ) → Prop
  | none => False
  | some ⟨neg, next, rest⟩ =>
      neg = t.neg ∧ next < radix.base ∧ ∃ cs, cs.length < t.text.length ∧ Reads getc cs rest s' ∧
        (∀ c ∈ cs, code c < radix.base) ∧ horner radix.base next (cs.map code) = t.value

variable {t : NumeralText radix isWord}

theorem Found.mk {next : Nat} {rest : σ} {cs : List Char} (digit : next < radix.base)
    (shorter : cs.length < t.text.length) (reads : Reads getc cs rest s')
    (lt : ∀ c ∈ cs, code c < radix.base) (val : horner radix.base next (cs.map code) = t.value) :
    Found t getc s' (some ⟨t.neg, next, rest⟩) :=
  ⟨rfl, digit, cs, shorter, reads, lt, val⟩

theorem Letters.okay {ls : List Nat} (h : Letters (radix.pattern isWord) ls) :
    ((radix.pattern isWord).wOkay || (radix.pattern isWord).xOkay) = true := by
  cases h <;> simp_all

theorem getOpt0_found (reads : Reads getc (t.lead ++ t.body) s s') (ends : EndsAt t getc s') :
    Found t getc s' (getOpt0 (radix.pattern isWord) getc t.neg (getNext getc s)) := by
  obtain ⟨ne, lt, val⟩ := t.spells
  obtain ⟨c, cs, body⟩ := List.exists_cons_of_ne_nil (show t.body ≠ [] by simpa using ne)
  have size : t.text.length = t.sign.length + t.lead.length + (cs.length + 1) := by
    simp [NumeralText.text, body, Nat.add_assoc]
  rw [body, List.map_cons] at lt val
  rw [horner_cons, Nat.zero_mul, Nat.zero_add] at val
  simp only [List.mem_cons, List.mem_map, forall_eq_or_imp, forall_exists_index, and_imp,
    forall_apply_eq_imp_iff₂] at lt
  obtain ⟨hc, hcs⟩ := lt
  rw [body] at reads
  rcases t.lead_codes with lead | ⟨ls, lead, letters⟩
  · rw [lead, List.nil_append] at reads
    obtain ⟨m, get, rest⟩ := reads
    rw [getNext_eq get, getOpt0]
    split
    case isFalse =>
      rw [finish_digit hc]
      exact Found.mk hc (by omega) rest hcs val
    case isTrue zero =>
      simp only [Bool.and_eq_true, beq_iff_eq] at zero
      rcases cs with _ | ⟨c1, cs⟩
      · cases rest
        have bare := ends.bare lead (by simp [body, zero.1])
        rw [getOptW_stops ends.stops bare, finish_digit hc]
        exact Found.mk hc (by simp at size ⊢; omega) (show Reads getc [] s' s' from rfl) (by simp) val
      · obtain ⟨m1, get1, rest⟩ := rest
        simp only [List.mem_cons, forall_eq_or_imp] at hcs
        rw [getOptW_digit get1 hcs.1]
        refine Found.mk hcs.1 (by simp at size; omega) rest hcs.2 ?_
        simpa [zero.1] using val
  · obtain ⟨z, zs, eq, hz, rfl⟩ := List.map_eq_cons_iff.mp lead
    rw [eq, List.cons_append] at reads
    obtain ⟨m, get, rest⟩ := reads
    rw [show zs ++ c :: cs = zs ++ [c] ++ cs by simp, reads_append] at rest
    obtain ⟨m1, prefixed, rest⟩ := rest
    rw [getNext_eq get, hz, getOpt0, letters.okay]
    simp only [beq_self_eq_true, Bool.and_self, if_true]
    rw [getOptW_letters letters hc prefixed]
    exact Found.mk hc (by omega) rest hcs val

theorem scanPrefix_found (reads : Reads getc t.text s s') (ends : EndsAt t getc s')
    (enough : 0 < fuel) :
    ∃ found, scanPrefix (radix.pattern isWord) getc fuel s = .ok found ∧ Found t getc s' found := by
  have base := radix.base_le
  rcases t.sign_codes with ⟨sign, plus⟩ | ⟨signed, sign⟩
  · -- no sign: the first character is a digit
    rw [NumeralText.text, sign, List.nil_append] at reads
    obtain ⟨c, cs, eq, hc⟩ : ∃ c cs, t.lead ++ t.body = c :: cs ∧ code c < 16 := by
      obtain ⟨ne, lt, _⟩ := t.spells
      rcases t.lead_codes with lead | ⟨ls, lead, _⟩
      · obtain ⟨c, cs, body⟩ := List.exists_cons_of_ne_nil (show t.body ≠ [] by simpa using ne)
        have := lt (code c) (by simp [body])
        exact ⟨c, cs, by simp [lead, body], by omega⟩
      · obtain ⟨z, zs, eq, hz, _⟩ := List.map_eq_cons_iff.mp lead
        exact ⟨z, zs ++ t.body, by simp [eq], by omega⟩
    have found := getOpt0_found reads ends
    rw [eq] at reads
    obtain ⟨m, get, _⟩ := reads
    have black : code c ≠ wsCode := by simp only [wsCode]; omega
    rw [plus, getNext_eq get] at found
    have pass : getOptSign (radix.pattern isWord) getc (some (code c, m)) =
        getOpt0 (radix.pattern isWord) getc false (some (code c, m)) := by
      have : code c ≠ plusCode := by simp only [plusCode]; omega
      have : code c ≠ minusCode := by simp only [minusCode]; omega
      simp [getOptSign, *]
    refine ⟨_, ?_, found⟩
    simp [scanPrefix, skipWs_eq get black enough, getNext_eq get, pass]
  · subst signed
    obtain ⟨c, eq, hc⟩ := List.map_eq_singleton_iff.mp sign
    rw [NumeralText.text, eq, List.append_assoc, List.singleton_append] at reads
    obtain ⟨m, get, rest⟩ := reads
    have found := getOpt0_found rest ends
    have black : code c ≠ wsCode := by rw [hc]; split <;> decide
    have pass : getOptSign (radix.pattern false) getc (some (code c, m)) =
        getOpt0 (radix.pattern false) getc t.neg (getNext getc m) := by
      rw [hc, getOptSign]
      cases t.neg <;> simp [plusCode, minusCode]
    refine ⟨_, ?_, found⟩
    simp [scanPrefix, skipWs_eq get black enough, getNext_eq get, pass]

theorem scanG_eq (reads : Reads getc t.text s s') (ends : EndsAt t getc s')
    (enough : t.text.length < fuel) : scanG (radix.pattern isWord) radix.step getc fuel s =
      if t.value < 2 ^ 32 then .ok (some ⟨t.neg, t.value, s'⟩) else .error .overflow := by
  obtain ⟨found, run, hfound⟩ := scanPrefix_found reads ends (show 0 < fuel by omega)
  rcases found with _ | ⟨neg, next, rest⟩
  · exact absurd hfound id
  obtain ⟨rfl, digit, cs, shorter, tail, lt, val⟩ := hfound
  have vals : cs.map (digitCode (radix.pattern isWord).isDigit) = (cs.map code).map some := by
    rw [List.map_map]
    refine List.map_congr_left fun c mem => ?_
    simp [digitCode, lt c mem]
  have stops : Stops getc (fun c => (digitCode (radix.pattern isWord).isDigit c).isSome) s' := by
    intro c m get
    simp [digitCode, ends.stops c m get]
  have limit : next < 2 ^ 32 := by have := radix.base_le; omega
  have convert := digits_eq Failure.unfinished radix.step tail vals stops
    (show cs.length < fuel by omega) next
  rw [foldlM_checked radix.one_lt_base.le (step_eq radix) limit (by simpa using lt), val] at convert
  simp only [scanG, run, ok_bind, convert]
  split <;> rfl

theorem scanWord_numeral (t : NumeralText radix true) (reads : Reads getc t.text s s')
    (ends : EndsAt t getc s') (enough : t.text.length < fuel) : scanWord radix getc fuel s =
      if t.value < 2 ^ 32 then .ok (some (t.value, s')) else .error .overflow := by
  rw [scanWord_eq, finalWord, scanG_eq reads ends enough]
  split <;> rfl

theorem fromword32_eq (lt : w < 2 ^ 31) : fromword32 w = w := if_pos lt

theorem finalInt_eq {scan : Bool → Getc σ → Nat → σ → Outcome (Option (ScanResult σ))}
    (run : scan false getc fuel s =
      if v < 2 ^ 32 then .ok (some ⟨neg, v, s'⟩) else .error .overflow) :
    finalInt scan getc fuel s =
      let i : ℤ := if neg then -(v : ℤ) else v
      if -2 ^ 31 ≤ i ∧ i < 2 ^ 31 then .ok (some (i, s')) else .error .overflow := by
  have least : largestNegInt1 = 2 ^ 31 := rfl
  have greatest : largestPosInt1 = 2 ^ 31 - 1 := rfl
  rw [finalInt, run]
  by_cases word : v < 2 ^ 32
  · rw [if_pos word]
    cases neg with
    | true =>
      simp only [ok_bind, if_true]
      rcases lt_trichotomy v largestNegInt1 with lt | rfl | gt
      · have negate : i1neg (v : ℤ) = .ok (-(v : ℤ)) := by
          rw [i1neg, minInt1, if_neg (by omega)]
          rfl
        rw [if_pos lt, if_pos (by omega), fromword32_eq (by omega), negate]
        rfl
      · rfl
      · rw [if_neg (by omega), if_pos gt, if_neg (by omega)]
        rfl
    | false =>
      simp only [ok_bind, Bool.false_eq_true, if_false]
      by_cases large : largestPosInt1 < v
      · rw [if_pos large, if_neg (by omega)]
        rfl
      · rw [if_neg large, if_pos (by omega), fromword32_eq (by omega)]
        rfl
  · rw [if_neg word, error_bind]
    cases neg with
    | true => exact (if_neg (by simp only [if_true]; omega)).symm
    | false => exact (if_neg (by simp only [Bool.false_eq_true, if_false]; omega)).symm

theorem scanInt_numeral (t : NumeralText radix false) (reads : Reads getc t.text s s')
    (ends : EndsAt t getc s') (enough : t.text.length < fuel) : scanInt radix getc fuel s =
      if -2 ^ 31 ≤ t.toInt ∧ t.toInt < 2 ^ 31 then .ok (some (t.toInt, s')) else .error .overflow := by
  rw [scanInt_eq]
  exact finalInt_eq (scanG_eq reads ends enough)

theorem code_makeDigit (lt : d < 16) : code (makeDigit d) = d := by
  have all : ∀ d : Fin 16, code (makeDigit d) = d := by decide
  exact all ⟨d, lt⟩

theorem codes_digits {ds : List Nat} (h : Spells radix.base v ds) :
    (ds.map makeDigit).map code = ds := by
  rw [List.map_map]
  have base := radix.base_le
  conv_rhs => rw [← List.map_id ds]
  refine List.map_congr_left fun d mem => code_makeDigit ?_
  have := h.lt d mem
  omega

def NumeralText.plain (isWord neg : Bool) (signed : isWord = true → neg = false) {v : Nat}
    {ds : List Nat} (h : Spells radix.base v ds) : NumeralText radix isWord where
  sign := if neg then ['-'] else []
  lead := []
  body := ds.map makeDigit
  neg := neg
  value := v
  sign_codes := by
    cases neg with
    | false => exact .inl ⟨rfl, rfl⟩
    | true => exact .inr ⟨by simpa using signed, rfl⟩
  lead_codes := .inl rfl
  spells := by rwa [codes_digits h]

/-- The source after a written number: no digit, and after a zero no prefix with a digit. -/
structure Follows (radix : Radix) (isWord : Bool) (zero : Prop) (getc : Getc σ) (s : σ) : Prop where
  stops : Stops getc (fun c => code c < radix.base) s
  bare : zero → ¬PrefixedDigit (radix.pattern isWord) getc s

theorem endsAt_plain {neg : Bool} {signed : isWord = true → neg = false} {ds : List Nat}
    {h : Spells radix.base v ds} {zero : Prop} (iff : v = 0 → zero)
    (follows : Follows radix isWord zero getc s) :
    EndsAt (NumeralText.plain isWord neg signed h) getc s := by
  refine ⟨follows.stops, fun _ body => follows.bare (iff ?_)⟩
  have eq : ds = [0] := (codes_digits h).symm.trans body
  rw [← h.value, eq]
  simp

theorem number_round_trip (radix : Radix) (getc : Getc σ) (s s' : σ) :
    (∀ i : ℤ, -2 ^ 31 ≤ i → i < 2 ^ 31 → (i = -2 ^ 31 → radix = .decimal) →
      Reads getc (formatInt radix i) s s' → Follows radix false (i = 0) getc s' →
      ∀ fuel, (formatInt radix i).length < fuel → scanInt radix getc fuel s = .ok (some (i, s'))) ∧
    (∀ w < 2 ^ 32, Reads getc (formatUnt radix w) s s' → Follows radix true (w = 0) getc s' →
      ∀ fuel, (formatUnt radix w).length < fuel → scanWord radix getc fuel s = .ok (some (w, s'))) ∧
    (∀ t : NumeralText radix false, Reads getc t.text s s' → EndsAt t getc s' →
      ∀ fuel, t.text.length < fuel →
        (scanInt radix getc fuel s = .error .overflow ↔ ¬(-2 ^ 31 ≤ t.toInt ∧ t.toInt < 2 ^ 31)) ∧
        (-2 ^ 31 ≤ t.toInt ∧ t.toInt < 2 ^ 31 →
          scanInt radix getc fuel s = .ok (some (t.toInt, s')))) ∧
    (∀ t : NumeralText radix true, Reads getc t.text s s' → EndsAt t getc s' →
      ∀ fuel, t.text.length < fuel →
        (scanWord radix getc fuel s = .error .overflow ↔ ¬t.value < 2 ^ 32) ∧
        (t.value < 2 ^ 32 → scanWord radix getc fuel s = .ok (some (t.value, s')))) := by
  refine ⟨?_, ?_, ?_, ?_⟩
  · intro i ge lt least reads follows fuel enough
    obtain ⟨ds, spells, text⟩ := formatInt_spec radix ge lt least
    let t := NumeralText.plain false (decide (i < 0)) (by simp) spells
    have eq : t.text = formatInt radix i := by
      simp [t, text, NumeralText.text, NumeralText.plain]
    have val : t.toInt = i := by
      simp only [t, NumeralText.toInt, NumeralText.plain, decide_eq_true_eq]
      split <;> omega
    rw [← eq] at reads enough
    rw [scanInt_numeral t reads (endsAt_plain (by omega) follows) enough, val, if_pos ⟨ge, lt⟩]
  · intro w lt reads follows fuel enough
    obtain ⟨ds, spells, _, text⟩ := formatUnt_spec radix lt
    let t := NumeralText.plain true false (by simp) spells
    have eq : t.text = formatUnt radix w := by
      simp [t, text, NumeralText.text, NumeralText.plain]
    rw [← eq] at reads enough
    rw [scanWord_numeral t reads (endsAt_plain id follows) enough]
    exact if_pos lt
  · intro t reads ends fuel enough
    rw [scanInt_numeral t reads ends enough]
    split <;> simp_all
  · intro t reads ends fuel enough
    rw [scanWord_numeral t reads ends enough]
    split <;> simp_all

theorem formatInt_hex_zero : formatInt .hex 0 = ['0'] := by
  simp [formatInt, i2w, formatW, wordToHex, WordToHex.f, implode, makeDigit]

theorem not_prefixedDigit_singleton (p : PrefixPat) (c : Char) : ¬PrefixedDigit p ofList [c] := by
  rintro ⟨cs, d, m, letters, _, reads⟩
  rcases cs with _ | ⟨c', cs⟩
  · cases letters
  · obtain ⟨m1, get, rest⟩ := reads
    obtain ⟨rfl, rfl⟩ : c = c' ∧ [] = m1 := by simpa [ofList] using get
    rcases cs with _ | ⟨c'', cs⟩ <;> obtain ⟨m2, get, _⟩ := rest <;> simp [ofList] at get

theorem number_round_trip_hash :
    scanInt .hex ofList 3 (formatInt .hex 0 ++ ['#']) = .ok (some (0, ['#'])) ∧
      scanWord .hex ofList 3 (formatUnt .hex 0 ++ ['#']) = .ok (some (0, ['#'])) ∧
      scanInt .hex ofList 5 "-FF#".toList = .ok (some (-255, ['#'])) ∧
      scanWord .hex ofList 13 "0wfffffffff#".toList = .error .overflow := by
  have stops : Stops ofList (fun c => code c < Radix.hex.base) ['#'] := by
    rintro c s' get
    obtain ⟨rfl, rfl⟩ : '#' = c ∧ [] = s' := by simpa [ofList] using get
    decide
  have unt : formatUnt .hex 0 = ['0'] := by
    simp [formatUnt, formatW, wordToHex, WordToHex.f, implode, makeDigit]
  have trip (cs : List Char) := number_round_trip .hex ofList (cs ++ ['#']) ['#']
  refine ⟨?_, ?_, ?_, ?_⟩
  · exact (trip (formatInt .hex 0)).1 0 (by decide) (by decide) (by decide) (reads_ofList _ _)
      ⟨stops, fun _ => not_prefixedDigit_singleton _ _⟩ 3 (by simp [formatInt_hex_zero])
  · exact (trip (formatUnt .hex 0)).2.1 0 (by decide) (reads_ofList _ _)
      ⟨stops, fun _ => not_prefixedDigit_singleton _ _⟩ 3 (by simp [unt])
  · exact ((trip "-FF".toList).2.2.1
      { sign := ['-'], lead := [], body := ['F', 'F'], neg := true, value := 255,
        sign_codes := .inr ⟨rfl, rfl⟩, lead_codes := .inl rfl,
        spells := ⟨by simp, by decide, by decide⟩ }
      (reads_ofList _ _) ⟨stops, fun _ _ => not_prefixedDigit_singleton _ _⟩ 5 (by decide)).2 (by decide)
  · exact ((trip "0wfffffffff".toList).2.2.2
      { sign := [], lead := ['0', 'w'], body := List.replicate 9 'f', neg := false,
        value := 16 ^ 9 - 1,
        sign_codes := .inl ⟨rfl, rfl⟩, lead_codes := .inr ⟨[wCode], rfl, .w rfl⟩,
        spells := ⟨by simp, by decide, by decide⟩ }
      (reads_ofList _ _) ⟨stops, fun _ _ => not_prefixedDigit_singleton _ _⟩ 13 (by decide)).1.mpr
        (by decide)

/-- A lone zero before `x1` reads as the prefix of `0x1`, though `x` is not a digit. -/
theorem scanInt_takes_prefix : ¬code 'x' < Radix.hex.base ∧
      scanInt .hex ofList 10 (formatInt .hex 0 ++ ['x', '1']) = .ok (some (1, [])) := by
  rw [formatInt_hex_zero]
  exact ⟨by decide, by rfl⟩

end Mythryl.Number
