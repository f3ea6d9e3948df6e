import Mythryl.CoreMultiwordInt.Division
import Mythryl.Number.Format

/-!
# Writing multiword integers

`bitformat` and `decformat` of `src/lib/std/src/multiword-int-guts.pkg`: slicing bits off the
digits, or dividing by the greatest power of ten that is a digit.
-/

namespace Mythryl.MultiwordIntGuts
open Nat Numeral CoreMultiwordInt Number

def bitLoop (bits : Nat) (pos : 0 < bits) (maxdig : Nat) (dig : Nat → Char) (chars : List Char)
    (xs : List Nat) (c cb : Nat) : List Char :=
  if done : xs = [] ∧ c = 0 then chars
  else if cb ≥ bits then
    bitLoop bits pos maxdig dig (dig (u31andb c maxdig) :: chars) xs (u31rshiftl c bits) (cb - bits)
  else
    let x := xs.headD 0
    let a := u31andb (u31orb (u31lshift x cb) c) maxdig
    bitLoop bits pos maxdig dig (dig a :: chars) xs.tail (u31rshiftl x (bits - cb))
      (baseBits - bits + cb)
termination_by (xs.length, if c = 0 then 0 else 1, cb)
decreasing_by
  · refine Prod.Lex.right _ ?_
    by_cases zero : c = 0
    · rw [zero, show u31rshiftl 0 bits = 0 from Nat.zero_shiftRight bits]
      exact Prod.Lex.right _ (by omega)
    · by_cases zero' : u31rshiftl c bits = 0
      · rw [if_pos zero', if_neg zero]
        exact Prod.Lex.left _ _ Nat.zero_lt_one
      · rw [if_neg zero', if_neg zero]
        exact Prod.Lex.right _ (by omega)
  · rcases xs with _ | ⟨x, xs⟩
    · have zero : c ≠ 0 := fun zero => done ⟨rfl, zero⟩
      rw [List.headD_nil, show u31rshiftl 0 (bits - cb) = 0 from Nat.zero_shiftRight _, if_pos rfl,
        if_neg zero]
      exact Prod.Lex.right _ (Prod.Lex.left _ _ Nat.zero_lt_one)
    · exact Prod.Lex.left _ _ (Nat.lt_succ_self _)

def bitformat (bits : Nat) (pos : 0 < bits) (maxdig : Nat) (digvec : String) (i : Rep) : List Char :=
  let dig d := digvec.toList.getD d '\x00'
  let addsign l := if i.negative then '-' :: l else l
  match i.digits with
  | [] => ['0']
  | digits => addsign (bitLoop bits pos maxdig dig [] digits 0 0)

def decTry (b d : Nat) : Nat × Nat := if b ≤ base then (b, d) else decTry (b / 10) (d - 1)
termination_by b
decreasing_by simp only [base] at *; omega

def decBase : Nat := (decTry 1000000000 9).1
def decDigs : Nat := (decTry 1000000000 9).2

def padLeft (padChr : Char) (wid : Nat) (s : List Char) : List Char :=
  let pad := wid - s.length
  if pad > 0 then List.replicate pad padChr ++ s else s

def toStringDec (d : Nat) : List Char := formatUnt .decimal d

def decDig (d : Nat) : List Char := padLeft '0' decDigs (toStringDec d)

def decLoop : Nat → List (List Char) → List Nat → Outcome (List (List Char))
  | 0, _, _ => throw .unfinished
  | _ + 1, l, [] => return l
  | _ + 1, l, [x] => return toStringDec x :: l
  | fuel + 1, l, xs => do
      let (q, r) ← natdivmodd xs decBase
      decLoop fuel (decDig r :: l) q

def decformat (i : Rep) : Outcome (List Char) :=
  match i.digits with
  | [] => return ['0']
  | digits => do
      let texts ← decLoop (value digits + 1) [] digits
      return (if i.negative then ['-'] :: texts else texts).flatten

def format : Radix → Rep → Outcome (List Char)
  | .octal, i => return bitformat 3 (by decide) 0x7 "01234567" i
  | .hex, i => return bitformat 4 (by decide) 0xf "0123456789abcdef" i
  | .binary, i => return bitformat 1 (by decide) 0x1 "01" i
  | .decimal, i => decformat i

section BitLoop
variable {bits : Nat} (pos : 0 < bits) (dig : Nat → Char) {xs : List Nat} {c cb : Nat}

def remaining (xs : List Nat) (c cb : Nat) : Nat := c + 2 ^ cb * value xs

theorem remaining_pos (hx : Digits xs) (more : ¬(xs = [] ∧ c = 0)) : 0 < remaining xs c cb := by
  rcases Nat.eq_zero_or_pos c with rfl | cpos
  · have := Digits.pos hx (fun nil => more ⟨nil, rfl⟩)
    rw [remaining]
    positivity
  · exact Nat.add_pos_left cpos _

theorem remaining_low (xs : List Nat) (c : Nat) {s : Nat} (split : cb = bits + s) :
    remaining xs c cb % 2 ^ bits = c % 2 ^ bits ∧
      remaining xs c cb / 2 ^ bits = remaining xs (c / 2 ^ bits) s := by
  have eq : remaining xs c cb = c + 2 ^ bits * (2 ^ s * value xs) := by
    rw [remaining, split, pow_add, Nat.mul_assoc]
  rw [eq, Nat.add_mul_mod_self_left, Nat.add_mul_div_left _ _ (by positivity)]
  exact ⟨rfl, rfl⟩

theorem remaining_next (xs : List Nat) {s : Nat} (split : bits = cb + s) (hs : s ≤ 30) (hc : c < 2 ^ cb) (x : Nat) :
    (c + 2 ^ cb * (x + base * value xs)) % 2 ^ bits = (c + 2 ^ cb * x) % 2 ^ bits ∧
      (c + 2 ^ cb * (x + base * value xs)) / 2 ^ bits = remaining xs (x / 2 ^ s) (30 - s) := by
  have radix : base = 2 ^ s * 2 ^ (30 - s) := by rw [← pow_add, Nat.add_sub_cancel' hs]; rfl
  have power : 2 ^ bits = 2 ^ cb * 2 ^ s := by rw [split, pow_add]
  have eq : c + 2 ^ cb * (x + base * value xs) =
      c + 2 ^ cb * x + 2 ^ bits * (2 ^ (30 - s) * value xs) := by
    rw [radix, power]
    ring
  have low : (c + 2 ^ cb * x) / 2 ^ bits = x / 2 ^ s := by
    rw [power, ← Nat.div_div_eq_div_mul, Nat.add_mul_div_left _ _ (by positivity),
      Nat.div_eq_of_lt hc, Nat.zero_add]
  rw [eq, Nat.add_mul_mod_self_left, Nat.add_mul_div_left _ _ (by positivity), low]
  exact ⟨rfl, rfl⟩

theorem bitLoop_step (hx : Digits xs) (hc : c < 2 ^ cb) (small : bits ≤ 30)
    (more : ¬(xs = [] ∧ c = 0)) (chars : List Char) :
    ∃ xs' c' cb', bitLoop bits pos (2 ^ bits - 1) dig chars xs c cb =
        bitLoop bits pos (2 ^ bits - 1) dig
          (dig (remaining xs c cb % 2 ^ bits) :: chars) xs' c' cb' ∧
      Digits xs' ∧ c' < 2 ^ cb' ∧ remaining xs' c' cb' = remaining xs c cb / 2 ^ bits := by
  rw [bitLoop, dif_neg more]
  split
  case isTrue enough =>
    obtain ⟨low, high⟩ := remaining_low xs c (Nat.add_sub_cancel' enough).symm
    refine ⟨xs, u31rshiftl c bits, cb - bits, by rw [u31andb_mask, low], hx, ?_, ?_⟩
    · rw [u31rshiftl_eq, Nat.div_lt_iff_lt_mul (by positivity), ← pow_add, Nat.sub_add_cancel enough]
      exact hc
    · rw [u31rshiftl_eq, high]
  case isFalse short =>
    have split : bits = cb + (bits - cb) := by omega
    obtain ⟨low, high⟩ := remaining_next xs.tail split (by omega) hc (xs.headD 0)
    rw [← value_head_tail] at low high
    have width : baseBits - bits + cb = 30 - (bits - cb) := by
      rw [show baseBits = 30 from rfl]
      omega
    have digit : u31andb (u31orb (u31lshift (xs.headD 0) cb) c) (2 ^ bits - 1) =
        remaining xs c cb % 2 ^ bits := by
      have split31 : (31 : Nat) = bits + (31 - bits) := by omega
      have back (w : Nat) : w % 2 ^ 31 % 2 ^ bits = w % 2 ^ bits := by
        rw [split31, pow_add, Nat.mod_mul_right_mod]
      rw [u31lshift_eq _ (by omega), u31orb_eq hc, u31andb_mask, remaining, low]
      rw [← u31lshift_eq _ (by omega), u31lshift, Word.lshift, Nat.shiftLeft_eq, Nat.add_mod, back,
        ← Nat.add_mod, Nat.add_comm, Nat.mul_comm]
    refine ⟨xs.tail, u31rshiftl (xs.headD 0) (bits - cb), baseBits - bits + cb, by simp only [digit],
      digits_tail hx, ?_, ?_⟩
    · rw [u31rshiftl_eq, width, Nat.div_lt_iff_lt_mul (by positivity), ← pow_add,
        Nat.sub_add_cancel (by omega)]
      exact headD_lt hx.lt
    · rw [u31rshiftl_eq, width, ← high]
      rfl

theorem bitLoop_spec (hx : Digits xs) (hc : c < 2 ^ cb) (small : bits ≤ 30) (chars : List Char) :
    ∃ ds, bitLoop bits pos (2 ^ bits - 1) dig chars xs c cb = ds.map dig ++ chars ∧
      (∀ d ∈ ds, d < 2 ^ bits) ∧ horner (2 ^ bits) 0 ds = remaining xs c cb := by
  induction left : remaining xs c cb using Nat.strong_induction_on generalizing xs c cb chars with
  | h v ih =>
    subst left
    by_cases done : xs = [] ∧ c = 0
    · rw [bitLoop, dif_pos done]
      exact ⟨[], rfl, by simp, by simp [remaining, done]⟩
    · obtain ⟨xs', c', cb', step, hx', hc', next⟩ := bitLoop_step pos dig hx hc small done chars
      have less : remaining xs' c' cb' < remaining xs c cb := by
        rw [next]
        exact Nat.div_lt_self (remaining_pos hx done) (Nat.one_lt_two_pow (by omega))
      obtain ⟨ds, run, lt, val⟩ := ih _ less hx' hc' (dig (remaining xs c cb % 2 ^ bits) :: chars) rfl
      refine ⟨ds ++ [remaining xs c cb % 2 ^ bits], by rw [step, run]; simp, ?_, ?_⟩
      · simpa [or_imp, forall_and] using ⟨lt, Nat.mod_lt _ (by positivity)⟩
      · rw [horner_append, val, next, horner_cons, horner_nil]
        exact Nat.div_add_mod' _ _

end BitLoop

def lowerDigit (d : Nat) : Char := "0123456789abcdef".toList.getD d '\x00'

def signedText (negative : Bool) (ds : List Nat) : List Char :=
  (if negative then ['-'] else []) ++ ds.map lowerDigit

theorem spells_zero (b : Nat) (hb : 0 < b) : Spells b (value []) [0] := spells_digit hb

variable {i : Rep}

theorem bitformat_spec (bits : Nat) (digvec : String) (pos : 0 < bits) (small : bits ≤ 30)
    (hi : i.Normal) (chars : ∀ d < 2 ^ bits, digvec.toList.getD d '\x00' = lowerDigit d) :
    ∃ ds, Spells (2 ^ bits) (value i.digits) ds ∧
      bitformat bits pos (2 ^ bits - 1) digvec i = signedText i.negative ds := by
  obtain ⟨negative, digits⟩ := i
  rcases digits with _ | ⟨x, xs⟩
  · obtain rfl : negative = false := hi.zero rfl
    exact ⟨[0], spells_zero _ (by positivity), rfl⟩
  · obtain ⟨ds, run, lt, val⟩ := bitLoop_spec pos (fun d => digvec.toList.getD d '\x00') hi.digits
      (show 0 < 2 ^ 0 by decide) small []
    have whole : remaining (x :: xs) 0 0 = value (x :: xs) := by simp [remaining]
    have texts : ds.map (fun d => digvec.toList.getD d '\x00') = ds.map lowerDigit :=
      List.map_congr_left fun d mem => chars d (lt d mem)
    refine ⟨ds, ⟨?_, lt, val.trans whole⟩, ?_⟩
    · rintro rfl
      have := Digits.value_cons_pos hi.digits
      simp only [horner_nil] at val
      omega
    · simp only [bitformat, run, List.append_nil, texts, signedText]
      split <;> rfl

theorem decTry_eq : decTry 1000000000 9 = (10 ^ 9, 9) := by
  rw [decTry]
  rfl

theorem decBase_eq : decBase = 10 ^ 9 := by rw [decBase, decTry_eq]

theorem makeDigit_eq {d : Nat} (lt : d < 10) : makeDigit d = lowerDigit d := by
  have all : ∀ d : Fin 10, makeDigit d = lowerDigit d := by decide
  exact all ⟨d, lt⟩

theorem toStringDec_spec {x : Nat} (lt : x < base) :
    ∃ ds, Spells 10 x ds ∧ Short 10 x ds ∧ toStringDec x = ds.map lowerDigit := by
  obtain ⟨ds, spells, short, run⟩ := formatUnt_spec .decimal (w := x) (by simp only [base] at lt; omega)
  exact ⟨ds, spells, short, run.trans (List.map_congr_left fun d mem => makeDigit_eq (spells.lt d mem))⟩

theorem decDig_spec {r : Nat} (lt : r < 10 ^ 9) :
    ∃ ds : List Nat, ds.length = 9 ∧ Spells 10 r ds ∧ decDig r = ds.map lowerDigit := by
  obtain ⟨ds, spells, short, run⟩ := toStringDec_spec (x := r) (by simp only [base]; omega)
  have le := short.length_le (k := 9) (by decide) (by decide) lt
  have len : (toStringDec r).length = ds.length := by rw [run, List.length_map]
  have pads : decDig r = List.replicate (9 - ds.length) '0' ++ toStringDec r := by
    rw [decDig, padLeft, show decDigs = 9 by rw [decDigs, decTry_eq], len]
    split
    · rfl
    · rw [show 9 - ds.length = 0 by omega]
      rfl
  refine ⟨List.replicate (9 - ds.length) 0 ++ ds, by simp; omega, ⟨?_, ?_, ?_⟩, ?_⟩
  · simpa using fun _ => spells.ne_nil
  · intro d mem
    rcases List.mem_append.mp mem with zero | mem
    · rw [List.eq_of_mem_replicate zero]
      decide
    · exact spells.lt d mem
  · rw [horner_zeros, spells.value]
  · rw [pads, run, List.map_append, List.map_replicate]
    rfl

theorem decLoop_spec {xs : List Nat} (hx : Digits xs) {fuel : Nat} (enough : value xs < fuel)
    (l : List (List Char)) :
    ∃ texts ds, decLoop fuel l xs = .ok texts ∧ texts.flatten = ds.map lowerDigit ++ l.flatten ∧
      (∀ d ∈ ds, d < 10) ∧ horner 10 0 ds = value xs ∧ (xs ≠ [] → ds ≠ []) := by
  induction fuel generalizing xs l with
  | zero => omega
  | succ fuel ih =>
    rcases xs with _ | ⟨x, _ | ⟨y, ys⟩⟩
    · exact ⟨l, [], rfl, rfl, by simp, rfl, by simp⟩
    · obtain ⟨ds, spells, _, text⟩ := toStringDec_spec hx.head_lt
      exact ⟨toStringDec x :: l, ds, rfl, by rw [List.flatten_cons, text], spells.lt,
        by rw [spells.value]; simp [value], fun _ => spells.ne_nil⟩
    · obtain ⟨q, run, hq, vq⟩ := natdivmodd_spec hx (i := decBase) (by rw [decBase_eq]; decide)
        (by rw [decBase_eq]; decide)
      rw [decBase_eq] at vq
      have pos := Digits.value_cons_pos hx
      obtain ⟨chunk, len, spells, text⟩ := decDig_spec (Nat.mod_lt (value (x :: y :: ys)) (y := 10 ^ 9)
        (by decide))
      obtain ⟨texts, ds, run', flat, lt, val, ne⟩ := ih hq
        (by rw [vq]; have := Nat.div_lt_self pos (show 1 < 10 ^ 9 by decide); omega)
        (decDig (value (x :: y :: ys) % decBase) :: l)
      refine ⟨texts, ds ++ chunk, ?_, ?_, ?_, ?_, ?_⟩
      · simp only [decLoop, run, ok_bind, run']
      · rw [flat, List.flatten_cons, decBase_eq, text]
        simp
      · intro d mem
        rcases List.mem_append.mp mem with mem | mem
        · exact lt d mem
        · exact spells.lt d mem
      · rw [horner_append, horner_eq, len, spells.value, val, vq]
        exact Nat.div_add_mod' _ _
      · exact fun _ => List.append_ne_nil_of_right_ne_nil _ spells.ne_nil

theorem decformat_spec (hi : i.Normal) :
    ∃ ds, Spells 10 (value i.digits) ds ∧ decformat i = .ok (signedText i.negative ds) := by
  obtain ⟨negative, digits⟩ := i
  rcases digits with _ | ⟨x, xs⟩
  · obtain rfl : negative = false := hi.zero rfl
    exact ⟨[0], spells_zero _ (by decide), rfl⟩
  · obtain ⟨texts, ds, run, flat, lt, val, ne⟩ :=
      decLoop_spec hi.digits (Nat.lt_succ_self (value (x :: xs))) []
    refine ⟨ds, ⟨ne (by simp), lt, val⟩, ?_⟩
    simp only [decformat, run, ok_bind, pure_eq, signedText]
    cases negative <;> simp [flat]

theorem format_spec (radix : Radix) (hi : i.Normal) :
    ∃ ds, Spells radix.base (value i.digits) ds ∧
      format radix i = .ok (signedText i.negative ds) := by
  cases radix with
  | binary =>
    obtain ⟨ds, spells, text⟩ := bitformat_spec 1 "01" (by decide) (by decide) hi (by decide)
    exact ⟨ds, spells, congrArg Except.ok text⟩
  | octal =>
    obtain ⟨ds, spells, text⟩ := bitformat_spec 3 "01234567" (by decide) (by decide) hi (by decide)
    exact ⟨ds, spells, congrArg Except.ok text⟩
  | decimal => exact decformat_spec hi
  | hex =>
    obtain ⟨ds, spells, text⟩ := bitformat_spec 4 "0123456789abcdef" (by decide) (by decide) hi (by decide)
    exact ⟨ds, spells, congrArg Except.ok text⟩

end Mythryl.MultiwordIntGuts

/-!
# Reading multiword integers

`startscan`, `bitscan` and `decscan` of `src/lib/std/src/multiword-int-guts.pkg`.
-/

namespace Mythryl.MultiwordIntGuts
open Numeral CoreMultiwordInt Number Reader

variable {σ : Type}

def drop : Nat → List Nat → List Nat
  | 0, i => i
  | _, [] => []
  | n + 1, _ :: xs => drop n xs

def dcons : Nat → List Nat → List Nat
  | 0, [] => []
  | x, xs => x :: xs

def shift (bits : Nat) : List Nat → List Nat × Nat
  | [] => ([], 0)
  | x :: xs =>
      let bits' := baseBits - bits
      let (zs, borrow) := shift bits xs
      let z := u31orb borrow (u31rshiftl x bits)
      let borrow' := u31andb (u31lshift x bits') maxDigit
      -- a leading zero is stripped
      (dcons z zs, borrow')

def rshift (i : Rep) (w : Nat) : Rep :=
  match i.digits with
  | [] => i
  | digits =>
      let bytes := w / baseBits
      let bits := w % baseBits
      let digits := if bits = 0 then drop bytes digits else (shift bits (drop bytes digits)).1
      match digits with
      | [] => ⟨false, []⟩
      | digits => ⟨i.negative, digits⟩

def isWs (c : Char) : Bool := c == ' ' || c == '\t' || c == '\n'

namespace Startscan
variable {α : Type} (doIt : Bool → σ → Outcome (Option α)) (hex : Bool) (getchar : Getc σ)

def hexPrefix (neg : Bool) (s : σ) : Outcome (Option α) :=
  match getchar s with
  | some ('x', s') => doIt neg s'
  | some ('X', s') => doIt neg s'
  | _ => doIt neg s

def prefixed (neg : Bool) (s : σ) : Outcome (Option α) :=
  if hex then hexPrefix doIt getchar neg s else doIt neg s

def sign (s : σ) : Outcome (Option α) :=
  match getchar s with
  | none => return none
  | some ('-', s') => prefixed doIt hex getchar true s'
  | some ('+', s') => prefixed doIt hex getchar false s'
  | _ => prefixed doIt hex getchar false s

end Startscan

def startscan {α : Type} (doIt : Bool → σ → Outcome (Option α)) (hex : Bool) (getchar : Getc σ)
    (fuel : Nat) (s : σ) : Outcome (Option α) := do
  Startscan.sign doIt hex getchar (← skip .unfinished getchar isWs fuel s)

def binDigVal : Char → Option Nat
  | '0' => some 0
  | '1' => some 1
  | _ => none

def octDigVal : Char → Option Nat
  | '0' => some 0
  | '1' => some 1
  | '2' => some 2
  | '3' => some 3
  | '4' => some 4
  | '5' => some 5
  | '6' => some 6
  | '7' => some 7
  | _ => none

def hexDigVal : Char → Option Nat
  | '0' => some 0x0
  | '1' => some 0x1
  | '2' => some 0x2
  | '3' => some 0x3
  | '4' => some 0x4
  | '5' => some 0x5
  | '6' => some 0x6
  | '7' => some 0x7
  | '8' => some 0x8
  | '9' => some 0x9
  | 'a' | 'A' => some 0xa
  | 'b' | 'B' => some 0xb
  | 'c' | 'C' => some 0xc
  | 'd' | 'D' => some 0xd
  | 'e' | 'E' => some 0xe
  | 'f' | 'F' => some 0xf
  | _ => none

structure DigState where
  d : Nat
  pos : Nat
  nat : List Nat

def bitStep (bits : Nat) : DigState → Nat → Outcome DigState
  | ⟨d, pos, nat⟩, v =>
      let pos0 := baseBits - bits
      if pos < bits then
        if pos = 0 then return ⟨u31lshift v pos0, pos0, dcons d nat⟩
        else
          return ⟨u31andb (u31lshift v (pos0 + pos)) maxDigit, pos0 + pos,
            dcons (u31orb d (u31rshiftl v (bits - pos))) nat⟩
      else return ⟨u31orb d (u31lshift v (pos - bits)), pos - bits, nat⟩

def bitDone (neg : Bool) : DigState → Rep
  | ⟨d, pos, nat⟩ =>
      let i :=
        match dcons d nat with
        | [] => ⟨false, []⟩
        | nat => ⟨neg, nat⟩
      if pos = 0 then i else rshift i pos

def bitscan (bits : Nat) (digVal : Char → Option Nat) (hex : Bool) (getchar : Getc σ) (fuel : Nat)
    (s : σ) : Outcome (Option (Rep × σ)) :=
  let checkFirstDigit (neg : Bool) (s : σ) : Outcome (Option (Rep × σ)) :=
    match getchar s with
    | some (c, s') =>
        match digVal c with
        | some v => do
            let pos0 := baseBits - bits
            let (st, s) ←
              digits .unfinished getchar digVal (bitStep bits) fuel ⟨u31lshift v pos0, pos0, []⟩ s'
            return some (bitDone neg st, s)
        | none => return none
    | none => return none
  startscan checkFirstDigit hex getchar fuel s

def decDigVal : Char → Option Nat
  | '0' => some 0
  | '1' => some 1
  | '2' => some 2
  | '3' => some 3
  | '4' => some 4
  | '5' => some 5
  | '6' => some 6
  | '7' => some 7
  | '8' => some 8
  | '9' => some 9
  | _ => none

structure DecState where
  nat : List Nat
  fact : Nat
  v : Nat

def decStep : DecState → Nat → Outcome DecState
  | ⟨nat, fact, v⟩, v' =>
      if fact = decBase then return ⟨natmadd fact nat v, 10, v'⟩
      else return ⟨nat, u31mul fact 10, u31add (u31mul v 10) v'⟩

def decDone (negative : Bool) : DecState → Rep
  | ⟨nat, fact, v⟩ =>
      match natmadd fact nat v with
      | [] => ⟨false, []⟩
      | digits => ⟨negative, digits⟩

def decscan (getchar : Getc σ) (fuel : Nat) (s : σ) : Outcome (Option (Rep × σ)) :=
  let checkFirstDigit (negative : Bool) (s : σ) : Outcome (Option (Rep × σ)) :=
    match getchar s with
    | some (c, s') =>
        match decDigVal c with
        | some v => do
            let (st, s) ← digits .unfinished getchar decDigVal decStep fuel ⟨[], 10, v⟩ s'
            return some (decDone negative st, s)
        | none => return none
    | none => return none
  startscan checkFirstDigit false getchar fuel s

def scan : Radix → Getc σ → Nat → σ → Outcome (Option (Rep × σ))
  | .decimal => decscan
  | .hex => bitscan 4 hexDigVal true
  | .octal => bitscan 3 octDigVal false
  | .binary => bitscan 1 binDigVal false

end Mythryl.MultiwordIntGuts

/-!
# Reading back multiword integers

Both scanners compute the value of the numeral they read, by different invariants: `bitscan` has it
shifted up in digits that are filled from the top, `decscan` as chunks of decimal digits.
-/

namespace Mythryl.MultiwordIntGuts
open Nat Numeral CoreMultiwordInt Number Reader

theorem drop_spec (n : Nat) {ds : List Nat} (h : Digits ds) :
    Digits (drop n ds) ∧ value (drop n ds) = value ds / base ^ n := by
  induction n generalizing ds with
  | zero => exact ⟨h, by simp [drop]⟩
  | succ n ih =>
    cases ds with
    | nil => exact ⟨normal_nil, by simp [drop]⟩
    | cons d ds =>
      obtain ⟨normal, val⟩ := ih h.tail
      refine ⟨normal, ?_⟩
      rw [drop, val, value_cons, Nat.pow_succ', ← Nat.div_div_eq_div_mul,
        Nat.add_mul_div_left _ _ base_pos, Nat.div_eq_of_lt h.head_lt, Nat.zero_add]

theorem dcons_spec {x : Nat} {xs : List Nat} (lt : x < base) (h : Digits xs) :
    Digits (dcons x xs) ∧ value (dcons x xs) = x + base * value xs := by
  exact consd_spec lt h

section
variable {b s : Nat}

theorem base_split (split : b + s = 30) : base = 2 ^ b * 2 ^ s := by
  rw [← pow_add, split]
  rfl

theorem carry_down (split : b + s = 30) (x : Nat) :
    u31andb (u31lshift x s) maxDigit = 2 ^ s * (x % 2 ^ b) := by
  have inner : x % 2 ^ (31 - s) % 2 ^ b = x % 2 ^ b := by
    rw [show 31 - s = b + 1 by omega, pow_succ, Nat.mod_mul_right_mod]
  rw [show maxDigit = 2 ^ 30 - 1 from rfl, u31andb_mask, u31lshift_eq _ (by omega),
    show 2 ^ 30 = 2 ^ s * 2 ^ b by rw [← pow_add, Nat.add_comm, split], Nat.mul_mod_mul_left, inner]

theorem shift_spec (split : b + s = 30) {ds : List Nat} (h : Digits ds) :
    Digits (shift b ds).1 ∧ value (shift b ds).1 = value ds / 2 ^ b ∧
      (shift b ds).2 = 2 ^ s * (value ds % 2 ^ b) := by
  have radix := base_split split
  induction ds with
  | nil => exact ⟨normal_nil, by simp [shift], by simp [shift]⟩
  | cons x xs ih =>
    obtain ⟨normal, val, borrow⟩ := ih h.tail
    have bits' : baseBits - b = s := by rw [show baseBits = 30 from rfl]; omega
    have high : x / 2 ^ b < 2 ^ s := by
      rw [Nat.div_lt_iff_lt_mul (by positivity), Nat.mul_comm, ← radix]
      exact h.head_lt
    have rest : value xs % 2 ^ b < 2 ^ b := Nat.mod_lt _ (by positivity)
    have room : 2 ^ s * (value xs % 2 ^ b) + x / 2 ^ b < base := by
      have := Nat.mul_le_mul_left (2 ^ s) (show value xs % 2 ^ b + 1 ≤ 2 ^ b from rest)
      rw [radix, Nat.mul_comm (2 ^ b)]
      linarith
    have eq : value (x :: xs) = x + 2 ^ b * (2 ^ s * value xs) := by
      rw [value_cons, radix, Nat.mul_assoc]
    simp only [shift, borrow, u31rshiftl_eq, u31orb_eq high, bits', carry_down split]
    obtain ⟨digits, vd⟩ := dcons_spec room normal
    refine ⟨digits, ?_, ?_⟩
    · rw [vd, val, eq, Nat.add_mul_div_left _ _ (by positivity), radix]
      conv_rhs => rw [← Nat.div_add_mod (value xs) (2 ^ b)]
      ring
    · rw [eq, Nat.add_mul_mod_self_left]

end

theorem rshift_denotes (negative : Bool) {ds : List Nat} (h : Digits ds) (ne : ds ≠ []) (w : Nat) :
    Denotes (rshift ⟨negative, ds⟩ w) (signed negative (value ds / 2 ^ w)) := by
  have split := Nat.div_add_mod w 30
  have power : 2 ^ w = base ^ (w / 30) * 2 ^ (w % 30) := by
    conv_lhs => rw [← split]
    rw [pow_add, pow_mul]
    rfl
  obtain ⟨hd, vd⟩ := drop_spec (w / 30) h
  have shifted : Digits (if w % baseBits = 0 then drop (w / baseBits) ds
        else (shift (w % baseBits) (drop (w / baseBits) ds)).1) ∧
      value (if w % baseBits = 0 then drop (w / baseBits) ds
        else (shift (w % baseBits) (drop (w / baseBits) ds)).1) = value ds / 2 ^ w := by
    rw [show baseBits = 30 from rfl, power, ← Nat.div_div_eq_div_mul, ← vd]
    split
    case isTrue zero => exact ⟨hd, by rw [zero, pow_zero, Nat.div_one]⟩
    case isFalse =>
      obtain ⟨hs, vs, _⟩ := shift_spec (show w % 30 + (30 - w % 30) = 30 by omega) hd
      exact ⟨hs, vs⟩
  obtain ⟨x, xs, rfl⟩ := List.exists_cons_of_ne_nil ne
  obtain ⟨normal, val⟩ := shifted
  have den : Denotes _ (signed negative _) := bi_denotes negative normal
  rw [val] at den
  convert den using 1
  simp only [rshift]
  generalize (if w % baseBits = 0 then drop (w / baseBits) (x :: xs)
        else (shift (w % baseBits) (drop (w / baseBits) (x :: xs))).1) = ds
  cases ds <;> rfl

structure Filled (st : DigState) (v : Nat) : Prop where
  lt : st.d < base
  pos_lt : st.pos < 30
  digits : Digits st.nat
  value : st.d + base * value st.nat = v * 2 ^ st.pos

variable {st : DigState} {v : Nat}

theorem Filled.free (h : Filled st v) : st.d = 2 ^ st.pos * (st.d / 2 ^ st.pos) := by
  have radix := base_split (Nat.add_sub_cancel' h.pos_lt.le)
  have above : 2 ^ st.pos ∣ base * CoreMultiwordInt.value st.nat :=
    Dvd.dvd.mul_right (Dvd.intro _ radix.symm) _
  have dvd : 2 ^ st.pos ∣ st.d := by
    rw [← Nat.dvd_add_left above, h.value]
    exact Nat.dvd_mul_left _ _
  exact (Nat.mul_div_cancel' dvd).symm

theorem Filled.fill {c : Nat} (h : Filled st v) (lt : c < 2 ^ st.pos) :
    u31orb st.d c = st.d + c ∧ st.d + c < base := by
  have free := h.free
  refine ⟨by rw [free, u31orb_eq lt, ← free], ?_⟩
  have below := h.lt
  rw [free, base_split (Nat.add_sub_cancel' h.pos_lt.le)] at below ⊢
  have less := Nat.lt_of_mul_lt_mul_left below
  have := Nat.mul_le_mul_left (2 ^ st.pos) (show st.d / 2 ^ st.pos + 1 ≤ _ from less)
  linarith

theorem bitStep_spec {bits : Nat} (pos : 0 < bits) (small : bits < 30) (st : DigState) (v d : Nat)
    (h : Filled st v) (lt : d < 2 ^ bits) :
    ∃ st', bitStep bits st d = .ok st' ∧ Filled st' (v * 2 ^ bits + d) := by
  have fill (c : Nat) := h.fill (c := c)
  obtain ⟨hd, hpos, hnat, eq⟩ := h
  obtain ⟨x, p, xs⟩ := st
  simp only at hd hpos hnat eq fill
  have width : baseBits - bits = 30 - bits := rfl
  rw [bitStep]
  simp only [width]
  split
  case isTrue short =>
    split
    case isTrue zero =>
      -- the digit is full: open the next one
      subst zero
      obtain ⟨digits, val⟩ := dcons_spec hd hnat
      have radix := base_split (Nat.add_sub_cancel' small.le)
      have top : u31lshift d (30 - bits) = 2 ^ (30 - bits) * d := by
        rw [u31lshift_eq _ (by omega), Nat.mod_eq_of_lt]
        exact lt.trans_le (Nat.pow_le_pow_right (by decide) (by omega))
      refine ⟨_, rfl, ?_, by simp only; omega, digits, ?_⟩
      · rw [top, radix, Nat.mul_comm (2 ^ bits)]
        exact Nat.mul_lt_mul_of_pos_left lt (by positivity)
      · simp only [val, eq, top, pow_zero, Nat.mul_one]
        rw [radix]
        ring
    case isFalse some =>
      -- the character is split between this digit and the next
      have split : bits - p + (30 - bits + p) = 30 := by omega
      have radix := base_split split
      have high : u31rshiftl d (bits - p) < 2 ^ p := by
        rw [u31rshiftl_eq, Nat.div_lt_iff_lt_mul (by positivity), ← pow_add,
          show p + (bits - p) = bits by omega]
        exact lt
      have low : d % 2 ^ (bits - p) < 2 ^ (bits - p) := Nat.mod_lt _ (by positivity)
      obtain ⟨fill, room⟩ := fill _ high
      rw [u31rshiftl_eq] at fill room
      obtain ⟨digits, val⟩ := dcons_spec room hnat
      refine ⟨_, rfl, ?_, by simp only; omega, ?_, ?_⟩
      · simp only [carry_down split]
        rw [radix, Nat.mul_comm (2 ^ (bits - p))]
        exact Nat.mul_lt_mul_of_pos_left low (by positivity)
      · simp only [u31rshiftl_eq, fill]
        exact digits
      · simp only [carry_down split, u31rshiftl_eq, fill, val]
        have whole := Nat.div_add_mod d (2 ^ (bits - p))
        have power : 2 ^ bits = 2 ^ p * 2 ^ (bits - p) := by rw [← pow_add]; congr 1; omega
        calc 2 ^ (30 - bits + p) * (d % 2 ^ (bits - p)) +
              base * (x + d / 2 ^ (bits - p) + base * CoreMultiwordInt.value xs)
            = 2 ^ (30 - bits + p) * (2 ^ (bits - p) * (d / 2 ^ (bits - p)) + d % 2 ^ (bits - p)) +
                base * (x + base * CoreMultiwordInt.value xs) := by
              rw [radix]
              ring
          _ = _ := by
              rw [whole, eq, power, radix]
              ring
  case isFalse enough =>
    have room : u31lshift d (p - bits) = 2 ^ (p - bits) * d := by
      rw [u31lshift_eq _ (by omega), Nat.mod_eq_of_lt]
      exact lt.trans_le (Nat.pow_le_pow_right (by decide) (by omega))
    have power : 2 ^ p = 2 ^ (p - bits) * 2 ^ bits := by rw [← pow_add]; congr 1; omega
    have fits : 2 ^ (p - bits) * d < 2 ^ p := by
      rw [power]
      exact Nat.mul_lt_mul_of_pos_left lt (by positivity)
    obtain ⟨fill, below⟩ := fill _ fits
    refine ⟨_, rfl, ?_, by simp only; omega, hnat, ?_⟩
    · simp only [room, fill]
      exact below
    · simp only [room, fill]
      rw [Nat.add_right_comm, eq, power]
      ring

theorem bitDone_denotes (neg : Bool) (h : Filled st v) :
    Denotes (bitDone neg st) (signed neg v) := by
  obtain ⟨hd, hpos, hnat, eq⟩ := h
  obtain ⟨x, p, xs⟩ := st
  obtain ⟨digits, val⟩ := dcons_spec hd hnat
  rw [eq] at val
  have shifted : v = CoreMultiwordInt.value (dcons x xs) / 2 ^ p := by
    rw [val, Nat.mul_div_cancel _ (by positivity)]
  have whole : Denotes (bi ⟨neg, dcons x xs⟩) (signed neg (CoreMultiwordInt.value (dcons x xs))) :=
    bi_denotes neg digits
  have eq : bitDone neg ⟨x, p, xs⟩ =
      if p = 0 then bi ⟨neg, dcons x xs⟩ else rshift (bi ⟨neg, dcons x xs⟩) p := by
    simp only [bitDone]
    cases dcons x xs <;> rfl
  rw [eq]
  split
  case isTrue full =>
    rw [shifted, full, pow_zero, Nat.div_one]
    exact whole
  case isFalse =>
    rcases nil : dcons x xs with _ | ⟨y, ys⟩
    · have none : v = 0 := by rw [shifted, nil]; simp
      rw [none]
      exact ⟨zero_denotes.1, by cases neg <;> rfl⟩
    · rw [shifted, nil]
      exact rshift_denotes neg (nil ▸ digits) (by simp) p

structure Chunked (st : DecState) (v : Nat) : Prop where
  digits : Digits st.nat
  fact : ∃ k, 1 ≤ k ∧ k ≤ 9 ∧ st.fact = 10 ^ k
  lt : st.v < st.fact
  value : st.fact * value st.nat + st.v = v

theorem Chunked.fact_le {st : DecState} (h : Chunked st v) : st.fact ≤ 10 ^ 9 := by
  obtain ⟨k, _, le, eq⟩ := h.fact
  rw [eq]
  exact Nat.pow_le_pow_right (by decide) le

theorem Chunked.natmadd_spec {st : DecState} (h : Chunked st v) :
    Digits (natmadd st.fact st.nat st.v) ∧ CoreMultiwordInt.value (natmadd st.fact st.nat st.v) = v := by
  have le := h.fact_le
  have lt := h.lt
  have radix : 10 ^ 9 < base := by decide
  rw [← h.value]
  exact CoreMultiwordInt.natmadd_spec (by omega) h.digits (by omega)

theorem decStep_spec (st : DecState) (v d : Nat) (h : Chunked st v) (lt : d < 10) :
    ∃ st', decStep st d = .ok st' ∧ Chunked st' (v * 10 + d) := by
  obtain ⟨normal, val⟩ := h.natmadd_spec
  have le := h.fact_le
  obtain ⟨hnat, ⟨k, ge, kle, fact⟩, hv, eq⟩ := h
  obtain ⟨xs, f, w⟩ := st
  simp only at hnat fact hv eq normal val le
  rw [decStep, decBase_eq]
  split
  case isTrue full =>
    refine ⟨_, rfl, normal, ⟨1, by omega, by omega, rfl⟩, lt, ?_⟩
    simp only [val]
    omega
  case isFalse room =>
    have k9 : k ≠ 9 := by
      rintro rfl
      exact room fact
    have less : f ≤ 10 ^ 8 := by
      rw [fact]
      exact Nat.pow_le_pow_right (by decide) (by omega)
    have mul : u31mul f 10 = f * 10 := Word.mul_eq (by omega)
    have mulv : u31mul w 10 = w * 10 := Word.mul_eq (by omega)
    have sum : u31add (w * 10) d = w * 10 + d := Word.add_eq (by omega)
    rw [mul, mulv, sum]
    refine ⟨_, rfl, hnat, ⟨k + 1, by omega, by omega, by rw [fact, pow_succ]⟩, by simp only; omega, ?_⟩
    simp only [← eq]
    ring

theorem decDone_denotes (neg : Bool) {st : DecState} (h : Chunked st v) :
    Denotes (decDone neg st) (signed neg v) := by
  obtain ⟨normal, val⟩ := h.natmadd_spec
  have den : Denotes _ (signed neg _) := bi_denotes neg normal
  rw [val] at den
  have eq : decDone neg st = bi ⟨neg, natmadd st.fact st.nat st.v⟩ := by
    obtain ⟨xs, f, w⟩ := st
    simp only [decDone]
    cases natmadd f xs w <;> rfl
  rwa [eq]

def digVal : Radix → Char → Option Nat
  | .binary => binDigVal
  | .octal => octDigVal
  | .decimal => decDigVal
  | .hex => hexDigVal

/-- A numeral: maybe a sign, in hexadecimal maybe an `x`, and digits of either case. -/
structure NumeralText (radix : Radix) where
  sign : List Char
  lead : List Char
  body : List Char
  neg : Bool
  value : Nat
  digits : List Nat
  sign_eq : (neg = false ∧ (sign = [] ∨ sign = ['+'])) ∨ (neg = true ∧ sign = ['-'])
  lead_eq : lead = [] ∨ (radix = .hex ∧ (lead = ['x'] ∨ lead = ['X']))
  vals : body.map (digVal radix) = digits.map some
  spells : Spells radix.base value digits

namespace NumeralText
variable {radix : Radix}

def text (t : NumeralText radix) : List Char := t.sign ++ t.lead ++ t.body

def toInt (t : NumeralText radix) : ℤ := signed t.neg t.value

theorem body_eq (t : NumeralText radix) :
    ∃ c cs d ds, t.body = c :: cs ∧ t.digits = d :: ds ∧ digVal radix c = some d ∧
      cs.map (digVal radix) = ds.map some := by
  obtain ⟨d, ds, hd⟩ := List.exists_cons_of_ne_nil t.spells.ne_nil
  have vals := t.vals
  rw [hd, List.map_cons] at vals
  obtain ⟨c, cs, hc, val, rest⟩ := List.map_eq_cons_iff.mp vals
  exact ⟨c, cs, d, ds, hc, hd, val, rest⟩

end NumeralText

variable {σ : Type} {getc : Getc σ} {radix : Radix} {s s' m : σ} {c : Char} {d fuel : Nat}

theorem digit_ne (digit : digVal radix c = some d) :
    isWs c = false ∧ c ≠ '-' ∧ c ≠ '+' ∧ c ≠ 'x' ∧ c ≠ 'X' := by
  have none (c' : Char) (not : digVal radix c' = none) : c ≠ c' := by
    rintro rfl
    simp [digit] at not
  refine ⟨?_, none _ (by cases radix <;> rfl), none _ (by cases radix <;> rfl),
    none _ (by cases radix <;> rfl), none _ (by cases radix <;> rfl)⟩
  have space : c ≠ ' ' := none _ (by cases radix <;> rfl)
  have tab : c ≠ '\t' := none _ (by cases radix <;> rfl)
  have newline : c ≠ '\n' := none _ (by cases radix <;> rfl)
  simp [isWs, space, tab, newline]

section Startscan
variable {α : Type} (doIt : Bool → σ → Outcome (Option α))

theorem prefixed_eq (neg : Bool) {lead body : List Char}
    (lead_eq : lead = [] ∨ (radix = .hex ∧ (lead = ['x'] ∨ lead = ['X'])))
    (first : ∃ c cs d, body = c :: cs ∧ digVal radix c = some d)
    (reads : Reads getc (lead ++ body) s s') :
    ∃ m, Startscan.prefixed doIt (radix == .hex) getc neg s = doIt neg m ∧ Reads getc body m s' := by
  rcases lead_eq with rfl | ⟨rfl, rfl | rfl⟩
  · refine ⟨s, ?_, reads⟩
    obtain ⟨c, cs, d, rfl, digit⟩ := first
    obtain ⟨m, get, _⟩ := reads
    obtain ⟨_, _, _, x, X⟩ := digit_ne digit
    rw [Startscan.prefixed]
    split
    · rw [Startscan.hexPrefix, get]
      split <;> simp_all
    · rfl
  · obtain ⟨m, get, rest⟩ := reads
    exact ⟨m, by simp [Startscan.prefixed, Startscan.hexPrefix, get], rest⟩
  · obtain ⟨m, get, rest⟩ := reads
    exact ⟨m, by simp [Startscan.prefixed, Startscan.hexPrefix, get], rest⟩

theorem startscan_eq (t : NumeralText radix) (reads : Reads getc t.text s s') (enough : 0 < fuel) :
    ∃ m, startscan doIt (radix == .hex) getc fuel s = doIt t.neg m ∧ Reads getc t.body m s' := by
  obtain ⟨c, cs, d, _, body, _, digit, _⟩ := t.body_eq
  have first : ∃ c cs d, t.body = c :: cs ∧ digVal radix c = some d := ⟨c, cs, d, body, digit⟩
  have start {c : Char} {m : σ} (get : getc s = some (c, m)) (black : isWs c = false) :
      startscan doIt (radix == .hex) getc fuel s = Startscan.sign doIt (radix == .hex) getc s := by
    have stops : Stops getc (fun c => isWs c = true) s := by
      intro c' m' get'
      obtain ⟨rfl, rfl⟩ : c = c' ∧ m = m' := by simpa [get] using get'
      simp [black]
    rw [startscan, skip_eq stops enough]
    rfl
  rw [NumeralText.text, List.append_assoc] at reads
  rcases t.sign_eq with ⟨plus, none | plusSign⟩ | ⟨minus, sign⟩
  · -- no sign: the first character is a digit or an `x`
    rw [none, List.nil_append] at reads
    obtain ⟨c, cs, eq, black, notMinus, notPlus⟩ :
        ∃ c cs, t.lead ++ t.body = c :: cs ∧ isWs c = false ∧ c ≠ '-' ∧ c ≠ '+' := by
      rcases t.lead_eq with lead | ⟨_, lead | lead⟩
      · obtain ⟨black, notMinus, notPlus, _⟩ := digit_ne digit
        exact ⟨c, cs, by rw [lead, body]; rfl, black, notMinus, notPlus⟩
      · exact ⟨'x', t.body, by rw [lead]; rfl, by decide, by decide, by decide⟩
      · exact ⟨'X', t.body, by rw [lead]; rfl, by decide, by decide, by decide⟩
    have reads' := reads
    rw [eq] at reads'
    obtain ⟨m, get, _⟩ := reads'
    rw [start get black, plus, Startscan.sign, get]
    obtain ⟨m', run, rest⟩ := prefixed_eq doIt false t.lead_eq first reads
    refine ⟨m', ?_, rest⟩
    rw [← run]
    split <;> simp_all
  · rw [plusSign] at reads
    obtain ⟨m, get, rest⟩ := reads
    rw [start get (by decide), plus, Startscan.sign, get]
    exact prefixed_eq doIt _ t.lead_eq first rest
  · rw [sign] at reads
    obtain ⟨m, get, rest⟩ := reads
    rw [start get (by decide), minus, Startscan.sign, get]
    exact prefixed_eq doIt _ t.lead_eq first rest

end Startscan

theorem filled_first {bits : Nat} (pos : 0 < bits) (small : bits < 30) (lt : v < 2 ^ bits) :
    Filled ⟨u31lshift v (baseBits - bits), baseBits - bits, []⟩ v := by
  have width : baseBits - bits = 30 - bits := rfl
  have top : u31lshift v (30 - bits) = 2 ^ (30 - bits) * v := by
    rw [u31lshift_eq _ (by omega), Nat.mod_eq_of_lt]
    exact lt.trans_le (Nat.pow_le_pow_right (by decide) (by omega))
  refine ⟨?_, by simp only [width]; omega, normal_nil, ?_⟩
  · rw [width, top, base_split (Nat.add_sub_cancel' small.le), Nat.mul_comm (2 ^ bits)]
    exact Nat.mul_lt_mul_of_pos_left lt (by positivity)
  · simp only [width, top, value_nil]
    ring

theorem bitscan_numeral (bits : Nat) (pos : 0 < bits) (small : bits < 30)
    (base_eq : radix.base = 2 ^ bits) (t : NumeralText radix) (reads : Reads getc t.text s s')
    (stops : Stops getc (fun c => (digVal radix c).isSome) s') (enough : t.text.length < fuel) :
    ∃ r, bitscan bits (digVal radix) (radix == .hex) getc fuel s = .ok (some (r, s')) ∧
      Denotes r t.toInt := by
  obtain ⟨c, cs, d, ds, body, digits, digit, vals⟩ := t.body_eq
  obtain ⟨_, lt, val⟩ := t.spells
  rw [digits, base_eq] at lt val
  simp only [List.mem_cons, forall_eq_or_imp] at lt
  rw [horner_cons, Nat.zero_mul, Nat.zero_add] at val
  unfold bitscan
  obtain ⟨m, run, rest⟩ := startscan_eq _ t reads (show 0 < fuel by omega)
  rw [run]
  rw [body] at rest
  obtain ⟨m', get, rest⟩ := rest
  have size : cs.length < fuel := by
    rw [NumeralText.text, body] at enough
    simp at enough
    omega
  obtain ⟨st, loop, filled⟩ := foldlM_horner (bitStep_spec pos small)
    (filled_first pos small lt.1) lt.2
  have conv := digits_eq Failure.unfinished (bitStep bits) rest vals stops size
    ⟨u31lshift d (baseBits - bits), baseBits - bits, []⟩
  rw [loop] at conv
  rw [val] at filled
  refine ⟨bitDone t.neg st, ?_, bitDone_denotes t.neg filled⟩
  simp only [get, digit, conv, Except.map, ok_bind, pure_eq]

theorem decscan_numeral (t : NumeralText .decimal) (reads : Reads getc t.text s s')
    (stops : Stops getc (fun c => (digVal .decimal c).isSome) s') (enough : t.text.length < fuel) :
    ∃ r, decscan getc fuel s = .ok (some (r, s')) ∧ Denotes r t.toInt := by
  obtain ⟨c, cs, d, ds, body, digits, digit, vals⟩ := t.body_eq
  obtain ⟨_, lt, val⟩ := t.spells
  rw [digits] at lt val
  simp only [List.mem_cons, forall_eq_or_imp] at lt
  rw [horner_cons, Nat.zero_mul, Nat.zero_add] at val
  unfold decscan
  obtain ⟨m, run, rest⟩ := startscan_eq _ t reads (show 0 < fuel by omega)
  rw [show (Radix.decimal == Radix.hex) = false from rfl] at run
  rw [run]
  rw [body] at rest
  obtain ⟨m', get, rest⟩ := rest
  have size : cs.length < fuel := by
    rw [NumeralText.text, body] at enough
    simp at enough
    omega
  have first : Chunked ⟨[], 10, d⟩ d := ⟨normal_nil, ⟨1, by decide, by decide, rfl⟩, lt.1, by simp⟩
  obtain ⟨st, loop, chunked⟩ := foldlM_horner decStep_spec first lt.2
  have conv : Reader.digits .unfinished getc decDigVal decStep fuel ⟨[], 10, d⟩ m' = _ :=
    digits_eq Failure.unfinished decStep rest vals stops size ⟨[], 10, d⟩
  rw [loop] at conv
  rw [show horner 10 d ds = t.value from val] at chunked
  refine ⟨decDone t.neg st, ?_, decDone_denotes t.neg chunked⟩
  simp only [show decDigVal c = some d from digit, get, conv, Except.map, ok_bind, pure_eq]

theorem scan_numeral (t : NumeralText radix) (reads : Reads getc t.text s s')
    (stops : Stops getc (fun c => (digVal radix c).isSome) s') (enough : t.text.length < fuel) :
    ∃ r, scan radix getc fuel s = .ok (some (r, s')) ∧ Denotes r t.toInt := by
  cases radix with
  | binary => exact bitscan_numeral 1 (by decide) (by decide) rfl t reads stops enough
  | octal => exact bitscan_numeral 3 (by decide) (by decide) rfl t reads stops enough
  | decimal => exact decscan_numeral t reads stops enough
  | hex => exact bitscan_numeral 4 (by decide) (by decide) rfl t reads stops enough

theorem digVal_lowerDigit {d : Nat} (lt : d < radix.base) : digVal radix (lowerDigit d) = some d := by
  have all : ∀ radix : Radix, ∀ d : Fin radix.base, digVal radix (lowerDigit d) = some d.val := by
    intro radix
    cases radix <;> decide
  exact all radix ⟨d, lt⟩

def NumeralText.ofFormat (negative : Bool) {v : Nat} {ds : List Nat} (h : Spells radix.base v ds) :
    NumeralText radix where
  sign := if negative then ['-'] else []
  lead := []
  body := ds.map lowerDigit
  neg := negative
  value := v
  digits := ds
  sign_eq := by cases negative <;> simp
  lead_eq := .inl rfl
  vals := by
    rw [List.map_map]
    exact List.map_congr_left fun d mem => digVal_lowerDigit (h.lt d mem)
  spells := h

theorem scan_format (i : MultiwordInt) (radix : Radix) (getc : Getc σ) :
    ∃ text, format radix i.rep = .ok text ∧
      ∀ s s', Reads getc text s s' → Stops getc (fun c => (digVal radix c).isSome) s' →
        ∀ fuel, text.length < fuel → scan radix getc fuel s = .ok (some (i.rep, s')) := by
  obtain ⟨ds, spells, text⟩ := format_spec radix i.normal
  let t := NumeralText.ofFormat i.rep.negative spells
  have eq : t.text = signedText i.rep.negative ds := by
    simp [t, NumeralText.text, NumeralText.ofFormat, signedText]
  refine ⟨_, text, fun s s' reads stops fuel enough => ?_⟩
  rw [← eq] at reads enough
  obtain ⟨r, run, normal, val⟩ := scan_numeral t reads stops enough
  rw [run, normal.ext i.normal (val.trans (Rep.toInt_eq i.rep).symm)]

theorem scan_format_hex : ∃ text, format .hex ⟨true, [255]⟩ = .ok text ∧
      scan .hex ofList (text.length + 1) (text ++ ['g']) = .ok (some (⟨true, [255]⟩, ['g'])) := by
  obtain ⟨text, written, read⟩ :=
    scan_format ⟨⟨true, [255]⟩, ⟨by decide, by decide⟩, by decide⟩ .hex ofList
  refine ⟨text, written, read _ _ (reads_ofList _ _) ?_ _ (Nat.lt_succ_self _)⟩
  rintro c s' get
  obtain ⟨rfl, rfl⟩ : 'g' = c ∧ [] = s' := by simpa [ofList] using get
  decide

end Mythryl.MultiwordIntGuts
