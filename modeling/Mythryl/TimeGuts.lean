import Mythryl.TwoWordInt

/-! # Time values as text: `format` and `scan` of `src/lib/std/src/time-guts.pkg` -/

namespace Mythryl.TimeGuts
open Numeral Reader
open MultiwordIntGuts (isWs decDigVal padLeft lowerDigit)

/-- `vector::get (rounding_vector, i)` -/
def roundingVector (i : Int) : Outcome Int :=
  if 0 ≤ i ∧ i < 5 then .ok ([50000, 5000, 500, 50, 5].getD i.toNat 0) else throw .subscript

def decimals (n : Nat) : List Nat := if n = 0 then [0] else (Nat.digits 10 n).reverse

def formatInt (i : Int) : List Char :=
  (if i < 0 then ['-'] else []) ++ (decimals i.natAbs).map lowerDigit

def formatSec (neg : Bool) (i : Int) : List Char := formatInt (if neg then -i else i)

def isEven (i : Int) : Bool := i.tmod 2 = 0

def rounded (fraction half whole : Int) : Int :=
  match compare fraction half with
  | .lt => whole
  | .gt => whole + 1
  | .eq => if isEven whole then whole else whole + 1

/-- A time is its number of microseconds. For precision 0 it is the whole time, not its fraction,
that is compared with half a second. -/
def format (precision usec : Int) : Outcome (List Char) :=
  let neg : Bool := usec < 0
  let usec := if neg then -usec else usec
  if precision < 0 then throw .size
  else if precision = 0 then
    .ok (formatSec neg (rounded usec 500000 (usec.tdiv 1000000)))
  else if precision ≥ 6 then
    .ok (formatSec neg (usec.tdiv 1000000) ++ ['.'] ++
      padLeft '0' 6 (formatInt (usec.tmod 1000000)) ++ padLeft '0' (precision - 6).toNat [])
  else do
    let rnd ← roundingVector (precision - 1)
    let roundedWholePart := rounded (usec.tmod (2 * rnd)) rnd (usec.tdiv (2 * rnd))
    let rscl := 2 * (← roundingVector (5 - precision))
    return formatSec neg (roundedWholePart.tdiv rscl) ++ ['.'] ++
      padLeft '0' precision.toNat (formatInt (roundedWholePart.tmod rscl))

section Scan
variable {σ : Type} (getc : Getc σ) (fuel : Nat)

def digit (a : Int × Nat) (d : Nat) : Outcome (Int × Nat) := .ok (10 * a.1 + d, a.2 + 1)

def whole (s : σ) : Outcome (Option (Int × σ × Nat)) := do
  let ((n, m), s) ← digits .unfinished getc decDigVal digit fuel (0, 0) s
  return if m = 0 then none else some (n, s, m)

def fractional (negative : Bool) (wh : Int) (s : σ) : Outcome (Option (Int × σ)) := do
  match ← whole getc fuel s with
  | some (n, s, m) =>
      let fr := if m > 6 then n / 10 ^ (m - 6) else if m < 6 then n * 10 ^ (6 - m) else n
      let usec := wh * 1000000 + fr
      return some (if negative then -usec else usec, s)
  | none => return none

def withwhole (negative : Bool) (s : σ) : Outcome (Option (Int × σ)) := do
  match ← whole getc fuel s with
  | none => return none
  | some (wh, s', _) =>
      match getc s' with
      | some ('.', s'') => fractional getc fuel negative wh s''
      | _ => return some (if negative then -(wh * 1000000) else wh * 1000000, s')

def time (negative : Bool) (s : σ) : Outcome (Option (Int × σ)) :=
  match getc s with
  | none => return none
  | some ('.', s') => fractional getc fuel negative 0 s'
  | _ => withwhole getc fuel negative s

def sign (s : σ) : Outcome (Option (Int × σ)) :=
  match getc s with
  | none => return none
  | some ('-', s') => time getc fuel true s'
  | some ('+', s') => time getc fuel false s'
  | _ => time getc fuel false s

def scan (s : σ) : Outcome (Option (Int × σ)) := do
  sign getc fuel (← skip .unfinished getc isWs fuel s)

end Scan

def fromString (s : List Char) : Outcome (Option Int) := TwoWordInt.scanString scan s

theorem decimals_spells (n : Nat) : Spells 10 n (decimals n) := by
  unfold decimals
  split_ifs with zero
  · rw [zero]
    exact spells_digit (by decide)
  · refine ⟨by simpa [Nat.digits_ne_nil_iff_ne_zero] using zero,
      fun d mem => Nat.digits_lt_base (by decide) (List.mem_reverse.mp mem), ?_⟩
    conv_rhs => rw [← Nat.ofDigits_digits 10 n, Nat.ofDigits_eq_foldr]
    rw [horner, List.foldl_reverse]
    congr 1
    funext d a
    rw [Nat.cast_id, mul_comm, add_comm]

theorem decimals_length {n k : Nat} (pos : 0 < k) (lt : n < 10 ^ k) : (decimals n).length ≤ k := by
  unfold decimals
  split_ifs with zero
  · exact pos
  · rw [List.length_reverse]
    exact (Nat.digits_length_le_iff (by decide) n).mpr lt

/-- What `format` writes: the seconds, and the digits of the fraction. -/
def layout (seconds : List Char) (ds : List Nat) : List Char :=
  seconds ++ if ds = [] then [] else '.' :: ds.map lowerDigit

def fractionOf (ds : List Nat) : Nat :=
  if ds.length > 6 then horner 10 0 ds / 10 ^ (ds.length - 6)
  else horner 10 0 ds * 10 ^ (6 - ds.length)

section Scanning
variable {σ : Type} {getc : Getc σ} {fuel : Nat} {s s' m : σ} {ds : List Nat} {neg : Bool} {q : Nat}

theorem foldlM_digit (ds : List Nat) (n m : Nat) :
    ds.foldlM digit ((n : Int), m) = .ok ((horner 10 n ds : Int), m + ds.length) := by
  induction ds generalizing n m with
  | nil => rfl
  | cons d ds ih =>
    rw [List.foldlM_cons, digit, ok_bind, horner_cons, List.length_cons, ← add_assoc, add_right_comm,
      ← ih]
    push_cast
    rw [mul_comm]

theorem whole_eq (ne : ds ≠ []) (lt : ∀ d ∈ ds, d < 10) (reads : Reads getc (ds.map lowerDigit) s s')
    (stops : Stops getc (fun c => (decDigVal c).isSome) s') (enough : ds.length < fuel) :
    whole getc fuel s = .ok (some ((horner 10 0 ds : Int), s', ds.length)) := by
  have vals : (ds.map lowerDigit).map decDigVal = ds.map some := by
    rw [List.map_map]
    exact List.map_congr_left fun d mem =>
      @MultiwordIntGuts.digVal_lowerDigit .decimal _ (lt d mem)
  have run : digits .unfinished getc decDigVal digit fuel (0, 0) s = _ :=
    digits_eq Failure.unfinished digit reads vals stops (by simpa using enough) (0, 0)
  rw [show ds.foldlM digit (0, 0) = _ from foldlM_digit ds 0 0] at run
  rw [whole, run]
  simp [Except.map, ne]

theorem fractional_eq (ne : ds ≠ []) (lt : ∀ d ∈ ds, d < 10)
    (reads : Reads getc (ds.map lowerDigit) s s') (ended : getc s' = none)
    (enough : ds.length < fuel) : fractional getc fuel neg q s =
      .ok (some (if neg then -(q * 1000000 + fractionOf ds : Int) else q * 1000000 + fractionOf ds,
        s')) := by
  have stops : Stops getc (fun c => (decDigVal c).isSome) s' := fun c m get => by simp [ended] at get
  rw [fractional, whole_eq ne lt reads stops enough, ok_bind]
  have same : (if ds.length > 6 then (horner 10 0 ds : Int) / 10 ^ (ds.length - 6)
      else if ds.length < 6 then (horner 10 0 ds : Int) * 10 ^ (6 - ds.length)
      else horner 10 0 ds) = fractionOf ds := by
    unfold fractionOf
    split_ifs with more less
    · push_cast
      rfl
    · push_cast
      rfl
    · rw [show ds.length = 6 by omega]
      simp
  simp only [same]
  rfl

theorem digit_ne {d : Nat} (lt : d < 10) : isWs (lowerDigit d) = false ∧ lowerDigit d ≠ '-' ∧
    lowerDigit d ≠ '+' ∧ lowerDigit d ≠ '.' ∧ decDigVal '.' = none := by
  interval_cases d <;> decide

/-- Scanning the digits of the seconds, and a fraction if there is one. -/
theorem time_eq (lt : ∀ d ∈ ds, d < 10) (reads : Reads getc (layout ((decimals q).map lowerDigit) ds) s s')
    (ended : getc s' = none) (enough : (decimals q).length + ds.length < fuel) :
    time getc fuel neg s =
      .ok (some (if neg then -(q * 1000000 + fractionOf ds : Int) else q * 1000000 + fractionOf ds,
        s')) := by
  obtain ⟨ne, lt', value⟩ := decimals_spells q
  obtain ⟨m, first, rest⟩ := reads_append.mp reads
  have start : time getc fuel neg s = withwhole getc fuel neg s := by
    obtain ⟨d, tail, eq⟩ := List.exists_cons_of_ne_nil ne
    rw [eq] at first lt'
    obtain ⟨_, get, -⟩ := first
    have dot := (digit_ne (lt' d (by simp))).2.2.2.1
    rw [time, get]
    split <;> simp_all
  rw [start, withwhole]
  by_cases none : ds = []
  · subst none
    obtain rfl : m = s' := by simpa using rest
    rw [whole_eq ne lt' first (fun c m get => by simp [ended] at get) (by simpa using enough), ok_bind]
    simp [ended, value, fractionOf]
  · rw [if_neg none] at rest
    obtain ⟨m', get, rest⟩ := rest
    have stops : Stops getc (fun c => (decDigVal c).isSome) m := fun c m'' get' => by
      rw [get] at get'
      cases get'
      simp [decDigVal]
    rw [whole_eq ne lt' first stops (by omega), ok_bind]
    simp only [get, value]
    exact fractional_eq none lt rest ended (by omega)

theorem scan_eq (lt : ∀ d ∈ ds, d < 10)
    (reads : Reads getc (layout ((if neg then ['-'] else []) ++ (decimals q).map lowerDigit) ds) s s')
    (ended : getc s' = none) (enough : (decimals q).length + ds.length < fuel) : scan getc fuel s =
      .ok (some (if neg then -(q * 1000000 + fractionOf ds : Int) else q * 1000000 + fractionOf ds,
        s')) := by
  have black {c : Char} {m : σ} (get : getc s = some (c, m)) (not : isWs c = false) :
      scan getc fuel s = sign getc fuel s := by
    have stops : Stops getc (fun c => isWs c = true) s := fun c' m' get' => by
      rw [get] at get'
      cases get'
      simp [not]
    rw [scan, skip_eq stops (by omega)]
    rfl
  cases neg with
  | true =>
    obtain ⟨m, get, rest⟩ := reads
    rw [black get (by decide), sign, get]
    exact time_eq lt rest ended enough
  | false =>
    obtain ⟨d, tail, eq⟩ := List.exists_cons_of_ne_nil (decimals_spells q).ne_nil
    have low : d < 10 := (decimals_spells q).lt d (by simp [eq])
    obtain ⟨blank, minus, plus, -⟩ := digit_ne low
    refine Eq.trans ?_ (time_eq lt reads ended enough)
    rw [eq] at reads
    obtain ⟨m, get, -⟩ := reads
    rw [black get blank, sign, get]
    split <;> simp_all

end Scanning

/-- Seconds before which a minus sign is written, which zero does not have. -/
theorem formatSec_eq (neg : Bool) (q : Nat) : formatSec neg q =
    (if neg && q != 0 then ['-'] else []) ++ (decimals q).map lowerDigit := by
  unfold formatSec formatInt
  cases neg with
  | false => simp
  | true =>
    by_cases zero : q = 0
    · simp [zero]
    · simp [zero, Nat.pos_of_ne_zero zero]

/-- The text of a time is scanned as the time, without its sign when it has no whole seconds. -/
theorem fromString_layout (neg : Bool) (q : Nat) {ds : List Nat} (lt : ∀ d ∈ ds, d < 10) :
    fromString (layout (formatSec neg q) ds) = .ok (some (if neg && q != 0 then
      -(q * 1000000 + fractionOf ds : Int) else q * 1000000 + fractionOf ds)) := by
  have ended : ofString (layout (formatSec neg q) ds) (layout (formatSec neg q) ds).length = none := by
    simp [ofString]
  have reads := reads_ofString (layout (formatSec neg q) ds)
  have long : (decimals q).length + ds.length < (layout (formatSec neg q) ds).length + 1 := by
    rcases eq_or_ne ds [] with rfl | some
    · simp [layout, formatSec_eq]
    · simp [layout, formatSec_eq, some]
      omega
  rw [fromString, TwoWordInt.scanString]
  rw [scan_eq (q := q) lt (by rw [← formatSec_eq]; exact reads) ended long]
  rfl

def roundHalfEven (n u : Nat) : Nat :=
  if 2 * (n % u) < u ∨ (2 * (n % u) = u ∧ n / u % 2 = 0) then n / u else n / u + 1

/-- The microseconds that `format` rounds `n` of them to. -/
def magnitude (p n : Nat) : Nat :=
  if p = 0 then (if n ≤ 500000 then n / 1000000 else n / 1000000 + 1) * 1000000
  else roundHalfEven n (10 ^ (6 - p)) * 10 ^ (6 - p)

theorem isEven_eq (n : Nat) : isEven n = decide (n % 2 = 0) := by
  rw [isEven, show (2 : Int) = (2 : Nat) by rfl, ← Int.ofNat_tmod]
  norm_cast

theorem rounded_eq (x half w : Nat) : rounded x half w =
    ((if x < half ∨ (x = half ∧ w % 2 = 0) then w else w + 1 : Nat) : Int) := by
  unfold rounded
  rcases lt_trichotomy x half with less | rfl | more
  · rw [compare_lt_iff_lt.mpr (by exact_mod_cast less)]
    simp [less]
  · rw [compare_eq_iff_eq.mpr rfl]
    simp only [isEven_eq, lt_irrefl, false_or, true_and]
    split_ifs <;> simp_all
  · rw [compare_gt_iff_gt.mpr (by exact_mod_cast more)]
    simp [show ¬x < half by omega, show ¬x = half by omega]

theorem padLeft_eq {f k : Nat} (pos : 0 < k) (lt : f < 10 ^ k) :
    ∃ ds, padLeft '0' k (formatInt f) = ds.map lowerDigit ∧ ds.length = k ∧ (∀ d ∈ ds, d < 10) ∧
      horner 10 0 ds = f := by
  obtain ⟨-, low, value⟩ := decimals_spells f
  have length := decimals_length pos lt
  refine ⟨List.replicate (k - (decimals f).length) 0 ++ decimals f, ?_, by simp; omega, ?_, ?_⟩
  · have text : formatInt f = (decimals f).map lowerDigit := by simp [formatInt]
    rw [padLeft, text, List.length_map, List.map_append, List.map_replicate]
    split_ifs with short
    · rfl
    · rw [show k - (decimals f).length = 0 by omega]
      rfl
  · intro d mem
    rcases List.mem_append.mp mem with zero | mem
    · rw [List.eq_of_mem_replicate zero]
      decide
    · exact low d mem
  · rw [horner_zeros, value]

theorem roundingVector_eq {p : Nat} (range : 0 < p ∧ p < 6) : ∃ r r' : Nat,
    roundingVector (p - 1) = .ok r ∧ 2 * r = 10 ^ (6 - p) ∧
      roundingVector (5 - p) = .ok r' ∧ 2 * r' = 10 ^ p := by
  obtain ⟨low, high⟩ := range
  interval_cases p
  · exact ⟨50000, 5, rfl, rfl, rfl, rfl⟩
  · exact ⟨5000, 50, rfl, rfl, rfl, rfl⟩
  · exact ⟨500, 500, rfl, rfl, rfl, rfl⟩
  · exact ⟨50, 5000, rfl, rfl, rfl, rfl⟩
  · exact ⟨5, 50000, rfl, rfl, rfl, rfl⟩

theorem format_eq (p : Nat) (t : Int) : ∃ (q : Nat) (ds : List Nat),
    format p t = .ok (layout (formatSec (t < 0) q) ds) ∧ ds.length = p ∧ (∀ d ∈ ds, d < 10) ∧
      q * 1000000 + fractionOf ds = magnitude p t.natAbs ∧ fractionOf ds < 1000000 := by
  have abs : (if (decide (t < 0)) = true then -t else t) = (t.natAbs : Int) := by
    simp only [decide_eq_true_eq]
    split_ifs <;> omega
  generalize t.natAbs = n at *
  have seconds : (n : Int).tdiv 1000000 = ((n / 1000000 : Nat) : Int) := rfl
  have micros : (n : Int).tmod 1000000 = ((n % 1000000 : Nat) : Int) := rfl
  unfold format
  simp only [abs, seconds, micros]
  rw [if_neg (by omega)]
  rcases Nat.eq_zero_or_pos p with rfl | pos
  · refine ⟨if n ≤ 500000 then n / 1000000 else n / 1000000 + 1, [], ?_, rfl, by simp,
      by simp [fractionOf, magnitude], by simp [fractionOf]⟩
    have run := rounded_eq n 500000 (n / 1000000)
    rw [Nat.cast_ofNat] at run
    have same : (if n < 500000 ∨ (n = 500000 ∧ n / 1000000 % 2 = 0) then n / 1000000
        else n / 1000000 + 1) = if n ≤ 500000 then n / 1000000 else n / 1000000 + 1 := by
      split_ifs <;> omega
    rw [if_pos (Nat.cast_zero), run, same, layout, if_pos rfl, List.append_nil]
  rw [if_neg (by omega)]
  by_cases exact : 6 ≤ p
  · obtain ⟨ds, text, length, low, value⟩ := padLeft_eq (f := n % 1000000) (k := 6) (by decide)
      (Nat.mod_lt n (by decide))
    have zeros : horner 10 0 (ds ++ List.replicate (p - 6) 0) = n % 1000000 * 10 ^ (p - 6) := by
      rw [horner_append, value, horner_eq, List.length_replicate, ← List.append_nil (.replicate ..),
        horner_zeros]
      rfl
    have fraction : fractionOf (ds ++ List.replicate (p - 6) 0) = n % 1000000 := by
      rw [fractionOf, zeros, List.length_append, length, List.length_replicate,
        show 6 + (p - 6) = p by omega]
      split_ifs with more
      · exact Nat.mul_div_cancel _ (Nat.pow_pos (by decide))
      · rw [show p = 6 by omega]
        simp
    refine ⟨n / 1000000, ds ++ List.replicate (p - 6) 0, ?_, by simp; omega, fun d mem => ?_, ?_, ?_⟩
    · rw [if_pos (by omega), text, layout, if_neg (by simp [← List.length_eq_zero_iff, length]),
        show ((p : Int) - 6).toNat = p - 6 by omega]
      simp only [padLeft, List.length_nil, Nat.sub_zero, List.append_nil, List.map_append,
        List.map_replicate, List.append_assoc, List.singleton_append]
      split_ifs with more
      · rfl
      · rw [show p - 6 = 0 by omega]
        rfl
    · rcases List.mem_append.mp mem with mem | zero
      · exact low d mem
      · rw [List.eq_of_mem_replicate zero]
        decide
    · rw [fraction, magnitude, if_neg (by omega), show 6 - p = 0 by omega]
      simp [roundHalfEven, Nat.mod_one]
      omega
    · rw [fraction]
      exact Nat.mod_lt n (by decide)
  · obtain ⟨r, r', half, unit, scale, unit'⟩ := roundingVector_eq (p := p) (by omega)
    have small : roundHalfEven n (10 ^ (6 - p)) % 10 ^ p < 10 ^ p := Nat.mod_lt _ (Nat.pow_pos (by decide))
    obtain ⟨ds, text, length, low, value⟩ := padLeft_eq pos small
    have whole : 10 ^ p * 10 ^ (6 - p) = 1000000 := by
      rw [← pow_add, show p + (6 - p) = 6 by omega]
      rfl
    have fraction : fractionOf ds = roundHalfEven n (10 ^ (6 - p)) % 10 ^ p * 10 ^ (6 - p) := by
      rw [fractionOf, if_neg (by omega), value, length]
    refine ⟨roundHalfEven n (10 ^ (6 - p)) / 10 ^ p, ds, ?_, length, low, ?_, ?_⟩
    · have part : (n : Int).tdiv (2 * r) = ((n / (2 * r) : Nat) : Int) := rfl
      have rest : (n : Int).tmod (2 * r) = ((n % (2 * r) : Nat) : Int) := rfl
      have even : rounded ((n % (2 * r) : Nat) : Int) r ((n / (2 * r) : Nat) : Int) =
          roundHalfEven n (10 ^ (6 - p)) := by
        rw [rounded_eq, roundHalfEven, ← unit]
        congr 2
        simp only [eq_iff_iff]
        omega
      have quotient : (roundHalfEven n (10 ^ (6 - p)) : Int).tdiv (2 * r') =
          ((roundHalfEven n (10 ^ (6 - p)) / 10 ^ p : Nat) : Int) := by
        rw [← unit']
        rfl
      have remainder : (roundHalfEven n (10 ^ (6 - p)) : Int).tmod (2 * r') =
          ((roundHalfEven n (10 ^ (6 - p)) % 10 ^ p : Nat) : Int) := by
        rw [← unit']
        rfl
      simp only [if_neg (show ¬(p : Int) ≥ 6 by omega), half, scale, ok_bind, part, rest, even,
        quotient, remainder, Int.toNat_natCast, text]
      rw [layout, if_neg (by simp [← List.length_eq_zero_iff, length]; omega), List.append_assoc]
      rfl
    · rw [fraction, magnitude, if_neg (by omega), ← whole, ← mul_assoc, ← add_mul, mul_comm (_ / _),
        Nat.div_add_mod]
    · rw [fraction, ← whole]
      exact Nat.mul_lt_mul_of_pos_right small (Nat.pow_pos (by decide))

/-- The multiple of the unit of precision `p` that is nearest to `t`; of two, any. -/
def Rounded (p : Nat) (t r : Int) : Prop :=
  (10 ^ (6 - p) : Int) ∣ r ∧ 2 * (t - r).natAbs ≤ 10 ^ (6 - p)

def ReadsBack (p t : Int) : Prop :=
  0 ≤ p ∧ ∃ text r, format p t = .ok text ∧ fromString text = .ok (some r) ∧ Rounded p.toNat t r

/-- The number that is read, which has the sign of `t` only from one second on. -/
def readValue (p : Nat) (t : Int) : Int :=
  if t < 0 ∧ 1000000 ≤ magnitude p t.natAbs then -(magnitude p t.natAbs : Int)
  else magnitude p t.natAbs

theorem roundHalfEven_near {u : Nat} (n : Nat) (pos : 0 < u) :
    2 * n ≤ 2 * (roundHalfEven n u * u) + u ∧ 2 * (roundHalfEven n u * u) ≤ 2 * n + u := by
  have parts := Nat.div_add_mod' n u
  have small := Nat.mod_lt n pos
  unfold roundHalfEven
  split_ifs with down
  · omega
  · rw [add_one_mul]
    omega

theorem roundHalfEven_zero {n u : Nat} (pos : 0 < u) (small : 2 * n ≤ u) :
    roundHalfEven n u = 0 := by
  have zero : n / u = 0 := Nat.div_eq_of_lt (by omega)
  rw [roundHalfEven, zero, Nat.mod_eq_of_lt (by omega), if_pos (by omega)]

/-- Half way below an even multiple of the unit is rounded to this multiple. -/
theorem le_roundHalfEven {n u k : Nat} (pos : 0 < u) (even : k % 2 = 0)
    (close : 2 * (k * u) ≤ 2 * n + u) : k ≤ roundHalfEven n u := by
  by_contra less
  have parts := Nat.div_add_mod' n u
  have small := Nat.mod_lt n pos
  unfold roundHalfEven at less
  split_ifs at less with down
  · have step : (n / u + 1) * u ≤ k * u := Nat.mul_le_mul_right u (by omega)
    rw [add_one_mul] at step
    have next : k = n / u + 1 := by
      by_contra ne
      have step : (n / u + 2) * u ≤ k * u := Nat.mul_le_mul_right u (by omega)
      rw [add_mul] at step
      omega
    omega
  · have step : (n / u + 2) * u ≤ k * u := Nat.mul_le_mul_right u (by omega)
    rw [add_mul] at step
    omega

theorem rounded_readValue_iff (p : Nat) (t : Int) : Rounded p t (readValue p t) ↔
    (p = 0 → t.natAbs < 1000000 ∨ 500000 ≤ t.natAbs % 1000000) ∧
    (0 < p → 0 ≤ t ∨ 2 * t.natAbs ≤ 10 ^ (6 - p) ∨ 2000000 ≤ 2 * t.natAbs + 10 ^ (6 - p)) := by
  rw [Rounded, readValue]
  rcases Nat.eq_zero_or_pos p with rfl | pos
  · rw [magnitude, if_pos rfl]
    split_ifs <;> omega
  simp only [pos.ne', pos, false_imp_iff, true_and, true_imp_iff]
  rcases Nat.lt_or_ge p 6 with few | many
  · have whole : 10 ^ p * 10 ^ (6 - p) = 1000000 := by
      rw [← pow_add, show p + (6 - p) = 6 by omega]
      rfl
    have even : 10 ^ p % 2 = 0 := by simp [Nat.pow_mod, pos.ne']
    have unit : (10 ^ (6 - p) : Int) = (10 ^ (6 - p) : Nat) := by push_cast; rfl
    have least : 0 < 10 ^ (6 - p) := Nat.pow_pos (by decide)
    rw [magnitude, if_neg pos.ne', unit]
    generalize 10 ^ (6 - p) = u at *
    have near := roundHalfEven_near t.natAbs least
    have top (close : 2000000 ≤ 2 * t.natAbs + u) :
        1000000 ≤ roundHalfEven t.natAbs u * u :=
      whole ▸ Nat.mul_le_mul_right u (le_roundHalfEven least even (by omega))
    have zero (small : 2 * t.natAbs ≤ u) : roundHalfEven t.natAbs u * u = 0 := by
      rw [roundHalfEven_zero least small, zero_mul]
    have multiple : (u : Int) ∣ (roundHalfEven t.natAbs u * u : Nat) :=
      Int.natCast_dvd_natCast.mpr (Dvd.intro_left _ rfl)
    generalize roundHalfEven t.natAbs u * u = m at *
    split_ifs
    · exact iff_of_true ⟨(dvd_neg).mpr multiple, by omega⟩ (by omega)
    · rw [and_iff_right multiple]
      omega
  · have exact : magnitude p t.natAbs = t.natAbs := by
      simp [magnitude, roundHalfEven, show 6 - p = 0 by omega, Nat.mod_one]
      omega
    rw [exact, show 6 - p = 0 by omega, pow_zero, pow_zero]
    split_ifs <;> omega

theorem readsBack_iff (p t : Int) : ReadsBack p t ↔ 0 ≤ p ∧
    (p = 0 → t.natAbs < 1000000 ∨ 500000 ≤ t.natAbs % 1000000) ∧
    (0 < p → 0 ≤ t ∨ 2 * t.natAbs ≤ 10 ^ (6 - p.toNat) ∨
      2000000 ≤ 2 * t.natAbs + 10 ^ (6 - p.toNat)) := by
  rw [ReadsBack, and_congr_right_iff]
  intro nonneg
  lift p to Nat using nonneg
  rw [Int.toNat_natCast, Nat.cast_eq_zero, Nat.cast_pos, ← rounded_readValue_iff]
  obtain ⟨q, ds, text, -, low, total, small⟩ := format_eq p t
  have value : fromString (layout (formatSec (t < 0) q) ds) = .ok (some (readValue p t)) := by
    rw [fromString_layout (t < 0) q low]
    congr 2
    have seconds : ((decide (t < 0) && q != 0) = true) ↔ t < 0 ∧ 1000000 ≤ magnitude p t.natAbs := by
      simp only [Bool.and_eq_true, decide_eq_true_eq, bne_iff_ne]
      omega
    simp only [readValue, seconds, ← total]
    rfl
  constructor
  · rintro ⟨_, r, text', read, near⟩
    cases text.symm.trans text'
    cases value.symm.trans read
    exact near
  · exact fun near => ⟨_, _, text, value, near⟩

/-- The printed fraction has as many digits as the precision says; what is read back is the rounded
time except where the sign is lost with zero seconds, or where precision 0 rounds up from a whole
number of seconds. -/
theorem format_scan (p t : Int) :
    (0 ≤ p → ∃ (q : Nat) (ds : List Nat), format p t = .ok (layout (formatSec (t < 0) q) ds) ∧
      ds.length = p ∧ ∀ d ∈ ds, d < 10) ∧ (ReadsBack p t ↔ 0 ≤ p ∧
      (p = 0 → t.natAbs < 1000000 ∨ 500000 ≤ t.natAbs % 1000000) ∧
      (0 < p → 0 ≤ t ∨ 2 * t.natAbs ≤ 10 ^ (6 - p.toNat) ∨
        2000000 ≤ 2 * t.natAbs + 10 ^ (6 - p.toNat))) := by
  refine ⟨fun nonneg => ?_, readsBack_iff p t⟩
  lift p to Nat using nonneg
  obtain ⟨q, ds, text, length, low, -⟩ := format_eq p t
  exact ⟨q, ds, text, congrArg Nat.cast length, low⟩

theorem half_second_lost : ¬ReadsBack 6 (-500000) := by
  rw [readsBack_iff]
  rintro ⟨-, -, rest⟩
  exact absurd (rest (by decide)) (by decide)

end Mythryl.TimeGuts
