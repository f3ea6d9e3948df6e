import Mathlib.Data.List.TakeWhile
import Mythryl.StringEscapes.Escapes
import Mythryl.TwoWordInt

/-!
# Reading tagged integers

`scan` and `from_string` of `src/lib/std/src/tagged-int-guts.pkg`.
-/

namespace Mythryl.TaggedIntGuts
open Reader Numeral Number
open StringEscapes (ctypeTable inSet isSpace of_table length_ctypeTable)
open TwoWordInt (scanString)

/-- A tagged integer has 31 bits; an operation whose result has more raises `OVERFLOW`. -/
def tagged (i : ℤ) : Outcome ℤ := if -2 ^ 30 ≤ i ∧ i < 2 ^ 30 then return i else throw .overflow

def scan {σ : Type} (radix : Radix) (getc : Getc σ) (fuel : Nat) (cs : σ) : Outcome (Option (ℤ × σ)) := do
  match ← scanInt radix getc fuel cs with
  | none => return none
  | some (i, cs') => return some (← tagged i, cs')

namespace FromString

def num : List Char → ℤ → Outcome ℤ
  | [], a => return a
  | s :: rest, a => do
      let c : ℤ := s.toNat - '0'.toNat
      if c < 0 ∨ c > 9 then return a else num rest (← tagged ((← tagged (10 * a)) - c))

def negabs : List Char → Outcome (Option ℤ)
  | [] => return none
  | s :: rest => do
      let c : ℤ := '0'.toNat - s.toNat
      if c > 0 ∨ c < -9 then return none else return some (← num rest c)

def skipwhite : List Char → Outcome (Option ℤ)
  | [] => return none
  | c :: rest => do
      if isSpace c then skipwhite rest
      else if c = '-' then negabs rest
      else
        match ← negabs (c :: rest) with
        | some a => return some (← tagged (-a))
        | none => return none

end FromString

def fromString (s : List Char) : Outcome (Option ℤ) := FromString.skipwhite s

def blank (c : Char) : Bool := code c == wsCode

def digit (c : Char) : Bool := isDecDigit (code c)

set_option maxRecDepth 2000 in
theorem length_cvtTable : cvtTable.length = 256 := rfl

variable {c : Char} {neg : Bool}

theorem code_big (big : ¬c.toNat < 256) : code c = 255 := by
  rw [code, List.getD_eq_default]
  rw [length_cvtTable]
  omega

theorem all_codes {P : Nat → Nat → Prop} (bytes : ∀ n < 256, P n (cvtTable.getD n 255))
    (big : ∀ n, 256 ≤ n → P n 255) (c : Char) : P c.toNat (code c) := by
  by_cases lt : c.toNat < 256
  · exact bytes c.toNat lt
  · rw [code_big lt]
    exact big _ (not_lt.mp lt)

theorem code_byte : ∀ n < 256, (if 48 ≤ n ∧ n ≤ 57 then cvtTable.getD n 255 = n - 48
      else 10 ≤ cvtTable.getD n 255) ∧
    ((cvtTable.getD n 255 = plusCode ↔ n = 43) ∧
      (cvtTable.getD n 255 = minusCode ↔ n = 45 ∨ n = 126)) ∧
    (cvtTable.getD n 255 = wsCode ↔ n = 9 ∨ n = 10 ∨ n = 32) ∧
    ((ctypeTable.getD n 0 &&& 0x08 != 0) = true ↔ 9 ≤ n ∧ n ≤ 13 ∨ n = 32) := by
  intro n lt
  have codes := of_table (P := fun n k => (if 48 ≤ n ∧ n ≤ 57 then k = n - 48 else 10 ≤ k) ∧
    ((k = plusCode ↔ n = 43) ∧ (k = minusCode ↔ n = 45 ∨ n = 126)) ∧
      (k = wsCode ↔ n = 9 ∨ n = 10 ∨ n = 32))
    (by decide +kernel) (length_cvtTable.symm ▸ lt) 255
  have spaces := of_table (P := fun n k => (k &&& 0x08 != 0) = true ↔ 9 ≤ n ∧ n ≤ 13 ∨ n = 32)
    (by decide +kernel) (length_ctypeTable.symm ▸ lt) 0
  exact ⟨codes.1, codes.2.1, codes.2.2, spaces⟩

theorem code_digit (c : Char) : if 48 ≤ c.toNat ∧ c.toNat ≤ 57 then code c = c.toNat - 48 else 10 ≤ code c := by
  apply all_codes (P := fun n k => if 48 ≤ n ∧ n ≤ 57 then k = n - 48 else 10 ≤ k)
  · exact fun n lt => (code_byte n lt).1
  · intro n big
    rw [if_neg (by omega)]
    decide

theorem code_sign (c : Char) : (code c = plusCode ↔ c.toNat = 43) ∧
    (code c = minusCode ↔ c.toNat = 45 ∨ c.toNat = 126) := by
  apply all_codes (P := fun n k => (k = plusCode ↔ n = 43) ∧ (k = minusCode ↔ n = 45 ∨ n = 126))
  · exact fun n lt => (code_byte n lt).2.1
  · intro n big
    simp only [plusCode, minusCode]
    omega

theorem blank_iff (c : Char) : blank c = true ↔ c.toNat = 9 ∨ c.toNat = 10 ∨ c.toNat = 32 := by
  rw [blank, beq_iff_eq]
  apply all_codes (P := fun n k => k = wsCode ↔ n = 9 ∨ n = 10 ∨ n = 32)
  · exact fun n lt => (code_byte n lt).2.2.1
  · intro n big
    simp only [wsCode]
    omega

theorem isSpace_iff (c : Char) : isSpace c = true ↔ 9 ≤ c.toNat ∧ c.toNat ≤ 13 ∨ c.toNat = 32 := by
  by_cases lt : c.toNat < 256
  · exact (code_byte c.toNat lt).2.2.2
  · rw [isSpace, inSet, List.getD_eq_default _ _ (by rw [length_ctypeTable]; omega)]
    constructor
    · intro none
      cases none
    · omega

theorem digit_iff (c : Char) : digit c = true ↔ 48 ≤ c.toNat ∧ c.toNat ≤ 57 := by
  have table := code_digit c
  rw [digit, isDecDigit, decide_eq_true_eq]
  split at table <;> omega

def leading (s : List Char) : List Nat := (s.takeWhile digit).map code

def answer (neg : Bool) (s : List Char) : Outcome (Option ℤ) :=
  if leading s = [] then .ok none
  else
    let i : ℤ := if neg then -(horner 10 0 (leading s) : ℤ) else horner 10 0 (leading s)
    if -2 ^ 30 ≤ i ∧ i < 2 ^ 30 then .ok (some i) else .error .overflow

theorem leading_cons_digit (s : List Char) (h : digit c = true) :
    leading (c :: s) = code c :: leading s := by
  rw [leading, List.takeWhile_cons_of_pos h]
  rfl

theorem leading_cons_other (s : List Char) (h : ¬digit c = true) : leading (c :: s) = [] := by
  rw [leading, List.takeWhile_cons_of_neg h]
  rfl

theorem tagged_ok {i : ℤ} (range : -2 ^ 30 ≤ i ∧ i < 2 ^ 30) : tagged i = .ok i := if_pos range

theorem tagged_overflow {i : ℤ} (range : ¬(-2 ^ 30 ≤ i ∧ i < 2 ^ 30)) : tagged i = .error .overflow :=
  if_neg range

namespace FromString

variable {c : Char}

theorem num_digit (s : List Char) (a : ℤ) (h : digit c = true) :
    num (c :: s) a =
      (tagged (10 * a) >>= fun ten => tagged (ten - code c) >>= fun next => num s next) := by
  have range := (digit_iff c).mp h
  have table := code_digit c
  have zero : '0'.toNat = 48 := rfl
  have inside : ¬((c.toNat : ℤ) - '0'.toNat < 0 ∨ (c.toNat : ℤ) - '0'.toNat > 9) := by omega
  have digitValue : (c.toNat : ℤ) - '0'.toNat = code c := by
    rw [if_pos range] at table
    omega
  rw [num]
  rw [if_neg inside, digitValue]

theorem num_other (s : List Char) (a : ℤ) (h : ¬digit c = true) : num (c :: s) a = .ok a := by
  have range := mt (digit_iff c).mpr h
  have zero : '0'.toNat = 48 := rfl
  have outside : (c.toNat : ℤ) - '0'.toNat < 0 ∨ (c.toNat : ℤ) - '0'.toNat > 9 := by omega
  rw [num]
  rw [if_pos outside]
  rfl

theorem num_eq (s : List Char) {v : Nat} (le : v ≤ 2 ^ 30) : num s (-(v : ℤ)) =
    if horner 10 v (leading s) ≤ 2 ^ 30 then .ok (-(horner 10 v (leading s) : ℤ)) else .error .overflow := by
  induction s generalizing v with
  | nil =>
    rw [leading, List.takeWhile_nil, List.map_nil, horner_nil, if_pos le]
    rfl
  | cons c s ih =>
    by_cases h : digit c = true
    · have grow := horner_mono (show 0 < 10 by decide) (v * 10 + code c) (leading s)
      rw [leading_cons_digit s h, horner_cons, num_digit s _ h]
      by_cases fits : v * 10 + code c ≤ 2 ^ 30
      · have next : 10 * -(v : ℤ) - code c = -((v * 10 + code c : Nat) : ℤ) := by push_cast; ring
        have ten : -2 ^ 30 ≤ 10 * -(v : ℤ) ∧ 10 * -(v : ℤ) < 2 ^ 30 := by omega
        rw [tagged_ok ten, ok_bind, next, tagged_ok (by omega), ok_bind]
        exact ih fits
      · rw [if_neg (not_le.mpr (Nat.lt_of_lt_of_le (not_le.mp fits) grow))]
        by_cases ten : -2 ^ 30 ≤ 10 * -(v : ℤ) ∧ 10 * -(v : ℤ) < 2 ^ 30
        · have below : ¬(-2 ^ 30 ≤ 10 * -(v : ℤ) - code c ∧ 10 * -(v : ℤ) - code c < 2 ^ 30) := by omega
          rw [tagged_ok ten, ok_bind, tagged_overflow below, error_bind]
        · rw [tagged_overflow ten, error_bind]
    · rw [leading_cons_other s h, horner_nil, if_pos le, num_other s _ h]

theorem negabs_digit (s : List Char) (h : digit c = true) :
    negabs (c :: s) = (num s (-(code c : ℤ)) >>= fun a => return some a) := by
  have range := (digit_iff c).mp h
  have table := code_digit c
  have zero : '0'.toNat = 48 := rfl
  have inside : ¬(('0'.toNat : ℤ) - c.toNat > 0 ∨ ('0'.toNat : ℤ) - c.toNat < -9) := by omega
  have digitValue : ('0'.toNat : ℤ) - c.toNat = -(code c : ℤ) := by
    rw [if_pos range] at table
    omega
  rw [negabs]
  rw [if_neg inside, digitValue]

theorem negabs_other (s : List Char) (h : ¬digit c = true) : negabs (c :: s) = .ok none := by
  have range := mt (digit_iff c).mpr h
  have zero : '0'.toNat = 48 := rfl
  have outside : ('0'.toNat : ℤ) - c.toNat > 0 ∨ ('0'.toNat : ℤ) - c.toNat < -9 := by omega
  rw [negabs]
  rw [if_pos outside]
  rfl

theorem negabs_eq (s : List Char) : negabs s = answer true s := by
  cases s with
  | nil => rfl
  | cons c s =>
    by_cases h : digit c = true
    · have range := (digit_iff c).mp h
      have table := code_digit c
      rw [if_pos range] at table
      rw [negabs_digit s h, num_eq s (by omega), answer, leading_cons_digit s h, horner_cons]
      simp only [Nat.zero_mul, Nat.zero_add, reduceCtorEq, if_false, if_true]
      generalize horner 10 (code c) (leading s) = v
      by_cases fits : v ≤ 2 ^ 30
      · rw [if_pos fits, if_pos (by omega)]
        rfl
      · rw [if_neg fits, if_neg (by omega)]
        rfl
    · rw [negabs_other s h, answer, leading_cons_other s h, if_pos rfl]

theorem negated_eq (s : List Char) :
    (negabs s >>= fun | some a => do return some (← tagged (-a)) | none => return none) = answer false s := by
  rw [negabs_eq, answer, answer]
  by_cases empty : leading s = []
  · rw [if_pos empty, if_pos empty]
    rfl
  · rw [if_neg empty, if_neg empty]
    simp only [if_true, Bool.false_eq_true, if_false]
    generalize horner 10 0 (leading s) = v
    by_cases fits : v ≤ 2 ^ 30
    · rw [if_pos (by omega), ok_bind]
      dsimp only
      rw [neg_neg, tagged]
      split <;> rfl
    · rw [if_neg (by omega), if_neg (by omega)]
      rfl

end FromString

def dash : List Char → Bool × List Char
  | [] => (false, [])
  | c :: rest => if c = '-' then (true, rest) else (false, c :: rest)

theorem fromString_eq (s : List Char) :
    fromString s = answer (dash (s.dropWhile isSpace)).1 (dash (s.dropWhile isSpace)).2 := by
  rw [fromString]
  induction s with
  | nil => rfl
  | cons c s ih =>
    rw [FromString.skipwhite]
    by_cases space : isSpace c = true
    · rw [if_pos space, ih, List.dropWhile_cons_of_pos space]
    · rw [if_neg space, List.dropWhile_cons_of_neg space, dash]
      split
      case isTrue minus => exact FromString.negabs_eq s
      case isFalse other => exact FromString.negated_eq (c :: s)

section Scan
variable {σ : Type} {getc : Getc σ}

def Holds (getc : Getc σ) (cs : List Char) (s : σ) : Prop := ∃ s', Reads getc cs s s' ∧ getc s' = none

variable {s : σ} {cs : List Char} {fuel : Nat}

theorem Holds.stop (holds : Holds getc [] s) : getc s = none := by
  simpa [Holds] using holds

theorem Holds.next {c : Char} (holds : Holds getc (c :: cs) s) :
    ∃ m, getc s = some (c, m) ∧ Holds getc cs m := by
  obtain ⟨s', ⟨m, get, rest⟩, last⟩ := holds
  exact ⟨m, get, s', rest, last⟩

theorem holds_ofString (s : List Char) : Holds (ofString s) s 0 :=
  ⟨s.length, reads_ofString s, by simp [ofString]⟩

theorem holds_takeWhile (wanted : Char → Bool) (holds : Holds getc cs s) :
    ∃ s', Reads getc (cs.takeWhile wanted) s s' ∧ Holds getc (cs.dropWhile wanted) s' ∧
      Stops getc (fun c => wanted c = true) s' := by
  induction cs generalizing s with
  | nil =>
    exact ⟨s, rfl, holds, fun c m get => by simp [holds.stop] at get⟩
  | cons c cs ih =>
    obtain ⟨m, get, rest⟩ := holds.next
    by_cases h : wanted c = true
    · obtain ⟨s', reads, holds', stops⟩ := ih rest
      rw [List.takeWhile_cons_of_pos h, List.dropWhile_cons_of_pos h]
      exact ⟨s', ⟨m, get, reads⟩, holds', stops⟩
    · rw [List.takeWhile_cons_of_neg h, List.dropWhile_cons_of_neg h]
      apply Exists.intro s
      refine ⟨rfl, holds, fun c' m' get' => ?_⟩
      rw [get, Option.some.injEq, Prod.mk.injEq] at get'
      rwa [← get'.1]

theorem skipWs_holds (holds : Holds getc cs s) (enough : cs.length < fuel) :
    ∃ s', skipWs getc fuel s = .ok (getNext getc s') ∧ Holds getc (cs.dropWhile blank) s' := by
  induction cs generalizing s fuel with
  | nil =>
    obtain ⟨fuel, rfl⟩ : ∃ n, fuel = n + 1 := ⟨fuel - 1, by simp at enough; omega⟩
    have none := holds.stop
    exact ⟨s, by simp [skipWs, getNext, none], holds⟩
  | cons c cs ih =>
    obtain ⟨m, get, rest⟩ := holds.next
    by_cases h : blank c = true
    · obtain ⟨fuel, rfl⟩ : ∃ n, fuel = n + 1 := ⟨fuel - 1, by simp at enough; omega⟩
      rw [List.dropWhile_cons_of_pos h, skipWs, getNext_eq get]
      simp only [beq_iff_eq.mp h, if_true]
      exact ih rest (by simpa using enough)
    · rw [List.dropWhile_cons_of_neg h]
      have black : code c ≠ wsCode := by simpa [blank] using h
      exact ⟨s, skipWs_eq get black (by omega), holds⟩

def Begins (getc : Getc σ) (neg : Bool) (cs : List Char) : Option (PrefixResult σ) → Prop
  | none => leading cs = []
  | some r => r.neg = neg ∧ ∃ c rest, cs = c :: rest ∧ digit c = true ∧ r.next = code c ∧
      Holds getc rest r.rest

theorem getOpt0_begins (neg : Bool) (holds : Holds getc cs s) :
    Begins getc neg cs (getOpt0 (decPattern false false) getc neg (getNext getc s)) := by
  cases cs with
  | nil =>
    rw [getNext, holds.stop]
    exact rfl
  | cons c cs =>
    obtain ⟨m, get, rest⟩ := holds.next
    rw [getNext_eq get, getOpt0]
    by_cases h : digit c = true
    · have begins : finish (decPattern false false) neg (code c, m) = some ⟨neg, code c, m⟩ := by
        rw [digit] at h
        simp [finish, decPattern, h]
      simp only [decPattern, Bool.or_false, Bool.and_false, Bool.false_eq_true, if_false]
      rw [← decPattern, begins]
      exact ⟨rfl, c, cs, rfl, h, rfl, rest⟩
    · have none : finish (decPattern false false) neg (code c, m) = none := by
        rw [digit] at h
        simp [finish, decPattern, h]
      simp only [decPattern, Bool.or_false, Bool.and_false, Bool.false_eq_true, if_false]
      rw [← decPattern, none]
      exact leading_cons_other cs h

def sign : List Char → Bool × List Char
  | [] => (false, [])
  | c :: rest =>
      if code c = plusCode then (false, rest)
      else if code c = minusCode then (true, rest)
      else (false, c :: rest)

theorem getOptSign_begins (holds : Holds getc cs s) :
    Begins getc (sign cs).1 (sign cs).2 (getOptSign (decPattern false false) getc (getNext getc s)) := by
  cases cs with
  | nil =>
    rw [getNext, holds.stop]
    exact rfl
  | cons c cs =>
    obtain ⟨m, get, rest⟩ := holds.next
    have again := getOpt0_begins false holds
    rw [getNext_eq get] at again ⊢
    have unsigned : (decPattern false false).wOkay = false := rfl
    simp only [getOptSign, sign, unsigned, Bool.false_eq_true, if_false]
    by_cases plus : code c = plusCode
    · rw [if_pos plus, if_pos plus]
      exact getOpt0_begins false rest
    · rw [if_neg plus, if_neg plus]
      by_cases minus : code c = minusCode
      · rw [if_pos minus, if_pos minus]
        exact getOpt0_begins true rest
      · rw [if_neg minus, if_neg minus]
        exact again

theorem length_sign_le (cs : List Char) : (sign cs).2.length ≤ cs.length := by
  cases cs with
  | nil => exact le_rfl
  | cons c cs =>
    rw [sign]
    split
    case isTrue => exact Nat.le_succ _
    case isFalse =>
      split
      case isTrue => exact Nat.le_succ _
      case isFalse => exact le_rfl

theorem leading_lt (s : List Char) : ∀ d ∈ leading s, d < 10 := by
  intro d mem
  obtain ⟨c, taken, rfl⟩ := List.mem_map.mp mem
  have first : digit c = true := List.mem_takeWhile_imp taken
  exact decide_eq_true_eq.mp first

theorem digits_holds {w : Nat} (holds : Holds getc cs s)
    (enough : cs.length < fuel) (lt : w < 2 ^ 32) :
    ∃ s', digits .unfinished getc (digitCode isDecDigit) timesTen fuel w s =
      if horner 10 w (leading cs) < 2 ^ 32 then .ok (horner 10 w (leading cs), s')
      else .error .overflow := by
  obtain ⟨s', reads, _, stops⟩ := holds_takeWhile digit holds
  have values : (cs.takeWhile digit).map (digitCode isDecDigit) = (leading cs).map some := by
    rw [leading, List.map_map]
    apply List.map_congr_left
    intro c mem
    exact if_pos (List.mem_takeWhile_imp mem)
  have ends : Stops getc (fun c => (digitCode isDecDigit c).isSome) s' := by
    intro c m get
    have other : ¬isDecDigit (code c) = true := stops c m get
    simp [digitCode, other]
  have short : (cs.takeWhile digit).length ≤ cs.length := (List.takeWhile_sublist digit).length_le
  have run := digits_eq Failure.unfinished timesTen reads values ends (show _ < fuel by omega) w
  rw [foldlM_checked (by decide) (fun w d => timesTen_eq) lt (leading_lt cs)] at run
  apply Exists.intro s'
  rw [run]
  split <;> rfl

theorem scanDec_holds (holds : Holds getc cs s)
    (enough : cs.length < fuel) {neg : Bool} {text : List Char}
    (signed : sign (cs.dropWhile blank) = (neg, text)) :
    if leading text = [] then scanDec false getc fuel s = .ok none
    else ∃ s', scanDec false getc fuel s =
      if horner 10 0 (leading text) < 2 ^ 32 then .ok (some ⟨neg, horner 10 0 (leading text), s'⟩)
      else .error .overflow := by
  obtain ⟨s1, skipped, left⟩ := skipWs_holds holds enough
  have begins := getOptSign_begins left
  have shorter := length_sign_le (cs.dropWhile blank)
  have short : (cs.dropWhile blank).length ≤ cs.length := (List.dropWhile_sublist blank).length_le
  rw [signed] at begins shorter
  simp only [scanDec, scanG, scanPrefix, skipped, ok_bind, pure_eq]
  rcases found : getOptSign (decPattern false false) getc (getNext getc s1) with _ | ⟨neg', next, rest⟩
  · rw [found] at begins
    have none : leading text = [] := begins
    rw [if_pos none]
  · rw [found] at begins
    obtain ⟨same, c, text', eq, first, value, after⟩ := begins
    simp only at same value after eq
    have small : code c < 10 := decide_eq_true_eq.mp first
    have tail : text'.length < fuel := by
      rw [eq, List.length_cons] at shorter
      omega
    obtain ⟨s', run⟩ := digits_holds (w := code c) after tail (by omega)
    rw [eq, leading_cons_digit text' first, if_neg (List.cons_ne_nil _ _), horner_cons, Nat.zero_mul,
      Nat.zero_add, same, value]
    apply Exists.intro s'
    have pattern : (decPattern false false).isDigit = isDecDigit := rfl
    simp only [pattern, run]
    split <;> rfl

end Scan

theorem scanString_eq (s : List Char) : scanString (scan .decimal) s =
    answer (sign (s.dropWhile blank)).1 (sign (s.dropWhile blank)).2 := by
  rcases signed : sign (s.dropWhile blank) with ⟨neg, text⟩
  have scanned := scanDec_holds (holds_ofString s) (Nat.lt_succ_self _) signed
  rw [scanString, scan, scanInt, answer]
  by_cases empty : leading text = []
  · rw [if_pos empty] at scanned ⊢
    rw [finalInt, scanned]
    rfl
  · rw [if_neg empty] at scanned ⊢
    obtain ⟨s', run⟩ := scanned
    rw [finalInt_eq run]
    dsimp only
    generalize (if neg = true then -(horner 10 0 (leading text) : ℤ) else horner 10 0 (leading text)) = i
    by_cases narrow : -2 ^ 30 ≤ i ∧ i < 2 ^ 30
    · rw [if_pos (by omega), if_pos narrow, ok_bind]
      dsimp only
      rw [tagged_ok narrow]
      rfl
    · rw [if_neg narrow]
      split
      case isTrue wide =>
        rw [ok_bind]
        dsimp only
        rw [tagged_overflow narrow]
        rfl
      case isFalse => rfl

theorem answer_eq_none_iff {s : List Char} : answer neg s = .ok none ↔ leading s = [] := by
  rw [answer]
  split
  case isTrue empty => simp [empty]
  case isFalse other =>
    apply iff_of_false _ other
    dsimp only
    generalize (if neg = true then -(horner 10 0 (leading s) : ℤ) else horner 10 0 (leading s)) = i
    split <;> simp

/-- After its blanks the text has a number that only one function reads: with a sign other than the
dash, or behind a vertical tab, a form feed or a carriage return. -/
def ReadApart (s : List Char) : Prop :=
  match s.dropWhile blank with
  | [] => False
  | c :: rest => (c = '+' ∨ c = '~') ∧ leading rest ≠ [] ∨
      isSpace c = true ∧ leading (dash (rest.dropWhile isSpace)).2 ≠ []

theorem dropWhile_isSpace (s : List Char) :
    (s.dropWhile blank).dropWhile isSpace = s.dropWhile isSpace := by
  induction s with
  | nil => rfl
  | cons c s ih =>
    by_cases h : blank c = true
    · have space : isSpace c = true := by
        rw [isSpace_iff]
        rw [blank_iff] at h
        omega
      rw [List.dropWhile_cons_of_pos h, List.dropWhile_cons_of_pos space, ih]
    · rw [List.dropWhile_cons_of_neg h]

theorem plus_iff (c : Char) : code c = plusCode ↔ c = '+' := by
  rw [(code_sign c).1]
  exact Char.toNat_inj (d := '+')

theorem minus_iff (c : Char) : code c = minusCode ↔ c = '-' ∨ c = '~' := by
  rw [(code_sign c).2]
  exact or_congr (Char.toNat_inj (d := '-')) (Char.toNat_inj (d := '~'))

theorem sign_of_ne (rest : List Char) (plus : c ≠ '+') (minus : ¬(c = '-' ∨ c = '~')) :
    sign (c :: rest) = (false, c :: rest) := by
  rw [sign, if_neg (mt (plus_iff c).mp plus), if_neg (mt (minus_iff c).mp minus)]

theorem answer_other (rest : List Char) (other : ¬digit c = true) :
    answer neg (c :: rest) = .ok none :=
  answer_eq_none_iff.mpr (leading_cons_other rest other)

theorem answer_space (rest : List Char) (space : isSpace c = true) :
    answer (sign (c :: rest)).1 (sign (c :: rest)).2 = .ok none := by
  have range := (isSpace_iff c).mp space
  have other : ¬digit c = true := by
    rw [digit_iff]
    omega
  have plus : c ≠ '+' := by
    rw [Ne, ← plus_iff, (code_sign c).1]
    omega
  have minus : ¬(c = '-' ∨ c = '~') := by
    rw [← minus_iff, (code_sign c).2]
    omega
  rw [sign_of_ne rest plus minus]
  exact answer_other rest other

theorem answer_sign {rest : List Char} (sign : c = '+' ∨ c = '~') :
    answer (dash (c :: rest)).1 (dash (c :: rest)).2 = answer neg rest ↔ leading rest = [] := by
  have other : ¬digit c = true := by
    rcases sign with rfl | rfl <;> simp [digit_iff]
  have minus : c ≠ '-' := by
    rcases sign with rfl | rfl <;> decide
  rw [dash, if_neg minus]
  rw [answer_other rest other, eq_comm, answer_eq_none_iff]

/-- `from_string` and the scanner it replaces give one answer, for every text but those. -/
theorem fromString_eq_scanString_iff (s : List Char) :
    fromString s = scanString (scan .decimal) s ↔ ¬ReadApart s := by
  rw [fromString_eq, scanString_eq, ← dropWhile_isSpace, ReadApart]
  cases s.dropWhile blank with
  | nil => simp [dash, sign]
  | cons c rest =>
    dsimp only
    by_cases space : isSpace c = true
    · have notSign : ¬(c = '+' ∨ c = '~') := by
        intro sign
        rcases sign with rfl | rfl <;> simp [isSpace_iff] at space
      rw [answer_space rest space, List.dropWhile_cons_of_pos space, answer_eq_none_iff]
      simp [space, notSign]
    · rw [List.dropWhile_cons_of_neg space]
      by_cases plus : c = '+'
      · have read : sign (c :: rest) = (false, rest) := by rw [sign, if_pos ((plus_iff c).mpr plus)]
        have signs : c = '+' ∨ c = '~' := .inl plus
        rw [read, answer_sign signs]
        simp [space, signs]
      · by_cases tilde : c = '~'
        · have read : sign (c :: rest) = (true, rest) := by
            rw [sign, if_neg (mt (plus_iff c).mp plus), if_pos ((minus_iff c).mpr (.inr tilde))]
          have signs : c = '+' ∨ c = '~' := .inr tilde
          rw [read, answer_sign signs]
          simp [space, signs]
        · have same : dash (c :: rest) = sign (c :: rest) := by
            rw [dash, sign, if_neg (mt (plus_iff c).mp plus)]
            simp only [minus_iff, tilde, or_false]
          simp [same, space, plus, tilde]

theorem fromString_plus_one : fromString ['+', '1'] = .ok none ∧
    scanString (scan .decimal) ['+', '1'] = .ok (some 1) := by decide

end Mythryl.TaggedIntGuts
