import Mythryl.Number.Format

/-!
# Escapes in strings

`scan`, `to_string`, `scan_c` and `to_cstring` of `src/lib/std/src/char.pkg`, and `from_string'` of
`string-guts.pkg`, which scans a string character by character.
-/

namespace Mythryl.StringEscapes
open Reader Number

def ctypeTable : List Nat :=
  [32, 32, 32, 32, 32, 32, 32, 32, 32, 40, 40, 40, 40, 40, 32, 32,
   32, 32, 32, 32, 32, 32, 32, 32, 32, 32, 32, 32, 32, 32, 32, 32,
   136, 16, 16, 16, 16, 16, 16, 16, 16, 16, 16, 16, 16, 16, 16, 16,
   68, 68, 68, 68, 68, 68, 68, 68, 68, 68, 16, 16, 16, 16, 16, 16,
   16, 65, 65, 65, 65, 65, 65, 1, 1, 1, 1, 1, 1, 1, 1, 1,
   1, 1, 1, 1, 1, 1, 1, 1, 1, 1, 1, 16, 16, 16, 16, 16,
   16, 66, 66, 66, 66, 66, 66, 2, 2, 2, 2, 2, 2, 2, 2, 2,
   2, 2, 2, 2, 2, 2, 2, 2, 2, 2, 2, 16, 16, 16, 16, 32] ++
  List.replicate 128 0

def inSet (c : Char) (s : Nat) : Bool := ctypeTable.getD c.toNat 0 &&& s != 0

def isDigit (c : Char) : Bool := inSet c 0x04
def isHexDigit (c : Char) : Bool := inSet c 0x40
def isSpace (c : Char) : Bool := inSet c 0x08
def isPrint (c : Char) : Bool := inSet c 0x97

namespace ScanDigits

def scan (isDigit : Char → Bool) : List Char → Int → List Char → List Char × List Char
  | [], _, l => (l.reverse, [])
  | c :: stream', i, l =>
      if i = 0 then (l.reverse, c :: stream')
      else if isDigit c then scan isDigit stream' (i - 1) (c :: l)
      else (l.reverse, c :: stream')

end ScanDigits

def scanDigits (isDigit : Char → Bool) (n : Int) (stream : List Char) : List Char × List Char :=
  ScanDigits.scan isDigit stream n []

/-- `scan_int` reads the digits that are given to it as a list. -/
def checkDigits (radix : Radix) : List Char × List Char → Outcome (Option (Char × List Char))
  | (l, stream) => do
      match ← scanInt radix ofList (l.length + 1) l with
      | some (i, _) => return if i < 256 then some (Char.ofNat i.toNat, stream) else none
      | none => return none

def named : Char → Option Char
  | '\\' => some '\\'
  | '"' => some '"'
  | 'a' => some '\x07'
  | 'b' => some '\x08'
  | 't' => some '\t'
  | 'n' => some '\n'
  | 'v' => some '\x0b'
  | 'f' => some '\x0c'
  | 'r' => some '\r'
  | _ => none

def convert (d : Char) : Nat := d.toNat - '0'.toNat

mutual

@[grind =] def scan : List Char → Option (Char × List Char)
  | [] => none
  | c :: rep' =>
      if c = '\\' then
        match rep' with
        | [] => none
        | d1 :: rep'' =>
            match named d1 with
            | some c => some (c, rep'')
            | none =>
                if d1 = '^' then
                  match rep'' with
                  | c :: rep''' =>
                      if '@' ≤ c ∧ c ≤ '_' then
                        some (Char.ofNat (c.toNat - '@'.toNat), rep''')
                      else none
                  | [] => none
                else if isDigit d1 then
                  match rep'' with
                  | d2 :: d3 :: rep''' =>
                      if isDigit d2 && isDigit d3 then
                        let n := 100 * convert d1 + 10 * convert d2 + convert d3
                        if n < 256 then some (Char.ofNat n, rep''') else none
                      else none
                  | _ => none
                else if isSpace d1 then skipWs rep''
                else none
      else if c = '"' then none
      else if isPrint c then some (c, rep')
      else none

def skipWs : List Char → Option (Char × List Char)
  | [] => none
  | c :: stream' =>
      if c = '\\' then scan stream'
      else if isSpace c then skipWs stream'
      else none

end

def itoa (c : Nat) : List Char := formatInt .decimal c

def escaped : Char → Option Char
  | '\x07' => some 'a'
  | '\x08' => some 'b'
  | '\t' => some 't'
  | '\n' => some 'n'
  | '\x0b' => some 'v'
  | '\x0c' => some 'f'
  | '\r' => some 'r'
  | '"' => some '"'
  | '\\' => some '\\'
  | _ => none

def charToString (c : Char) : List Char :=
  match escaped c with
  | some letter => ['\\', letter]
  | none =>
      if isPrint c then [c]
      else if c.toNat > 32 then '\\' :: itoa c.toNat
      else ['\\', '^', Char.ofNat (c.toNat + 64)]

def namedC : Char → Option Char
  | '\'' => some '\''
  | '?' => some '?'
  | c => named c

def isOctDigit (d : Char) : Bool := '0' ≤ d ∧ d ≤ '7'

def scanC : List Char → Outcome (Option (Char × List Char))
  | [] => return none
  | c :: stream' =>
      if c = '\\' then
        match stream' with
        | [] => return none
        | d :: stream'' =>
            match namedC d with
            | some c => return some (c, stream'')
            | none =>
                if d = 'x' then checkDigits .hex (scanDigits isHexDigit (-1) stream'')
                else checkDigits .octal (scanDigits isOctDigit 3 (d :: stream''))
      else return if isPrint c then some (c, stream') else none

def escapedC : Char → Option Char
  | '?' => some '?'
  | '\'' => some '\''
  | '\x00' => some '0'
  | c => escaped c

def charToCstring (c : Char) : List Char :=
  match escapedC c with
  | some letter => ['\\', letter]
  | none =>
      if isPrint c then [c]
      else
        let i := c.toNat
        let lead := if i < 8 then ['\\', '0', '0'] else if i < 64 then ['\\', '0'] else ['\\']
        lead ++ formatInt .octal i

namespace FromString

@[grind =] def accum (scanChar : List Char → Outcome (Option (Char × List Char))) :
    Nat → List Char → List Char → Outcome (Option (List Char))
  | 0, _, _ => throw .unfinished
  | fuel + 1, i, chars => do
      match ← scanChar i with
      | none => return if 0 < i.length then none else some chars.reverse
      | some (c, i') => accum scanChar fuel i' (c :: chars)

end FromString

def fromString' (scanChar : List Char → Outcome (Option (Char × List Char))) (fuel : Nat)
    (s : List Char) : Outcome (Option (List Char)) := FromString.accum scanChar fuel s []

def fromString : Nat → List Char → Outcome (Option (List Char)) := fromString' fun i => .ok (scan i)

def toString (s : List Char) : List Char := s.flatMap charToString

def fromCstring : Nat → List Char → Outcome (Option (List Char)) := fromString' scanC

def toCstring (s : List Char) : List Char := s.flatMap charToCstring

/-! # Reading escapes back -/

open Numeral

variable {c d : Char} {s : List Char}

theorem named_of_escaped (h : escaped c = some d) : named d = some c := by
  unfold escaped at h
  split at h <;> cases h <;> rfl

theorem of_table {P : Nat → Nat → Prop} {table : List Nat} {n : Nat}
    (all : ∀ entry ∈ table.zipIdx, P entry.2 entry.1) (lt : n < table.length) (d : Nat) :
    P n (table.getD n d) := by
  rw [List.getD_eq_getElem _ _ lt]
  exact all (table[n], n) (List.mk_mem_zipIdx_iff_getElem?.mpr (List.getElem?_eq_getElem lt))

set_option maxRecDepth 2000 in
theorem length_ctypeTable : ctypeTable.length = 256 := rfl

set_option maxRecDepth 4000 in
theorem code_of_not_print (c : Char) (byte : c.toNat < 256) :
    isPrint c = false → c.toNat < 32 ∨ 127 ≤ c.toNat :=
  of_table (P := fun n bits => (bits &&& 0x97 != 0) = false → n < 32 ∨ 127 ≤ n)
    (by decide) (length_ctypeTable.symm ▸ byte) 0

theorem isDigit_makeDigit {n : Nat} (lt : n < 10) :
    isDigit (makeDigit n) = true ∧ convert (makeDigit n) = n ∧ named (makeDigit n) = none ∧
      makeDigit n ≠ '^' := by
  have all : ∀ n : Fin 10, isDigit (makeDigit n) = true ∧ convert (makeDigit n) = n ∧
      named (makeDigit n) = none ∧ makeDigit n ≠ '^' := by decide
  exact all ⟨n, lt⟩

theorem caret_of_control (lt : c.toNat < 32) :
    ('@' ≤ Char.ofNat (c.toNat + 64) ∧ Char.ofNat (c.toNat + 64) ≤ '_') ∧
      Char.ofNat ((Char.ofNat (c.toNat + 64)).toNat - '@'.toNat) = c := by
  have all : ∀ n : Fin 32, ('@' ≤ Char.ofNat (n + 64) ∧ Char.ofNat (n + 64) ≤ '_') ∧
      Char.ofNat ((Char.ofNat (n + 64)).toNat - '@'.toNat) = Char.ofNat n := by decide
  have h := all ⟨c.toNat, lt⟩
  rwa [Char.ofNat_toNat] at h

variable {ds : List Nat} {v : Nat}

theorem horner_lt {b : Nat} (lt : ∀ d ∈ ds, d < b) (a : Nat) :
    horner b a ds < (a + 1) * b ^ ds.length := by
  induction ds generalizing a with
  | nil => simp
  | cons d ds ih =>
    obtain ⟨head, tail⟩ := List.forall_mem_cons.mp lt
    calc horner b a (d :: ds) = horner b (a * b + d) ds := horner_cons ..
      _ < (a * b + d + 1) * b ^ ds.length := ih tail _
      _ ≤ (a + 1) * b * b ^ ds.length := by
          apply Nat.mul_le_mul_right
          rw [Nat.add_mul]
          omega
      _ = (a + 1) * b ^ (d :: ds).length := by
          rw [List.length_cons, Nat.pow_succ, Nat.mul_assoc, Nat.mul_comm b]

theorem length_of_spells {b k : Nat} (hb : 1 < b) (spells : Spells b v ds)
    (short : Short b v ds) (ge : b ^ k ≤ v) (lt : v < b ^ (k + 1)) : ds.length = k + 1 := by
  have le := short.length_le hb (Nat.succ_pos k) lt
  have bound := horner_lt spells.lt 0
  rw [spells.value, Nat.zero_add, Nat.one_mul] at bound
  have := (Nat.pow_lt_pow_iff_right hb).mp (Nat.lt_of_le_of_lt ge bound)
  omega

theorem formatInt_byte (radix : Radix) (byte : v < 256) :
    ∃ ds, Spells radix.base v ds ∧ Short radix.base v ds ∧
      formatInt radix v = ds.map makeDigit := by
  have word : i2w v = v := by
    rw [i2w]
    omega
  have unsigned : formatInt radix v = formatUnt radix v := by
    have nonneg : ¬(v : ℤ) < 0 := by omega
    rw [formatInt, word, if_neg (by omega), if_neg nonneg, word, formatUnt]
    simp only [if_neg nonneg]
  rw [unsigned]
  exact formatUnt_spec radix (by omega)

theorem itoa_three (ge : 127 ≤ v) (byte : v < 256) :
    ∃ x y z, x < 10 ∧ y < 10 ∧ z < 10 ∧ 100 * x + 10 * y + z = v ∧
      itoa v = [makeDigit x, makeDigit y, makeDigit z] := by
  obtain ⟨ds, spells, short, text⟩ := formatInt_byte .decimal byte
  have length := length_of_spells (k := 2) (by decide) spells short
    (show 10 ^ 2 ≤ v by omega) (show v < 10 ^ 3 by omega)
  obtain ⟨x, y, z, rfl⟩ := List.length_eq_three.mp length
  have lt := spells.lt
  have value := spells.value
  simp only [List.mem_cons, List.not_mem_nil, or_false, forall_eq_or_imp, forall_eq, Radix.base]
    at lt
  simp only [horner_cons, horner_nil, Radix.base] at value
  exact ⟨x, y, z, lt.1, lt.2.1, lt.2.2, by omega, text⟩

theorem scan_named {letter : Char} (h : named letter = some c) (rest : List Char) :
    scan ('\\' :: letter :: rest) = some (c, rest) := by
  rw [scan.eq_def]
  simp only [if_true]
  simp only [h]

theorem scan_print (backslash : c ≠ '\\') (quote : c ≠ '"') (print : isPrint c = true)
    (rest : List Char) : scan (c :: rest) = some (c, rest) := by
  rw [scan.eq_def]
  simp only
  rw [if_neg backslash, if_neg quote, if_pos print]

theorem scan_caret (range : '@' ≤ d ∧ d ≤ '_') (rest : List Char) :
    scan ('\\' :: '^' :: d :: rest) = some (Char.ofNat (d.toNat - '@'.toNat), rest) := by
  rw [scan.eq_def]
  simp only [if_true]
  exact if_pos range

theorem scan_decimal {x y z : Nat} (hx : x < 10) (hy : y < 10) (hz : z < 10)
    (lt : 100 * x + 10 * y + z < 256) (rest : List Char) :
    scan ('\\' :: makeDigit x :: makeDigit y :: makeDigit z :: rest) =
      some (Char.ofNat (100 * x + 10 * y + z), rest) := by
  obtain ⟨digitX, valueX, plain, caret⟩ := isDigit_makeDigit hx
  obtain ⟨digitY, valueY, _, _⟩ := isDigit_makeDigit hy
  obtain ⟨digitZ, valueZ, _, _⟩ := isDigit_makeDigit hz
  rw [scan.eq_def]
  simp only [if_true]
  simp only [plain, if_neg caret, digitX, if_true, digitY, digitZ, Bool.and_self, valueX, valueY,
    valueZ, if_pos lt]

theorem scan_charToString (byte : c.toNat < 256) (rest : List Char) :
    scan (charToString c ++ rest) = some (c, rest) := by
  rw [charToString]
  cases esc : escaped c with
  | some letter => exact scan_named (named_of_escaped esc) rest
  | none =>
    by_cases print : isPrint c = true
    · simp only [if_pos print]
      apply scan_print _ _ print
      · rintro rfl
        cases esc
      · rintro rfl
        cases esc
    · have code := code_of_not_print c byte (by simpa using print)
      simp only [if_neg print]
      by_cases big : c.toNat > 32
      · obtain ⟨x, y, z, hx, hy, hz, value, text⟩ := itoa_three (by omega) byte
        rw [if_pos big, text]
        change scan ('\\' :: makeDigit x :: makeDigit y :: makeDigit z :: rest) = _
        rw [scan_decimal hx hy hz (by omega), value, Char.ofNat_toNat]
      · obtain ⟨range, back⟩ := caret_of_control (c := c) (by omega)
        rw [if_neg big]
        change scan ('\\' :: '^' :: _ :: rest) = _
        rw [scan_caret range, back]

theorem charToString_ne_nil (c : Char) : charToString c ≠ [] := by
  rw [charToString]
  split
  · simp
  · split
    · simp
    · split <;> simp

theorem fromString_toString (bytes : ∀ c ∈ s, c.toNat < 256) {fuel : Nat}
    (enough : (toString s).length < fuel) : fromString fuel (toString s) = .ok (some s) := by
  suffices ∀ chars, FromString.accum (fun i => .ok (scan i)) fuel (toString s) chars =
      .ok (some (chars.reverse ++ s)) from this []
  induction s generalizing fuel with
  | nil =>
    intro chars
    obtain ⟨fuel, rfl⟩ := Nat.exists_eq_succ_of_ne_zero (Nat.ne_of_gt enough)
    simp [toString, FromString.accum, scan, pure, Except.pure]
  | cons c s ih =>
    intro chars
    obtain ⟨byte, bytes⟩ := List.forall_mem_cons.mp bytes
    obtain ⟨fuel, rfl⟩ := Nat.exists_eq_succ_of_ne_zero (Nat.ne_of_gt (Nat.zero_lt_of_lt enough))
    have pos := List.length_pos_of_ne_nil (charToString_ne_nil c)
    rw [toString, List.flatMap_cons, ← toString, List.length_append] at enough
    rw [toString, List.flatMap_cons, ← toString, FromString.accum, scan_charToString byte]
    change FromString.accum _ fuel (toString s) (c :: chars) = _
    rw [ih bytes (by omega), List.reverse_cons, List.append_assoc, List.singleton_append]

theorem namedC_of_escapedC (h : escapedC c = some d) (ne : c ≠ '\x00') : namedC d = some c := by
  unfold escapedC at h
  split at h
  · cases h
    rfl
  · cases h
    rfl
  · exact absurd rfl ne
  · unfold escaped at h
    split at h <;> cases h <;> rfl

theorem isOctDigit_iff : isOctDigit c = true ↔ convert c < 8 ∧ makeDigit (convert c) = c := by
  constructor
  · intro digit
    have range : '0' ≤ c ∧ c ≤ '7' := by simpa [isOctDigit] using digit
    have lower : 48 ≤ c.toNat := range.1
    have upper : c.toNat ≤ 55 := range.2
    have small : convert c < 8 := by
      change c.toNat - 48 < 8
      omega
    refine ⟨small, ?_⟩
    have all : ∀ n : Fin 8, makeDigit n = Char.ofNat (n + 48) := by decide
    rw [all ⟨convert c, small⟩]
    change Char.ofNat (c.toNat - 48 + 48) = c
    rw [Nat.sub_add_cancel lower, Char.ofNat_toNat]
  · rintro ⟨small, back⟩
    have all : ∀ n : Fin 8, isOctDigit (makeDigit n) = true := by decide
    have digit := all ⟨convert c, small⟩
    rwa [back] at digit

theorem octal_digit {n : Nat} (lt : n < 8) : isOctDigit (makeDigit n) = true ∧
    convert (makeDigit n) = n ∧ namedC (makeDigit n) = none ∧ makeDigit n ≠ 'x' ∧
      charToCstring (makeDigit n) = [makeDigit n] := by
  have all : ∀ n : Fin 8, isOctDigit (makeDigit n) = true ∧ convert (makeDigit n) = n ∧
      namedC (makeDigit n) = none ∧ makeDigit n ≠ 'x' ∧
        charToCstring (makeDigit n) = [makeDigit n] := by decide
  exact all ⟨n, lt⟩

theorem scanDigits_eq {isDigit : Char → Bool} {n : Int} {ds rest : List Char}
    (digits : ∀ d ∈ ds, isDigit d = true) (fits : ds.length ≤ n)
    (stops : ds.length = n ∨ ∀ d ∈ rest.head?, isDigit d = false) :
    scanDigits isDigit n (ds ++ rest) = (ds, rest) := by
  suffices ∀ l, ScanDigits.scan isDigit (ds ++ rest) n l = (l.reverse ++ ds, rest) from this []
  induction ds generalizing n with
  | nil =>
    intro l
    rw [List.nil_append, List.append_nil]
    cases rest with
    | nil => rfl
    | cons d rest =>
      rw [ScanDigits.scan]
      split
      next => rfl
      next more =>
        have last : isDigit d = false :=
          (stops.resolve_left fun done => more done.symm) d rfl
        rw [if_neg (by simp [last])]
  | cons d ds ih =>
    intro l
    obtain ⟨digit, digits⟩ := List.forall_mem_cons.mp digits
    rw [List.length_cons, Nat.cast_succ] at fits stops
    rw [List.cons_append, ScanDigits.scan, if_neg (by omega), if_pos digit,
      ih digits (by omega) (stops.imp_left (by omega)), List.reverse_cons, List.append_assoc,
      List.singleton_append]

theorem follows_nil (radix : Radix) (isWord : Bool) (zero : Prop) :
    Follows radix isWord zero ofList [] := by
  constructor
  · intro c m get
    cases get
  · rintro _ ⟨cs, d, m, _, _, reads⟩
    cases cs with
    | nil =>
      obtain ⟨m', get, _⟩ := reads
      cases get
    | cons c cs =>
      obtain ⟨m', get, _⟩ := reads
      cases get

theorem checkDigits_octal (ne : ds ≠ []) (lt : ∀ d ∈ ds, d < 8)
    (byte : horner 8 0 ds < 256) (rest : List Char) : checkDigits .octal (ds.map makeDigit, rest) =
      .ok (some (Char.ofNat (horner 8 0 ds), rest)) := by
  have spells : Spells Radix.octal.base (horner 8 0 ds) ds := ⟨ne, lt, rfl⟩
  let t := NumeralText.plain false false (by simp) spells
  have text : t.text = ds.map makeDigit := by
    simp [t, NumeralText.text, NumeralText.plain]
  have value : t.toInt = (horner 8 0 ds : ℤ) := by
    simp [t, NumeralText.toInt, NumeralText.plain]
  have reads : Reads ofList t.text (ds.map makeDigit) [] := by
    rw [text]
    simpa using reads_ofList (ds.map makeDigit) []
  have run := scanInt_numeral t reads (endsAt_plain id (follows_nil _ _ _))
    (show t.text.length < (ds.map makeDigit).length + 1 by rw [text]; exact Nat.lt_succ_self _)
  rw [value, if_pos (by omega)] at run
  rw [checkDigits, run, ok_bind]
  simp only
  rw [if_pos (by omega)]
  simp

theorem scanC_named {letter : Char} (h : namedC letter = some c) (rest : List Char) :
    scanC ('\\' :: letter :: rest) = .ok (some (c, rest)) := by
  rw [scanC, if_pos rfl]
  simp [h]

theorem scanC_print (backslash : c ≠ '\\') (print : isPrint c = true) (rest : List Char) :
    scanC (c :: rest) = .ok (some (c, rest)) := by
  rw [scanC.eq_def]
  simp only
  rw [if_neg backslash, if_pos print, pure_eq]

theorem scanC_octal (ne : ds ≠ []) (lt : ∀ d ∈ ds, d < 8) (fits : ds.length ≤ 3)
    (byte : horner 8 0 ds < 256) {rest : List Char}
    (stops : ds.length = 3 ∨ ∀ d ∈ rest.head?, isOctDigit d = false) :
    scanC ('\\' :: (ds.map makeDigit ++ rest)) = .ok (some (Char.ofNat (horner 8 0 ds), rest)) := by
  have digits : ∀ d ∈ ds.map makeDigit, isOctDigit d = true := by
    intro d mem
    obtain ⟨n, inside, rfl⟩ := List.mem_map.mp mem
    exact (octal_digit (lt n inside)).1
  have fits' : ((ds.map makeDigit).length : Int) ≤ 3 := by
    rw [List.length_map]
    omega
  have stops' : ((ds.map makeDigit).length : Int) = 3 ∨ ∀ d ∈ rest.head?, isOctDigit d = false := by
    rw [List.length_map]
    exact stops.imp_left (by omega)
  have taken := scanDigits_eq digits fits' stops'
  have convert := checkDigits_octal ne lt byte rest
  cases ds with
  | nil => exact absurd rfl ne
  | cons d ds =>
    obtain ⟨_, _, plain, hex, _⟩ := octal_digit (lt d List.mem_cons_self)
    rw [List.map_cons, List.cons_append] at taken ⊢
    rw [scanC, if_pos rfl]
    simp only [plain]
    rw [if_neg hex, taken]
    exact convert

theorem charToCstring_octal (byte : c.toNat < 256) (plain : escapedC c = none)
    (print : isPrint c = false) : ∃ ds, ds.length = 3 ∧ (∀ d ∈ ds, d < 8) ∧
      horner 8 0 ds = c.toNat ∧ charToCstring c = '\\' :: ds.map makeDigit := by
  obtain ⟨ds, spells, short, text⟩ := formatInt_byte .octal byte
  have pos : 0 < c.toNat := by
    apply Nat.pos_of_ne_zero
    intro zero
    rw [← Char.ofNat_toNat c, zero] at plain
    cases plain
  have padded (n : Nat) (length : ds.length + n = 3)
      (written : charToCstring c = '\\' :: ((List.replicate n 0).map makeDigit ++ ds.map makeDigit)) :
      ∃ ds, ds.length = 3 ∧ (∀ d ∈ ds, d < 8) ∧ horner 8 0 ds = c.toNat ∧
        charToCstring c = '\\' :: ds.map makeDigit := by
    refine ⟨List.replicate n 0 ++ ds, ?_, ?_, ?_, ?_⟩
    · rw [List.length_append, List.length_replicate, Nat.add_comm, length]
    · intro d mem
      rcases List.mem_append.mp mem with mem | mem
      · rw [List.eq_of_mem_replicate mem]
        exact Nat.succ_pos 7
      · exact spells.lt d mem
    · rw [horner_zeros]
      exact spells.value
    · rw [written, List.map_append]
  rw [charToCstring, plain]
  simp only [print, Bool.false_eq_true, if_false]
  rw [charToCstring, plain] at padded
  simp only [print, Bool.false_eq_true, if_false, text] at padded ⊢
  by_cases one : c.toNat < 8
  · have length := length_of_spells (k := 0) (by decide) spells short pos one
    apply padded 2 (by omega)
    rw [if_pos one]
    rfl
  · by_cases two : c.toNat < 64
    · have length := length_of_spells (k := 1) (by decide) spells short (Nat.le_of_not_lt one) two
      apply padded 1 (by omega)
      rw [if_neg one, if_pos two]
      rfl
    · have length := length_of_spells (k := 2) (by decide) spells short (Nat.le_of_not_lt two)
        (show c.toNat < 8 ^ 3 by omega)
      apply padded 0 (by omega)
      rw [if_neg one, if_neg two]
      rfl

theorem scanC_charToCstring (byte : c.toNat < 256) (ne : c ≠ '\x00') (rest : List Char) :
    scanC (charToCstring c ++ rest) = .ok (some (c, rest)) := by
  cases esc : escapedC c with
  | some letter =>
    rw [charToCstring, esc]
    exact scanC_named (namedC_of_escapedC esc ne) rest
  | none =>
    cases print : isPrint c with
    | true =>
      rw [charToCstring, esc]
      simp only [if_pos print]
      apply scanC_print _ print
      rintro rfl
      cases esc
    | false =>
      obtain ⟨ds, length, lt, value, text⟩ := charToCstring_octal byte esc print
      rw [text, List.cons_append, scanC_octal _ lt (Nat.le_of_eq length) _ (.inl length), value,
        Char.ofNat_toNat]
      · rintro rfl
        cases length
      · omega

def octalAfter (s : List Char) : List Char := (s.take 2).takeWhile isOctDigit

def swallow : List Char → List Char
  | [] => []
  | c :: s =>
      if c = '\x00' then
        Char.ofNat (horner 8 0 ((octalAfter s).map convert)) ::
          swallow (s.drop (octalAfter s).length)
      else c :: swallow s
  termination_by s => s.length

def OctalAfterNul (s : List Char) : Prop := ∃ d, isOctDigit d = true ∧ ['\x00', d] <:+: s

theorem octalAfter_spec (s : List Char) : ∃ rest, s = octalAfter s ++ rest ∧
    (octalAfter s).length ≤ 2 ∧ (∀ d ∈ octalAfter s, isOctDigit d = true) ∧
      ((octalAfter s).length = 2 ∨ ∀ d ∈ rest.head?, isOctDigit d = false) := by
  rcases s with _ | ⟨x, _ | ⟨y, s⟩⟩
  · exact ⟨[], by simp [octalAfter]⟩
  · cases hx : isOctDigit x with
    | true => exact ⟨[], by simp [octalAfter, hx]⟩
    | false => exact ⟨[x], by simp [octalAfter, hx]⟩
  · cases hx : isOctDigit x with
    | true =>
      cases hy : isOctDigit y with
      | true => exact ⟨s, by simp [octalAfter, hx, hy]⟩
      | false => exact ⟨y :: s, by simp [octalAfter, hx, hy]⟩
    | false => exact ⟨x :: y :: s, by simp [octalAfter, hx]⟩

theorem octalAfter_eq_nil_iff : octalAfter s = [] ↔ ∀ d ∈ s.head?, isOctDigit d = false := by
  rcases s with _ | ⟨x, s⟩
  · simp [octalAfter]
  · cases hx : isOctDigit x <;> simp [octalAfter, hx]

theorem toCstring_append (s rest : List Char) :
    toCstring (s ++ rest) = toCstring s ++ toCstring rest := List.flatMap_append

theorem toCstring_digits {ds : List Char} (digits : ∀ d ∈ ds, isOctDigit d = true) :
    toCstring ds = ds := by
  induction ds with
  | nil => rfl
  | cons d ds ih =>
    obtain ⟨digit, digits⟩ := List.forall_mem_cons.mp digits
    obtain ⟨small, back⟩ := isOctDigit_iff.mp digit
    obtain ⟨_, _, _, _, text⟩ := octal_digit small
    rw [back] at text
    rw [toCstring, List.flatMap_cons, ← toCstring, ih digits, text]
    rfl

theorem charToCstring_cases (c : Char) :
    (∃ l, charToCstring c = '\\' :: l) ∨ charToCstring c = [c] := by
  rw [charToCstring]
  split
  · exact .inl ⟨_, rfl⟩
  · split
    · exact .inr rfl
    · left
      dsimp only
      split
      · exact ⟨_, rfl⟩
      · split <;> exact ⟨_, rfl⟩

theorem charToCstring_ne_nil (c : Char) : charToCstring c ≠ [] := by
  rcases charToCstring_cases c with ⟨l, text⟩ | text <;> simp [text]

theorem toCstring_stops (stops : ∀ d ∈ s.head?, isOctDigit d = false) :
    ∀ d ∈ (toCstring s).head?, isOctDigit d = false := by
  cases s with
  | nil => exact fun d mem => nomatch mem
  | cons c s =>
    rw [toCstring, List.flatMap_cons]
    rcases charToCstring_cases c with ⟨l, text⟩ | text
    · rw [text]
      rintro d ⟨⟩
      decide
    · rw [text]
      rintro d ⟨⟩
      exact stops c rfl

theorem scanC_nul (s : List Char) : scanC ('\\' :: '0' :: toCstring s) =
    .ok (some (Char.ofNat (horner 8 0 ((octalAfter s).map convert)),
      toCstring (s.drop (octalAfter s).length))) := by
  obtain ⟨rest, split, short, digits, stops⟩ := octalAfter_spec s
  generalize octalAfter s = ds at split short digits stops ⊢
  have back : ds.map (makeDigit ∘ convert) = ds := by
    conv_rhs => rw [← List.map_id ds]
    exact List.map_congr_left fun d mem => (isOctDigit_iff.mp (digits d mem)).2
  have small : ∀ n ∈ 0 :: ds.map convert, n < 8 := by
    intro n mem
    rcases List.mem_cons.mp mem with rfl | mem
    · exact Nat.succ_pos 7
    · obtain ⟨d, inside, rfl⟩ := List.mem_map.mp mem
      exact (isOctDigit_iff.mp (digits d inside)).1
  have bound := horner_lt (fun n mem => small n (List.mem_cons_of_mem 0 mem)) 0
  have limit : 8 ^ (ds.map convert).length ≤ 8 ^ 2 :=
    Nat.pow_le_pow_right (Nat.succ_pos 7) (by rwa [List.length_map])
  have stops' : (0 :: ds.map convert).length = 3 ∨
      ∀ d ∈ (toCstring rest).head?, isOctDigit d = false := by
    rw [List.length_cons, List.length_map]
    exact stops.imp (by omega) toCstring_stops
  have run := scanC_octal (List.cons_ne_nil 0 _) small
    (by rw [List.length_cons, List.length_map]; omega)
    (by rw [horner_cons]; change horner 8 0 _ < 256; omega) stops'
  rw [List.map_cons, List.map_map, back] at run
  rw [split, List.drop_left, toCstring_append, toCstring_digits digits]
  exact run

theorem fromCstring_toCstring (bytes : ∀ c ∈ s, c.toNat < 256) {fuel : Nat}
    (enough : (toCstring s).length < fuel) :
    fromCstring fuel (toCstring s) = .ok (some (swallow s)) := by
  suffices ∀ chars, FromString.accum scanC fuel (toCstring s) chars =
      .ok (some (chars.reverse ++ swallow s)) from this []
  induction s using swallow.induct generalizing fuel with
  | case1 =>
    intro chars
    obtain ⟨fuel, rfl⟩ := Nat.exists_eq_succ_of_ne_zero (Nat.ne_of_gt enough)
    simp [toCstring, FromString.accum, scanC, swallow]
  | case2 s ih =>
    intro chars
    obtain ⟨_, bytes⟩ := List.forall_mem_cons.mp bytes
    obtain ⟨fuel, rfl⟩ := Nat.exists_eq_succ_of_ne_zero (Nat.ne_of_gt (Nat.zero_lt_of_lt enough))
    have text : toCstring ('\x00' :: s) = '\\' :: '0' :: toCstring s := rfl
    have shorter : (toCstring (s.drop (octalAfter s).length)).length ≤ (toCstring s).length := by
      have parts := toCstring_append (s.take (octalAfter s).length) (s.drop (octalAfter s).length)
      rw [List.take_append_drop] at parts
      rw [parts, List.length_append]
      exact Nat.le_add_left _ _
    rw [text, List.length_cons, List.length_cons] at enough
    rw [text, FromString.accum, scanC_nul, ok_bind]
    simp only
    rw [ih (fun c mem => bytes c (List.mem_of_mem_drop mem)) (by omega), swallow, if_pos rfl,
      List.reverse_cons, List.append_assoc, List.singleton_append]
  | case3 c s ne ih =>
    intro chars
    obtain ⟨byte, bytes⟩ := List.forall_mem_cons.mp bytes
    obtain ⟨fuel, rfl⟩ := Nat.exists_eq_succ_of_ne_zero (Nat.ne_of_gt (Nat.zero_lt_of_lt enough))
    have pos := List.length_pos_of_ne_nil (charToCstring_ne_nil c)
    rw [toCstring, List.flatMap_cons, ← toCstring, List.length_append] at enough
    rw [toCstring, List.flatMap_cons, ← toCstring, FromString.accum, scanC_charToCstring byte ne,
      ok_bind]
    simp only
    rw [ih bytes (by omega), swallow, if_neg ne, List.reverse_cons, List.append_assoc,
      List.singleton_append]

theorem swallow_length_le (s : List Char) : (swallow s).length ≤ s.length := by
  fun_induction swallow s with
  | case1 => exact Nat.le_refl 0
  | case2 s ih =>
    rw [List.length_drop] at ih
    rw [List.length_cons, List.length_cons]
    omega
  | case3 c s ne ih => exact Nat.succ_le_succ ih

theorem octalAfterNul_cons : OctalAfterNul (c :: s) ↔
    (c = '\x00' ∧ octalAfter s ≠ []) ∨ OctalAfterNul s := by
  have first (d : Char) : ['\x00', d] <+: c :: s ↔ c = '\x00' ∧ s.head? = some d := by
    rw [List.cons_prefix_cons, eq_comm]
    cases s <;> simp [eq_comm]
  simp only [OctalAfterNul, List.infix_cons_iff, first, ne_eq, octalAfter_eq_nil_iff]
  constructor
  · rintro ⟨d, digit, ⟨nul, head⟩ | inside⟩
    · refine .inl ⟨nul, fun none => ?_⟩
      rw [none d head] at digit
      cases digit
    · exact .inr ⟨d, digit, inside⟩
  · rintro (⟨nul, some⟩ | ⟨d, digit, inside⟩)
    · push Not at some
      obtain ⟨d, head, digit⟩ := some
      exact ⟨d, by simpa using digit, .inl ⟨nul, head⟩⟩
    · exact ⟨d, digit, .inr inside⟩

theorem swallow_eq_iff (s : List Char) : swallow s = s ↔ ¬OctalAfterNul s := by
  fun_induction swallow s with
  | case1 => simp [OctalAfterNul]
  | case2 s ih =>
    rw [octalAfterNul_cons]
    by_cases alone : octalAfter s = []
    · rw [alone] at ih ⊢
      simpa using ih
    · have pos := List.length_pos_of_ne_nil alone
      have le := swallow_length_le (s.drop (octalAfter s).length)
      rw [List.length_drop] at le
      simp only [ne_eq, alone, not_false_eq_true, and_self, true_or, not_true_eq_false, iff_false]
      intro same
      have length := congrArg List.length same
      rw [List.length_cons, List.length_cons] at length
      obtain ⟨rest, split, _, _, _⟩ := octalAfter_spec s
      have total := congrArg List.length split
      rw [List.length_append] at total
      omega
  | case3 c s ne ih => simp [octalAfterNul_cons, ne, ih]

/-- Escapes are read back as the string they were made of, but for a NUL before an octal digit, whose
C escape is read back otherwise. -/
theorem escapes_round_trip (s : List Char) (bytes : ∀ c ∈ s, c.toNat < 256) :
    ((∀ fuel, (toString s).length < fuel → fromString fuel (toString s) = .ok (some s)) ∧
      ∀ fuel, (toCstring s).length < fuel → fromCstring fuel (toCstring s) = .ok (some s)) ↔
        ¬OctalAfterNul s := by
  rw [← swallow_eq_iff]
  constructor
  · intro ⟨_, back⟩
    have enough := Nat.lt_succ_self (toCstring s).length
    have read := (fromCstring_toCstring bytes enough).symm.trans (back _ enough)
    exact Option.some.inj (Except.ok.inj read)
  · intro same
    constructor
    · exact fun fuel enough => fromString_toString bytes enough
    · intro fuel enough
      rw [fromCstring_toCstring bytes enough, same]

theorem escapes_round_trip_tab : ((∀ fuel, (toString ['\t', '7']).length < fuel →
        fromString fuel (toString ['\t', '7']) = .ok (some ['\t', '7'])) ∧
      ∀ fuel, (toCstring ['\t', '7']).length < fuel →
        fromCstring fuel (toCstring ['\t', '7']) = .ok (some ['\t', '7'])) ↔
        ¬OctalAfterNul ['\t', '7'] :=
  escapes_round_trip ['\t', '7'] (by simp)

theorem fromCstring_nul_one : toCstring ['\x00', '1'] = ['\\', '0', '1'] ∧
      fromCstring 4 (toCstring ['\x00', '1']) = .ok (some ['\x01']) := by
  decide

end Mythryl.StringEscapes
