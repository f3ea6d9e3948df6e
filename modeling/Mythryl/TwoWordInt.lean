import Mythryl.MultiwordIntGuts.Format

/-!
# Text of two-word integers

`format`, `to_string`, `scan` and `from_string` of `src/lib/std/src/two-word-int.pkg` go through the
multiword integers.
-/

namespace Mythryl.TwoWordInt
open Nat Numeral CoreMultiwordInt Number Reader
open MultiwordIntGuts (NumeralText digVal)

variable {σ : Type}

def toMultiwordInt (x : TwoWord) : Rep := extendInf64 x

def format (rdx : Radix) (i : TwoWord) : Outcome (List Char) :=
  MultiwordIntGuts.format rdx (toMultiwordInt i)

def toString (i : TwoWord) : Outcome (List Char) := format .decimal i

def least : Rep := ⟨true, [0, 2]⟩
def greatest : Rep := ⟨false, [0x3fffffff, 1]⟩

def scan (rdx : Radix) (rdr : Getc σ) (fuel : Nat) (s : σ) : Outcome (Option (TwoWord × σ)) := do
  match ← MultiwordIntGuts.scan rdx rdr fuel s with
  | some (i, s') =>
      if lt i least || gt i greatest then throw .overflow else return some (truncInf64 i, s')
  | none => return none

def scanString {α : Type} (scanG : Getc Nat → Nat → Nat → Outcome (Option (α × Nat)))
    (inputString : List Char) : Outcome (Option α) := do
  match ← scanG (ofString inputString) (inputString.length + 1) 0 with
  | some (x, _) => return some x
  | none => return none

def fromString (s : List Char) : Outcome (Option TwoWord) := scanString (scan .hex) s

def OneWord (i : ℤ) : Prop := -2 ^ 31 ≤ i ∧ i < 2 ^ 31

instance (i : ℤ) : Decidable (OneWord i) := inferInstanceAs (Decidable (_ ∧ _))

variable {i : ℤ} {ds : List Nat} {v : Nat}

theorem out_of_range_iff {r : Rep} (h : Denotes r i) :
    (lt r least || gt r greatest) = true ↔ ¬OneWord i := by
  have low : Rep.Normal least := ⟨⟨by decide, by decide⟩, by decide⟩
  have high : Rep.Normal greatest := ⟨⟨by decide, by decide⟩, by decide⟩
  have lowVal : least.toInt = -2 ^ 31 := by decide
  have highVal : greatest.toInt = 2 ^ 31 - 1 := by decide
  rw [gt, lt_eq h.1 low, lt_eq high h.1, h.2, lowVal, highVal, Bool.or_eq_true, decide_eq_true_eq,
    decide_eq_true_eq, OneWord]
  omega

variable {radix : Radix} {getc : Getc σ} {s s' : σ} {fuel : Nat}

theorem scan_numeral (t : NumeralText radix) (reads : Reads getc t.text s s')
    (stops : Stops getc (fun c => (digVal radix c).isSome) s') (enough : t.text.length < fuel) :
    scan radix getc fuel s =
      if OneWord t.toInt then .ok (some (TwoWord.ofInt t.toInt, s')) else .error .overflow := by
  obtain ⟨r, run, den⟩ := MultiwordIntGuts.scan_numeral t reads stops enough
  have trunc : truncInf64 r = TwoWord.ofInt t.toInt := by
    rw [truncInf64_eq den.1.digits, ← Rep.toInt_eq, den.2]
  have range := out_of_range_iff den
  simp only [scan, run, ok_bind]
  by_cases inside : OneWord t.toInt
  · rw [if_neg (fun out => range.mp out inside), if_pos inside, trunc]
    rfl
  · rw [if_pos (range.mpr inside), if_neg inside]
    rfl

theorem format_spec (radix : Radix) (x : TwoWordInt) :
    ∃ (ds : List Nat) (spells : Spells radix.base x.toTwoWord.toInt.natAbs ds),
      format radix x.toTwoWord =
        .ok (NumeralText.ofFormat (decide (x.toTwoWord.toInt < 0)) spells).text := by
  have den := extendInf64_denotes x
  obtain ⟨ds, spells, text⟩ := MultiwordIntGuts.format_spec radix den.1
  rw [value_digits, den.2] at spells
  rw [negative_iff den.1, den.2] at text
  refine ⟨ds, spells, text.trans (congrArg Except.ok ?_)⟩
  simp [MultiwordIntGuts.NumeralText.text, MultiwordIntGuts.NumeralText.ofFormat,
    MultiwordIntGuts.signedText]

theorem toInt_ofFormat (spells : Spells radix.base i.natAbs ds) :
    (NumeralText.ofFormat (decide (i < 0)) spells).toInt = i := by
  simp only [MultiwordIntGuts.NumeralText.toInt, MultiwordIntGuts.NumeralText.ofFormat, signed,
    decide_eq_true_eq]
  split <;> omega

theorem horner_sixteen (lt : ∀ d ∈ ds, d < 10) (big : 10 ≤ horner 10 0 ds) :
    horner 10 0 ds < horner 16 0 ds := by
  have mono (ds : List Nat) : horner 10 0 ds ≤ horner 16 0 ds := by
    induction ds using List.reverseRecOn with
    | nil => simp
    | append_singleton ds d ih =>
      rw [horner_append, horner_append]
      simp only [horner_cons, horner_nil]
      omega
  rcases List.eq_nil_or_concat ds with rfl | ⟨ds, d, rfl⟩
  · simp at big
  · rw [List.concat_eq_append, horner_append] at *
    rw [horner_append]
    have := mono ds
    have := lt d (by simp)
    simp only [horner_cons, horner_nil] at *
    omega

theorem horner_zero (zero : horner 10 0 ds = 0) : horner 16 0 ds = 0 := by
  induction ds using List.reverseRecOn with
  | nil => rfl
  | append_singleton ds d ih =>
    rw [horner_append, horner_cons, horner_nil] at zero ⊢
    rw [ih (by omega)]
    omega

theorem horner_small (spells : Spells 10 v ds) (small : v < 10) : horner 16 0 ds = v := by
  have val := spells.value
  rcases List.eq_nil_or_concat ds with rfl | ⟨ds, d, rfl⟩
  · exact absurd rfl spells.ne_nil
  · rw [List.concat_eq_append, horner_append, horner_cons, horner_nil] at val ⊢
    rw [horner_zero (by omega)]
    omega

theorem horner_sixteen_iff (spells : Spells 10 v ds) : horner 16 0 ds = v ↔ v < 10 := by
  refine ⟨fun eq => ?_, horner_small spells⟩
  by_contra big
  have := horner_sixteen spells.lt (by rw [spells.value]; omega)
  rw [spells.value] at this
  omega

theorem fromString_ofFormat (neg : Bool) (spells : Spells 16 v ds) :
    fromString (NumeralText.ofFormat neg spells : NumeralText .hex).text =
      if OneWord (signed neg v) then .ok (some (TwoWord.ofInt (signed neg v))) else .error .overflow := by
  let t : NumeralText .hex := NumeralText.ofFormat neg spells
  have stops : Stops (ofString t.text) (fun c => (digVal .hex c).isSome) t.text.length := by
    intro c s' get
    simp [ofString] at get
  have run := scan_numeral t (reads_ofString t.text) stops (Nat.lt_succ_self _)
  rw [fromString, scanString, run]
  change _ = if OneWord t.toInt then _ else _
  split <;> rfl

theorem ofInt_eq_iff (x : TwoWordInt) (word : OneWord i) :
    TwoWord.ofInt i = x.toTwoWord ↔ i = x.toTwoWord.toInt := by
  refine ⟨fun eq => ?_, fun eq => eq ▸ x.ofInt_toInt⟩
  rw [← eq]
  exact (TwoWordInt.toInt_ofInt (by have := word.1; omega) (by have := word.2; omega)).symm

theorem fromString_toString_iff (x : TwoWordInt) :
    (toString x.toTwoWord >>= fromString) = .ok (some x.toTwoWord) ↔
      -9 ≤ x.toTwoWord.toInt ∧ x.toTwoWord.toInt ≤ 9 := by
  obtain ⟨ds, spells, text⟩ := format_spec .decimal x
  have hex : Spells 16 (horner 16 0 ds) ds :=
    ⟨spells.ne_nil, fun d mem => (spells.lt d mem).trans (by decide), rfl⟩
  have same : (NumeralText.ofFormat (decide (x.toTwoWord.toInt < 0)) spells).text =
      (NumeralText.ofFormat (decide (x.toTwoWord.toInt < 0)) hex : NumeralText .hex).text := rfl
  have small := horner_sixteen_iff spells
  have magnitude : signed (decide (x.toTwoWord.toInt < 0)) (horner 16 0 ds) = x.toTwoWord.toInt ↔
      horner 16 0 ds = x.toTwoWord.toInt.natAbs := by
    simp only [signed, decide_eq_true_eq]
    split <;> omega
  rw [toString, text, ok_bind, same, fromString_ofFormat]
  by_cases word : OneWord (signed (decide (x.toTwoWord.toInt < 0)) (horner 16 0 ds))
  · rw [if_pos word, Except.ok.injEq, Option.some.injEq, ofInt_eq_iff x word, magnitude, small]
    omega
  · rw [if_neg word]
    refine ⟨fun eq => by simp at eq, fun range => absurd ?_ word⟩
    rw [magnitude.mpr (small.mpr (by omega)), OneWord]
    omega

/-- `scan` undoes `format` on the one-word integers, `from_string` undoes `to_string` on one digit,
and overflow is raised where it should be except on the two-word integers that are not one-word. -/
theorem text_exact_iff (getc : Getc σ) (s s' : σ) :
    (∀ (x : TwoWordInt) (radix : Radix), ∃ text, format radix x.toTwoWord = .ok text ∧
      (Reads getc text s s' → Stops getc (fun c => (digVal radix c).isSome) s' →
        ∀ fuel, text.length < fuel →
          (scan radix getc fuel s = .ok (some (x.toTwoWord, s')) ↔ OneWord x.toTwoWord.toInt))) ∧
    (∀ x : TwoWordInt, (toString x.toTwoWord >>= fromString) = .ok (some x.toTwoWord) ↔
      -9 ≤ x.toTwoWord.toInt ∧ x.toTwoWord.toInt ≤ 9) ∧
    (∀ (radix : Radix) (t : NumeralText radix), Reads getc t.text s s' →
      Stops getc (fun c => (digVal radix c).isSome) s' → ∀ fuel, t.text.length < fuel →
        ((scan radix getc fuel s = .error .overflow ↔ ¬(-2 ^ 63 ≤ t.toInt ∧ t.toInt < 2 ^ 63)) ↔
          OneWord t.toInt ∨ ¬(-2 ^ 63 ≤ t.toInt ∧ t.toInt < 2 ^ 63))) := by
  refine ⟨?_, fromString_toString_iff, ?_⟩
  · intro x radix
    obtain ⟨ds, spells, text⟩ := format_spec radix x
    refine ⟨_, text, fun reads stops fuel enough => ?_⟩
    rw [scan_numeral _ reads stops enough, toInt_ofFormat, x.ofInt_toInt]
    split <;> simp_all
  · intro radix t reads stops fuel enough
    rw [scan_numeral t reads stops enough]
    by_cases word : OneWord t.toInt
    · obtain ⟨ge, lt⟩ := word
      rw [if_pos ⟨ge, lt⟩]
      simp only [reduceCtorEq, false_iff, not_not]
      exact ⟨fun _ => .inl ⟨ge, lt⟩, fun _ => by omega⟩
    · rw [if_neg word]
      simp only [true_iff]
      exact ⟨.inr, fun out => out.resolve_left word⟩

theorem scan_format_overflow : ∃ text, format .decimal ⟨0, 2 ^ 31⟩ = .ok text ∧
      TwoWord.toInt ⟨0, 2 ^ 31⟩ = 2 ^ 31 ∧
      scan .decimal ofList (text.length + 1) text = .error .overflow := by
  obtain ⟨ds, spells, text⟩ := format_spec .decimal ⟨⟨0, 2 ^ 31⟩, by decide, by decide⟩
  refine ⟨_, text, by decide, ?_⟩
  have reads := reads_ofList
    (NumeralText.ofFormat (decide (TwoWord.toInt ⟨0, 2 ^ 31⟩ < 0)) spells).text []
  rw [List.append_nil] at reads
  have stops : Stops ofList (fun c => (digVal .decimal c).isSome) [] := by
    intro c s' get
    simp [ofList] at get
  rw [scan_numeral _ reads stops (Nat.lt_succ_self _), toInt_ofFormat]
  exact if_neg (by decide)

theorem text_exact_iff_seven : (toString ⟨0, 10⟩ >>= fromString) ≠ .ok (some ⟨0, 10⟩) ∧
      (scan .decimal ofList 3 ['-', '7'] = .error .overflow ↔
        ¬(-2 ^ 63 ≤ (-7 : ℤ) ∧ (-7 : ℤ) < 2 ^ 63)) := by
  obtain ⟨_, ten, numeral⟩ := text_exact_iff ofList ['-', '7'] []
  refine ⟨fun eq => ?_, ?_⟩
  · exact absurd ((ten ⟨⟨0, 10⟩, by decide, by decide⟩).mp eq) (by decide)
  · let t : NumeralText .decimal :=
      { sign := ['-'], lead := [], body := ['7'], neg := true, value := 7, digits := [7],
        sign_eq := .inr ⟨rfl, rfl⟩, lead_eq := .inl rfl, vals := rfl,
        spells := ⟨by simp, by decide, by decide⟩ }
    refine (numeral .decimal t (reads_ofList _ []) ?_ 3 (by decide)).mpr (.inl (by decide))
    intro c s' get
    simp [ofList] at get

end Mythryl.TwoWordInt
