import Mathlib.Data.List.GetD
import Mathlib.Data.Nat.Digits.Lemmas
import Mathlib.Order.Compare
import Mathlib.Tactic.Linarith

/-!
# Normal numerals

Little-endian numerals in a base `b`, valued by `Nat.ofDigits`.
-/

namespace Numeral
open Nat

structure Normal (b : Nat) (ds : List Nat) : Prop where
  lt : ∀ d ∈ ds, d < b
  last : ∀ h : ds ≠ [], ds.getLast h ≠ 0

variable {b d : Nat} {ds xs ys : List Nat}

@[simp] theorem normal_nil : Normal b [] := ⟨by simp, by simp⟩

theorem Normal.tail (h : Normal b (d :: ds)) : Normal b ds :=
  ⟨fun x hx => h.lt x (by simp [hx]), fun ne => by simpa [List.getLast_cons ne] using h.last (by simp)⟩

theorem Normal.head_lt (h : Normal b (d :: ds)) : d < b := h.lt d (by simp)

theorem Normal.head_pos (h : Normal b [d]) : 0 < d := Nat.pos_of_ne_zero (by simpa using h.last (by simp))

theorem Normal.singleton (pos : 0 < d) (lt : d < b) : Normal b [d] :=
  ⟨by simpa using lt, by simp; omega⟩

theorem Normal.pos (hb : 0 < b) (h : Normal b ds) (ne : ds ≠ []) : 0 < ofDigits b ds := by
  induction ds with
  | nil => simp at ne
  | cons d ds ih =>
    rw [ofDigits_cons]
    cases ds with
    | nil => have := h.head_pos; omega
    | cons e es => have := Nat.mul_pos hb (ih h.tail (by simp)); omega

theorem Normal.eq_nil_iff (hb : 0 < b) (h : Normal b ds) : ds = [] ↔ ofDigits b ds = 0 := by
  constructor
  · rintro rfl; simp
  · intro zero
    by_contra ne
    have := h.pos hb ne
    omega

theorem Normal.cons (lt : d < b) (h : Normal b ds) (pos : 0 < d + b * ofDigits b ds) :
    Normal b (d :: ds) := by
  refine ⟨?_, fun _ => ?_⟩
  · intro x hx
    rcases List.mem_cons.mp hx with rfl | hx
    · exact lt
    · exact h.lt x hx
  · cases ds with
    | nil => simp at pos ⊢; omega
    | cons e es => simpa using h.last (by simp)

theorem Normal.digits_eq (hb : 1 < b) (h : Normal b ds) : digits b (ofDigits b ds) = ds :=
  digits_ofDigits b hb ds h.lt h.last

theorem normal_digits (hb : 1 < b) (n : Nat) : Normal b (digits b n) := by
  refine ⟨fun x hx => digits_lt_base hb hx, fun ne => ?_⟩
  exact getLast_digit_ne_zero b (digits_ne_nil_iff_ne_zero.mp ne)

theorem Normal.ext (hb : 1 < b) (hx : Normal b xs) (hy : Normal b ys)
    (eq : ofDigits b xs = ofDigits b ys) : xs = ys := by
  rw [← hx.digits_eq hb, ← hy.digits_eq hb, eq]

variable {k w v : Nat}

theorem Normal.length_le (hb : 1 < b) (h : Normal b ds) (lt : ofDigits b ds < b ^ k) :
    ds.length ≤ k := by
  rw [← h.digits_eq hb]
  exact (digits_length_le_iff hb _).mpr lt

theorem ofDigits_take_drop (b k : Nat) (ds : List Nat) :
    ofDigits b ds = ofDigits b (ds.take k) + b ^ (ds.take k).length * ofDigits b (ds.drop k) := by
  rw [← ofDigits_append, List.take_append_drop]

theorem ofDigits_drop (short : ds.length ≤ k + 1) : ofDigits b (ds.drop k) = ds.getD k 0 := by
  rcases Nat.lt_or_ge k ds.length with lt | ge
  · rw [List.drop_eq_getElem_cons lt, List.drop_eq_nil_of_le (by omega), List.getD_eq_getElem _ _ lt]
    simp
  · rw [List.drop_eq_nil_of_le ge, List.getD_eq_default _ _ ge, ofDigits_nil]

theorem pow_length_take_mul_getD (b k : Nat) (ds : List Nat) :
    b ^ (ds.take k).length * ds.getD k 0 = ds.getD k 0 * b ^ k := by
  rcases Nat.lt_or_ge k ds.length with lt | ge
  · rw [List.length_take, Nat.min_eq_left lt.le, Nat.mul_comm]
  · rw [List.getD_eq_default _ _ ge, Nat.mul_zero, Nat.zero_mul]

theorem ofDigits_top (hb : 1 < b) (h : ∀ d ∈ ds, d < b) (short : ds.length ≤ k + 1) :
    ∃ low < b ^ k, ofDigits b ds = ds.getD k 0 * b ^ k + low := by
  refine ⟨ofDigits b (ds.take k), ?_, ?_⟩
  · refine (ofDigits_lt_base_pow_length hb fun d hd => h d (List.mem_of_mem_take hd)).trans_le ?_
    exact Nat.pow_le_pow_right (by omega) (by simp)
  · rw [ofDigits_take_drop b k ds, ofDigits_drop short, pow_length_take_mul_getD, Nat.add_comm]

theorem ofDigits_top_two (hb : 1 < b) (h : ∀ d ∈ ds, d < b) (short : ds.length ≤ k + 2) :
    ∃ low < b ^ k, ofDigits b ds = (ds.getD (k + 1) 0 * b + ds.getD k 0) * b ^ k + low := by
  have ht : ∀ d ∈ ds.take (k + 1), d < b := fun d hd => h d (List.mem_of_mem_take hd)
  obtain ⟨low, lt, eq⟩ := ofDigits_top hb ht (k := k) (by simp)
  have digit : (ds.take (k + 1)).getD k 0 = ds.getD k 0 := by simp
  refine ⟨low, lt, ?_⟩
  rw [ofDigits_take_drop b (k + 1) ds, eq, digit, ofDigits_drop short, pow_length_take_mul_getD]
  ring

theorem getD_lt (hb : 0 < b) (h : ∀ d ∈ ds, d < b) (k : Nat) : ds.getD k 0 < b := by
  rcases Nat.lt_or_ge k ds.length with lt | ge
  · rw [List.getD_eq_getElem _ _ lt]
    exact h _ (List.getElem_mem lt)
  · rwa [List.getD_eq_default _ _ ge]

/-- The value of a numeral written with its most significant digit first, after `a`. -/
def horner (b a : Nat) (ds : List Nat) : Nat := ds.foldl (fun a d => a * b + d) a

@[simp] theorem horner_nil (b a : Nat) : horner b a [] = a := rfl

@[simp] theorem horner_cons (b a d : Nat) (ds : List Nat) :
    horner b a (d :: ds) = horner b (a * b + d) ds := rfl

theorem horner_append (b a : Nat) (xs ys : List Nat) :
    horner b a (xs ++ ys) = horner b (horner b a xs) ys := List.foldl_append

theorem horner_eq (b a : Nat) (ds : List Nat) :
    horner b a ds = a * b ^ ds.length + horner b 0 ds := by
  induction ds generalizing a with
  | nil => simp
  | cons d ds ih =>
    rw [horner_cons, ih, horner_cons, ih (0 * b + d), List.length_cons, Nat.pow_succ]
    ring

theorem horner_mono (hb : 0 < b) (a : Nat) (ds : List Nat) : a ≤ horner b a ds := by
  rw [horner_eq]
  exact (Nat.le_mul_of_pos_right a (Nat.pow_pos hb)).trans (Nat.le_add_right _ _)

structure Spells (b v : Nat) (ds : List Nat) : Prop where
  ne_nil : ds ≠ []
  lt : ∀ d ∈ ds, d < b
  value : horner b 0 ds = v

def Short (b v : Nat) (ds : List Nat) : Prop := ds.length = 1 ∨ b ^ (ds.length - 1) ≤ v

theorem Short.snoc (hb : 0 < b) (h : Short b (w / b) ds) (ne : ds ≠ []) (big : b ≤ w) :
    Short b w (ds ++ [d]) := by
  refine .inr ?_
  have pos := List.length_pos_iff.mpr ne
  rw [List.length_append, List.length_singleton, Nat.add_sub_cancel]
  rcases h with one | le
  · rwa [one, pow_one]
  · rw [Nat.le_div_iff_mul_le hb, ← Nat.pow_succ] at le
    rwa [show ds.length = (ds.length - 1).succ by omega]

theorem Short.length_le (hb : 1 < b) (h : Short b v ds) (pos : 0 < k) (lt : v < b ^ k) :
    ds.length ≤ k := by
  rcases h with one | le
  · omega
  · have := (Nat.pow_lt_pow_iff_right hb).mp (le.trans_lt lt)
    omega

theorem horner_zeros (n : Nat) (ds : List Nat) :
    horner b 0 (List.replicate n 0 ++ ds) = horner b 0 ds := by
  induction n with
  | zero => rfl
  | succ n ih => simpa [List.replicate_succ] using ih

theorem spells_digit (lt : v < b) : Spells b v [v] := ⟨by simp, by simpa using lt, by simp⟩

theorem Spells.snoc {ds : List Nat} (h : Spells b v ds) (lt : d < b) :
    Spells b (v * b + d) (ds ++ [d]) := by
  refine ⟨by simp, ?_, ?_⟩
  · simpa [or_imp, forall_and] using ⟨h.lt, lt⟩
  · rw [horner_append, h.value]
    rfl

theorem peel_spec {α : Type} {f : Nat → Nat → List α → Nat × List α} {digit : Nat → α} {bound : Nat}
    (hb : 1 < b) (eq : ∀ w n l, w < bound →
      f w n l = if w < b then (n + 1, digit w :: l) else f (w / b) (n + 1) (digit (w % b) :: l))
    (lt : w < bound) (n : Nat) (l : List α) :
    ∃ ds, Spells b w ds ∧ Short b w ds ∧ f w n l = (n + ds.length, ds.map digit ++ l) := by
  induction w using Nat.strong_induction_on generalizing n l with
  | h w ih =>
    rw [eq w n l lt]
    split
    case isTrue small => exact ⟨[w], spells_digit small, .inl rfl, rfl⟩
    case isFalse big =>
      have less : w / b < w := Nat.div_lt_self (by omega) hb
      obtain ⟨ds, spells, short, run⟩ :=
        ih (w / b) less (less.trans lt) (n + 1) (digit (w % b) :: l)
      refine ⟨ds ++ [w % b], ?_, short.snoc (by omega) spells.ne_nil (not_lt.mp big), ?_⟩
      · have := spells.snoc (Nat.mod_lt w (by omega))
        rwa [Nat.mul_comm, Nat.div_add_mod] at this
      · rw [run]
        simp only [List.length_append, List.length_singleton, List.map_append, List.map_singleton,
          List.append_assoc, List.singleton_append]
        congr 1
        omega

theorem foldlM_checked {ε : Type} {e : ε} {step : Nat → Nat → Except ε Nat} {limit : Nat} (hb : 0 < b)
    (eq : ∀ w d, w < limit → d < b →
      step w d = if w * b + d < limit then .ok (w * b + d) else .error e)
    (lt : w < limit) (h : ∀ d ∈ ds, d < b) :
    ds.foldlM step w = if horner b w ds < limit then .ok (horner b w ds) else .error e := by
  induction ds generalizing w with
  | nil => simp [lt, pure, Except.pure]
  | cons d ds ih =>
    simp only [List.mem_cons, forall_eq_or_imp] at h
    rw [List.foldlM_cons, eq w d lt h.1, horner_cons]
    by_cases fits : w * b + d < limit
    · rw [if_pos fits]
      exact ih fits h.2
    · have grow := horner_mono hb (w * b + d) ds
      rw [if_neg fits, if_neg (by omega)]
      rfl

theorem foldlM_horner {α ε : Type} {step : α → Nat → Except ε α} {P : α → Nat → Prop}
    (keeps : ∀ a v d, P a v → d < b → ∃ a', step a d = .ok a' ∧ P a' (v * b + d))
    {a : α} (start : P a v) (h : ∀ d ∈ ds, d < b) :
    ∃ a', ds.foldlM step a = .ok a' ∧ P a' (horner b v ds) := by
  induction ds generalizing a v with
  | nil => exact ⟨a, rfl, start⟩
  | cons d ds ih =>
    simp only [List.mem_cons, forall_eq_or_imp] at h
    obtain ⟨a', run, next⟩ := keeps a v d start h.1
    obtain ⟨last, rest, final⟩ := ih next h.2
    refine ⟨last, ?_, final⟩
    rw [List.foldlM_cons, run]
    exact rest

theorem compare_cons {x y X Y : Nat} (hx : x < b) (hy : y < b) :
    compare (x + b * X) (y + b * Y) = (compare X Y).then (compare x y) := by
  rcases lt_trichotomy X Y with lt | rfl | lt
  · have : b * (X + 1) ≤ b * Y := Nat.mul_le_mul_left b lt
    rw [compare_lt_iff_lt.mpr lt, compare_lt_iff_lt.mpr (by linarith)]
    rfl
  · rw [compare_eq_iff_eq.mpr rfl]
    rcases lt_trichotomy x y with lt | rfl | lt
    · rw [compare_lt_iff_lt.mpr lt, compare_lt_iff_lt.mpr (by omega)]; rfl
    · simp
    · rw [compare_gt_iff_gt.mpr lt, compare_gt_iff_gt.mpr (by omega)]; rfl
  · have : b * (Y + 1) ≤ b * X := Nat.mul_le_mul_left b lt
    rw [compare_gt_iff_gt.mpr lt, compare_gt_iff_gt.mpr (by linarith)]
    rfl

end Numeral
