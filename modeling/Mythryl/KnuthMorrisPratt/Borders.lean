import Mathlib.Data.List.Infix
import Mathlib.Data.Nat.Find

/-!
# Borders of words

A border of the first `p` letters is a shorter word that they begin and end with.
-/

namespace Borders

variable {α : Type} (w : Nat → α)

structure Border (p z : Nat) : Prop where
  lt : z < p
  same : ∀ i < z, w (p - z + i) = w i

structure Longest (p x : Nat) : Prop where
  border : Border w p x
  le : ∀ y, Border w p y → y ≤ x

inductive Link (p : Nat) : Option Nat → Prop
  | none (same : ∀ y, Border w p y → w y = w p) : Link p none
  | some {z : Nat} (border : Border w p z) (differs : w z ≠ w p)
      (le : ∀ y, Border w p y → w y ≠ w p → y ≤ z) : Link p (some z)

def Occurs (n : Nat) (v : Nat → α) (k : Nat) : Prop := ∀ i < n, v (k + i) = w i

variable {w} {n p x y z : Nat} {l l' : Option Nat}

theorem border_zero (pos : 0 < p) : Border w p 0 := ⟨pos, fun _ lt => absurd lt (Nat.not_lt_zero _)⟩

theorem not_border_zero : ¬Border w 0 y := fun border => Nat.not_lt_zero _ border.lt

theorem Border.trans (first : Border w p x) (second : Border w x z) : Border w p z := by
  have lt := first.lt
  have lt' := second.lt
  constructor
  · omega
  · intro i inside
    calc w (p - z + i) = w (p - x + (x - z + i)) := by congr 1; omega
      _ = w (x - z + i) := first.same _ (by omega)
      _ = w i := second.same i inside

theorem Border.shorter (first : Border w p x) (second : Border w p z) (shorter : z < x) :
    Border w x z := by
  have lt := first.lt
  constructor
  · exact shorter
  · intro i inside
    calc w (x - z + i) = w (p - x + (x - z + i)) := (first.same _ (by omega)).symm
      _ = w (p - z + i) := by congr 1; omega
      _ = w i := second.same i inside

theorem Border.pred (border : Border w (p + 1) (z + 1)) : Border w p z ∧ w z = w p := by
  have lt := border.lt
  have same (i : Nat) (inside : i < z + 1) : w (p - z + i) = w i := by
    rw [← border.same i inside]
    congr 1
    omega
  refine ⟨⟨by omega, fun i inside => same i (by omega)⟩, ?_⟩
  rw [← same z (by omega)]
  congr 1
  omega

theorem Border.succ (border : Border w p z) (letter : w z = w p) : Border w (p + 1) (z + 1) := by
  have lt := border.lt
  constructor
  · omega
  · intro i inside
    rcases Nat.lt_succ_iff_lt_or_eq.mp inside with inside | rfl
    · rw [← border.same i inside]
      congr 1
      omega
    · rw [letter]
      congr 1
      omega

theorem border_succ : Border w (p + 1) (z + 1) ↔ Border w p z ∧ w z = w p :=
  ⟨Border.pred, fun ⟨border, letter⟩ => border.succ letter⟩

theorem longest_one : Longest w 1 0 :=
  ⟨border_zero Nat.one_pos, fun _ border => Nat.le_of_lt_succ border.lt⟩

theorem link_zero : Link w 0 none := .none fun _ border => absurd border not_border_zero

theorem Longest.cases (longest : Longest w p x) (border : Border w p y) : y = x ∨ Border w x y := by
  rcases Nat.lt_or_eq_of_le (longest.le y border) with lt | equal
  · exact .inr (longest.border.shorter border lt)
  · exact .inl equal

theorem Longest.succ (longest : Longest w p x) (same : w x = w p) : Longest w (p + 1) (x + 1) := by
  constructor
  · exact longest.border.succ same
  · intro y border
    cases y with
    | zero => exact Nat.zero_le _
    | succ y => exact Nat.succ_le_succ (longest.le y border.pred.1)

theorem Longest.succ_link (longest : Longest w p x) (differs : w x ≠ w p) (link : Link w x (some z))
    (same : w z = w p) : Longest w (p + 1) (z + 1) := by
  cases link with
  | some inner _ le =>
    constructor
    · exact (longest.border.trans inner).succ same
    · intro y border
      cases y with
      | zero => exact Nat.zero_le _
      | succ y =>
        obtain ⟨border, letter⟩ := border.pred
        rcases longest.cases border with rfl | border
        · exact absurd letter differs
        · apply Nat.succ_le_succ
          apply le y border
          rw [letter]
          exact differs.symm

theorem Longest.succ_none (longest : Longest w p x) (differs : w x ≠ w p) (link : Link w x none) :
    Longest w (p + 1) 0 := by
  cases link with
  | none inner =>
    constructor
    · exact border_zero (Nat.succ_pos p)
    · intro y border
      cases y with
      | zero => exact Nat.le_refl 0
      | succ y =>
        obtain ⟨border, letter⟩ := border.pred
        rcases longest.cases border with rfl | border
        · exact absurd letter differs
        · exact absurd ((inner y border).symm.trans letter) differs

theorem Longest.link_same (longest : Longest w p x) (same : w x = w p) (link : Link w x l) :
    Link w p l := by
  cases link with
  | none inner =>
    apply Link.none
    intro y border
    rcases longest.cases border with rfl | border
    · exact same
    · rw [inner y border, same]
  | some border differs le =>
    apply Link.some (longest.border.trans border)
    · rwa [← same]
    · intro y border' differs'
      rcases longest.cases border' with rfl | border'
      · exact absurd same differs'
      · rw [← same] at differs'
        exact le y border' differs'

theorem Longest.link_differs (longest : Longest w p x) (differs : w x ≠ w p) : Link w p (some x) :=
  .some longest.border differs fun y border _ => longest.le y border

theorem link_exists (w : Nat → α) (p : Nat) : ∃ l, Link w p l := by
  classical
  by_cases found : ∃ y, Border w p y ∧ w y ≠ w p
  · obtain ⟨y, border, differs⟩ := found
    let wanted (y : Nat) : Prop := Border w p y ∧ w y ≠ w p
    have holds : wanted (Nat.findGreatest wanted p) :=
      Nat.findGreatest_spec (Nat.le_of_lt border.lt) ⟨border, differs⟩
    exact ⟨_, .some holds.1 holds.2 fun y border differs =>
      Nat.le_findGreatest (Nat.le_of_lt border.lt) ⟨border, differs⟩⟩
  · exact ⟨_, .none fun y border => by_contra fun differs => found ⟨y, border, differs⟩⟩

theorem Link.unique (first : Link w p l) (second : Link w p l') : l = l' := by
  cases first with
  | none same =>
    cases second with
    | none _ => rfl
    | some border differs _ => exact absurd (same _ border) differs
  | some border differs le =>
    cases second with
    | none same => exact absurd (same _ border) differs
    | some border' differs' le' =>
      exact congrArg Option.some (Nat.le_antisymm (le' _ border differs) (le _ border' differs'))

end Borders

/-!
# Searching for a string

`kmp` of `src/lib/core/init/protostring.pkg` and `is_substring` of `string-guts.pkg`.
-/

namespace Mythryl.KnuthMorrisPratt

structure Next (psz : Nat) where
  entry : Fin psz → Option Nat
  before : ∀ p z, entry p = some z → z < p

def Next.array (psz : Nat) : Next psz := ⟨fun _ => none, fun _ _ found => nomatch found⟩

def Next.set {psz : Nat} (next : Next psz) (p : Fin psz) (x : Option Nat)
    (before : ∀ z, x = some z → z < p) : Next psz where
  entry := Function.update next.entry p x
  before := by
    intro q z found
    rcases eq_or_ne q p with rfl | ne
    · rw [Function.update_self] at found
      exact before z found
    · rw [Function.update_of_ne ne] at found
      exact next.before q z found

def plusOne : Option Nat → Nat
  | none => 0
  | some z => z + 1

theorem Next.plusOne_le {psz : Nat} (next : Next psz) (p : Fin psz) :
    plusOne (next.entry p) ≤ p := by
  cases found : next.entry p with
  | none => exact Nat.zero_le _
  | some z => exact next.before p z found

section Kmp

variable (pattern : List Char)

def fill (next : Next pattern.length) (p x : Nat) (lt : x < p) : Next pattern.length :=
  if inside : p < pattern.length then
    let here : Fin pattern.length := ⟨p, inside⟩
    let there : Fin pattern.length := ⟨x, lt.trans inside⟩
    if pattern.get there = pattern.get here then
      fill (next.set here (next.entry there) fun z found => (next.before there z found).trans lt)
        (p + 1) (x + 1) (Nat.succ_lt_succ lt)
    else
      fill (next.set here (some x) fun _ found => Option.some.inj found ▸ lt)
        (p + 1) (plusOne (next.entry there))
        (Nat.lt_succ_of_le ((next.plusOne_le there).trans (Nat.le_of_lt lt)))
  else next
  termination_by pattern.length - p

/-- The loop of `search`. The text is read before `tsz` only. -/
def loop (next : Next pattern.length) (text : List Char) (tsz : Nat) : Option Nat → Nat → Nat
  | none, t => if t ≥ tsz then tsz else loop next text tsz (some 0) (t + 1)
  | some p, t =>
      if inside : p < pattern.length then
        if t ≥ tsz then tsz
        else if some (pattern.get ⟨p, inside⟩) = text[t]? then
          loop next text tsz (some (p + 1)) (t + 1)
        else loop next text tsz (next.entry ⟨p, inside⟩) t
      else t - pattern.length
  termination_by p t => (tsz - t, (p.map (· + 1)).getD 0)
  decreasing_by
    · exact Prod.Lex.left _ _ (by omega)
    · exact Prod.Lex.left _ _ (by omega)
    · apply Prod.Lex.right
      cases found : next.entry ⟨p, inside⟩ with
      | none => exact Nat.succ_pos p
      | some z => exact Nat.succ_lt_succ (next.before _ z found)

def kmp (text : List Char) (start tsz : Nat) : Nat :=
  loop pattern (fill pattern (Next.array pattern.length) 1 0 Nat.one_pos) text tsz (some 0) start

def isSubstring (text : List Char) : Bool :=
  let epos := text.length
  kmp pattern text 0 epos < epos

end Kmp

end Mythryl.KnuthMorrisPratt
