import Mythryl.KnuthMorrisPratt.Borders

/-!
# When the search finds the first occurrence

At a letter that differs from the one after the border kept so far, `fill` goes on with the border
that border's entry leads to, without a look at the letter after it.
-/

namespace Mythryl.KnuthMorrisPratt
open Borders

def letters (s : List Char) (i : Nat) : Option Char := s[i]?

def Next.at {psz : Nat} (next : Next psz) (i : Nat) : Option Nat :=
  if inside : i < psz then next.entry ⟨i, inside⟩ else none

def kept (w : Nat → Option Char) (table : Nat → Option Nat) : Nat → Nat
  | 0 => 0
  | p + 1 =>
      if p = 0 then 0
      else if w (kept w table p) = w p then kept w table p + 1
      else plusOne (table (kept w table p))

section Fill

variable {pattern : List Char} {psz : Nat} {next : Next psz} {p x : Nat} {i : Nat}

theorem Next.at_inside (inside : i < psz) : next.at i = next.entry ⟨i, inside⟩ :=
  dif_pos inside

theorem Next.at_before {z : Nat} (found : next.at i = some z) : z < i := by
  rw [Next.at] at found
  split at found
  · exact next.before _ z found
  · cases found

theorem Next.at_set {here : Fin psz} {l : Option Nat} {before : ∀ z, l = some z → z < here} : (next.set here l before).at i = if i = here then l else next.at i := by
  rw [Next.at, Next.at]
  by_cases inside : i < psz
  · rw [dif_pos inside, dif_pos inside]
    simp [Next.set, Function.update_apply, Fin.ext_iff]
  · rw [dif_neg inside, dif_neg inside, if_neg]
    omega

theorem fill_before (pattern : List Char) (next : Next pattern.length) (p x : Nat) (lt : x < p)
    (before : i < p) : (fill pattern next p x lt).at i = next.at i := by
  fun_induction fill pattern next p x lt with
  | case1 next p x lt inside here there same ih =>
    rw [ih (by omega), Next.at_set, if_neg (by change i ≠ p; omega)]
  | case2 next p x lt inside here there differs ih =>
    rw [ih (by omega), Next.at_set, if_neg (by change i ≠ p; omega)]
  | case3 => rfl

def Filled (w : Nat → Option Char) (table : Nat → Option Nat) (i : Nat) : Prop :=
  table i = if w (kept w table i) = w i then table (kept w table i) else some (kept w table i)

theorem letters_inside (inside : i < pattern.length) :
    letters pattern i = some (pattern.get ⟨i, inside⟩) := List.getElem?_eq_getElem inside

theorem kept_succ {w : Nat → Option Char} {table : Nat → Option Nat} (pos : 0 < p) :
    kept w table (p + 1) =
      if w (kept w table p) = w p then kept w table p + 1 else plusOne (table (kept w table p)) := by
  rw [kept, if_neg (Nat.ne_of_gt pos)]

theorem fill_filled (pattern : List Char) (next : Next pattern.length) (p x : Nat) (lt : x < p)
    (keeps : x = kept (letters pattern) (fill pattern next p x lt).at p) (le : p ≤ i)
    (inside : i < pattern.length) : Filled (letters pattern) (fill pattern next p x lt).at i := by
  have pos : 0 < p := Nat.zero_lt_of_lt lt
  induction next, p, x, lt using fill.induct pattern with
  | case1 next p x lt insideP here there same ih =>
    rw [fill, dif_pos insideP, if_pos same] at keeps ⊢
    have letter : letters pattern x = letters pattern p := by
      rw [letters_inside (lt.trans insideP), letters_inside insideP, same]
    rcases Nat.eq_or_lt_of_le le with rfl | le
    · rw [Filled, ← keeps, if_pos letter, fill_before _ _ _ _ _ (Nat.lt_succ_self p),
        fill_before _ _ _ _ _ (lt.trans (Nat.lt_succ_self p)), Next.at_set, Next.at_set,
        if_pos rfl, if_neg (Nat.ne_of_lt lt), Next.at_inside (lt.trans insideP)]
    · apply ih _ le (Nat.succ_pos p)
      rw [kept_succ pos, ← keeps, if_pos letter]
  | case2 next p x lt insideP here there differs ih =>
    rw [fill, dif_pos insideP, if_neg differs] at keeps ⊢
    have letter : letters pattern x ≠ letters pattern p := by
      rw [letters_inside (lt.trans insideP), letters_inside insideP]
      exact fun same => differs (Option.some.inj same)
    rcases Nat.eq_or_lt_of_le le with rfl | le
    · rw [Filled, ← keeps, if_neg letter, fill_before _ _ _ _ _ (Nat.lt_succ_self p),
        Next.at_set, if_pos rfl]
    · apply ih _ le (Nat.succ_pos p)
      rw [kept_succ pos, ← keeps, if_neg letter, fill_before _ _ _ _ _ (by omega), Next.at_set,
        if_neg (Nat.ne_of_lt lt), Next.at_inside (lt.trans insideP)]
  | case3 next p x lt outside => exact absurd (Nat.lt_of_le_of_lt le inside) outside

end Fill

def table (pattern : List Char) : Next pattern.length :=
  fill pattern (Next.array pattern.length) 1 0 Nat.one_pos

theorem table_zero (pattern : List Char) : (table pattern).at 0 = none := by
  rw [table, fill_before _ _ _ _ _ Nat.one_pos, Next.at]
  split <;> rfl

theorem table_filled {pattern : List Char} {i : Nat} (pos : 0 < i) (inside : i < pattern.length) :
    Filled (letters pattern) (table pattern).at i :=
  fill_filled pattern _ 1 0 Nat.one_pos rfl pos inside

section Table

variable (w : Nat → Option Char)

structure Slip (p z : Nat) : Prop where
  slip : ∃ x, Longest w p x ∧ w x ≠ w p ∧ Link w x (some z)
  differs : w z ≠ w p

structure FirstSlip (p z : Nat) : Prop extends Slip w p z where
  first : ∀ q < p, ∀ y, ¬Slip w q y

/-- The letter at `i`, and the entry that belongs there, are those at `j`. -/
structure Repeats (i j : Nat) : Prop where
  letter : w j = w i
  link : ∀ l, Link w j l ↔ Link w i l

variable {w} {table : Nat → Option Nat} {n p q z : Nat}

theorem keeps_longest (zero : table 0 = none) (filled : ∀ i, 0 < i → i < n → Filled w table i)
    (noSlip : ∀ q < p, ∀ y, ¬Slip w q y) (pos : 0 < p) (le : p ≤ n) :
    Longest w p (kept w table p) ∧ ∀ i < p, Link w i (table i) := by
  induction p with
  | zero => exact absurd pos (Nat.lt_irrefl 0)
  | succ p ih =>
    rcases Nat.eq_zero_or_pos p with rfl | pos
    · refine ⟨longest_one, fun i lt => ?_⟩
      obtain rfl : i = 0 := Nat.lt_one_iff.mp lt
      rw [zero]
      exact link_zero
    · obtain ⟨longest, links⟩ :=
        ih (fun q lt => noSlip q (lt.trans (Nat.lt_succ_self p))) pos (Nat.le_of_succ_le le)
      have link := links _ longest.border.lt
      have entry := filled p pos le
      rw [Filled] at entry
      rw [kept_succ pos]
      split at entry
      next same =>
        rw [if_pos same]
        refine ⟨longest.succ same, fun i lt => ?_⟩
        rcases Nat.lt_succ_iff_lt_or_eq.mp lt with lt | rfl
        · exact links i lt
        · rw [entry]
          exact longest.link_same same link
      next differs =>
        rw [if_neg differs]
        constructor
        · cases found : table (kept w table p) with
          | none => exact longest.succ_none differs (found ▸ link)
          | some z =>
            have link : Link w (kept w table p) (some z) := found ▸ link
            have same : w z = w p := by
              by_contra slips
              exact noSlip p (Nat.lt_succ_self p) z ⟨⟨_, longest, differs, link⟩, slips⟩
            exact longest.succ_link differs link same
        · intro i lt
          rcases Nat.lt_succ_iff_lt_or_eq.mp lt with lt | rfl
          · exact links i lt
          · rw [entry]
            exact longest.link_differs differs

theorem FirstSlip.pos (slip : FirstSlip w p z) : 0 < p := by
  obtain ⟨x, longest, _⟩ := slip.slip
  exact Nat.zero_lt_of_lt longest.border.lt

theorem FirstSlip.lt (slip : FirstSlip w p z) : z < p := by
  obtain ⟨x, longest, _, link⟩ := slip.slip
  cases link with
  | some border => exact border.lt.trans longest.border.lt

variable {i : Nat}

theorem FirstSlip.keeps (slip : FirstSlip w p z) (zero : table 0 = none)
    (filled : ∀ i, 0 < i → i < n → Filled w table i) (lt : p < i) (le : i ≤ n)
    (repeats : ∀ j, p < j → j < i → Repeats w j (j - (p - z))) :
    kept w table i = i - (p - z) ∧ ∀ j < i, Link w j (table j) := by
  have zp := slip.lt
  induction i, lt using Nat.le_induction with
  | base =>
    obtain ⟨longest, links⟩ := keeps_longest zero filled slip.first slip.pos (Nat.le_of_succ_le le)
    obtain ⟨x, longestX, differs, link⟩ := slip.slip
    have same : kept w table p = x :=
      Nat.le_antisymm (longestX.le _ longest.border) (longest.le _ longestX.border)
    have goesOn : table x = some z := (links x longestX.border.lt).unique link
    have entry := filled p slip.pos le
    rw [Filled, same, if_neg differs] at entry
    constructor
    · rw [kept_succ slip.pos, same, if_neg differs, goesOn, plusOne]
      omega
    · intro j lt
      rcases Nat.lt_succ_iff_lt_or_eq.mp lt with lt | rfl
      · exact links j lt
      · rw [entry]
        exact longestX.link_differs differs
  | succ i lt ih =>
    obtain ⟨keeps, links⟩ := ih (Nat.le_of_succ_le le)
      fun j after before => repeats j after (before.trans (Nat.lt_succ_self i))
    have again := repeats i lt (Nat.lt_succ_self i)
    have entry := filled i (Nat.zero_lt_of_lt lt) le
    rw [Filled, keeps, if_pos again.letter] at entry
    constructor
    · rw [kept_succ (Nat.zero_lt_of_lt lt), keeps, if_pos again.letter]
      omega
    · intro j lt'
      rcases Nat.lt_succ_iff_lt_or_eq.mp lt' with lt' | rfl
      · exact links j lt'
      · rw [entry]
        exact (again.link _).mp (links _ (by omega))

theorem FirstSlip.not_border (slip : FirstSlip w p z) (lt : p < i) : ¬Border w i (i - (p - z)) := by
  have zp := slip.lt
  induction i, lt using Nat.le_induction with
  | base =>
    rw [show p + 1 - (p - z) = z + 1 by omega, border_succ]
    exact fun border => slip.differs border.2
  | succ i lt ih =>
    rw [show i + 1 - (p - z) = i - (p - z) + 1 by omega, border_succ]
    exact fun border => ih border.1

theorem right_of_repeats (zero : table 0 = none) (filled : ∀ i, 0 < i → i < n → Filled w table i)
    (repeats : ∀ p z, FirstSlip w p z → ∀ i, p < i → i < n → Repeats w i (i - (p - z)))
    (lt : i < n) : Link w i (table i) := by
  classical
  by_cases slips : ∃ p, p < n ∧ ∃ z, Slip w p z
  · obtain ⟨inside, z, slip⟩ := Nat.find_spec slips
    have first : FirstSlip w (Nat.find slips) z :=
      ⟨slip, fun q lt y slip => Nat.find_min slips lt ⟨lt.trans inside, y, slip⟩⟩
    exact (first.keeps zero filled inside (Nat.le_refl n)
      fun j after before => repeats _ z first j after before).2 i lt
  · exact (keeps_longest zero filled (fun q lt y slip => slips ⟨q, lt, y, slip⟩)
      (Nat.zero_lt_of_lt lt) (Nat.le_refl n)).2 i lt

inductive Wrong (w : Nat → Option Char) (i : Nat) : Option Nat → Prop
  | noBorder {y : Nat} (differs : w y ≠ w i) (none : ¬Border w i y) : Wrong w i (some y)
  | past {l : Option Nat} {v : Nat} (border : Border w i v) (differs : w v ≠ w i)
      (shorter : ∀ y, l = some y → y < v) : Wrong w i l

theorem wrong_of_link {x : Nat} {l : Option Nat} (link : Link w x l) (letter : w x = w i)
    (other : ¬Link w i l) : Wrong w i l := by
  obtain ⟨l', link'⟩ := link_exists w i
  cases link with
  | none =>
    cases link' with
    | none same => exact absurd (.none same) other
    | some border differs _ => exact .past border differs nofun
  | @some y _ differs _ =>
    rw [letter] at differs
    by_cases border : Border w i y
    · cases link' with
      | none same => exact absurd (same y border) differs
      | @some v border' differs' le =>
        apply Wrong.past border' differs'
        rintro _ ⟨⟩
        apply Nat.lt_of_le_of_ne (le y border differs)
        rintro rfl
        exact other (.some border' differs' le)
    · exact .noBorder differs border

theorem FirstSlip.wrong (slip : FirstSlip w p z) (zero : table 0 = none)
    (filled : ∀ i, 0 < i → i < n → Filled w table i)
    (breaks : ∃ i, p < i ∧ i < n ∧ ¬Repeats w i (i - (p - z))) :
    ∃ i, 0 < i ∧ i < n ∧ Wrong w i (table i) := by
  classical
  have zp := slip.lt
  obtain ⟨after, inside, ends⟩ := Nat.find_spec breaks
  have min (j : Nat) (after : p < j) (before : j < Nat.find breaks) :
      Repeats w j (j - (p - z)) := by
    by_contra ends
    exact Nat.find_min breaks before ⟨after, before.trans inside, ends⟩
  revert after inside ends min
  generalize Nat.find breaks = i
  intro after inside ends min
  obtain ⟨keeps, links⟩ := slip.keeps zero filled after (Nat.le_of_lt inside) min
  have entry := filled i (Nat.zero_lt_of_lt after) inside
  rw [Filled, keeps] at entry
  refine ⟨i, Nat.zero_lt_of_lt after, inside, ?_⟩
  split at entry
  next letter =>
    have link := links (i - (p - z)) (by omega)
    rw [← entry] at link
    apply wrong_of_link link letter
    intro link'
    apply ends
    refine ⟨letter, fun l => ⟨fun first => ?_, fun first => ?_⟩⟩
    · rwa [first.unique link]
    · rwa [first.unique link']
  next differs =>
    rw [entry]
    exact .noBorder differs (slip.not_border after)

end Table

section Search

variable {pattern text : List Char} {start stop : Nat}

abbrev OccursAt (pattern text : List Char) (k : Nat) : Prop :=
  Occurs (letters pattern) pattern.length (letters text) k

inductive FirstOccurrence (pattern text : List Char) (start stop : Nat) : Nat → Prop
  | found {r : Nat} (ge : start ≤ r) (fits : r + pattern.length ≤ stop)
      (occurs : OccursAt pattern text r)
      (first : ∀ k, start ≤ k → k < r → ¬OccursAt pattern text k) :
      FirstOccurrence pattern text start stop r
  | none (none : ∀ k, start ≤ k → k + pattern.length ≤ stop → ¬OccursAt pattern text k) :
      FirstOccurrence pattern text start stop stop

def Searching (pattern text : List Char) (start stop : Nat) : Option Nat → Nat → Prop
  | none, t => start ≤ t ∧ ∀ k, start ≤ k → k ≤ t → ¬OccursAt pattern text k
  | some p, t =>
      p ≤ pattern.length ∧ start + p ≤ t ∧ (0 < p → t ≤ stop) ∧
        Occurs (letters pattern) p (letters text) (t - p) ∧
        ∀ k, start ≤ k → k + p < t → ¬OccursAt pattern text k

theorem border_of_occurs {w v : Nat → Option Char} {p t k n : Nat}
    (matched : Occurs w p v (t - p)) (le : p ≤ t) (occurs : Occurs w n v k) (after : t < k + p)
    (before : k ≤ t) (inside : t < k + n) : Border w p (t - k) ∧ w (t - k) = v t := by
  constructor
  · constructor
    · omega
    · intro i lt
      rw [← matched (p - (t - k) + i) (by omega), ← occurs i (by omega)]
      congr 1
      omega
  · rw [← occurs (t - k) (by omega)]
    congr 1
    omega

theorem loop_finds {next : Next pattern.length} (ne : 0 < pattern.length)
    (right : ∀ i < pattern.length, Link (letters pattern) i (next.at i)) (p : Option Nat) (t : Nat)
    (searching : Searching pattern text start stop p t) :
    FirstOccurrence pattern text start stop (loop pattern next text stop p t) := by
  fun_induction loop pattern next text stop p t with
  | case1 t ends => exact .none fun k ge fits => searching.2 k ge (by omega)
  | case2 t goesOn ih =>
    apply ih
    refine ⟨Nat.zero_le _, by have le := searching.1; omega, fun lt => absurd lt (Nat.lt_irrefl 0),
      fun i lt => absurd lt (Nat.not_lt_zero i), ?_⟩
    exact fun k ge before => searching.2 k ge (by omega)
  | case3 p t insideP ends =>
    obtain ⟨_, _, _, _, none⟩ := searching
    exact .none fun k ge fits => none k ge (by omega)
  | case4 p t insideP goesOn same ih =>
    obtain ⟨le, ge, _, matched, none⟩ := searching
    apply ih
    refine ⟨insideP, by omega, by omega, ?_, fun k ge before => none k ge (by omega)⟩
    intro i lt
    rw [show t + 1 - (p + 1) = t - p by omega]
    rcases Nat.lt_succ_iff_lt_or_eq.mp lt with lt | rfl
    · exact matched i lt
    · rw [show t - i + i = t by omega, letters_inside insideP, same]
      rfl
  | case5 p t insideP goesOn differs ih =>
    obtain ⟨le, ge, _, matched, none⟩ := searching
    have link := right p insideP
    rw [Next.at_inside insideP] at link
    have mismatch : letters text t ≠ letters pattern p := by
      rw [letters_inside insideP]
      exact fun same => differs same.symm
    -- what occurs before the place that the entry goes on with has a border in what matches
    have passed {k : Nat} (startK : start ≤ k) (after : t ≤ k + p) (before : k ≤ t)
        (occurs : OccursAt pattern text k) : Border (letters pattern) p (t - k) ∧
          letters pattern (t - k) ≠ letters pattern p := by
      rcases Nat.eq_or_lt_of_le after with equal | after
      · apply absurd _ mismatch
        rw [← occurs p insideP, ← equal]
      · obtain ⟨border, letter⟩ := border_of_occurs matched (by omega) occurs after before (by omega)
        refine ⟨border, ?_⟩
        rwa [letter]
    apply ih
    cases found : next.entry ⟨p, insideP⟩ with
    | none =>
      rw [found] at link
      cases link with
      | none same =>
        refine ⟨by omega, fun k ge before occurs => ?_⟩
        by_cases after : t ≤ k + p
        · obtain ⟨border, letter⟩ := passed ge after before occurs
          exact letter (same _ border)
        · exact none k ge (by omega) occurs
    | some z =>
      rw [found] at link
      cases link with
      | some border _ longest =>
        have lt := border.lt
        refine ⟨by omega, by omega, fun _ => by omega, ?_, fun k ge before occurs => ?_⟩
        · intro i lt
          rw [← border.same i lt, ← matched (p - z + i) (by omega)]
          congr 1
          omega
        · by_cases after : t ≤ k + p
          · obtain ⟨border, letter⟩ := passed ge after (by omega) occurs
            have le := longest _ border letter
            omega
          · exact none k ge (by omega) occurs
  | case6 p t outside =>
    obtain ⟨le, ge, inside, matched, none⟩ := searching
    obtain rfl : p = pattern.length := Nat.le_antisymm le (Nat.le_of_not_lt outside)
    apply FirstOccurrence.found
    · omega
    · omega
    · exact matched
    · exact fun k ge before => none k ge (by omega)

def Aligned : Option Nat → Nat → Nat → Prop
  | none, t, r => t < r
  | some p, t, r => t ≤ r + p

theorem loop_aligned (next : Next pattern.length) (text : List Char) (stop : Nat) (p : Option Nat)
    (t : Nat) : loop pattern next text stop p t = stop ∨
      Aligned p t (loop pattern next text stop p t) := by
  fun_induction loop pattern next text stop p t with
  | case1 => exact .inl rfl
  | case2 t goesOn ih => exact ih
  | case3 => exact .inl rfl
  | case4 p t inside goesOn same ih =>
    apply ih.imp_right
    intro aligned
    exact Nat.le_of_succ_le_succ aligned
  | case5 p t inside goesOn differs ih =>
    apply ih.imp_right
    intro aligned
    cases found : next.entry ⟨p, inside⟩ with
    | none =>
      rw [found] at aligned
      change t < _ at aligned
      change t ≤ _ + p
      omega
    | some z =>
      have lt : z < p := next.before _ z found
      rw [found] at aligned
      change t ≤ _ + z at aligned
      change t ≤ _ + p
      omega
  | case6 p t outside =>
    right
    change t ≤ t - _ + p
    omega

theorem loop_matches (next : Next pattern.length) (text : List Char) {p t m : Nat}
    (fits : t + m ≤ stop) (le : p + m ≤ pattern.length)
    (same : ∀ j < m, letters pattern (p + j) = letters text (t + j)) :
    loop pattern next text stop (some p) t =
      loop pattern next text stop (some (p + m)) (t + m) := by
  induction m generalizing p t with
  | zero => rfl
  | succ m ih =>
    have inside : p < pattern.length := by omega
    have letter : letters pattern p = letters text t := same 0 (Nat.succ_pos m)
    have rest (j : Nat) (lt : j < m) : letters pattern (p + 1 + j) = letters text (t + 1 + j) := by
      rw [Nat.add_right_comm p, Nat.add_assoc p, Nat.add_right_comm t, Nat.add_assoc t]
      exact same (j + 1) (Nat.succ_lt_succ lt)
    have equal : some (pattern.get ⟨p, inside⟩) = text[t]? := (letters_inside inside).symm.trans letter
    rw [loop, dif_pos inside, if_neg (by omega), if_pos equal, ih (by omega) (by omega) rest,
      Nat.add_right_comm p, Nat.add_assoc p, Nat.add_right_comm t, Nat.add_assoc t]

end Search

section Patterns

variable {pattern : List Char} {i y : Nat}

theorem letters_splice (le : i ≤ pattern.length) (j : Nat) :
    letters (pattern.take i ++ pattern.drop y) j =
      if j < i then letters pattern j else letters pattern (y + (j - i)) := by
  have length : (pattern.take i).length = i := List.length_take_of_le le
  rw [letters, List.getElem?_append, length]
  split
  next before => exact List.getElem?_take_of_lt before
  next => exact List.getElem?_drop

theorem kmp_splice (inside : i < pattern.length)
    (differs : letters pattern y ≠ letters pattern i) {stop : Nat} (pos : i < stop) :
    kmp pattern (pattern.take i ++ pattern.drop y) 0 stop =
      loop pattern (table pattern) (pattern.take i ++ pattern.drop y) stop
        ((table pattern).at i) i := by
  have splice := letters_splice (y := y) (Nat.le_of_lt inside)
  have begins (j : Nat) (lt : j < i) : letters pattern (0 + j) =
      letters (pattern.take i ++ pattern.drop y) (0 + j) := by
    rw [Nat.zero_add, splice, if_pos lt]
  have before : 0 + i ≤ stop := by omega
  have run := loop_matches (table pattern) _ before (by omega) begins
  rw [Nat.zero_add] at run
  rw [kmp, ← table, run, loop, dif_pos inside, if_neg (by omega), if_neg, Next.at_inside inside]
  intro same
  apply differs
  rw [← letters_inside inside] at same
  change letters pattern i = letters _ i at same
  rw [same, splice, if_neg (Nat.lt_irrefl i), Nat.sub_self, Nat.add_zero]

theorem not_first_of_wrong (inside : i < pattern.length)
    (wrong : Wrong (letters pattern) i ((table pattern).at i)) :
    ∃ text, ¬FirstOccurrence pattern text 0 text.length (kmp pattern text 0 text.length) := by
  revert wrong
  generalize entry : (table pattern).at i = l
  rintro (@⟨y, differs, noBorder⟩ | @⟨_, v, border, differs, shorter⟩)
  · have lt := Next.at_before entry
    refine ⟨pattern.take i ++ pattern.drop y, ?_⟩
    have splice := letters_splice (y := y) (Nat.le_of_lt inside)
    have length : (pattern.take i ++ pattern.drop y).length = i + (pattern.length - y) := by
      rw [List.length_append, List.length_take, List.length_drop]
      omega
    rw [length, kmp_splice inside differs (by omega), entry,
      loop_matches (m := pattern.length - y) _ _ (Nat.le_refl _) (by omega)]
    · rw [loop, dif_neg (by omega)]
      generalize place : i + (pattern.length - y) - pattern.length = r
      intro first
      cases first with
      | found ge fits occurs first =>
        apply noBorder
        refine ⟨lt, fun j before => ?_⟩
        rw [← occurs j (by omega), splice, if_pos (by omega)]
        congr 1
        omega
      | none => omega
    · intro j lt
      rw [splice, if_neg (by omega)]
      congr 1
      omega
  · refine ⟨pattern.take i ++ pattern.drop v, ?_⟩
    have lt := border.lt
    have splice := letters_splice (y := v) (Nat.le_of_lt inside)
    have length : (pattern.take i ++ pattern.drop v).length = i + (pattern.length - v) := by
      rw [List.length_append, List.length_take, List.length_drop]
      omega
    have occurs : OccursAt pattern (pattern.take i ++ pattern.drop v) (i - v) := by
      intro j before
      rw [splice]
      split
      next => rw [← border.same j (by omega)]
      next =>
        congr 1
        omega
    rw [length, kmp_splice inside differs (by omega), entry]
    have aligned := loop_aligned (table pattern) (pattern.take i ++ pattern.drop v)
      (i + (pattern.length - v)) l i
    revert aligned
    generalize loop pattern _ _ _ l i = r
    intro aligned first
    cases first with
    | found ge fits _ first =>
      rcases aligned with stop | aligned
      · omega
      · cases l with
        | none =>
          change i < r at aligned
          omega
        | some y =>
          have lt := shorter y rfl
          change i ≤ r + y at aligned
          omega
    | none none => exact none (i - v) (Nat.zero_le _) (by omega) occurs

structure FindsPattern (pattern : List Char) : Prop where
  kmp : ∀ text start stop, stop ≤ text.length →
    FirstOccurrence pattern text start stop (kmp pattern text start stop)
  isSubstring : ∀ text, isSubstring pattern text = true ↔ pattern <:+: text

theorem infix_iff_occursAt {pattern text : List Char} :
    pattern <:+: text ↔ ∃ k, k + pattern.length ≤ text.length ∧ OccursAt pattern text k := by
  rw [List.infix_iff_getElem?]
  apply exists_congr
  intro k
  rw [Nat.add_comm k]
  apply and_congr_right
  intro fits
  apply forall₂_congr
  intro j inside
  rw [letters_inside inside, Nat.add_comm]
  rfl

theorem isSubstring_iff (ne : pattern ≠ []) {text : List Char}
    (first : FirstOccurrence pattern text 0 text.length (kmp pattern text 0 text.length)) :
    isSubstring pattern text = true ↔ pattern <:+: text := by
  have pos := List.length_pos_of_ne_nil ne
  rw [isSubstring, decide_eq_true_iff, infix_iff_occursAt]
  revert first
  generalize kmp pattern text 0 text.length = r
  intro first
  cases first with
  | found ge fits occurs _ => exact ⟨fun _ => ⟨_, fits, occurs⟩, fun _ => by omega⟩
  | none none =>
    constructor
    · exact fun lt => absurd lt (Nat.lt_irrefl _)
    · rintro ⟨k, fits, occurs⟩
      exact absurd occurs (none k (Nat.zero_le k) fits)

/-- The pattern is found everywhere exactly if, past the first place where its letter differs from
both letters that are looked at, it repeats itself with the entries that belong there. -/
theorem findsPattern_iff (pattern : List Char) (ne : pattern ≠ []) :
    FindsPattern pattern ↔ ∀ p z, FirstSlip (letters pattern) p z →
      ∀ i, p < i → i < pattern.length → Repeats (letters pattern) i (i - (p - z)) := by
  have zero := table_zero pattern
  have filled (i : Nat) (pos : 0 < i) (inside : i < pattern.length) :=
    table_filled pos inside
  constructor
  · intro finds p z slip
    by_contra breaks
    push Not at breaks
    obtain ⟨i, pos, inside, wrong⟩ := slip.wrong zero filled breaks
    obtain ⟨text, wrong⟩ := not_first_of_wrong inside wrong
    exact wrong (finds.kmp text 0 text.length (Nat.le_refl _))
  · intro repeats
    have right (i : Nat) (inside : i < pattern.length) := right_of_repeats zero filled repeats inside
    have first (text : List Char) (start stop : Nat) :
        FirstOccurrence pattern text start stop (kmp pattern text start stop) := by
      apply loop_finds (List.length_pos_of_ne_nil ne) right
      exact ⟨Nat.zero_le _, Nat.le_refl _, fun lt => absurd lt (Nat.lt_irrefl 0),
        fun j lt => absurd lt (Nat.not_lt_zero j), fun k ge before => absurd before (by omega)⟩
    exact ⟨fun text start stop _ => first text start stop,
      fun text => isSubstring_iff ne (first text 0 text.length)⟩

end Patterns

theorem findsPattern_aa : FindsPattern ['a', 'a'] := by
  apply (findsPattern_iff ['a', 'a'] (by decide)).mpr
  intro p z slip i after inside
  have pos := slip.pos
  change i < 2 at inside
  omega

theorem isSubstring_abaca :
    isSubstring "abaca".toList "abacbaca".toList = true ∧ ¬"abaca".toList <:+: "abacbaca".toList := by
  constructor
  · simp [isSubstring, kmp, fill, loop, Next.set, Next.array, plusOne, Function.update,
      -Fin.reduceFinMk, -Fin.mk_one, -Fin.zero_eta, -Fin.isValue]
  · decide

end Mythryl.KnuthMorrisPratt
