import Mythryl.Regex.AbstractRegularExpression
import Mathlib.Logic.Relation

/-!
# Simplifications while parsing

What `generic_regular_expression_syntax_g` makes of a quantifier behind an item.
-/

namespace Mythryl.Regex
open AbstractRegularExpression

mutual

@[grind =] def isZeroLen : AbstractRegularExpression → Bool
  | .group x => isZeroLen x
  | .concat xs => allZeroLen xs
  | .alt xs => allZeroLen xs
  | .guard _ x => isZeroLen x
  | .star x => isZeroLen x
  | .plus x => isZeroLen x
  | .option x => isZeroLen x
  | .interval x m max =>
      match max with
      | some n => if n = 0 then true else m > n || isZeroLen x
      | none => isZeroLen x
  | .assign _ _ x => isZeroLen x
  | .begin => true
  | .end' => true
  | .boundary _ => true
  | _ => false

@[grind =] def allZeroLen : List AbstractRegularExpression → Bool
  | [] => true
  | x :: xs => isZeroLen x && allZeroLen xs

end

section Parsing

variable {S : Type} (danglingModifiers : Bool)

abbrev Stack := List AbstractRegularExpression

abbrev Parsed (S : Type) := Except (S × String) (S × Stack)

def dangling (s : S) (c : String) : Parsed S :=
  if danglingModifiers then .ok (s, [.concat []]) else .error (s, "dangling " ++ c)

def star (s : S) : Stack → Parsed S
  | .star x :: stack => .ok (s, .star x :: stack)
  | .plus x :: stack => .ok (s, .star x :: stack)
  | .interval x 1 none :: stack => .ok (s, .star x :: stack)
  | .interval x 0 none :: stack => .ok (s, .star x :: stack)
  | x :: stack => .ok (s, (if isZeroLen x then .option x else .star x) :: stack)
  | [] => dangling danglingModifiers s "*"

def plus (s : S) : Stack → Parsed S
  | .plus x :: stack => .ok (s, .plus x :: stack)
  | .star x :: stack => .ok (s, .star x :: stack)
  | .interval x 1 none :: stack => .ok (s, .plus x :: stack)
  | .interval x 0 none :: stack => .ok (s, .interval x 0 none :: stack)
  | x :: xs => .ok (s, if isZeroLen x then x :: xs else .plus x :: xs)
  | [] => dangling danglingModifiers s "+"

def opt (s : S) : Stack → Parsed S
  | .option x :: stack => .ok (s, .option x :: stack)
  | .star x :: stack => .ok (s, .star x :: stack)
  | .interval x 0 max :: stack => .ok (s, .interval x 0 max :: stack)
  | x :: stack => .ok (s, .option x :: stack)
  | [] => dangling danglingModifiers s "?"

def done (s : S) (min : Int) (max : Option Int) (stack : Stack) : Parsed S :=
  match min, max, stack with
  | _, _, [] => dangling danglingModifiers s "{}"
  | 0, none, .option x :: stack => .ok (s, .star x :: stack)
  | 0, none, .star x :: stack => .ok (s, .star x :: stack)
  | 1, none, .plus x :: stack => .ok (s, .plus x :: stack)
  | min, max, x :: stack => .ok (s,
      if isZeroLen x then if min > 0 then x :: stack else .option x :: stack
      else .interval x min max :: stack)

end Parsing

abbrev Place := Nat × (Int → Option String)

def power {A : Type} (R : A → A → Prop) : Nat → A → A → Prop
  | 0 => Eq
  | k + 1 => fun s t => ∃ u, R s u ∧ power R k u t

def repeated {A : Type} (R : A → A → Prop) (min : Int) (max : Option Int) (s t : A) : Prop :=
  ∃ k : Nat, min ≤ k ∧ lesseq k max = true ∧ power R k s t

def substring (text : List Char) (i j : Nat) : String := String.ofList ((text.take j).drop i)

mutual

@[grind =] def matches' (text : List Char) : AbstractRegularExpression → Place → Place → Prop
  | .group x => matches' text x
  | .alt xs => matchesAlt text xs
  | .concat xs => matchesConcat text xs
  | .interval x min max => repeated (matches' text x) min max
  | .option x => repeated (matches' text x) 0 (some 1)
  | .star x => repeated (matches' text x) 0 none
  | .plus x => repeated (matches' text x) 1 none
  | .matchSet set => fun s t => (∃ c ∈ text[s.1]?, set.member c = true) ∧ t = (s.1 + 1, s.2)
  | .nonmatchSet set => fun s t => (∃ c ∈ text[s.1]?, set.member c = false) ∧ t = (s.1 + 1, s.2)
  | .char c => fun s t => text[s.1]? = some c ∧ t = (s.1 + 1, s.2)
  | .begin => fun s t => s.1 = 0 ∧ t = s
  | .end' => fun s t => s.1 = text.length ∧ t = s
  | .assign v f x => fun s t => ∃ refs, matches' text x s (t.1, refs) ∧
      t.2 = Function.update refs v (some (f (substring text s.1 t.1)))
  | .backRef f v => fun s t => ∃ w ∈ s.2 v, (f w).toList <+: text.drop s.1 ∧
      t = (s.1 + (f w).length, s.2)
  | .guard predicate x => fun s t =>
      matches' text x s t ∧ predicate (substring text s.1 t.1) = true
  | .boundary ok => fun s t =>
      ok (if s.1 = 0 then none else text[s.1 - 1]?) text[s.1]? text[s.1 + 1]? = true ∧ t = s

@[grind =] def matchesAlt (text : List Char) : List AbstractRegularExpression → Place → Place → Prop
  | [] => fun _ _ => False
  | x :: xs => fun s t => matches' text x s t ∨ matchesAlt text xs s t

@[grind =] def matchesConcat (text : List Char) : List AbstractRegularExpression → Place → Place → Prop
  | [] => Eq
  | x :: xs => fun s t => ∃ u, matches' text x s u ∧ matchesConcat text xs u t

end

def SameMatches (x y : AbstractRegularExpression) : Prop :=
  ∀ text i refs j, (∃ refs', matches' text x (i, refs) (j, refs')) ↔
    ∃ refs', matches' text y (i, refs) (j, refs')

def InOrder (x : AbstractRegularExpression) : Prop :=
  ∀ e min max, Part (.interval e min max) x → lesseq min max = true

def BindsNothing (x : AbstractRegularExpression) : Prop := ∀ v f e, ¬Part (.assign v f e) x

/-- The item that is left for `x` matches what it stands for: the same substrings, and when `x`
binds nothing the same inside every regular expression. -/
structure Simplifies (x y z : AbstractRegularExpression) : Prop where
  same : SameMatches y z
  inside : BindsNothing x → ∀ text, matches' text y = matches' text z

section Repetition

variable {A : Type} {R : A → A → Prop} {s t : A} {max : Option Int}

theorem power_star {k : Nat} (run : power R k s t) : Relation.ReflTransGen R s t := by
  induction k generalizing s with
  | zero => exact run ▸ .refl
  | succ k ih =>
    obtain ⟨u, first, rest⟩ := run
    exact .head first (ih rest)

theorem repeated_star : repeated R 0 none = Relation.ReflTransGen R := by
  funext s t
  apply propext
  constructor
  · rintro ⟨k, -, -, run⟩
    exact power_star run
  · intro run
    induction run using Relation.ReflTransGen.head_induction_on with
    | refl => exact ⟨0, by simp, rfl, rfl⟩
    | head first rest ih =>
      obtain ⟨k, -, -, run⟩ := ih
      exact ⟨k + 1, by omega, rfl, _, first, run⟩

theorem repeated_plus : repeated R 1 none = Relation.TransGen R := by
  funext s t
  rw [Relation.TransGen.head'_iff, ← repeated_star]
  apply propext
  constructor
  · rintro ⟨k, some, -, run⟩
    cases k with
    | zero => simp at some
    | succ k =>
      obtain ⟨u, first, rest⟩ := run
      exact ⟨u, first, k, by omega, rfl, rest⟩
  · rintro ⟨u, first, k, -, -, rest⟩
    exact ⟨k + 1, by omega, rfl, u, first, rest⟩

theorem repeated_option : repeated R 0 (some 1) = Relation.ReflGen R := by
  funext s t
  rw [Relation.reflGen_iff]
  apply propext
  constructor
  · rintro ⟨k, -, most, run⟩
    cases k with
    | zero => exact .inl run.symm
    | succ k =>
      have last : k = 0 := by
        simp [lesseq] at most
        omega
      obtain ⟨u, first, rest⟩ := run
      subst last
      exact .inr (rest ▸ first)
  · rintro (rfl | first)
    · exact ⟨0, by simp, by simp [lesseq], rfl⟩
    · exact ⟨1, by simp, by simp [lesseq], t, first, rfl⟩

theorem option_self (refl : ∀ s, R s s) : repeated R 0 (some 1) = R := by
  have : Std.Refl R := ⟨refl⟩
  rw [repeated_option, Relation.reflGen_eq_self]

end Repetition

section ZeroLength

variable {R Q : Place → Place → Prop} {text : List Char} {x : AbstractRegularExpression}

/-- What matches here matches just here, whatever is bound to the references. -/
def Stays (R : Place → Place → Prop) : Prop :=
  ∀ s t, R s t → t.1 = s.1 ∧ ∀ refs, ∃ refs', R (s.1, refs) (s.1, refs')

theorem Stays.power (stays : Stays R) (k : Nat) : Stays (power R k) := by
  induction k with
  | zero =>
    rintro s _ rfl
    exact ⟨rfl, fun refs => ⟨refs, rfl⟩⟩
  | succ k ih =>
    rintro s t ⟨u, first, rest⟩
    obtain ⟨here, again⟩ := stays s u first
    obtain ⟨there, later⟩ := ih u t rest
    rw [here] at there later
    apply And.intro there
    intro refs
    obtain ⟨refs₁, first'⟩ := again refs
    obtain ⟨refs', rest'⟩ := later refs₁
    exact ⟨refs', _, first', rest'⟩

theorem Stays.repeated (stays : Stays R) (min : Int) (max : Option Int) :
    Stays (repeated R min max) := by
  rintro s t ⟨k, least, most, run⟩
  obtain ⟨here, again⟩ := stays.power k s t run
  apply And.intro here
  intro refs
  obtain ⟨refs', run'⟩ := again refs
  exact ⟨refs', k, least, most, run'⟩

theorem stays_here (ok : Nat → Prop) : Stays fun s t => ok s.1 ∧ t = s := by
  rintro s _ ⟨found, rfl⟩
  exact ⟨rfl, fun refs => ⟨refs, found, rfl⟩⟩

theorem stays_interval {m : Int} {max : Option Int} (zero : isZeroLen (.interval x m max) = true)
    (stays : isZeroLen x = true → Stays R) : Stays (repeated R m max) := by
  cases max with
  | none => exact (stays zero).repeated _ _
  | some n =>
    rw [isZeroLen] at zero
    split at zero
    · rename_i none
      rintro s _ ⟨k, least, most, run⟩
      have done : k = 0 := by simp [lesseq, none] at most; exact most
      subst done
      cases run
      exact ⟨rfl, fun refs => ⟨refs, 0, least, most, rfl⟩⟩
    · rw [Bool.or_eq_true, decide_eq_true_eq] at zero
      cases zero with
      | inl empty =>
        rintro s t ⟨k, least, most, -⟩
        simp [lesseq] at most
        omega
      | inr zero => exact (stays zero).repeated _ _

mutual

theorem isZeroLen_stays (x : AbstractRegularExpression) (zero : isZeroLen x = true) :
    Stays (matches' text x) := by
  cases x with
  | group x => exact isZeroLen_stays x zero
  | alt xs => exact (allZeroLen_stays xs zero).1
  | concat xs => exact (allZeroLen_stays xs zero).2
  | guard predicate x =>
    rintro s t ⟨found, holds⟩
    obtain ⟨here, again⟩ := isZeroLen_stays x zero s t found
    apply And.intro here
    intro refs
    obtain ⟨refs', found'⟩ := again refs
    rw [here] at holds
    exact ⟨refs', found', holds⟩
  | star x | plus x | option x => exact (isZeroLen_stays x zero).repeated _ _
  | interval x m max => exact stays_interval zero (isZeroLen_stays x)
  | assign v f x =>
    rintro s t ⟨refs₁, found, bound⟩
    obtain ⟨here, again⟩ := isZeroLen_stays x zero _ _ found
    apply And.intro here
    intro refs
    obtain ⟨refs', found'⟩ := again refs
    exact ⟨Function.update refs' v (some (f (substring text s.1 s.1))), refs', found', rfl⟩
  | begin => exact stays_here fun i => i = 0
  | end' => exact stays_here fun i => i = text.length
  | boundary ok =>
    exact stays_here fun i =>
      ok (if i = 0 then none else text[i - 1]?) text[i]? text[i + 1]? = true
  | matchSet set | nonmatchSet set | char c | backRef f v => cases zero

theorem allZeroLen_stays (xs : List AbstractRegularExpression) (zero : allZeroLen xs = true) :
    Stays (matchesAlt text xs) ∧ Stays (matchesConcat text xs) := by
  cases xs with
  | nil =>
    apply And.intro fun s t none => none.elim
    rintro s _ rfl
    exact ⟨rfl, fun refs => ⟨refs, rfl⟩⟩
  | cons x xs =>
    rw [allZeroLen, Bool.and_eq_true] at zero
    have first : Stays (matches' text x) := isZeroLen_stays x zero.1
    have rest : Stays (matchesAlt text xs) ∧ Stays (matchesConcat text xs) :=
      allZeroLen_stays xs zero.2
    constructor
    · intro s t found
      cases found with
      | inl found =>
        obtain ⟨here, again⟩ := first s t found
        exact ⟨here, fun refs => (again refs).imp fun _ => Or.inl⟩
      | inr found =>
        obtain ⟨here, again⟩ := rest.1 s t found
        exact ⟨here, fun refs => (again refs).imp fun _ => Or.inr⟩
    · rintro s t ⟨u, found, after⟩
      obtain ⟨here, again⟩ := first s u found
      obtain ⟨there, later⟩ := rest.2 u t after
      rw [here] at there later
      apply And.intro there
      intro refs
      obtain ⟨refs₁, found'⟩ := again refs
      obtain ⟨refs', after'⟩ := later refs₁
      exact ⟨refs', _, found', after'⟩

end

/-- As often as one likes, it matches the empty substring alone. -/
theorem Stays.optional (stays : Stays R) {min : Int} {max : Option Int} (none : min ≤ 0)
    (room : lesseq 0 max = true) {i j : Nat} {refs : Int → Option String} :
    (∃ refs', Regex.repeated R min max (i, refs) (j, refs')) ↔ j = i := by
  constructor
  · rintro ⟨refs', run⟩
    exact (stays.repeated _ _ _ _ run).1
  · rintro rfl
    exact ⟨refs, 0, none, room, rfl⟩

/-- Once is as good as more often. -/
theorem Stays.needed (stays : Stays R) {min : Int} {max : Option Int} (some : 0 < min)
    (room : lesseq min max = true) {i j : Nat} {refs : Int → Option String} :
    (∃ refs', Regex.repeated R min max (i, refs) (j, refs')) ↔ ∃ refs', R (i, refs) (j, refs') := by
  constructor
  · rintro ⟨refs', k, least, most, run⟩
    cases k with
    | zero =>
      omega
    | succ k =>
      obtain ⟨u, first, rest⟩ := run
      obtain ⟨here, again⟩ := stays _ u first
      have there : j = u.1 := (stays.power k u _ rest).1
      have same : j = i := there.trans here
      subst same
      exact again refs
  · rintro ⟨refs₁, first⟩
    obtain ⟨rfl, again⟩ := stays _ _ first
    have runs : ∀ k refs, ∃ refs', Regex.power R k (j, refs) (j, refs') := by
      intro k
      induction k with
      | zero => exact fun refs => ⟨refs, rfl⟩
      | succ k ih =>
        intro refs
        obtain ⟨refs₁, first⟩ := again refs
        obtain ⟨refs', rest⟩ := ih refs₁
        exact ⟨refs', _, first, rest⟩
    obtain ⟨refs', run⟩ := runs min.toNat refs
    have times : (min.toNat : Int) = min := Int.toNat_of_nonneg some.le
    exact ⟨refs', min.toNat, times.ge, by rw [times]; exact room, run⟩

end ZeroLength

section Bindings

variable {R Q : Place → Place → Prop} {text : List Char} {x : AbstractRegularExpression}

def KeepsRefs (R : Place → Place → Prop) : Prop := ∀ s t, R s t → t.2 = s.2

theorem KeepsRefs.repeated (keeps : KeepsRefs R) (min : Int) (max : Option Int) :
    KeepsRefs (repeated R min max) := by
  rintro s t ⟨k, -, -, run⟩
  clear * - run keeps
  induction k generalizing s with
  | zero => exact run ▸ rfl
  | succ k ih =>
    obtain ⟨u, first, rest⟩ := run
    exact (ih u rest).trans (keeps s u first)

/-- Relations that keep the references are told apart by the substrings. -/
theorem KeepsRefs.ext (keepsR : KeepsRefs R) (keepsQ : KeepsRefs Q)
    (same : ∀ i refs j, (∃ refs', R (i, refs) (j, refs')) ↔ ∃ refs', Q (i, refs) (j, refs')) :
    R = Q := by
  funext s t
  apply propext
  constructor
  · intro found
    obtain ⟨refs', found'⟩ := (same s.1 s.2 t.1).mp ⟨t.2, found⟩
    have kept : refs' = t.2 := (keepsQ _ _ found').trans (keepsR _ _ found).symm
    rw [kept] at found'
    exact found'
  · intro found
    obtain ⟨refs', found'⟩ := (same s.1 s.2 t.1).mpr ⟨t.2, found⟩
    have kept : refs' = t.2 := (keepsR _ _ found').trans (keepsQ _ _ found).symm
    rw [kept] at found'
    exact found'

theorem keepsRefs_alt {xs : List AbstractRegularExpression}
    (keeps : ∀ x ∈ xs, KeepsRefs (matches' text x)) : KeepsRefs (matchesAlt text xs) := by
  induction xs with
  | nil => exact fun s t none => none.elim
  | cons x xs ih =>
    rw [List.forall_mem_cons] at keeps
    exact fun s t found => found.elim (keeps.1 s t) (ih keeps.2 s t)

theorem keepsRefs_concat {xs : List AbstractRegularExpression}
    (keeps : ∀ x ∈ xs, KeepsRefs (matches' text x)) : KeepsRefs (matchesConcat text xs) := by
  induction xs with
  | nil =>
    rintro s _ rfl
    rfl
  | cons x xs ih =>
    rw [List.forall_mem_cons] at keeps
    rintro s t ⟨u, first, rest⟩
    exact (ih keeps.2 u t rest).trans (keeps.1 s u first)

theorem bindsNothing_keeps (x : AbstractRegularExpression) (binds : BindsNothing x) :
    KeepsRefs (matches' text x) := by
  have inside {e} (part : Part e x) : BindsNothing e :=
    fun v f y within => binds v f y (within.trans part)
  cases x with
  | group e => exact bindsNothing_keeps e (inside (.group .whole))
  | alt es =>
    exact keepsRefs_alt fun e mem => bindsNothing_keeps e (inside (.alt mem .whole))
  | concat es =>
    exact keepsRefs_concat fun e mem => bindsNothing_keeps e (inside (.concat mem .whole))
  | guard predicate e =>
    exact fun s t found => bindsNothing_keeps e (inside (.guard .whole)) s t found.1
  | interval e min max =>
    exact (bindsNothing_keeps e (inside (.interval .whole))).repeated _ _
  | star e => exact (bindsNothing_keeps e (inside (.star .whole))).repeated _ _
  | plus e => exact (bindsNothing_keeps e (inside (.plus .whole))).repeated _ _
  | option e => exact (bindsNothing_keeps e (inside (.option .whole))).repeated _ _
  | assign v f e => exact (binds v f e .whole).elim
  | matchSet set | nonmatchSet set | char c | begin | end' | boundary ok =>
    rintro s _ ⟨-, rfl⟩
    rfl
  | backRef f v =>
    rintro s _ ⟨w, -, -, rfl⟩
    rfl
termination_by sizeOf x

end Bindings

section Quantifiers

variable {S : Type} {x y z : AbstractRegularExpression} {d : Bool}

theorem Simplifies.of_eq (same : ∀ text, matches' text y = matches' text z) : Simplifies x y z where
  same text i refs j := by rw [same]
  inside _ := same

theorem simplifies_optional (zero : isZeroLen x = true) {min : Int} {max : Option Int}
    (none : min ≤ 0) (room : lesseq 0 max = true)
    (means : ∀ text, matches' text z = repeated (matches' text x) min max) :
    Simplifies x (.option x) z := by
  have optional text : matches' text (.option x) = repeated (matches' text x) 0 (some 1) := by
    rw [matches']
  have same : SameMatches (.option x) z := by
    intro text i refs j
    have stays : Stays (matches' text x) := isZeroLen_stays x zero
    rw [means, optional]
    exact (stays.optional le_rfl (by decide)).trans (stays.optional none room).symm
  refine ⟨same, fun binds text => ?_⟩
  have keeps : KeepsRefs (matches' text x) := bindsNothing_keeps x binds
  apply KeepsRefs.ext _ _ (same text)
  · rw [optional]
    exact keeps.repeated _ _
  · rw [means]
    exact keeps.repeated _ _

theorem simplifies_needed (zero : isZeroLen x = true) {min : Int} {max : Option Int}
    (some : 0 < min) (room : lesseq min max = true)
    (means : ∀ text, matches' text z = repeated (matches' text x) min max) : Simplifies x x z := by
  have same : SameMatches x z := by
    intro text i refs j
    have stays : Stays (matches' text x) := isZeroLen_stays x zero
    rw [means]
    exact (stays.needed some room).symm
  refine ⟨same, fun binds text => ?_⟩
  have keeps : KeepsRefs (matches' text x) := bindsNothing_keeps x binds
  apply keeps.ext _ (same text)
  rw [means]
  exact keeps.repeated _ _

theorem star_simplifies (s : S) (x : AbstractRegularExpression) (stack : Stack) :
    ∃ y, star d s (x :: stack) = .ok (s, y :: stack) ∧ Simplifies x y (.star x) := by
  unfold star
  split
  case h_5 =>
    rename_i head
    cases head
    split
    · rename_i zero
      exact ⟨_, rfl, simplifies_optional zero le_rfl rfl fun text => by rw [matches']⟩
    · exact ⟨_, rfl, .of_eq fun text => rfl⟩
  case h_6 => contradiction
  all_goals
    rename_i head
    cases head
    refine ⟨_, rfl, .of_eq fun text => ?_⟩
    simp [matches', repeated_star, repeated_plus, Relation.reflTransGen_eq_self]

theorem plus_simplifies (s : S) (x : AbstractRegularExpression) (stack : Stack) :
    ∃ y, plus d s (x :: stack) = .ok (s, y :: stack) ∧ Simplifies x y (.plus x) := by
  unfold plus
  split
  case h_5 =>
    rename_i head
    cases head
    split
    · rename_i zero
      exact ⟨_, rfl, simplifies_needed zero Int.one_pos rfl fun text => by rw [matches']⟩
    · exact ⟨_, rfl, .of_eq fun text => rfl⟩
  case h_6 => contradiction
  all_goals
    rename_i head
    cases head
    refine ⟨_, rfl, .of_eq fun text => ?_⟩
    simp [matches', repeated_star, repeated_plus, Relation.transGen_eq_self]

theorem InOrder.interval {min : Int} {max : Option Int} (ordered : InOrder (.interval x min max)) :
    lesseq min max = true :=
  ordered x min max .whole

theorem option_repeated {R : Place → Place → Prop} {max : Option Int} (room : lesseq 0 max = true) :
    repeated (repeated R 0 max) 0 (some 1) = repeated R 0 max :=
  option_self fun _ => ⟨0, le_rfl, room, rfl⟩

theorem opt_simplifies (s : S) (ordered : InOrder x) (stack : Stack) :
    ∃ y, opt d s (x :: stack) = .ok (s, y :: stack) ∧ Simplifies x y (.option x) := by
  unfold opt
  split
  case h_4 =>
    rename_i head
    cases head
    exact ⟨_, rfl, .of_eq fun text => rfl⟩
  case h_5 => contradiction
  all_goals
    rename_i head
    cases head
    refine ⟨_, rfl, .of_eq fun text => ?_⟩
    simp only [matches']
    rw [option_repeated]
  · rfl
  · rfl
  · exact ordered.interval

theorem done_simplifies (s : S) (x : AbstractRegularExpression) (stack : Stack) {min : Int}
    {max : Option Int} (bounds : lesseq min max = true) (room : lesseq 0 max = true) :
    ∃ y, done d s min max (x :: stack) = .ok (s, y :: stack) ∧
      Simplifies x y (.interval x min max) := by
  unfold done
  split
  case h_1 => contradiction
  case h_5 =>
    rename_i head
    cases head
    split
    · rename_i zero
      split
      · rename_i some
        exact ⟨_, rfl, simplifies_needed zero some bounds fun text => by rw [matches']⟩
      · rename_i none
        have none := Int.not_lt.mp none
        exact ⟨_, rfl, simplifies_optional zero none room fun text => by rw [matches']⟩
    · exact ⟨_, rfl, .of_eq fun text => rfl⟩
  all_goals
    rename_i head
    cases head
    refine ⟨_, rfl, .of_eq fun text => ?_⟩
    simp [matches', repeated_star, repeated_plus, repeated_option, Relation.transGen_eq_self,
      Relation.reflTransGen_eq_self]

/-- What `*`, `+`, `?` and `{min,max}` leave on the stack for a parsed item matches like that item
starred, repeated or optional, and an item of zero length matches empty substrings alone. -/
theorem quantifiers_simplify (d : Bool) (s : S) (ordered : InOrder x) (stack : Stack) :
    (∃ y, star d s (x :: stack) = .ok (s, y :: stack) ∧ Simplifies x y (.star x)) ∧
    (∃ y, plus d s (x :: stack) = .ok (s, y :: stack) ∧ Simplifies x y (.plus x)) ∧
    (∃ y, opt d s (x :: stack) = .ok (s, y :: stack) ∧ Simplifies x y (.option x)) ∧
    (∀ min max, lesseq min max = true → lesseq 0 max = true →
      ∃ y, done d s min max (x :: stack) = .ok (s, y :: stack) ∧
        Simplifies x y (.interval x min max)) ∧
    (isZeroLen x = true → ∀ text s t, matches' text x s t → t.1 = s.1) := by
  refine ⟨star_simplifies s x stack, plus_simplifies s x stack, opt_simplifies s ordered stack,
    ?_, ?_⟩
  · exact fun min max bounds room => done_simplifies s x stack bounds room
  · exact fun zero text s t found => (isZeroLen_stays x zero s t found).1

theorem quantifiers_simplify_interval :
    ∃ y, plus false () [.interval (.char 'a') 1 none] = .ok ((), [y]) ∧
      Simplifies (.interval (.char 'a') 1 none) y (.plus (.interval (.char 'a') 1 none)) := by
  have ordered : InOrder (.interval (.char 'a') 1 none) := by
    intro e min max part
    cases part with
    | whole => rfl
    | interval part => cases part
  exact (quantifiers_simplify false () ordered []).2.1

theorem negative_interval : lesseq (-2) (some (-1)) = true ∧ InOrder .begin ∧
    done false () (-2) (some (-1)) [.begin] = .ok ((), [.option .begin]) ∧
      ¬SameMatches (.option .begin) (.interval .begin (-2) (some (-1))) := by
  refine ⟨rfl, fun e min max part => (nomatch part), rfl, fun same => ?_⟩
  have empty : ∃ refs', matches' [] (.option .begin) (0, fun _ => none) (0, refs') :=
    ⟨_, 0, le_rfl, rfl, rfl⟩
  obtain ⟨_, k, -, most, -⟩ := (same [] 0 _ 0).mp empty
  simp [lesseq] at most
  omega

end Quantifiers

end Mythryl.Regex
