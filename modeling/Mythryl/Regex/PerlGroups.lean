import Mythryl.Regex.Matcher

/-!
# The groups of a match

A match tree should have one node for each group of the expression, in the order of the opening
parentheses, so that `nth` finds a group by its number.
-/

namespace Mythryl.Regex.PerlEngine
open AbstractRegularExpression Reader RaisingState BacktrackingSearch

variable {X : Type}

mutual

/-- What stands in the parentheses of an expression, in the order of the opening ones. -/
def groupsOf : AbstractRegularExpression → List AbstractRegularExpression
  | .group e => e :: groupsOf e
  | .alt l => groupsOfAll l
  | .concat l => groupsOfAll l
  | .interval e _ _ => groupsOf e
  | .option e => groupsOf e
  | .star e => groupsOf e
  | .plus e => groupsOf e
  | .assign _ _ e => groupsOf e
  | .guard _ e => groupsOf e
  | _ => []

def groupsOfAll : List AbstractRegularExpression → List AbstractRegularExpression
  | [] => []
  | e :: l => groupsOf e ++ groupsOfAll l

end

mutual

def Numbers : AbstractRegularExpression → List (RegexMatchResult X) → Prop
  | .group e, ts => ∃ range inside, ts = [.regexMatchResult (some range) inside] ∧ Numbers e inside
  | .alt l, ts => NumbersAlt l ts
  | .concat l, ts => NumbersAll l ts
  | .interval e min max, ts =>
      Numbers e ts ∨ ¬(lesseq min max = true ∧ min > 0) ∧ ts = placeholders e
  | .option e, ts => Numbers e ts ∨ ts = placeholders e
  | .star e, ts => Numbers e ts ∨ ts = placeholders e
  | .plus e, ts => Numbers e ts
  | .assign _ _ e, ts => Numbers e ts
  | .guard _ e, ts => Numbers e ts
  | _, ts => ts = []

def NumbersAll : List AbstractRegularExpression → List (RegexMatchResult X) → Prop
  | [], ts => ts = []
  | e :: l, ts => ∃ first rest, ts = first ++ rest ∧ Numbers e first ∧ NumbersAll l rest

def NumbersAlt : List AbstractRegularExpression → List (RegexMatchResult X) → Prop
  | [], _ => False
  | e :: l, ts => (∃ taken, ts = taken ++ placeholdersAll l ∧ Numbers e taken) ∨
      ∃ rest, ts = placeholders e ++ rest ∧ NumbersAlt l rest

end

mutual

def nodes : RegexMatchResult X → List (RegexMatchResult X)
  | .regexMatchResult root children => .regexMatchResult root children :: nodesAll children

def nodesAll : List (RegexMatchResult X) → List (RegexMatchResult X)
  | [] => []
  | t :: ts => nodes t ++ nodesAll ts

end

def Stands (e : AbstractRegularExpression) (t : RegexMatchResult X) : Prop :=
  (∃ range inside, t = .regexMatchResult (some range) inside ∧ Numbers e inside) ∨
    t = .regexMatchResult none (placeholders e)

theorem nodesAll_append (ts ts' : List (RegexMatchResult X)) :
    nodesAll (ts ++ ts') = nodesAll ts ++ nodesAll ts' := by
  induction ts with
  | nil => rfl
  | cons t ts ih => simp [nodesAll, ih]

theorem stands_nil {l : List AbstractRegularExpression} {ts : List (RegexMatchResult X)}
    (stand : List.Forall₂ Stands l (nodesAll ts)) (none : l.length = 0) : ts = [] := by
  rw [stand.length_eq] at none
  cases ts with
  | nil => rfl
  | cons t ts =>
    cases t
    cases none

theorem nodesAll_reverse (ts : List (RegexMatchResult X)) :
    (nodesAll ts.reverse).length = (nodesAll ts).length := by
  induction ts with
  | nil => rfl
  | cons t ts ih =>
    rw [List.reverse_cons, nodesAll_append, List.length_append, ih]
    simp [nodesAll, Nat.add_comm]

theorem groupsOfAll_append (l l' : List AbstractRegularExpression) :
    groupsOfAll (l ++ l') = groupsOfAll l ++ groupsOfAll l' := by
  induction l with
  | nil => rfl
  | cons e l ih => simp [groupsOfAll, ih]

theorem numbersAll_of_append {l l' : List AbstractRegularExpression} {ts : List (RegexMatchResult X)}
    (all : NumbersAll (l ++ l') ts) :
    ∃ first rest, ts = first ++ rest ∧ NumbersAll l first ∧ NumbersAll l' rest := by
  induction l generalizing ts with
  | nil => exact ⟨[], ts, rfl, rfl, all⟩
  | cons e l ih =>
    obtain ⟨a, b, rfl, one, more⟩ := all
    obtain ⟨first, rest, rfl, left, right⟩ := ih more
    exact ⟨a ++ first, rest, (List.append_assoc ..).symm, ⟨a, first, rfl, one, left⟩, right⟩

mutual

theorem placeholders_stand (e : AbstractRegularExpression) :
    List.Forall₂ Stands (groupsOf e) (nodesAll (placeholders (X := X) e)) := by
  cases e with
  | group e =>
    simp only [groupsOf, placeholders, nodesAll, nodes, List.append_nil]
    exact .cons (.inr rfl) (placeholders_stand e)
  | alt l => exact placeholdersAll_stand l
  | concat l => exact placeholdersAll_stand l
  | interval e _ _ => exact placeholders_stand e
  | option e => exact placeholders_stand e
  | star e => exact placeholders_stand e
  | plus e => exact placeholders_stand e
  | assign _ _ e => exact placeholders_stand e
  | guard _ e => exact placeholders_stand e
  | _ => exact .nil

theorem placeholdersAll_stand (l : List AbstractRegularExpression) :
    List.Forall₂ Stands (groupsOfAll l) (nodesAll (placeholdersAll (X := X) l)) := by
  cases l with
  | nil => exact .nil
  | cons e l =>
    simp only [groupsOfAll, placeholdersAll, nodesAll_append]
    exact List.rel_append (placeholders_stand e) (placeholdersAll_stand l)

end

mutual

theorem numbers_stand (e : AbstractRegularExpression) {ts : List (RegexMatchResult X)}
    (numbers : Numbers e ts) : List.Forall₂ Stands (groupsOf e) (nodesAll ts) := by
  cases e with
  | group e =>
    obtain ⟨range, inside, rfl, numbers⟩ := numbers
    simp only [groupsOf, nodesAll, nodes, List.append_nil]
    exact .cons (.inl ⟨range, inside, rfl, numbers⟩) (numbers_stand e numbers)
  | alt l => exact numbersAlt_stand l numbers
  | concat l => exact numbersAll_stand l numbers
  | interval e _ _ =>
    obtain numbers | ⟨-, rfl⟩ := numbers
    · exact numbers_stand e numbers
    · exact placeholders_stand e
  | option e | star e =>
    obtain numbers | rfl := numbers
    · exact numbers_stand e numbers
    · exact placeholders_stand e
  | plus e => exact numbers_stand e numbers
  | assign _ _ e => exact numbers_stand e numbers
  | guard _ e => exact numbers_stand e numbers
  | _ =>
    cases numbers
    exact .nil

theorem numbersAll_stand (l : List AbstractRegularExpression) {ts : List (RegexMatchResult X)}
    (numbers : NumbersAll l ts) : List.Forall₂ Stands (groupsOfAll l) (nodesAll ts) := by
  cases l with
  | nil =>
    cases numbers
    exact .nil
  | cons e l =>
    obtain ⟨first, rest, rfl, one, more⟩ := numbers
    simp only [groupsOfAll, nodesAll_append]
    exact List.rel_append (numbers_stand e one) (numbersAll_stand l more)

theorem numbersAlt_stand (l : List AbstractRegularExpression) {ts : List (RegexMatchResult X)}
    (numbers : NumbersAlt l ts) : List.Forall₂ Stands (groupsOfAll l) (nodesAll ts) := by
  cases l with
  | nil => exact numbers.elim
  | cons e l =>
    obtain ⟨taken, rfl, one⟩ | ⟨rest, rfl, more⟩ := numbers
    · simp only [groupsOfAll, nodesAll_append]
      exact List.rel_append (numbers_stand e one) (placeholdersAll_stand l)
    · simp only [groupsOfAll, nodesAll_append]
      exact List.rel_append (placeholders_stand e) (numbersAlt_stand l more)

end

def merge : List Nat → List Nat
  | n :: n' :: levels => (n + n') :: levels
  | levels => levels

/-- How many groups are left out on each level, after a call; `second` is taken where another way
has failed before. -/
def Call.leftOut (c : Call X) (second : Bool) (levels : List Nat) : List Nat :=
  match c.todo with
  | some (.alt (x :: xs) :: _) =>
      levels.modifyHead (· + (if second then groupsOf x else groupsOfAll xs).length)
  | some (.group _ :: _) => 0 :: levels
  | some (.assign _ _ _ :: _) => 0 :: levels
  | some (.guard _ _ :: _) => 0 :: levels
  | some (.interval _ min max :: _) => if lesseq min max ∧ second = false then 0 :: levels else levels
  | some _ => levels
  | none =>
      match c.stack with
      | .group _ _ _ _ _ => merge levels
      | .assign _ _ _ _ _ _ _ => merge levels
      | .guard _ _ _ _ _ _ => merge levels
      | .repeat' _ _ min max i _ _ _ =>
          if i < min ∨ less i max ∧ second = false then 0 :: levels.tail else merge levels
      | _ => levels

def leftOut (calls : List (Call X × Bool)) : List Nat :=
  calls.foldl (fun levels call => call.1.leftOut call.2 levels) [0]

def Tally (x : AbstractRegularExpression) (found : List (RegexMatchResult X))
    (left : List AbstractRegularExpression) (n : Nat) : Prop :=
  (nodesAll found).length + n + (groupsOfAll left).length = (groupsOf x).length ∧
    (n = 0 → ∀ ts, NumbersAll left ts → Numbers x (found.reverse ++ ts))

def Fits (x : AbstractRegularExpression) : ReturnStack X → List (RegexMatchResult X) →
    List AbstractRegularExpression → List Nat → Prop
  | .group re _ _ siblings stack, found, left, levels => ∃ n outer y, levels = n :: outer ∧
      Tally y found left n ∧ Fits x stack siblings (.group y :: re) outer
  | .assign _ _ re _ _ siblings stack, found, left, levels => ∃ n outer y, levels = n :: outer ∧
      Tally y found left n ∧ Fits x stack siblings (y :: re) outer
  | .guard _ re _ _ siblings stack, found, left, levels => ∃ n outer y, levels = n :: outer ∧
      Tally y found left n ∧ Fits x stack siblings (y :: re) outer
  | .concat re stack, found, left, levels => Fits x stack found (left ++ re) levels
  | .repeat' foo _ _ _ _ re siblings stack, found, left, levels => ∃ n outer, levels = n :: outer ∧
      Tally foo found left n ∧ Fits x stack siblings (foo :: re) outer
  | .return', found, left, levels => ∃ n, levels = [n] ∧ Tally x found left n

section Fits

variable {x : AbstractRegularExpression} {stack : ReturnStack X}
  {found found' : List (RegexMatchResult X)} {left left' : List AbstractRegularExpression}
  {levels : List Nat} {n n' : Nat}

theorem Fits.level (fits : Fits x stack found left levels) : ∃ n outer, levels = n :: outer := by
  induction stack generalizing left with
  | group | assign | guard =>
    obtain ⟨n, outer, -, same, -⟩ := fits
    exact ⟨n, outer, same⟩
  | concat re stack ih => exact ih fits
  | repeat' =>
    obtain ⟨n, outer, same, -⟩ := fits
    exact ⟨n, outer, same⟩
  | return' =>
    obtain ⟨n, same, -⟩ := fits
    exact ⟨n, [], same⟩

/-- A change on the innermost level, whatever stands after it there. -/
theorem Fits.change {outer : List Nat} (fits : Fits x stack found left (n :: outer))
    (tally : ∀ y more, Tally y found (left ++ more) n → Tally y found' (left' ++ more) n') :
    Fits x stack found' left' (n' :: outer) := by
  have bare (y : AbstractRegularExpression) (held : Tally y found left n) : Tally y found' left' n' := by
    simpa using tally y [] (by simpa using held)
  induction stack generalizing left left' with
  | group re start pos siblings stack ih | assign v f re start pos siblings stack ih
  | guard p re start pos siblings stack ih =>
    obtain ⟨_, _, y, same, held, fits⟩ := fits
    cases same
    exact ⟨_, _, y, rfl, bare y held, fits⟩
  | concat re stack ih =>
    have tally' (y : AbstractRegularExpression) (more : List AbstractRegularExpression)
        (held : Tally y found (left ++ re ++ more) n) : Tally y found' (left' ++ re ++ more) n' := by
      rw [List.append_assoc] at held ⊢
      exact tally y _ held
    exact ih fits tally' fun y held => tally y re held
  | repeat' foo pos min max i re siblings stack ih =>
    obtain ⟨_, _, same, held, fits⟩ := fits
    cases same
    exact ⟨_, _, rfl, bare foo held, fits⟩
  | return' =>
    obtain ⟨_, same, held⟩ := fits
    cases same
    exact ⟨_, rfl, bare x held⟩

theorem Fits.swap {y z : AbstractRegularExpression} {re : List AbstractRegularExpression}
    (fits : Fits x stack found (y :: re) levels) (groups : (groupsOf z).length = (groupsOf y).length)
    (numbers : ∀ ts : List (RegexMatchResult X), Numbers z ts → Numbers y ts) :
    Fits x stack found (z :: re) levels := by
  obtain ⟨n, outer, rfl⟩ := fits.level
  refine fits.change fun w more tally => ⟨?_, fun zero ts all => ?_⟩
  · simpa [groupsOfAll, groups] using tally.1
  · obtain ⟨first, rest, rfl, one, more⟩ := all
    exact tally.2 zero _ ⟨first, rest, rfl, numbers first one, more⟩

/-- Trees are found for a part. -/
theorem Fits.find {y : AbstractRegularExpression} {re : List AbstractRegularExpression}
    {ts : List (RegexMatchResult X)} {outer : List Nat} (fits : Fits x stack found (y :: re) (n' :: outer))
    (count : (nodesAll ts).length + n = (groupsOf y).length) (numbers : n = 0 → Numbers y ts.reverse) :
    Fits x stack (ts ++ found) re ((n + n') :: outer) := by
  refine fits.change fun w more tally => ⟨?_, fun zero rest all => ?_⟩
  · have sum := tally.1
    simp only [List.cons_append, groupsOfAll, List.length_append, nodesAll_append] at sum ⊢
    omega
  · rw [List.reverse_append, List.append_assoc]
    exact tally.2 (by omega) _ ⟨_, rest, rfl, numbers (by omega), all⟩

theorem Tally.whole (tally : Tally x found [] n) :
    (nodesAll found).length + n = (groupsOf x).length ∧ (n = 0 → Numbers x found.reverse) := by
  refine ⟨tally.1, fun zero => ?_⟩
  simpa using tally.2 zero [] rfl

theorem tally_start (x : AbstractRegularExpression) : Tally (X := X) x [] [x] 0 := by
  refine ⟨by simp [groupsOfAll, nodesAll], fun _ ts all => ?_⟩
  obtain ⟨first, rest, rfl, one, rfl⟩ := all
  simpa using one

end Fits

section Steps

variable {getc : Getc X} {isMultiline : Bool} {regexp x : AbstractRegularExpression}
  {re : List AbstractRegularExpression} {stack : ReturnStack X} {found : List (RegexMatchResult X)}
  {levels : List Nat} {c : Call X}

def Call.Fits (regexp : AbstractRegularExpression) (levels : List Nat) (c : Call X) : Prop :=
  PerlEngine.Fits regexp c.stack c.found (c.todo.getD []) levels

theorem Fits.drop (fits : Fits regexp stack found (x :: re) levels) (groups : groupsOf x = [])
    (leaf : Numbers (X := X) x []) : Fits regexp stack found re levels := by
  obtain ⟨n, outer, rfl⟩ := fits.level
  have dropped : Fits regexp stack ([] ++ found) re ((0 + n) :: outer) :=
    fits.find (by rw [groups]; rfl) fun _ => leaf
  rwa [Nat.zero_add] at dropped

theorem Fits.alt {xs : List AbstractRegularExpression} (second : Bool)
    (fits : Fits regexp stack found (.alt (x :: xs) :: re) levels) :
    Fits regexp stack found ((if second then .alt xs else x) :: re)
      (levels.modifyHead (· + (if second then groupsOf x else groupsOfAll xs).length)) := by
  obtain ⟨n, outer, rfl⟩ := fits.level
  refine fits.change fun w more tally => ?_
  obtain ⟨sum, numbers⟩ := tally
  simp only [List.cons_append, groupsOfAll, groupsOf, List.length_append] at sum
  cases second with
  | false =>
    refine ⟨?_, fun zero ts all => ?_⟩
    · simp only [Bool.false_eq_true, if_false, List.cons_append, groupsOfAll, List.length_append]
      omega
    · obtain ⟨first, rest, rfl, one, all⟩ := all
      have zero : n + (groupsOfAll xs).length = 0 := zero
      refine numbers (by omega) _ ⟨first, rest, rfl, .inl ⟨first, ?_, one⟩, all⟩
      rw [stands_nil (placeholdersAll_stand xs) (by omega), List.append_nil]
  | true =>
    refine ⟨?_, fun zero ts all => ?_⟩
    · simp only [if_true, List.cons_append, groupsOfAll, groupsOf, List.length_append]
      omega
    · obtain ⟨first, rest, rfl, one, all⟩ := all
      have zero : n + (groupsOf x).length = 0 := zero
      refine numbers (by omega) _ ⟨first, rest, rfl, .inr ⟨first, ?_, one⟩, all⟩
      rw [stands_nil (placeholders_stand x) (by omega), List.nil_append]

theorem Fits.concat {es : List AbstractRegularExpression}
    (fits : Fits regexp stack found (.concat es :: re) levels) :
    Fits regexp stack found (es ++ re) levels := by
  obtain ⟨n, outer, rfl⟩ := fits.level
  refine fits.change fun w more tally => ⟨?_, fun zero ts all => ?_⟩
  · simpa [groupsOfAll, groupsOf, groupsOfAll_append, Nat.add_assoc] using tally.1
  · rw [List.append_assoc] at all
    obtain ⟨first, rest, rfl, one, all⟩ := numbersAll_of_append all
    exact tally.2 zero _ ⟨first, rest, rfl, one, all⟩

variable (getc isMultiline) in
theorem interval_fits {min : Int} {max : Option Int} {pos : Nat} {thisChar lastChar : Buf X} {rest : X}
    (fits : Fits regexp stack found (.interval x min max :: re) levels) :
    let c : Call X := ⟨some (.interval x min max :: re), pos, thisChar, lastChar, rest, found, stack⟩
    Yields (stepMatch getc isMultiline (.interval x min max) re c)
      (Step.All (fun _ => True) fun second d => d.Fits regexp (c.leftOut second levels)) := by
  intro c
  have enter : Fits regexp (.repeat' x pos min max 1 re found stack) [] [x] (0 :: levels) :=
    ⟨0, levels, rfl, tally_start x, fits.swap rfl fun ts => .inl⟩
  have skip (may : ¬(lesseq min max = true ∧ min > 0)) :
      Yields (do return c.leave re ((← emptyAlternative x).reverse ++ c.found) c.stack)
        (Call.Fits regexp levels) := by
    refine yields_bind (emptyAlternative_yields x) fun skipped same => yields_pure ?_
    subst same
    obtain ⟨n, outer, rfl⟩ := fits.level
    have skipped : Fits regexp stack ((placeholders x).reverse ++ found) re ((0 + n) :: outer) := by
      refine fits.find ?_ fun _ => ?_
      · rw [nodesAll_reverse]
        exact (placeholders_stand x).length_eq.symm
      · rw [List.reverse_reverse]
        exact .inr ⟨may, rfl⟩
    rwa [Nat.zero_add] at skipped
  have way (second : Bool) : c.leftOut second levels =
      if lesseq min max ∧ second = false then 0 :: levels else levels := rfl
  refine yields_if (fun le => yields_if (fun _ => yields_pure ?_) fun _ => yields_pure ?_) fun apart => ?_
  · change Call.Fits regexp (c.leftOut false levels) _
    rw [way, if_pos ⟨le, rfl⟩]
    exact enter
  · rename_i low
    change Call.Fits regexp (c.leftOut false levels) _ ∧
      Yields _ (Call.Fits regexp (c.leftOut true levels))
    rw [way, way, if_pos ⟨le, rfl⟩, if_neg (by simp)]
    exact ⟨enter, skip fun both => low both.2⟩
  · refine yields_bind (skip fun both => apart both.1) fun d fits => yields_pure ?_
    change Call.Fits regexp (c.leftOut false levels) _
    rw [way, if_neg fun both => apart both.1]
    exact fits

theorem Tally.merged {siblings : List (RegexMatchResult X)} {n : Nat} {outer : List Nat}
    (tally : Tally x found [] n) (fits : Fits regexp stack siblings (x :: re) outer) :
    Fits regexp stack (found ++ siblings) re (merge (n :: outer)) := by
  obtain ⟨n', outer, rfl⟩ := fits.level
  exact fits.find tally.whole.1 tally.whole.2

theorem pop_fits {pos : Nat} {thisChar lastChar : Buf X} {rest : X}
    (fits : Fits regexp stack found [] levels) :
    let c : Call X := ⟨none, pos, thisChar, lastChar, rest, found, stack⟩
    Yields (stepPop getc c)
      (Step.All (fun _ => True) fun second d => d.Fits regexp (c.leftOut second levels)) := by
  intro c
  cases stack with
  | group re start pos' siblings stack =>
    obtain ⟨n, outer, y, rfl, tally, fits⟩ := fits
    obtain ⟨n', outer, rfl⟩ := fits.level
    have grouped : Fits regexp stack ([.regexMatchResult (some ⟨start, pos - pos'⟩) found.reverse] ++
        siblings) re ((n + n') :: outer) := by
      refine fits.find ?_ fun zero => ⟨_, _, rfl, tally.whole.2 zero⟩
      have sum := tally.whole.1
      simp only [nodesAll, nodes, groupsOf, List.append_nil, List.length_cons, nodesAll_reverse]
      omega
    exact yields_pure grouped
  | assign v f re start pos' siblings stack =>
    obtain ⟨n, outer, y, rfl, tally, fits⟩ := fits
    refine yields_bind yields_any fun saved _ => yields_bind yields_any fun matched _ =>
      yields_bind yields_any fun _ _ => yields_pure ⟨tally.merged fits, ?_⟩
    exact yields_bind yields_any fun _ _ => yields_throw
  | guard predicate re start pos' siblings stack =>
    obtain ⟨n, outer, y, rfl, tally, fits⟩ := fits
    exact yields_bind yields_any fun matched _ =>
      yields_if (fun _ => yields_pure (tally.merged fits)) fun _ => yields_throw
  | concat re stack => exact yields_pure fits
  | repeat' foo pos' min max i re siblings stack =>
    obtain ⟨n, outer, rfl, tally, fits⟩ := fits
    have again : Fits regexp (.repeat' foo pos min max (i + 1) re siblings stack) [] [foo]
        (0 :: outer) := ⟨0, outer, rfl, tally_start foo, fits⟩
    have way (second : Bool) : c.leftOut second (n :: outer) =
        if i < min ∨ less i max ∧ second = false then 0 :: outer else merge (n :: outer) := rfl
    refine yields_if (fun _ => yields_throw) fun _ => yields_if (fun low => yields_pure ?_) fun high =>
      yields_if (fun more => yields_pure ?_) fun done => yields_pure ?_
    · change Call.Fits regexp (c.leftOut false _) _
      rw [way, if_pos (.inl low)]
      exact again
    · change Call.Fits regexp (c.leftOut false _) _ ∧ Yields _ (Call.Fits regexp (c.leftOut true _))
      rw [way, way, if_pos (.inr ⟨more, rfl⟩), if_neg (by simp [high])]
      exact ⟨again, yields_pure (tally.merged fits)⟩
    · change Call.Fits regexp (c.leftOut false _) _
      rw [way, if_neg (by simp [high, done])]
      exact tally.merged fits
  | return' => exact yields_pure trivial

theorem step_fits (fits : c.Fits regexp levels) :
    Yields (step getc isMultiline c)
      (Step.All (fun _ => True) fun second d => d.Fits regexp (c.leftOut second levels)) := by
  obtain ⟨todo, pos, thisChar, lastChar, rest, found, stack⟩ := c
  cases todo with
  | none => exact pop_fits fits
  | some re =>
    cases re with
    | nil => exact yields_pure fits
    | cons x re =>
      cases x with
      | char | matchSet | nonmatchSet =>
        cases thisChar with
        | some this =>
          exact yields_if (fun _ => yields_pure (fits.drop rfl rfl)) fun _ => yields_throw
        | none =>
          simp only [step, stepMatch, stepOne]
          cases getc rest with
          | none => exact yields_throw
          | some this => exact yields_pure fits
      | group x => exact yields_pure ⟨0, levels, x, rfl, tally_start x, fits⟩
      | alt es =>
        cases es with
        | nil => exact yields_throw
        | cons y ys =>
          cases ys with
          | nil => exact yields_pure (fits.alt false)
          | cons => exact yields_pure ⟨fits.alt false, yields_pure (fits.alt true)⟩
      | concat es => exact yields_pure fits.concat
      | star | option => exact yields_pure (fits.swap rfl fun ts => Or.imp_right And.right)
      | plus x =>
        refine yields_pure (fits.swap rfl fun ts numbers => ?_)
        exact numbers.elim id fun skipped => absurd ⟨rfl, by decide⟩ skipped.1
      | interval x min max => exact interval_fits getc isMultiline fits
      | begin | boundary =>
        exact yields_if (fun _ => yields_pure (fits.drop rfl rfl)) fun _ => yields_throw
      | end' =>
        have passed := fits.drop rfl rfl
        simp only [step, stepMatch]
        cases getc rest with
        | none => exact yields_pure passed
        | some next =>
          refine yields_if (fun _ => yields_if (fun _ => yields_pure passed) fun _ => ?_)
            fun _ => yields_throw
          cases getc next.2 with
          | none => exact yields_pure passed
          | some next' => exact yields_throw
      | assign v f x =>
        exact yields_pure ⟨0, levels, x, rfl, tally_start x, fits.swap rfl fun ts => id⟩
      | backRef f v =>
        refine yields_bind yields_any fun saved _ => ?_
        simp only
        split
        · exact yields_pure (fits.drop rfl rfl)
        · exact yields_throw
      | guard predicate x =>
        exact yields_pure ⟨0, levels, x, rfl, tally_start x, fits.swap rfl fun ts => id⟩

theorem Path.fits {calls : List (Call X × Bool)} {a : Success X}
    (path : Path getc isMultiline c calls a) (fetched : Fetched getc c) (fits : c.Fits regexp levels) :
    ∃ n, calls.foldl (fun levels call => call.1.leftOut call.2 levels) levels = [n] ∧
      Tally regexp a.matchesFound.reverse [] n := by
  induction path generalizing levels with
  | @give c _ _ _ stepped =>
    obtain ⟨todo, top, rfl⟩ := step_moves fetched _ _ _ stepped
    unfold Call.Fits at fits
    rw [todo, top] at fits
    obtain ⟨n, rfl, tally⟩ := fits
    refine ⟨n, ?_, by rwa [List.reverse_reverse]⟩
    change c.leftOut false [n] = [n]
    unfold Call.leftOut
    rw [todo, top]
  | next stepped goes _ ih =>
    have fetched := ((step_moves fetched _ _ _ stepped).goes goes).2
    exact ih fetched ((step_fits fits _ _ _ stepped).goes goes)

end Steps

mutual

theorem walkTo_eq (m : Matcher.Result) (n : Nat) : Matcher.walkTo n m =
    match (nodes m)[n]? with
    | some t => .ok t.root
    | none => .error ((n : Int) - (nodes m).length) := by
  cases m with
  | regexMatchResult root children =>
    rw [Matcher.walkTo, nodes]
    cases n with
    | zero => rfl
    | succ n =>
      have next : ((n + 1 : Nat) : Int) - 1 = n := by omega
      rw [if_neg (by omega), next, walkListTo_eq children n, List.getElem?_cons_succ,
        List.length_cons]
      cases (nodesAll children)[n]? with
      | some t => rfl
      | none => simp

theorem walkListTo_eq (ts : List Matcher.Result) (n : Nat) : Matcher.walkListTo n ts =
    match (nodesAll ts)[n]? with
    | some t => .ok t.root
    | none => .error ((n : Int) - (nodesAll ts).length) := by
  cases ts with
  | nil => simp [Matcher.walkListTo, nodesAll]
  | cons t ts =>
    rw [Matcher.walkListTo, nodesAll, walkTo_eq t n]
    by_cases here : n < (nodes t).length
    · rw [List.getElem?_append_left here, List.getElem?_eq_getElem here]
    · have skipped : (n : Int) - (nodes t).length = (n - (nodes t).length : Nat) := by omega
      rw [List.getElem?_append_right (by omega), List.getElem?_eq_none (by omega)]
      simp only [skipped, walkListTo_eq ts]
      cases (nodesAll ts)[n - (nodes t).length]? with
      | some t' => rfl
      | none =>
        simp only [List.length_append]
        congr 1
        omega

end

def Numbered (regexp : AbstractRegularExpression) (m : RegexMatchResult X) : Prop :=
  ∃ root children, m = .regexMatchResult root children ∧ Numbers regexp children

/-- The groups of a match are numbered as in the expression exactly when no group has been left out
in an alternative, but for turns of a loop that another turn followed. Then `nth` finds the groups
by their numbers. -/
theorem numbered_iff {getc : Getc X} {re : CompiledRegularExpression} {fuel pos : Nat}
    {stream rest : X} {last : Buf X} {m : RegexMatchResult X} {references references' : Array String}
    (scanned : outcome (scan getc fuel re pos stream last) references
      = (.ok (some (m, rest)), references')) :
    (Numbered re.regexp m ↔ leftOut (winning getc fuel re pos stream last references) = [0]) ∧
    ∀ m : Matcher.Result, Numbered re.regexp m → ∃ ts, List.Forall₂ Stands (groupsOf re.regexp) ts ∧
      ∀ i : Nat, Matcher.nth m (i + 1) = match ts[i]? with
        | some t => .ok t.root
        | none => .error .subscript := by
  constructor
  · obtain ⟨a, path, rfl, -⟩ := scan_path scanned
    have start : (Call.start re.regexp pos stream last).Fits re.regexp [0] :=
      ⟨0, rfl, tally_start re.regexp⟩
    obtain ⟨n, left, tally⟩ := path.fits (.inl rfl) start
    obtain ⟨count, numbers⟩ := tally.whole
    unfold leftOut
    rw [left]
    constructor
    · intro numbered
      obtain ⟨root, children, same, numbered⟩ := numbered
      cases same
      have all := (numbers_stand re.regexp numbered).length_eq
      rw [nodesAll_reverse] at count
      rw [show n = 0 by omega]
    · intro none
      cases none
      exact ⟨_, _, rfl, List.reverse_reverse a.matchesFound ▸ numbers rfl⟩
  · intro m numbered
    obtain ⟨root, children, rfl, numbers⟩ := numbered
    refine ⟨nodesAll children, numbers_stand re.regexp numbers, fun i => ?_⟩
    have walked := walkTo_eq (.regexMatchResult root children) (i + 1)
    rw [nodes, List.getElem?_cons_succ] at walked
    unfold Matcher.nth
    rw [Nat.cast_succ] at walked
    rw [walked]
    cases (nodesAll children)[i]? <;> rfl

theorem optional_group_numbered : Numbered (.concat [.option (.group (.char 'a')), .char 'b'])
      (.regexMatchResult (some ⟨0, 1⟩) [.regexMatchResult none []] : Matcher.Result) := by
  have scanned : outcome (scan (ofString ['b']) 9 (compile (.concat
      [.option (.group (.char 'a')), .char 'b'])) 0 0 none) #[] =
      (.ok (some (.regexMatchResult (some ⟨0, 1⟩) [.regexMatchResult none []], 1)), #[]) := rfl
  exact (numbered_iff scanned).1.mpr rfl

theorem alternative_unnumbered :
    (outcome (scan (ofString ['b']) 9 (compile (.alt [.group (.char 'a'), .group (.char 'b')])) 0 0
      none) #[]).1 =
      .ok (some (.regexMatchResult (some ⟨0, 1⟩) [.regexMatchResult (some ⟨0, 1⟩) []], 1)) ∧
    ¬Numbered (.alt [.group (.char 'a'), .group (.char 'b')])
      (.regexMatchResult (some ⟨0, 1⟩) [.regexMatchResult (some ⟨0, 1⟩) []] : Matcher.Result) := by
  refine ⟨rfl, ?_⟩
  intro numbered
  obtain ⟨root, children, same, numbers⟩ := numbered
  cases same
  cases (numbers_stand _ numbers).length_eq

end Mythryl.Regex.PerlEngine
