import Mythryl.Regex.PerlFind

/-!
# Matching throughout a text

`regular_expression_matcher_g` over the Perl engine.
-/

namespace Mythryl.Regex.Matcher
open PerlEngine Reader

inductive Raised
  | engine (e : PerlEngine.Raised)
  | subscript | notFound
  deriving DecidableEq, Repr

abbrev Result := RegexMatchResult Nat

def substring (text : List Char) (i n : Int) : Except Raised (List Char) :=
  if i < 0 ∨ n < 0 ∨ text.length < i + n then
    throw .subscript
  else
    return (text.drop i.toNat).take n.toNat

def extract (text : List Char) (base : Int) : Except Raised (List Char) :=
  if base = 0 then
    return text
  else if base < 0 ∨ text.length < base then
    throw .subscript
  else
    return text.drop base.toNat

mutual

def walkTo (n : Int) : Result → Except Int (Option (MatchedRange Nat))
  | .regexMatchResult root children =>
      if n = 0 then .ok root else walkListTo (n - 1) children

def walkListTo (n : Int) : List Result → Except Int (Option (MatchedRange Nat))
  | [] => .error n
  | m :: r =>
      match walkTo n m with
      | .error n' => walkListTo n' r
      | .ok range => .ok range

end

def nth (m : Result) (n : Int) : Except Raised (Option (MatchedRange Nat)) :=
  match walkTo n m with
  | .ok range => .ok range
  | .error _ => .error .subscript

mutual

def walk (text : List Char) : Result → Except Raised (List (List Char))
  | .regexMatchResult (some range) children => do
      let s ← substring text range.matchPosition range.matchLength
      let rest ← getArgs text children
      return s :: rest
  | .regexMatchResult none children => do
      let rest ← getArgs text children
      return [] :: rest

def getArgs (text : List Char) : List Result → Except Raised (List (List Char))
  | [] => return []
  | m :: children => do
      let first ← walk text m
      let rest ← getArgs text children
      return first ++ rest

end

section Loops

variable (fuel : Nat) (regex : CompiledRegularExpression) (text : List Char)

def look (s : Nat) : Except Raised (Scanned Nat) :=
  match find (ofString text) fuel regex s with
  | .ok r => .ok r
  | .error e => .error (.engine e)

def findAllOfIthGroupLoop (g : Int) : Nat → Nat → Except Raised (List (List Char))
  | 0, _ => throw (.engine .unfinished)
  | steps + 1, s => do
      match ← look fuel regex text s with
      | some (m, s) =>
          match ← nth m g with
          | some range => do
              let value ← substring text range.matchPosition range.matchLength
              let rest ← findAllOfIthGroupLoop g steps s
              return value :: rest
          | none => findAllOfIthGroupLoop g steps s
      | none => return []

def findAllMatchesToRegexAndReturnValuesOfIthGroup (g : Int) : Except Raised (List (List Char)) :=
  findAllOfIthGroupLoop fuel regex text g fuel 0

def findAllMatchesToRegex : Except Raised (List (List Char)) :=
  findAllMatchesToRegexAndReturnValuesOfIthGroup fuel regex text 0

def findAllOfAllGroupsLoop : Nat → Nat → Except Raised (List (List (List Char)))
  | 0, _ => throw (.engine .unfinished)
  | steps + 1, s => do
      match ← look fuel regex text s with
      | some (.regexMatchResult _ children, s) => do
          let args ← getArgs text children
          let rest ← findAllOfAllGroupsLoop steps s
          return args :: rest
      | none => return []

def findAllMatchesToRegexAndReturnAllValuesOfAllGroups :
    Except Raised (List (List (List Char))) :=
  findAllOfAllGroupsLoop fuel regex text fuel 0

def replaceAllLoop (f : List (List Char) → List Char) :
    Nat → Nat → Except Raised (List (List Char))
  | 0, _ => throw (.engine .unfinished)
  | steps + 1, s => do
      match ← look fuel regex text s with
      | none =>
          if s = 0 then
            return [text]
          else
            let rest ← extract text s
            return [rest]
      | some (.regexMatchResult (some range) children, s') => do
          let before ← substring text s (range.matchPosition - s)
          let args ← getArgs text children
          let rest ← replaceAllLoop f steps s'
          return before :: f args :: rest
      | some (.regexMatchResult none _, _) => throw .notFound

def replaceAllViaFn (f : List (List Char) → List Char) : Except Raised (List Char) :=
  match replaceAllLoop fuel regex text f fuel 0 with
  | .ok pieces => .ok pieces.flatten
  | .error .notFound => .ok text
  | .error e => .error e

end Loops

def piece (text : List Char) (range : Option (MatchedRange Nat)) : List Char :=
  match range with
  | some range => (text.drop range.matchPosition).take range.matchLength
  | none => []

mutual

def pieces (text : List Char) : Result → List (List Char)
  | .regexMatchResult root children => piece text root :: groups text children

def groups (text : List Char) : List Result → List (List Char)
  | [] => []
  | m :: children => pieces text m ++ groups text children

end

def children : Result → List Result
  | .regexMatchResult _ children => children

def start (m : Result) : Nat := (m.root.map MatchedRange.matchPosition).getD 0

def end' (m : Result) : Nat :=
  (m.root.map fun range => range.matchPosition + range.matchLength).getD 0

def resume (m : Result) : Nat := if end' m = start m then start m + 1 else end' m

section Spec

variable (regex : CompiledRegularExpression) (text : List Char)

def NextMatch (a : Nat) (r : Scanned Nat) : Prop :=
  FirstAmong (ofString text) regex 0 (a ≤ ·) r

inductive Successive : Nat → List Result → Prop
  | done {a : Nat} (next : NextMatch regex text a none) : Successive a []
  | more {a : Nat} {m : Result} {rest : Nat} {ms : List Result}
      (next : NextMatch regex text a (some (m, rest))) (later : Successive (resume m) ms) :
      Successive a (m :: ms)

inductive Uses : Nat → List (Result × Nat) → Prop
  | done {s : Nat} (returns : Returns (ofString text) regex s none) : Uses s []
  | more {s s' : Nat} {m : Result} {used : List (Result × Nat)}
      (returns : Returns (ofString text) regex s (some (m, s'))) (later : Uses s' used) :
      Uses s ((m, s') :: used)

def replaced (f : List (List Char) → List Char) : Nat → List Result → List Char
  | s, [] => text.drop s
  | s, m :: ms =>
      (text.drop s).take (start m - s) ++ f (groups text (children m)) ++ replaced f (end' m) ms

def Correct : Prop :=
  ∃ used, Uses regex text 0 used ∧ Successive regex text 0 (used.map Prod.fst) ∧
    (∃ fuel, findAllMatchesToRegex fuel regex text
      = .ok (used.map fun (m, _) => piece text m.root)) ∧
    (∃ fuel, findAllMatchesToRegexAndReturnAllValuesOfAllGroups fuel regex text
      = .ok (used.map fun (m, _) => groups text (children m))) ∧
    ∀ f, ∃ fuel, replaceAllViaFn fuel regex text f
      = .ok (replaced text f 0 (used.map Prod.fst))

inductive Restart : Nat → Nat → Prop
  | start : Restart 0 0
  | next {s a rest : Nat} {m : Result} (restart : Restart s a)
      (next : NextMatch regex text a (some (m, rest))) : Restart (end' m) (resume m)

end Spec

section Text

variable {text : List Char} {s s' k p : Nat} {last : Buf Nat}

theorem ofString_some {c : Char} (got : ofString text s = some (c, s')) :
    s' = s + 1 ∧ s < text.length := by
  unfold ofString at got
  obtain ⟨c', here, equal⟩ := Option.map_eq_some_iff.mp got
  cases equal
  exact ⟨rfl, (List.getElem?_eq_some_iff.mp here).1⟩

theorem reads_length {w : List Char} (reads : Reads (ofString text) w s s') :
    s' = s + w.length ∧ (s ≤ text.length → s' ≤ text.length) := by
  induction w generalizing s with
  | nil =>
    cases reads
    exact ⟨rfl, id⟩
  | cons c w ih =>
    obtain ⟨m, got, rest⟩ := reads
    obtain ⟨rfl, inside⟩ := ofString_some got
    obtain ⟨equal, bound⟩ := ih rest
    rw [List.length_cons]
    exact ⟨by omega, fun _ => bound inside⟩

theorem after_ofString (here : after (ofString text) s k = some (p, last)) :
    p = s + k ∧ (s ≤ text.length → p ≤ text.length) := by
  induction k generalizing p last with
  | zero =>
    cases here
    exact ⟨rfl, id⟩
  | succ k ih =>
    rw [after] at here
    cases before : after (ofString text) s k with
    | none =>
      rw [before] at here
      cases here
    | some pair =>
      rw [before] at here
      obtain ⟨⟨c, s'⟩, got, equal⟩ := Option.map_eq_some_iff.mp here
      cases equal
      obtain ⟨equal, -⟩ := ih before
      obtain ⟨equal', inside⟩ := ofString_some got
      exact ⟨by omega, fun _ => by omega⟩

theorem substring_of_le {i n : Nat} (inside : i + n ≤ text.length) :
    substring text i n = .ok ((text.drop i).take n) := by
  unfold substring
  rw [if_neg (by omega)]
  rfl

theorem range_inside {range : MatchedRange Nat} (inRange : InRange (ofString text) s range)
    (inside : s ≤ text.length) : range.matchPosition + range.matchLength ≤ text.length := by
  obtain ⟨⟨w, before⟩, w', rest, reads, le⟩ := inRange
  have start := (reads_length before).2 inside
  obtain ⟨equal, bound⟩ := reads_length reads
  omega

mutual

theorem walk_ok {m : Result} (ok : TreeOk (ofString text) s m) (inside : s ≤ text.length) :
    walk text m = .ok (pieces text m) := by
  obtain ⟨root, children⟩ := m
  obtain ⟨rootOk, childrenOk⟩ := ok
  have rest := getArgs_ok childrenOk inside
  cases root with
  | none =>
    rw [walk, rest]
    rfl
  | some range =>
    rw [walk, substring_of_le (range_inside (rootOk range rfl) inside), rest]
    rfl

theorem getArgs_ok {children : List Result} (ok : TreesOk (ofString text) s children)
    (inside : s ≤ text.length) : getArgs text children = .ok (groups text children) := by
  cases children with
  | nil => rfl
  | cons m children =>
    rw [getArgs, walk_ok ok.1 inside, getArgs_ok ok.2 inside]
    rfl

end

end Text

section Finds

variable {regexp : AbstractRegularExpression} {isMultiline : Bool}
  {regex : CompiledRegularExpression} {text : List Char} {s s' a : Nat} {m : Result}
  {r r' : Scanned Nat}

structure Found (text : List Char) (s : Nat) (m : Result) (s' : Nat) : Prop where
  root : m.root = some ⟨start m, end' m - start m⟩
  begins : s ≤ start m
  ordered : start m ≤ end' m
  ends : end' m ≤ s'
  inside : s' ≤ text.length
  args : getArgs text (children m) = .ok (groups text (children m))

theorem scanAt_found {p : Nat} (scanned : ScanAt (ofString text) regex s p (some (m, s')))
    (inside : s ≤ text.length) : Found text s m s' ∧ start m = s + p := by
  obtain ⟨s'', last, fuel, here, run⟩ := scanned
  obtain ⟨rfl, bound⟩ := after_ofString here
  obtain ⟨ok, w, length, reads, root, le⟩ := scan_good (Prod.ext run rfl)
  obtain ⟨equal, bound'⟩ := reads_length reads
  obtain ⟨root', children'⟩ := m
  cases root
  have begins : start (.regexMatchResult (some ⟨s + p, length⟩) children') = s + p := rfl
  have ends : end' (.regexMatchResult (some ⟨s + p, length⟩) children') = s + p + length := rfl
  refine ⟨⟨?_, ?_, ?_, ?_, bound' (bound inside), getArgs_ok ok.2 (bound inside)⟩, rfl⟩
  · rw [begins, ends, Nat.add_sub_cancel_left]
    rfl
  · omega
  · omega
  · omega

theorem firstAmong_found {T : Nat → Prop}
    (first : FirstAmong (ofString text) regex s T (some (m, s'))) (inside : s ≤ text.length) :
    Found text s m s' ∧ ∃ p, T p ∧ start m = s + p := by
  rcases first with ⟨p, tried, scanned, -, -⟩ | ⟨none, -⟩
  · obtain ⟨found, begins⟩ := scanAt_found scanned inside
    exact ⟨found, p, tried, begins⟩
  · cases none

theorem NextMatch.found {rest : Nat} (next : NextMatch regex text a (some (m, rest))) :
    a ≤ start m ∧ start m ≤ end' m ∧ end' m ≤ text.length ∧ a < resume m := by
  obtain ⟨found, p, le, begins⟩ := firstAmong_found next (Nat.zero_le _)
  have ordered := found.ordered
  have ends := found.ends
  have inside := found.inside
  unfold resume
  split
  · refine ⟨?_, ?_, ?_, ?_⟩ <;> omega
  · refine ⟨?_, ?_, ?_, ?_⟩ <;> omega

end Finds

section Uses

variable {regexp : AbstractRegularExpression} {isMultiline : Bool}
  {regex : CompiledRegularExpression} {text : List Char} {s : Nat} {used : List (Result × Nat)}
  {fuel steps : Nat}

variable {s' : Nat}

theorem Found.substring {range : MatchedRange Nat} {children : List Result}
    (found : Found text s (.regexMatchResult (some range) children) s') :
    substring text range.matchPosition range.matchLength = .ok (piece text (some range)) :=
  substring_of_le (found.ends.trans found.inside)

theorem Found.before {range : MatchedRange Nat} {children : List Result}
    (found : Found text s (.regexMatchResult (some range) children) s') :
    Matcher.substring text s ((range.matchPosition : Int) - s)
      = .ok ((text.drop s).take (range.matchPosition - s)) := by
  have begins : s ≤ range.matchPosition := found.begins
  have ordered : range.matchPosition ≤ text.length :=
    found.ordered.trans (found.ends.trans found.inside)
  rw [← Nat.cast_sub begins]
  exact substring_of_le (by omega)

def copied (text : List Char) (f : List (List Char) → List Char) :
    Nat → List (Result × Nat) → List Char
  | s, [] => text.drop s
  | s, (m, s') :: used =>
      (text.drop s).take (start m - s) ++ f (groups text (children m)) ++ copied text f s' used

def left (used : List (Result × Nat)) : Nat := (used.map fun (m, s') => s' - end' m).sum

end Uses

section Correct

variable {regexp : AbstractRegularExpression} {isMultiline : Bool}
  {regex : CompiledRegularExpression} {text : List Char} {s a fuel : Nat}
  {used : List (Result × Nat)}

theorem Restart.inside (restart : Restart regex text s a) : s ≤ text.length := by
  cases restart with
  | start => exact Nat.zero_le _
  | next _ next => exact next.found.2.2.1

end Correct

end Mythryl.Regex.Matcher
