import Mythryl.RedBlack.Set
import Mythryl.BacktrackingSearch
import Mythryl.Reader
import Mathlib.Computability.Language

/-! # Abstract regular expressions -/

namespace Mythryl.Regex
open RedBlackSet

abbrev CharSet := TreeSet Char

inductive AbstractRegularExpression
  | group (e : AbstractRegularExpression)
  | alt (es : List AbstractRegularExpression)
  | concat (es : List AbstractRegularExpression)
  | interval (e : AbstractRegularExpression) (min : Int) (max : Option Int)
  | matchSet (set : CharSet)
  | nonmatchSet (set : CharSet)
  | char (c : Char)
  | option (e : AbstractRegularExpression)
  | star (e : AbstractRegularExpression)
  | plus (e : AbstractRegularExpression)
  | begin
  | end'
  | assign (v : Int) (f : String → String) (e : AbstractRegularExpression)
  | backRef (f : String → String) (v : Int)
  | guard (predicate : String → Bool) (e : AbstractRegularExpression)
  | boundary (ok : Option Char → Option Char → Option Char → Bool)

def lesseq (i : Int) : Option Int → Bool
  | none => true
  | some max => i ≤ max

def less (i : Int) : Option Int → Bool
  | none => true
  | some max => i < max

theorem lesseq_iff {i : Int} {max : Option Int} : lesseq i max = true ↔ ∀ b ∈ max, i ≤ b := by
  cases max <;> simp [lesseq]

theorem less_iff {i : Int} {max : Option Int} : less i max = true ↔ ∀ b ∈ max, i < b := by
  cases max <;> simp [less]

namespace AbstractRegularExpression

inductive Regular : AbstractRegularExpression → Prop
  | group {e} (part : Regular e) : Regular (.group e)
  | alt {es} (parts : ∀ e ∈ es, Regular e) : Regular (.alt es)
  | concat {es} (parts : ∀ e ∈ es, Regular e) : Regular (.concat es)
  | interval {e min max} (part : Regular e) (bounds : lesseq min max = true) :
      Regular (.interval e min max)
  | matchSet (set : CharSet) : Regular (.matchSet set)
  | nonmatchSet (set : CharSet) : Regular (.nonmatchSet set)
  | char (c : Char) : Regular (.char c)
  | option {e} (part : Regular e) : Regular (.option e)
  | star {e} (part : Regular e) : Regular (.star e)
  | plus {e} (part : Regular e) : Regular (.plus e)

inductive Part (x : AbstractRegularExpression) : AbstractRegularExpression → Prop
  | whole : Part x x
  | group {e} (part : Part x e) : Part x (.group e)
  | alt {e es} (mem : e ∈ es) (part : Part x e) : Part x (.alt es)
  | concat {e es} (mem : e ∈ es) (part : Part x e) : Part x (.concat es)
  | interval {e min max} (part : Part x e) : Part x (.interval e min max)
  | option {e} (part : Part x e) : Part x (.option e)
  | star {e} (part : Part x e) : Part x (.star e)
  | plus {e} (part : Part x e) : Part x (.plus e)
  | assign {v f e} (part : Part x e) : Part x (.assign v f e)
  | guard {predicate e} (part : Part x e) : Part x (.guard predicate e)

theorem Part.trans {x y e : AbstractRegularExpression} (inner : Part x y) (outer : Part y e) :
    Part x e := by
  induction outer with
  | whole => exact inner
  | group _ ih => exact .group ih
  | alt mem _ ih => exact .alt mem ih
  | concat mem _ ih => exact .concat mem ih
  | interval _ ih => exact .interval ih
  | option _ ih => exact .option ih
  | star _ ih => exact .star ih
  | plus _ ih => exact .plus ih
  | assign _ ih => exact .assign ih
  | guard _ ih => exact .guard ih

theorem Regular.part {x e : AbstractRegularExpression} (regular : Regular e) (part : Part x e) :
    Regular x := by
  induction part with
  | whole => exact regular
  | group _ ih | option _ ih | star _ ih | plus _ ih =>
    cases regular with
    | _ inner => exact ih inner
  | alt mem _ ih | concat mem _ ih =>
    cases regular with
    | _ inner => exact ih (inner _ mem)
  | interval _ ih =>
    cases regular with
    | interval inner => exact ih inner
  | assign _ _ | guard _ _ => cases regular

def repeats (L : Language Char) (min : Int) (max : Option Int) : Language Char :=
  {w | ∃ k : Nat, min ≤ k ∧ lesseq k max = true ∧ w ∈ L ^ k}

mutual

/-- The words that a regular expression describes; anchors and extensions describe none. -/
def language : AbstractRegularExpression → Language Char
  | .group e => language e
  | .alt es => languageAlt es
  | .concat es => languageConcat es
  | .interval e min max => repeats (language e) min max
  | .matchSet set => {w | ∃ c, set.member c = true ∧ w = [c]}
  | .nonmatchSet set => {w | ∃ c, set.member c = false ∧ w = [c]}
  | .char c => {[c]}
  | .option e => 1 + language e
  | .star e => KStar.kstar (language e)
  | .plus e => language e * KStar.kstar (language e)
  | _ => 0

def languageAlt : List AbstractRegularExpression → Language Char
  | [] => 0
  | e :: es => language e + languageAlt es

def languageConcat : List AbstractRegularExpression → Language Char
  | [] => 1
  | e :: es => language e * languageConcat es

end

section Language

variable {e : AbstractRegularExpression} {es : List AbstractRegularExpression}

end Language

end AbstractRegularExpression

end Mythryl.Regex

/-!
# The Perl regular expression engine

`perl_regex_engine_g`: a backtracking matcher in fate-passing style.
-/

namespace Mythryl.Regex.PerlEngine
open AbstractRegularExpression Reader RaisingState BacktrackingSearch

inductive Raised
  | backtrack | bug | indexOutOfBounds | unfinished
  deriving DecidableEq, Repr

abbrev Search := Raising Raised (Array String)

structure MatchedRange (X : Type) where
  matchPosition : X
  matchLength : Nat
  deriving DecidableEq, Repr

inductive RegexMatchResult (X : Type)
  | regexMatchResult (root : Option (MatchedRange X)) (children : List (RegexMatchResult X))

def RegexMatchResult.root {X : Type} : RegexMatchResult X → Option (MatchedRange X)
  | .regexMatchResult root _ => root

structure CompiledRegularExpression where
  backrefVarCount : Nat
  references : Array String
  regexp : AbstractRegularExpression
  multiline : Bool
  beginOnly : Bool

def trackMaxBackref (v : Int) : StateM Int Unit := modify fun n => if n < v then v else n

mutual

def analyseRegex : AbstractRegularExpression → StateM Int (Bool × Bool)
  | .char _ => return (false, false)
  | .matchSet _ => return (false, false)
  | .nonmatchSet _ => return (false, false)
  | .plus re => analyseRegex re
  | .star re => analyseRegex re
  | .option re => analyseRegex re
  | .group re => analyseRegex re
  | .guard _ re => analyseRegex re
  | .begin => return (true, true)
  | .end' => return (false, true)
  | .concat es => analyseConcat es
  | .alt es => analyseAlt es
  | .interval _ _ (some 0) => return (false, true)
  | .interval re _ _ => analyseRegex re
  | .assign v _ re => do
      trackMaxBackref v
      analyseRegex re
  | .backRef _ v => do
      trackMaxBackref v
      return (false, false)
  | .boundary _ => return (false, true)

def analyseConcat : List AbstractRegularExpression → StateM Int (Bool × Bool)
  | [] => return (false, true)
  | e :: es => do
      let (beginOnly, isEmpty) ← analyseRegex e
      let (beginOnly', isEmpty') ← analyseConcat es
      return (beginOnly || isEmpty && beginOnly', isEmpty && isEmpty')

def analyseAlt : List AbstractRegularExpression → StateM Int (Bool × Bool)
  | [] => return (false, false)
  | [e] => analyseRegex e
  | e :: es => do
      let (beginOnly, isEmpty) ← analyseRegex e
      let (beginOnly', isEmpty') ← analyseAlt es
      return (beginOnly && beginOnly', isEmpty && isEmpty')

end

def collectInfo (re : AbstractRegularExpression) : Bool × Bool × Int :=
  let ((beginOnly, isEmpty), n) := (analyseRegex re).run (-1)
  (beginOnly, isEmpty, n + 1)

def compile (regexp : AbstractRegularExpression) : CompiledRegularExpression :=
  let (beginOnly, _, backrefVarCount) := collectInfo regexp
  { backrefVarCount := backrefVarCount.toNat
    references := #[]
    regexp
    multiline := false
    beginOnly }

def multiline (regexp : CompiledRegularExpression) : CompiledRegularExpression :=
  { regexp with multiline := true }

variable {X : Type}

def getNChars (getc : Getc X) : Nat → X → Search (List Char)
  | 0, _ => return []
  | n + 1, s =>
      match getc s with
      | some (c, s) => do
          let rest ← getNChars getc n s
          return c :: rest
      | none => throw .bug

def getBackref (v : Int) : Search String := do
  let references ← get
  if v < 0 then
    throw .indexOutOfBounds
  else
    match references[v.toNat]? with
    | some s => return s
    | none => throw .indexOutOfBounds

def setBackref (v : Int) (s : String) : Search Unit := do
  let references ← get
  if v < 0 ∨ references.size ≤ v.toNat then
    throw .indexOutOfBounds
  else
    set (references.setIfInBounds v.toNat s)

def atStart (multiline : Bool) (pos : Nat) (last : Option (Char × X)) : Bool :=
  match pos, last with
  | 0, _ => true
  | _, none => true
  | _, some ('\n', _) => multiline
  | _, _ => false

mutual

def emptyAlternative : AbstractRegularExpression → Search (List (RegexMatchResult X))
  | .group e => do
      let children ← emptyAlternative e
      return [.regexMatchResult none children]
  | .alt l => emptyAlternatives l
  | .concat l => emptyAlternatives l
  | .interval e _ _ => emptyAlternative e
  | .option e => emptyAlternative e
  | .star e => emptyAlternative e
  | .plus e => emptyAlternative e
  | .assign v _ e => do
      setBackref v ""
      emptyAlternative e
  | .guard _ e => emptyAlternative e
  | _ => return []

def emptyAlternatives : List AbstractRegularExpression → Search (List (RegexMatchResult X))
  | [] => return []
  | e :: l => do
      let first ← emptyAlternative e
      let rest ← emptyAlternatives l
      return first ++ rest

end

abbrev Buf (X : Type) := Option (Char × X)

inductive ReturnStack (X : Type)
  | group (re : List AbstractRegularExpression) (start : X) (pos : Nat)
      (siblings : List (RegexMatchResult X)) (stack : ReturnStack X)
  | assign (v : Int) (f : String → String) (re : List AbstractRegularExpression) (start : X)
      (pos : Nat) (matchesFound : List (RegexMatchResult X)) (stack : ReturnStack X)
  | guard (predicate : String → Bool) (re : List AbstractRegularExpression) (start : X)
      (pos : Nat) (matchesFound : List (RegexMatchResult X)) (stack : ReturnStack X)
  | concat (re : List AbstractRegularExpression) (stack : ReturnStack X)
  | repeat' (foo : AbstractRegularExpression) (pos : Nat) (min : Int) (max : Option Int) (i : Int)
      (re : List AbstractRegularExpression) (matchesFound : List (RegexMatchResult X))
      (stack : ReturnStack X)
  | return'

structure Success (X : Type) where
  pos : Nat
  thisChar : Buf X
  lastChar : Buf X
  restOfString : X
  matchesFound : List (RegexMatchResult X)

def matchBackref (getc : Getc X) : List Char → Buf X → X → Option (Buf X × X)
  | [], lastChar, restOfString => some (lastChar, restOfString)
  | c :: text, _, restOfString =>
      match getc restOfString with
      | some (c', restOfString') =>
          if c' = c then matchBackref getc text (some (c', restOfString')) restOfString' else none
      | none => none

def lookAhead (getc : Getc X) (restOfString : X) : Option Char × Option Char :=
  match getc restOfString with
  | none => (none, none)
  | some (c, restOfString') =>
      match getc restOfString' with
      | none => (some c, none)
      | some (c', _) => (some c, some c')

def exceptBacktrack {α : Type} (first second : Search α) : Search α := orElse .backtrack first second

variable (getc : Getc X) (isMultiline : Bool)

mutual

def matchRegex : Nat → List AbstractRegularExpression → Nat → Buf X → Buf X → X →
    List (RegexMatchResult X) → ReturnStack X → Search (Success X)
  | 0, _, _, _, _, _, _, _ => throw .unfinished
  | fuel + 1, [], pos, thisChar, lastChar, restOfString, matchesFound, stack =>
      popStackAndContinue fuel pos thisChar lastChar restOfString matchesFound stack
  | fuel + 1, .char c :: re, pos, some (c', restOfString'), _, _, matchesFound, stack =>
      if c = c' then
        matchRegex fuel re (pos + 1) none (some (c', restOfString')) restOfString' matchesFound stack
      else
        throw .backtrack
  | fuel + 1, .matchSet set :: re, pos, some (c', restOfString'), _, _, matchesFound, stack =>
      if set.member c' then
        matchRegex fuel re (pos + 1) none (some (c', restOfString')) restOfString' matchesFound stack
      else
        throw .backtrack
  | fuel + 1, .nonmatchSet set :: re, pos, some (c', restOfString'), _, _, matchesFound, stack =>
      if !set.member c' then
        matchRegex fuel re (pos + 1) none (some (c', restOfString')) restOfString' matchesFound stack
      else
        throw .backtrack
  | fuel + 1, .group x :: re, pos, thisChar, lastChar, restOfString, matchesFound, stack =>
      matchRegex fuel [x] pos thisChar lastChar restOfString []
        (.group re restOfString pos matchesFound stack)
  | _ + 1, .alt [] :: _, _, _, _, _, _, _ => throw .backtrack
  | fuel + 1, .alt [x] :: re, pos, thisChar, lastChar, restOfString, matchesFound, stack =>
      matchRegex fuel (x :: re) pos thisChar lastChar restOfString matchesFound stack
  | fuel + 1, .alt (x :: xs) :: re, pos, thisChar, lastChar, restOfString, matchesFound, stack =>
      exceptBacktrack
        (matchRegex fuel (x :: re) pos thisChar lastChar restOfString matchesFound stack)
        (matchRegex fuel (.alt xs :: re) pos thisChar lastChar restOfString matchesFound stack)
  | fuel + 1, .concat x :: re, pos, thisChar, lastChar, restOfString, matchesFound, stack =>
      matchRegex fuel x pos thisChar lastChar restOfString matchesFound (.concat re stack)
  | fuel + 1, .star x :: re, pos, thisChar, lastChar, restOfString, matchesFound, stack =>
      matchRegex fuel (.interval x 0 none :: re) pos thisChar lastChar restOfString matchesFound stack
  | fuel + 1, .plus x :: re, pos, thisChar, lastChar, restOfString, matchesFound, stack =>
      matchRegex fuel (.interval x 1 none :: re) pos thisChar lastChar restOfString matchesFound stack
  | fuel + 1, .option x :: re, pos, thisChar, lastChar, restOfString, matchesFound, stack =>
      matchRegex fuel (.interval x 0 (some 1) :: re) pos thisChar lastChar restOfString matchesFound
        stack
  | fuel + 1, .interval x min max :: re, pos, thisChar, lastChar, restOfString, matchesFound,
      stack =>
      let emptyMatch : Search (Success X) := do
        let skipped ← emptyAlternative x
        matchRegex fuel re pos thisChar lastChar restOfString (skipped.reverse ++ matchesFound) stack
      let tryAtLeastOne : Search (Success X) :=
        matchRegex fuel [x] pos thisChar lastChar restOfString []
          (.repeat' x pos min max 1 re matchesFound stack)
      if lesseq min max then
        if min > 0 then
          tryAtLeastOne
        else
          exceptBacktrack tryAtLeastOne emptyMatch
      else
        emptyMatch
  | fuel + 1, .begin :: re, pos, thisChar, lastChar, restOfString, matchesFound, stack =>
      if atStart isMultiline pos lastChar then
        matchRegex fuel re pos thisChar lastChar restOfString matchesFound stack
      else
        throw .backtrack
  | fuel + 1, .end' :: re, pos, thisChar, lastChar, restOfString, matchesFound, stack =>
      match getc restOfString with
      | none => matchRegex fuel re pos thisChar lastChar restOfString matchesFound stack
      | some (c', restOfString') =>
          if c' = '\n' then
            if isMultiline then
              matchRegex fuel re (pos + 1) none (some (c', restOfString')) restOfString' matchesFound
                stack
            else
              match getc restOfString' with
              | none => matchRegex fuel re pos thisChar lastChar restOfString' matchesFound stack
              | some _ => throw .backtrack
          else
            throw .backtrack
  | fuel + 1, .assign v f x :: re, pos, thisChar, lastChar, restOfString, matchesFound, stack =>
      matchRegex fuel [x] pos thisChar lastChar restOfString []
        (.assign v f re restOfString pos matchesFound stack)
  | fuel + 1, .backRef f v :: re, pos, _, lastChar, restOfString, matchesFound, stack => do
      let saved ← getBackref v
      let text := (f saved).toList
      match matchBackref getc text lastChar restOfString with
      | some (lastChar, restOfString) =>
          matchRegex fuel re (pos + text.length) none lastChar restOfString matchesFound stack
      | none => throw .backtrack
  | fuel + 1, .guard predicate x :: re, pos, thisChar, lastChar, restOfString, matchesFound, stack =>
      matchRegex fuel [x] pos thisChar lastChar restOfString []
        (.guard predicate re restOfString pos matchesFound stack)
  | fuel + 1, .boundary ok :: re, pos, thisChar, lastChar, restOfString, matchesFound, stack =>
      let prev := lastChar.map Prod.fst
      let (this, next) := lookAhead getc restOfString
      if ok prev this next then
        matchRegex fuel re pos thisChar lastChar restOfString matchesFound stack
      else
        throw .backtrack
  -- what is left wants a character, and none has been fetched
  | fuel + 1, re, pos, none, _, restOfString, matchesFound, stack =>
      match getc restOfString with
      | none => throw .backtrack
      | some thisChar => matchRegex fuel re pos (some thisChar) none restOfString matchesFound stack

def popStackAndContinue : Nat → Nat → Buf X → Buf X → X → List (RegexMatchResult X) →
    ReturnStack X → Search (Success X)
  | 0, _, _, _, _, _, _ => throw .unfinished
  | fuel + 1, pos, thisChar, lastChar, restOfString, nested,
      .group re restOfString' pos' siblings stack =>
      let found := .regexMatchResult (some ⟨restOfString', pos - pos'⟩) nested.reverse
      matchRegex fuel re pos thisChar lastChar restOfString (found :: siblings) stack
  | fuel + 1, pos, thisChar, lastChar, restOfString, matchesFound2,
      .assign backrefVar f re restOfString' pos' matchesFound1 stack => do
      let savedValue ← getBackref backrefVar
      let matched ← getNChars getc (pos - pos') restOfString'
      setBackref backrefVar (f (String.ofList matched))
      exceptBacktrack
        (matchRegex fuel re pos thisChar lastChar restOfString (matchesFound2 ++ matchesFound1) stack)
        (do setBackref backrefVar savedValue
            throw .backtrack)
  | fuel + 1, pos, thisChar, lastChar, restOfString, matchesFound2,
      .guard predicate re restOfString' pos' matchesFound1 stack => do
      let matched ← getNChars getc (pos - pos') restOfString'
      if predicate (String.ofList matched) then
        matchRegex fuel re pos thisChar lastChar restOfString (matchesFound2 ++ matchesFound1) stack
      else
        throw .backtrack
  | fuel + 1, pos, thisChar, lastChar, restOfString, matchesFound, .concat re stack =>
      matchRegex fuel re pos thisChar lastChar restOfString matchesFound stack
  | fuel + 1, pos, thisChar, lastChar, restOfString, matchesFound2,
      .repeat' foo pos' min max i re matchesFound1 stack =>
      if i > 1 ∧ pos = pos' then
        throw .backtrack
      else if i < min then
        matchRegex fuel [foo] pos thisChar lastChar restOfString []
          (.repeat' foo pos min max (i + 1) re matchesFound1 stack)
      else if less i max then
        exceptBacktrack
          (matchRegex fuel [foo] pos thisChar lastChar restOfString []
            (.repeat' foo pos min max (i + 1) re matchesFound1 stack))
          (matchRegex fuel re pos thisChar lastChar restOfString (matchesFound2 ++ matchesFound1)
            stack)
      else
        matchRegex fuel re pos thisChar lastChar restOfString (matchesFound2 ++ matchesFound1) stack
  | _ + 1, pos, thisChar, lastChar, restOfString, matchesFound, .return' =>
      return ⟨pos, thisChar, lastChar, restOfString, matchesFound.reverse⟩

end

def scan (fuel : Nat) (re : CompiledRegularExpression) (startPos : Nat) (stream : X)
    (last : Buf X) : Search (Option (RegexMatchResult X × X)) :=
  exceptBacktrack
    (do let found ← matchRegex getc re.multiline fuel [re.regexp] startPos none last stream [] .return'
        return some (.regexMatchResult (some ⟨stream, found.pos - startPos⟩) found.matchesFound,
          found.restOfString))
    (return none)

def allocRefs (re : CompiledRegularExpression) : Array String :=
  if 0 < re.backrefVarCount then Array.replicate re.backrefVarCount "" else re.references

def matchPrefix (fuel : Nat) (re : CompiledRegularExpression) (stream : X) :
    Except Raised (Option (RegexMatchResult X × X)) :=
  (outcome (scan getc fuel re 0 stream none) (allocRefs re)).1

end Mythryl.Regex.PerlEngine
