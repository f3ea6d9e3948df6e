import Mythryl.Regex.AbstractRegularExpression
import Mathlib.Logic.Relation

/-!
# The Perl engine, one call at a time

The two functions that search call each other in tail position, some of them under a handler for
`BACKTRACK`.
-/

namespace Mythryl.Regex.PerlEngine
open AbstractRegularExpression Reader RaisingState BacktrackingSearch

variable {X : Type}

/-- A call of `match_regex`, or of `pop_stack_and_continue` where nothing is left to match. -/
structure Call (X : Type) where
  todo : Option (List AbstractRegularExpression)
  pos : Nat
  thisChar : Buf X
  lastChar : Buf X
  rest : X
  found : List (RegexMatchResult X)
  stack : ReturnStack X

/-- A call returns, makes another call, or makes one and has another way if that fails. -/
inductive Step (X : Type)
  | give (success : Success X)
  | next (call : Call X)
  | either (first : Call X) (otherwise : Search (Call X))

def takes : AbstractRegularExpression → Char → Bool
  | .char c, c' => c = c'
  | .matchSet set, c => set.member c
  | .nonmatchSet set, c => !set.member c
  | _, _ => false

def wantsChar : AbstractRegularExpression → Bool
  | .char _ | .matchSet _ | .nonmatchSet _ => true
  | _ => false

section Calls

variable (getc : Getc X) (isMultiline : Bool)

def run (fuel : Nat) (c : Call X) : Search (Success X) :=
  match c.todo with
  | some re => matchRegex getc isMultiline fuel re c.pos c.thisChar c.lastChar c.rest c.found c.stack
  | none => popStackAndContinue getc isMultiline fuel c.pos c.thisChar c.lastChar c.rest c.found c.stack

def Call.read (c : Call X) (todo : List AbstractRegularExpression) (n : Nat) (lastChar : Buf X)
    (rest : X) : Call X :=
  { c with todo := some todo, pos := c.pos + n, thisChar := none, lastChar, rest }

def Call.enter (c : Call X) (x : AbstractRegularExpression) (stack : ReturnStack X) : Call X :=
  { c with todo := some [x], found := [], stack }

def Call.leave (c : Call X) (re : List AbstractRegularExpression) (found : List (RegexMatchResult X))
    (stack : ReturnStack X) : Call X :=
  { c with todo := some re, found, stack }

def stepOne (x : AbstractRegularExpression) (re : List AbstractRegularExpression) (c : Call X) :
    Search (Step X) :=
  match c.thisChar with
  | some (c', rest') =>
      if takes x c' then return .next (c.read re 1 (some (c', rest')) rest') else throw .backtrack
  | none =>
      match getc c.rest with
      | none => throw .backtrack
      | some thisChar => return .next { c with thisChar := some thisChar, lastChar := none }

def stepMatch (x : AbstractRegularExpression) (re : List AbstractRegularExpression) (c : Call X) :
    Search (Step X) :=
  let go (re : List AbstractRegularExpression) : Call X := { c with todo := some re }
  match x with
  | .group x => return .next (c.enter x (.group re c.rest c.pos c.found c.stack))
  | .alt [] => throw .backtrack
  | .alt [x] => return .next (go (x :: re))
  | .alt (x :: xs) => return .either (go (x :: re)) (return go (.alt xs :: re))
  | .concat es => return .next { c with todo := some es, stack := .concat re c.stack }
  | .star x => return .next (go (.interval x 0 none :: re))
  | .plus x => return .next (go (.interval x 1 none :: re))
  | .option x => return .next (go (.interval x 0 (some 1) :: re))
  | .interval x min max =>
      let emptyMatch : Search (Call X) := do
        return c.leave re ((← emptyAlternative x).reverse ++ c.found) c.stack
      let tryAtLeastOne := c.enter x (.repeat' x c.pos min max 1 re c.found c.stack)
      if lesseq min max then
        if min > 0 then return .next tryAtLeastOne else return .either tryAtLeastOne emptyMatch
      else do
        return .next (← emptyMatch)
  | .begin => if atStart isMultiline c.pos c.lastChar then return .next (go re) else throw .backtrack
  | .end' =>
      match getc c.rest with
      | none => return .next (go re)
      | some (c', rest') =>
          if c' = '\n' then
            if isMultiline then return .next (c.read re 1 (some (c', rest')) rest')
            else
              match getc rest' with
              | none => return .next { c with todo := some re, rest := rest' }
              | some _ => throw .backtrack
          else throw .backtrack
  | .assign v f x => return .next (c.enter x (.assign v f re c.rest c.pos c.found c.stack))
  | .backRef f v => do
      let text := (f (← getBackref v)).toList
      match matchBackref getc text c.lastChar c.rest with
      | some (lastChar, rest) => return .next (c.read re text.length lastChar rest)
      | none => throw .backtrack
  | .guard predicate x => return .next (c.enter x (.guard predicate re c.rest c.pos c.found c.stack))
  | .boundary ok =>
      let (this, next) := lookAhead getc c.rest
      if ok (c.lastChar.map Prod.fst) this next then return .next (go re) else throw .backtrack
  | x => stepOne getc x re c

def stepPop (c : Call X) : Search (Step X) :=
  match c.stack with
  | .group re start pos siblings stack =>
      return .next (c.leave re
        (.regexMatchResult (some ⟨start, c.pos - pos⟩) c.found.reverse :: siblings) stack)
  | .assign v f re start pos siblings stack => do
      let saved ← getBackref v
      let matched ← getNChars getc (c.pos - pos) start
      setBackref v (f (String.ofList matched))
      return .either (c.leave re (c.found ++ siblings) stack) do
        setBackref v saved
        throw .backtrack
  | .guard predicate re start pos siblings stack => do
      let matched ← getNChars getc (c.pos - pos) start
      if predicate (String.ofList matched) then
        return .next (c.leave re (c.found ++ siblings) stack)
      else throw .backtrack
  | .concat re stack => return .next (c.leave re c.found stack)
  | .repeat' foo pos min max i re siblings stack =>
      let again := c.enter foo (.repeat' foo c.pos min max (i + 1) re siblings stack)
      let leave := c.leave re (c.found ++ siblings) stack
      if i > 1 ∧ c.pos = pos then throw .backtrack
      else if i < min then return .next again
      else if less i max then return .either again (return leave)
      else return .next leave
  | .return' => return .give ⟨c.pos, c.thisChar, c.lastChar, c.rest, c.found.reverse⟩

def step (c : Call X) : Search (Step X) :=
  match c.todo with
  | some [] => return .next { c with todo := none }
  | some (x :: re) => stepMatch getc isMultiline x re c
  | none => stepPop getc c

def Step.continue {α : Type} (gives : Success X → Search α) (runs : Call X → Search α) :
    Step X → Search α
  | .give a => gives a
  | .next c => runs c
  | .either c otherwise => exceptBacktrack (runs c) (otherwise >>= runs)

theorem run_zero (c : Call X) : run getc isMultiline 0 c = throw .unfinished := by
  obtain ⟨todo, pos, thisChar, lastChar, rest, found, stack⟩ := c
  cases todo <;> rfl

theorem check_bind {α β : Type} {c : Prop} [Decidable c] (a : α) (f : α → Search β) :
    (if c then return a else throw .backtrack : Search α) >>= f =
      if c then f a else throw .backtrack := by
  split <;> rfl

theorem run_succ (fuel : Nat) (c : Call X) : run getc isMultiline (fuel + 1) c =
      step getc isMultiline c >>= Step.continue pure (run getc isMultiline fuel) := by
  obtain ⟨todo, pos, thisChar, lastChar, rest, found, stack⟩ := c
  cases todo with
  | none =>
    cases stack with
    | group | concat | return' => rfl
    | assign v f re start pos' siblings stack =>
      change _ = (getBackref v >>= _) >>= _
      simp only [bind_assoc, pure_bind, Step.continue]
      rfl
    | guard predicate re start pos' siblings stack =>
      change _ = (getNChars getc (pos - pos') start >>= _) >>= _
      simp only [bind_assoc, check_bind]
      rfl
    | repeat' foo pos' min max i re siblings stack =>
      change (if _ then _ else if _ then _ else if _ then _ else _) =
        (if _ then _ else if _ then _ else if _ then _ else _) >>= _
      split
      · rfl
      · split
        · rfl
        · split <;> rfl
  | some re =>
    cases re with
    | nil => rfl
    | cons x re =>
      cases x with
      | group | concat | star | plus | option | assign | guard => rfl
      | char | matchSet | nonmatchSet =>
        simp only [run, step, stepMatch, stepOne]
        cases thisChar with
        | none =>
          simp only [matchRegex]
          cases getc rest <;> rfl
        | some next =>
          simp only [matchRegex, check_bind]
          first
          | rfl
          | simp only [takes, decide_eq_true_eq]
            rfl
      | alt es =>
        cases es with
        | nil => rfl
        | cons y ys => cases ys <;> rfl
      | interval x min max =>
        change (if _ then if _ then _ else _ else _) = (if _ then if _ then _ else _ else _) >>= _
        split
        · split
          · rfl
          · simp only [bind_assoc, pure_bind, Step.continue]
            rfl
        · simp only [bind_assoc]
          rfl
      | begin =>
        simp only [run, step, stepMatch, matchRegex, check_bind]
        rfl
      | end' =>
        simp only [run, step, stepMatch, matchRegex]
        cases getc rest with
        | none => rfl
        | some next =>
          simp only
          split
          · split
            · rfl
            · cases getc next.2 <;> rfl
          · rfl
      | backRef f v =>
        change (getBackref v >>= _) = (getBackref v >>= _) >>= _
        rw [bind_assoc]
        apply bind_congr
        intro saved
        simp only
        cases matchBackref getc _ lastChar rest <;> rfl
      | boundary ok =>
        simp only [run, step, stepMatch, matchRegex, check_bind]
        rfl

end Calls

def Yields {α : Type} (m : Search α) (P : α → Prop) : Prop :=
  ∀ s a s', outcome m s = (.ok a, s') → P a

section Yields

variable {α β : Type} {P Q : α → Prop}

theorem yields_pure {a : α} (holds : P a) : Yields (pure a : Search α) P := by
  intro s a' s' run
  cases run
  exact holds

theorem yields_throw {e : Raised} : Yields (throw e : Search α) P := by
  intro s a s' run
  cases run

theorem yields_bind {x : Search β} {f : β → Search α} {R : β → Prop} (first : Yields x R)
    (rest : ∀ b, R b → Yields (f b) P) : Yields (x >>= f) P := by
  intro s a s' run
  obtain ⟨b, s'', got, run⟩ := outcome_bind_eq_ok.mp run
  exact rest b (first s b s'' got) s'' a s' run

theorem yields_any {m : Search α} : Yields m fun _ => True := fun _ _ _ _ => trivial

theorem yields_if {c : Prop} [Decidable c] {first second : Search α} (yes : c → Yields first P)
    (no : ¬c → Yields second P) : Yields (if c then first else second) P := by
  split
  · exact yes ‹_›
  · exact no ‹_›

end Yields

/-- The call the search goes on with; `true` says that another way has failed before. -/
def Step.Goes (second : Bool) (d : Call X) : Step X → Prop
  | .give _ => False
  | .next c => second = false ∧ d = c
  | .either c otherwise =>
      second = false ∧ d = c ∨ second = true ∧ ∃ s s', outcome otherwise s = (.ok d, s')

def Step.All (G : Success X → Prop) (P : Bool → Call X → Prop) : Step X → Prop
  | .give a => G a
  | .next c => P false c
  | .either c otherwise => P false c ∧ Yields otherwise (P true)

theorem Step.All.goes {G : Success X → Prop} {P : Bool → Call X → Prop} {st : Step X} {second : Bool}
    {d : Call X} (all : st.All G P) (goes : st.Goes second d) : P second d := by
  cases st with
  | give a => exact goes.elim
  | next c =>
    obtain ⟨rfl, rfl⟩ := goes
    exact all
  | either c otherwise =>
    obtain ⟨rfl, rfl⟩ | ⟨rfl, s, s', other⟩ := goes
    · exact all.1
    · exact all.2 _ _ _ other

mutual

def placeholders : AbstractRegularExpression → List (RegexMatchResult X)
  | .group e => [.regexMatchResult none (placeholders e)]
  | .alt l => placeholdersAll l
  | .concat l => placeholdersAll l
  | .interval e _ _ => placeholders e
  | .option e => placeholders e
  | .star e => placeholders e
  | .plus e => placeholders e
  | .assign _ _ e => placeholders e
  | .guard _ e => placeholders e
  | _ => []

def placeholdersAll : List AbstractRegularExpression → List (RegexMatchResult X)
  | [] => []
  | e :: l => placeholders e ++ placeholdersAll l

end

mutual

theorem emptyAlternative_yields (e : AbstractRegularExpression) :
    Yields (emptyAlternative e : Search (List (RegexMatchResult X))) (· = placeholders e) := by
  cases e with
  | group e =>
    refine yields_bind (emptyAlternative_yields e) fun children same => ?_
    subst same
    exact yields_pure rfl
  | alt l => exact emptyAlternatives_yields l
  | concat l => exact emptyAlternatives_yields l
  | interval e _ _ => exact emptyAlternative_yields e
  | option e => exact emptyAlternative_yields e
  | star e => exact emptyAlternative_yields e
  | plus e => exact emptyAlternative_yields e
  | assign v _ e => exact yields_bind yields_any fun _ _ => emptyAlternative_yields e
  | guard _ e => exact emptyAlternative_yields e
  | _ => exact yields_pure rfl

theorem emptyAlternatives_yields (l : List AbstractRegularExpression) :
    Yields (emptyAlternatives l : Search (List (RegexMatchResult X))) (· = placeholdersAll l) := by
  cases l with
  | nil => exact yields_pure rfl
  | cons e l =>
    refine yields_bind (emptyAlternative_yields e) fun first same => ?_
    refine yields_bind (emptyAlternatives_yields l) fun rest same' => ?_
    subst same same'
    exact yields_pure rfl

end

section Placeholders

structure Placed (Q : List (RegexMatchResult X) → Prop) : Prop where
  nil : Q []
  append {l l'} : Q l → Q l' → Q (l ++ l')
  group {l} : Q l → Q [.regexMatchResult none l]

mutual

theorem Placed.one {Q : List (RegexMatchResult X) → Prop} (placed : Placed Q)
    (e : AbstractRegularExpression) : Q (placeholders e) := by
  cases e with
  | group e => exact placed.group (placed.one e)
  | alt l => exact placed.all l
  | concat l => exact placed.all l
  | interval e _ _ => exact placed.one e
  | option e => exact placed.one e
  | star e => exact placed.one e
  | plus e => exact placed.one e
  | assign v _ e => exact placed.one e
  | guard _ e => exact placed.one e
  | _ => exact placed.nil

theorem Placed.all {Q : List (RegexMatchResult X) → Prop} (placed : Placed Q)
    (l : List AbstractRegularExpression) : Q (placeholdersAll l) := by
  cases l with
  | nil => exact placed.nil
  | cons e l => exact placed.append (placed.one e) (placed.all l)

end

end Placeholders

def ReturnStack.outer : ReturnStack X → Option (List AbstractRegularExpression ×
    List (RegexMatchResult X) × ReturnStack X)
  | .assign _ _ re _ _ found stack => some (re, found, stack)
  | .guard _ re _ _ found stack => some (re, found, stack)
  | .repeat' _ _ _ _ _ re found stack => some (re, found, stack)
  | _ => none

section Moves

variable {getc : Getc X} {isMultiline : Bool} {c : Call X}

inductive Moves (getc : Getc X) (isMultiline : Bool) (c : Call X) : Call X → Prop
  | fetch {next} (got : getc c.rest = some next) :
      Moves getc isMultiline c { c with thisChar := some next, lastChar := none }
  | go (todo) : Moves getc isMultiline c { c with todo }
  | read {todo w lastChar rest} (reads : Reads getc w c.rest rest) :
      Moves getc isMultiline c (c.read todo w.length lastChar rest)
  | lineEnd {re rest} (single : isMultiline = false) (todo : c.todo = some (.end' :: re))
      (got : getc c.rest = some ('\n', rest)) (last : getc rest = none) :
      Moves getc isMultiline c { c with todo := some re, rest }
  | skip {re} (x) : Moves getc isMultiline c (c.leave re ((placeholders x).reverse ++ c.found) c.stack)
  | concat (es re) :
      Moves getc isMultiline c { c with todo := some es, stack := .concat re c.stack }
  | group (x re) : Moves getc isMultiline c (c.enter x (.group re c.rest c.pos c.found c.stack))
  | enter (x) {re stack} (outer : stack.outer = some (re, c.found, c.stack)) :
      Moves getc isMultiline c (c.enter x stack)
  | again (x) {re re' found stack stack'} (before : c.stack.outer = some (re, found, stack))
      (outer : stack'.outer = some (re', found, stack)) : Moves getc isMultiline c (c.enter x stack')
  | popGroup {re start pos siblings stack} (top : c.stack = .group re start pos siblings stack) :
      Moves getc isMultiline c (c.leave re
        (.regexMatchResult (some ⟨start, c.pos - pos⟩) c.found.reverse :: siblings) stack)
  | popConcat {re stack} (top : c.stack = .concat re stack) :
      Moves getc isMultiline c (c.leave re c.found stack)
  | pop {re siblings stack} (outer : c.stack.outer = some (re, siblings, stack)) :
      Moves getc isMultiline c (c.leave re (c.found ++ siblings) stack)

def Fetched (getc : Getc X) (c : Call X) : Prop :=
  c.thisChar = none ∨ getc c.rest = c.thisChar ∧
    ∃ x re, c.todo = some (x :: re) ∧ wantsChar x = true

def Gives (c : Call X) (a : Success X) : Prop :=
  c.todo = none ∧ c.stack = .return' ∧ a = ⟨c.pos, c.thisChar, c.lastChar, c.rest, c.found.reverse⟩

theorem matchBackref_reads {text : List Char} {last last' : Buf X} {rest rest' : X}
    (matched : matchBackref getc text last rest = some (last', rest')) :
    Reads getc text rest rest' := by
  induction text generalizing last rest with
  | nil =>
    cases matched
    rfl
  | cons c text ih =>
    rw [matchBackref] at matched
    split at matched
    · rename_i c' next got
      split at matched
      · rename_i equal
        subst equal
        exact ⟨next, got, ih matched⟩
      · cases matched
    · cases matched

variable (isMultiline) in
theorem stepOne_moves {x : AbstractRegularExpression} {re : List AbstractRegularExpression}
    (fetched : Fetched getc c) (todo : c.todo = some (x :: re)) (wants : wantsChar x = true) :
    Yields (stepOne getc x re c)
      (Step.All (Gives c) fun _ d => Moves getc isMultiline c d ∧ Fetched getc d) := by
  unfold stepOne
  cases this : c.thisChar with
  | some next =>
    have got : getc c.rest = some next := by
      cases fetched with
      | inl none =>
        rw [none] at this
        cases this
      | inr got => rw [got.1, this]
    refine yields_if (fun _ => yields_pure ⟨?_, .inl rfl⟩) fun _ => yields_throw
    exact .read (w := [next.1]) ⟨next.2, got, rfl⟩
  | none =>
    cases got : getc c.rest with
    | none => exact yields_throw
    | some next => exact yields_pure ⟨.fetch got, .inr ⟨got, x, re, todo, wants⟩⟩

theorem end_moves {re : List AbstractRegularExpression} (unread : c.thisChar = none)
    (todo : c.todo = some (.end' :: re)) :
    Yields (stepMatch getc isMultiline .end' re c)
      (Step.All (Gives c) fun _ d => Moves getc isMultiline c d ∧ Fetched getc d) := by
  unfold stepMatch
  cases got : getc c.rest with
  | none => exact yields_pure ⟨.go _, .inl unread⟩
  | some next =>
    obtain ⟨c', rest'⟩ := next
    refine yields_if (fun newline => yields_if (fun _ => yields_pure ⟨?_, .inl rfl⟩) fun single => ?_)
      fun _ => yields_throw
    · exact .read (w := [c']) ⟨rest', got, rfl⟩
    · cases last : getc rest' with
      | none =>
        subst newline
        exact yields_pure ⟨.lineEnd (by simpa using single) todo got last, .inl unread⟩
      | some next => exact yields_throw

theorem next_moves {d : Call X} (moves : Moves getc isMultiline c d) (unread : d.thisChar = none) :
    Yields (return .next d)
      (Step.All (Gives c) fun _ d => Moves getc isMultiline c d ∧ Fetched getc d) :=
  yields_pure ⟨moves, .inl unread⟩

theorem either_moves {d e : Call X} (moves : Moves getc isMultiline c d) (unread : d.thisChar = none)
    (other : Moves getc isMultiline c e) (unread' : e.thisChar = none) :
    Yields (return .either d (return e))
      (Step.All (Gives c) fun _ d => Moves getc isMultiline c d ∧ Fetched getc d) :=
  yields_pure ⟨⟨moves, .inl unread⟩, yields_pure ⟨other, .inl unread'⟩⟩

theorem interval_moves {x : AbstractRegularExpression} {min : Int} {max : Option Int}
    {re : List AbstractRegularExpression} (unread : c.thisChar = none) :
    Yields (stepMatch getc isMultiline (.interval x min max) re c)
      (Step.All (Gives c) fun _ d => Moves getc isMultiline c d ∧ Fetched getc d) := by
  have enter : Moves getc isMultiline c
      (c.enter x (.repeat' x c.pos min max 1 re c.found c.stack)) := .enter x rfl
  have skip : Yields (do return c.leave re ((← emptyAlternative x).reverse ++ c.found) c.stack)
      fun d => Moves getc isMultiline c d ∧ Fetched getc d := by
    refine yields_bind (emptyAlternative_yields x) fun skipped same => ?_
    subst same
    exact yields_pure ⟨.skip x, .inl unread⟩
  refine yields_if (fun _ => yields_if (fun _ => next_moves enter unread) fun _ => ?_) fun _ => ?_
  · exact yields_pure ⟨⟨enter, .inl unread⟩, skip⟩
  · exact yields_bind skip fun d moved => yields_pure moved

theorem pop_moves (todo : c.todo = none) (unread : c.thisChar = none) :
    Yields (stepPop getc c)
      (Step.All (Gives c) fun _ d => Moves getc isMultiline c d ∧ Fetched getc d) := by
  obtain ⟨todo, pos, thisChar, lastChar, rest, found, stack⟩ := c
  cases stack with
  | group re start pos' siblings stack => exact next_moves (.popGroup rfl) unread
  | assign v f re start pos' siblings stack =>
    refine yields_bind yields_any fun saved _ => yields_bind yields_any fun matched _ =>
      yields_bind yields_any fun _ _ => yields_pure ⟨⟨.pop rfl, .inl unread⟩, ?_⟩
    exact yields_bind yields_any fun _ _ => yields_throw
  | guard predicate re start pos' siblings stack =>
    exact yields_bind yields_any fun matched _ =>
      yields_if (fun _ => next_moves (.pop rfl) unread) fun _ => yields_throw
  | concat re stack => exact next_moves (.popConcat rfl) unread
  | repeat' foo pos' min max i re siblings stack =>
    refine yields_if (fun _ => yields_throw) fun _ => yields_if (fun _ => ?_) fun _ =>
      yields_if (fun _ => ?_) fun _ => next_moves (.pop rfl) unread
    · exact next_moves (.again foo rfl rfl) unread
    · exact either_moves (.again foo rfl rfl) unread (.pop rfl) unread
  | return' => exact yields_pure ⟨todo, rfl, rfl⟩

theorem step_moves (fetched : Fetched getc c) :
    Yields (step getc isMultiline c)
      (Step.All (Gives c) fun _ d => Moves getc isMultiline c d ∧ Fetched getc d) := by
  obtain ⟨todo, pos, thisChar, lastChar, rest, found, stack⟩ := c
  cases fetched with
  | inr got =>
    obtain ⟨got, x, re, rfl, wants⟩ := got
    have one := stepOne_moves isMultiline (.inr ⟨got, x, re, rfl, wants⟩) rfl wants
    cases x with
    | char | matchSet | nonmatchSet => exact one
    | _ => cases wants
  | inl none =>
    cases none
    cases todo with
    | none => exact pop_moves rfl rfl
    | some re =>
      cases re with
      | nil => exact next_moves (.go _) rfl
      | cons x re =>
        cases x with
        | char | matchSet | nonmatchSet =>
          exact stepOne_moves isMultiline (c := ⟨some (_ :: re), pos, none, lastChar, rest, found, stack⟩)
            (.inl rfl) rfl rfl
        | group x => exact next_moves (.group x re) rfl
        | alt es =>
          cases es with
          | nil => exact yields_throw
          | cons y ys =>
            cases ys with
            | nil => exact next_moves (.go _) rfl
            | cons => exact either_moves (.go _) rfl (.go _) rfl
        | concat es => exact next_moves (.concat es re) rfl
        | star | plus | option => exact next_moves (.go _) rfl
        | interval => exact interval_moves rfl
        | begin => exact yields_if (fun _ => next_moves (.go _) rfl) fun _ => yields_throw
        | end' => exact end_moves rfl rfl
        | assign v f x => exact next_moves (.enter x rfl) rfl
        | backRef f v =>
          refine yields_bind yields_any fun saved _ => ?_
          simp only
          split
          · exact next_moves (.read (matchBackref_reads ‹_›)) rfl
          · exact yields_throw
        | guard predicate x => exact next_moves (.enter x rfl) rfl
        | boundary => exact yields_if (fun _ => next_moves (.go _) rfl) fun _ => yields_throw

end Moves

section Trails

variable (getc : Getc X) (isMultiline : Bool)

def trail : Nat → Call X → Search (List (Call X × Bool) × Success X)
  | 0, _ => throw .unfinished
  | fuel + 1, c => do
      let after (second : Bool) (d : Call X) : Search (List (Call X × Bool) × Success X) := do
        let (calls, a) ← trail fuel d
        return ((c, second) :: calls, a)
      match ← step getc isMultiline c with
      | .give a => return ([(c, false)], a)
      | .next d => after false d
      | .either d otherwise => exceptBacktrack (after false d) (otherwise >>= after true)

theorem map_exceptBacktrack {α β : Type} (f : α → β) (first second : Search α) :
    f <$> exceptBacktrack first second = exceptBacktrack (f <$> first) (f <$> second) := by
  funext s
  unfold exceptBacktrack orElse
  change outcome (f <$> tryCatch first _) s = outcome (tryCatch (f <$> first) _) s
  simp only [← bind_pure_comp, outcome_bind, outcome_tryCatch]
  cases outcome first s with
  | mk result s' =>
    cases result with
    | ok a => rfl
    | error e =>
      by_cases failed : e = .backtrack
      · simp only [if_pos failed, outcome_bind]
      · simp only [if_neg failed]
        rfl

theorem trail_run (fuel : Nat) (c : Call X) :
    Prod.snd <$> trail getc isMultiline fuel c = run getc isMultiline fuel c := by
  induction fuel generalizing c with
  | zero =>
    rw [run_zero]
    rfl
  | succ fuel ih =>
    rw [run_succ, trail, map_bind]
    apply bind_congr
    intro st
    cases st with
    | give a => rfl
    | next d => simp [Step.continue, ← ih]
    | either d otherwise =>
      have same : run getc isMultiline fuel = fun d => Prod.snd <$> trail getc isMultiline fuel d :=
        funext fun d => (ih d).symm
      rw [same]
      simp [Step.continue, map_exceptBacktrack]

variable {getc isMultiline}

theorem exceptBacktrack_ok {α : Type} {first second : Search α} {s s' : Array String} {a : α}
    (found : outcome (exceptBacktrack first second) s = (.ok a, s')) :
    outcome first s = (.ok a, s') ∨ ∃ s'', outcome first s = (.error .backtrack, s'') ∧
      outcome second s'' = (.ok a, s') := by
  unfold exceptBacktrack orElse at found
  rw [outcome_tryCatch] at found
  cases tried : outcome first s with
  | mk result s'' =>
    rw [tried] at found
    cases result with
    | ok b => exact .inl found
    | error e =>
      by_cases failed : e = .backtrack
      · subst failed
        exact .inr ⟨s'', rfl, found⟩
      · simp only [if_neg failed] at found
        cases found

inductive Path (getc : Getc X) (isMultiline : Bool) :
    Call X → List (Call X × Bool) → Success X → Prop
  | give {c s s' a} (stepped : outcome (step getc isMultiline c) s = (.ok (.give a), s')) :
      Path getc isMultiline c [(c, false)] a
  | next {c d second calls a s s' st} (stepped : outcome (step getc isMultiline c) s = (.ok st, s'))
      (goes : st.Goes second d) (path : Path getc isMultiline d calls a) :
      Path getc isMultiline c ((c, second) :: calls) a

theorem trail_path {fuel : Nat} {c : Call X} {s s' : Array String} {calls : List (Call X × Bool)}
    {a : Success X} (found : outcome (trail getc isMultiline fuel c) s = (.ok (calls, a), s')) :
    Path getc isMultiline c calls a := by
  induction fuel generalizing c s calls s' with
  | zero => cases found
  | succ fuel ih =>
    obtain ⟨st, s₁, stepped, found⟩ := outcome_bind_eq_ok.mp found
    have after {second : Bool} {d : Call X} {s : Array String} (goes : st.Goes second d)
        (found : outcome (do
          let (calls, a) ← trail getc isMultiline fuel d
          return ((c, second) :: calls, a)) s = (.ok (calls, a), s')) :
        Path getc isMultiline c calls a := by
      obtain ⟨rest, s₂, tried, found⟩ := outcome_bind_eq_ok.mp found
      cases found
      exact .next stepped goes (ih tried)
    cases st with
    | give a =>
      cases found
      exact .give stepped
    | next d => exact after ⟨rfl, rfl⟩ found
    | either d otherwise =>
      cases exceptBacktrack_ok found with
      | inl found => exact after (.inl ⟨rfl, rfl⟩) found
      | inr found =>
        obtain ⟨s₂, -, found⟩ := found
        obtain ⟨e, s₃, other, found⟩ := outcome_bind_eq_ok.mp found
        exact after (.inr ⟨rfl, s₂, s₃, other⟩) found

def Call.start (regexp : AbstractRegularExpression) (pos : Nat) (stream : X) (last : Buf X) : Call X :=
  ⟨some [regexp], pos, none, last, stream, [], .return'⟩

def winning (getc : Getc X) (fuel : Nat) (re : CompiledRegularExpression) (pos : Nat) (stream : X)
    (last : Buf X) (references : Array String) : List (Call X × Bool) :=
  match (outcome (trail getc re.multiline fuel (.start re.regexp pos stream last)) references).1 with
  | .ok (calls, _) => calls
  | .error _ => []

theorem scan_path {fuel pos : Nat} {re : CompiledRegularExpression} {stream rest : X} {last : Buf X}
    {references references' : Array String} {m : RegexMatchResult X}
    (scanned : outcome (scan getc fuel re pos stream last) references =
      (.ok (some (m, rest)), references')) :
    ∃ a, Path getc re.multiline (.start re.regexp pos stream last)
        (winning getc fuel re pos stream last references) a ∧
      m = .regexMatchResult (some ⟨stream, a.pos - pos⟩) a.matchesFound ∧ rest = a.restOfString := by
  cases exceptBacktrack_ok scanned with
  | inr other =>
    obtain ⟨s, -, other⟩ := other
    cases other
  | inl scanned =>
    have same : matchRegex getc re.multiline fuel [re.regexp] pos none last stream [] .return' =
      Prod.snd <$> trail getc re.multiline fuel (.start re.regexp pos stream last) :=
      (trail_run getc re.multiline fuel (.start re.regexp pos stream last)).symm
    rw [same, ← bind_pure_comp, bind_assoc] at scanned
    obtain ⟨found, s, tried, scanned⟩ := outcome_bind_eq_ok.mp scanned
    cases scanned
    unfold winning
    rw [tried]
    exact ⟨found.2, trail_path tried, rfl, rfl⟩

end Trails

end Mythryl.Regex.PerlEngine
