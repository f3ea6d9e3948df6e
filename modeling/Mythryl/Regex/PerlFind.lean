import Mythryl.Regex.PerlFuel

/-!
# Finding a match with the Perl engine

`find` scans at one position after another and takes the first success.
-/

namespace Mythryl.Regex.PerlEngine
open AbstractRegularExpression Reader RaisingState BacktrackingSearch

variable {X : Type}

abbrev Scanned (X : Type) := Option (RegexMatchResult X × X)

section Loops

variable (getc : Getc X) (fuel : Nat) (re : CompiledRegularExpression)

@[grind =] def loop1 : Nat → Nat → X → Buf X → Search (Scanned X)
  | 0, _, _, _ => throw .unfinished
  | steps + 1, pos, stream, last => do
      match ← scan getc fuel re pos stream last with
      | none =>
          match getc stream with
          | none => return none
          | some (c, s) => loop1 steps (pos + 1) s (some (c, s))
      | some x => return some x

mutual

@[grind =] def loop2 : Nat → Nat → X → Buf X → Search (Scanned X)
  | 0, _, _, _ => throw .unfinished
  | steps + 1, pos, stream, last => do
      match ← scan getc fuel re pos stream last with
      | none => skipToNextLine steps pos stream
      | some x => return some x

@[grind =] def skipToNextLine : Nat → Nat → X → Search (Scanned X)
  | 0, _, _ => throw .unfinished
  | steps + 1, pos, stream =>
      match getc stream with
      | none => return none
      | some ('\n', s) => loop2 steps (pos + 1) s (some ('\n', s))
      | some (_, s) => skipToNextLine steps (pos + 1) s

end

end Loops

def find (getc : Getc X) (fuel : Nat) (re : CompiledRegularExpression) (stream : X) :
    Except Raised (Scanned X) :=
  let search : Search (Scanned X) := match re.beginOnly, re.multiline with
    | true, false => scan getc fuel re 0 stream none
    | false, _ => loop1 getc fuel re fuel 0 stream none
    | true, true => loop2 getc fuel re fuel 0 stream none
  (outcome search (allocRefs re)).1

@[grind =] def after (getc : Getc X) (stream : X) : Nat → Option (X × Buf X)
  | 0 => some (stream, none)
  | p + 1 =>
      match after getc stream p with
      | some (s, _) => (getc s).map fun (c, s') => (s', some (c, s'))
      | none => none

def Ends (getc : Getc X) (stream : X) : Prop := ∃ p, after getc stream p = none

def ScanAt (getc : Getc X) (re : CompiledRegularExpression) (stream : X) (p : Nat)
    (r : Scanned X) : Prop :=
  ∃ s last fuel, after getc stream p = some (s, last) ∧
    (outcome (scan getc fuel re p s last) (allocRefs re)).1 = .ok r

def FirstAmong (getc : Getc X) (re : CompiledRegularExpression) (stream : X) (T : Nat → Prop)
    (r : Scanned X) : Prop :=
  (∃ p, T p ∧ ScanAt getc re stream p r ∧ r.isSome = true ∧
      ∀ q < p, T q → ScanAt getc re stream q none) ∨
    (r = none ∧ ∀ p, T p → (after getc stream p).isSome = true → ScanAt getc re stream p none)

def Tried (getc : Getc X) (re : CompiledRegularExpression) (stream : X) (p : Nat) : Prop :=
  p = 0 ∨ re.beginOnly = false ∨
    re.multiline = true ∧ ∃ s, after getc stream p = some (s, some ('\n', s))

def Returns (getc : Getc X) (re : CompiledRegularExpression) (stream : X) (r : Scanned X) : Prop :=
  ∃ fuel, find getc fuel re stream = .ok r

section Positions

variable {getc : Getc X} {stream s : X} {last : Buf X} {p q : Nat}

theorem after_isSome_of_le (le : q ≤ p) (here : (after getc stream p).isSome = true) :
    (after getc stream q).isSome = true := by
  induction p with
  | zero =>
    cases Nat.le_zero.mp le
    exact here
  | succ p ih =>
    by_cases equal : q = p + 1
    · subst equal
      exact here
    · apply ih (by omega)
      rw [after] at here
      cases before : after getc stream p with
      | none =>
        rw [before] at here
        cases here
      | some pair => rfl

end Positions

section Scans

variable {getc : Getc X} {re : CompiledRegularExpression} {stream s : X} {last : Buf X} {p : Nat}
  {fuel fuel' : Nat} {r r' : Scanned X} {references references' : Array String}

theorem scan_more (run : outcome (scan getc fuel re p s last) references = (.ok r, references'))
    (le : fuel ≤ fuel') :
    outcome (scan getc fuel' re p s last) references = (.ok r, references') := by
  induction fuel' with
  | zero =>
    cases Nat.le_zero.mp le
    exact run
  | succ fuel' ih =>
    by_cases equal : fuel = fuel' + 1
    · rw [← equal]
      exact run
    · have before := ih (by omega)
      cases scan_steady re fuel' p s last references with
      | inl stopped =>
        obtain ⟨s', stopped⟩ := stopped
        rw [before] at stopped
        cases stopped
      | inr found => rw [← found.1, before]

theorem ScanAt.run (scanned : ScanAt getc re stream p r)
    (here : after getc stream p = some (s, last)) : ∃ n, ∀ fuel ≥ n, ∃ references,
      outcome (scan getc fuel re p s last) (allocRefs re) = (.ok r, references) := by
  obtain ⟨s', last', n, here', run⟩ := scanned
  rw [here] at here'
  cases here'
  refine ⟨n, fun fuel enough => ⟨_, scan_more (Prod.ext run rfl) enough⟩⟩

theorem ScanAt.unique (scanned : ScanAt getc re stream p r) (scanned' : ScanAt getc re stream p r') :
    r = r' := by
  obtain ⟨s, last, n, here, run⟩ := scanned
  obtain ⟨m, runs⟩ := scanned'.run here
  obtain ⟨references, run'⟩ := runs (max n m) (le_max_right n m)
  rw [scan_more (Prod.ext run rfl) (le_max_left n m)] at run'
  cases run'
  rfl

theorem ScanAt.isSome (scanned : ScanAt getc re stream p r) :
    (after getc stream p).isSome = true := by
  obtain ⟨s, last, n, here, -⟩ := scanned
  rw [here]
  rfl

theorem ScanAt.position (scanned : ScanAt getc re stream p r) (found : r.isSome = true) :
    ∃ s last, after getc stream p = some (s, last) ∧
      ∃ length children rest, r = some (.regexMatchResult (some ⟨s, length⟩) children, rest) := by
  obtain ⟨s, last, n, here, run⟩ := scanned
  refine ⟨s, last, here, ?_⟩
  cases r with
  | none => cases found
  | some scanned =>
    obtain ⟨a, -, same, -⟩ := scan_path (Prod.ext run rfl)
    exact ⟨_, _, _, congrArg some (Prod.ext same rfl)⟩

end Scans

/-- A search through the positions in `T` from position `p` on returns `r`. -/
inductive Reaches (getc : Getc X) (re : CompiledRegularExpression) (stream : X) (T : Nat → Prop) :
    Nat → Scanned X → Prop
  | found {p : Nat} {r : Scanned X} (tried : T p) (scanned : ScanAt getc re stream p r)
      (success : r.isSome = true) : Reaches getc re stream T p r
  | next {p : Nat} {r : Scanned X} (more : (after getc stream (p + 1)).isSome = true)
      (failed : T p → ScanAt getc re stream p none)
      (rest : Reaches getc re stream T (p + 1) r) : Reaches getc re stream T p r
  | done {p : Nat} (last : after getc stream (p + 1) = none)
      (failed : T p → (after getc stream p).isSome = true → ScanAt getc re stream p none) :
      Reaches getc re stream T p none

section Reaches

variable {getc : Getc X} {re : CompiledRegularExpression} {stream : X} {T : Nat → Prop}
  {r : Scanned X}

theorem Reaches.first {p : Nat} (reaches : Reaches getc re stream T p r)
    (before : ∀ q < p, T q → ScanAt getc re stream q none) : FirstAmong getc re stream T r := by
  induction reaches with
  | found tried scanned success => exact .inl ⟨_, tried, scanned, success, before⟩
  | @next p r more failed rest ih =>
    apply ih
    intro q lt tried
    by_cases equal : q = p
    · subst equal
      exact failed tried
    · exact before q (by omega) tried
  | @done p last failed =>
    refine .inr ⟨rfl, fun q tried here => ?_⟩
    by_cases less : q < p
    · exact before q less tried
    · by_cases equal : q = p
      · subst equal
        exact failed tried here
      · have reached := after_isSome_of_le (q := p + 1) (by omega) here
        rw [last] at reached
        cases reached

theorem FirstAmong.reaches (first : FirstAmong getc re stream T r)
    (ends : r = none → Ends getc stream) : Reaches getc re stream T 0 r := by
  cases first with
  | inl success =>
    obtain ⟨p, tried, scanned, success, failed⟩ := success
    have back : ∀ k q, q + k = p → Reaches getc re stream T q r := by
      intro k
      induction k with
      | zero =>
        intro q equal
        subst equal
        exact .found tried scanned success
      | succ k ih =>
        intro q equal
        exact .next (after_isSome_of_le (by omega) scanned.isSome) (failed q (by omega))
          (ih (q + 1) (by omega))
    exact back p 0 (Nat.zero_add p)
  | inr nowhere =>
    obtain ⟨rfl, failed⟩ := nowhere
    obtain ⟨p, last⟩ := ends rfl
    have back : ∀ k q, q + k = p → Reaches getc re stream T q none := by
      intro k
      induction k with
      | zero =>
        intro q equal
        subst equal
        refine .done ?_ fun tried here => failed _ tried here
        rw [after]
        rw [Nat.add_zero] at last
        rw [last]
      | succ k ih =>
        intro q equal
        cases more : after getc stream (q + 1) with
        | none => exact .done more fun tried here => failed _ tried here
        | some pair =>
          have here : (after getc stream (q + 1)).isSome = true := by
            rw [more]
            rfl
          exact .next here
            (fun tried => failed q tried (after_isSome_of_le (Nat.le_succ q) here))
            (ih (q + 1) (by omega))
    exact back p 0 (Nat.zero_add p)

theorem FirstAmong.unique {r' : Scanned X} (first : FirstAmong getc re stream T r)
    (first' : FirstAmong getc re stream T r') : r = r' := by
  rcases first with ⟨p, tried, scanned, success, failed⟩ | ⟨rfl, failed⟩
  · rcases first' with ⟨q, tried', scanned', success', failed'⟩ | ⟨rfl, failed'⟩
    · rcases lt_trichotomy p q with less | rfl | more
      · rw [scanned.unique (failed' p less tried)] at success
        cases success
      · exact scanned.unique scanned'
      · rw [scanned'.unique (failed q more tried')] at success'
        cases success'
    · exact scanned.unique (failed' p tried scanned.isSome)
  · rcases first' with ⟨q, tried', scanned', success', failed'⟩ | ⟨rfl, failed'⟩
    · exact (failed q tried' scanned'.isSome).unique scanned'
    · rfl

end Reaches

section Loops

variable {getc : Getc X} {re : CompiledRegularExpression} {stream : X} {T : Nat → Prop}
  {fuel steps p : Nat} {s : X} {last : Buf X} {r : Scanned X} {references : Array String}

def Settles (re : CompiledRegularExpression) (m : Nat → Nat → Search (Scanned X))
    (r : Scanned X) : Prop :=
  ∃ n, ∀ fuel ≥ n, ∀ steps ≥ n, ∃ references,
    outcome (m fuel steps) (allocRefs re) = (.ok r, references)

end Loops

section Find

variable {getc : Getc X} {stream : X} {regexp : AbstractRegularExpression} {isMultiline : Bool}
  {r : Scanned X}

end Find

section Transparent

variable {getc : Getc X} {re : CompiledRegularExpression} {stream : X} {r : Scanned X}

end Transparent

end Mythryl.Regex.PerlEngine
