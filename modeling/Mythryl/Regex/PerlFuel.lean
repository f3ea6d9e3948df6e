import Mythryl.Regex.PerlSteps

/-! # The Perl engine on more fuel -/

namespace Mythryl.Regex.PerlEngine
open AbstractRegularExpression Reader RaisingState BacktrackingSearch

variable {X : Type} {getc : Getc X} {isMultiline : Bool}

theorem run_steady (fuel : Nat) (c : Call X) :
    Steady .unfinished .backtrack (fun _ _ => True) (run getc isMultiline fuel c)
      (run getc isMultiline (fuel + 1) c) := by
  induction fuel generalizing c with
  | zero =>
    rw [run_zero]
    exact Steady.unfinished
  | succ fuel ih =>
    rw [run_succ, run_succ]
    refine Steady.bind (fun _ => trivial) (fun _ _ => trivial) fun st => ?_
    cases st with
    | give a => exact Steady.ret
    | next d => exact ih d
    | either d otherwise =>
      refine Steady.orElse (by decide) (fun _ _ => trivial) (ih d) ?_
      exact Steady.bind (fun _ => trivial) (fun _ _ => trivial) ih

theorem scan_steady (re : CompiledRegularExpression) (fuel pos : Nat) (stream : X) (last : Buf X) :
    Steady .unfinished .backtrack (fun _ _ => True) (scan getc fuel re pos stream last)
      (scan getc (fuel + 1) re pos stream last) := by
  refine Steady.orElse (by decide) (fun _ _ => trivial) ?_ Steady.ret
  intro s
  rw [outcome_bind, outcome_bind]
  cases run_steady fuel (.start re.regexp pos stream last) s with
  | inl stopped =>
    obtain ⟨s', stopped⟩ := stopped
    change outcome (matchRegex getc re.multiline fuel [re.regexp] pos none last stream [] .return') s
      = _ at stopped
    rw [stopped]
    exact .inl ⟨s', rfl⟩
  | inr found =>
    refine .inr ⟨?_, fun _ _ => trivial⟩
    change outcome (matchRegex getc re.multiline fuel [re.regexp] pos none last stream [] .return') s
      = outcome (matchRegex getc re.multiline (fuel + 1) [re.regexp] pos none last stream [] .return')
        s ∧ _ at found
    rw [← found.1]

theorem outcome_getBackref (v : Int) (s : Array String) :
    (∃ saved, 0 ≤ v ∧ s[v.toNat]? = some saved ∧ outcome (getBackref v) s = (.ok saved, s)) ∨
      outcome (getBackref v) s = (.error .indexOutOfBounds, s) := by
  unfold getBackref
  simp only [outcome_bind, outcome_get]
  by_cases negative : v < 0
  · simp only [if_pos negative]
    exact .inr rfl
  · simp only [if_neg negative]
    cases s[v.toNat]? with
    | none => exact .inr rfl
    | some saved => exact .inl ⟨saved, by omega, rfl, rfl⟩

theorem outcome_setBackref (v : Int) (value : String) (s : Array String) :
    outcome (setBackref v value) s = if v < 0 ∨ s.size ≤ v.toNat then (.error .indexOutOfBounds, s)
      else (.ok (), s.setIfInBounds v.toNat value) := by
  unfold setBackref
  rw [outcome_bind]
  change outcome (if v < 0 ∨ s.size ≤ v.toNat then throw .indexOutOfBounds
    else set (s.setIfInBounds v.toNat value) : Search Unit) s = _
  split <;> rfl

variable {n : Nat} {s s' : Array String}

theorem getNChars_state {stream : X} {result : Except Raised (List Char)}
    (read : outcome (getNChars getc n stream) s = (result, s')) : s = s' := by
  induction n generalizing stream result s' with
  | zero =>
    cases read
    rfl
  | succ n ih =>
    rw [getNChars] at read
    split at read
    · rename_i c next _
      rw [outcome_bind] at read
      cases rest : outcome (getNChars getc n next) s with
      | mk result' s'' =>
        rw [rest] at read
        obtain rfl := ih rest
        cases result' with
        | error e =>
          cases read
          rfl
        | ok chars =>
          cases read
          rfl
    · cases read
      rfl

def Fails (getc : Getc X) (isMultiline : Bool) (fuel : Nat) (c : Call X) (s s' : Array String) : Prop :=
  outcome (run getc isMultiline fuel c) s = (.error .backtrack, s')

theorem scan_fails {re : CompiledRegularExpression} {fuel pos : Nat} {stream : X} {last : Buf X}
    (scanned : outcome (scan getc fuel re pos stream last) s = (.ok none, s')) :
    Fails getc re.multiline fuel (.start re.regexp pos stream last) s s' := by
  obtain same | ⟨s₂, failed, same⟩ := exceptBacktrack_ok scanned
  · rw [outcome_bind] at same
    split at same <;> cases same
  · cases same
    rw [outcome_bind] at failed
    split at failed
    · cases failed
    · cases failed
      assumption

def Restores (R : Array String → Array String → Prop)
    (fails : Call X → Array String → Array String → Prop) (s : Array String) :
    Except Raised (Step X) × Array String → Prop
  | (.error e, s') => e = .backtrack → R s s'
  | (.ok (.give _), _) => True
  | (.ok (.next _), s') => R s s'
  | (.ok (.either d otherwise), s') => ∀ s₂, fails d s' s₂ → R s' s₂ →
      match outcome otherwise s₂ with
      | (.ok _, s₃) => R s s₃
      | (.error e, s₃) => e = .backtrack → R s s₃

/-- The calls that the search from `c₀` makes, and the table each of them finds. -/
inductive Enters (getc : Getc X) (isMultiline : Bool) (fuel₀ : Nat) (c₀ : Call X) (s₀ : Array String) :
    Nat → Call X → Array String → Prop
  | start : Enters getc isMultiline fuel₀ c₀ s₀ fuel₀ c₀ s₀
  | next {fuel c s d s'} (entered : Enters getc isMultiline fuel₀ c₀ s₀ (fuel + 1) c s)
      (stepped : outcome (step getc isMultiline c) s = (.ok (.next d), s')) :
      Enters getc isMultiline fuel₀ c₀ s₀ fuel d s'
  | first {fuel c s d otherwise s'} (entered : Enters getc isMultiline fuel₀ c₀ s₀ (fuel + 1) c s)
      (stepped : outcome (step getc isMultiline c) s = (.ok (.either d otherwise), s')) :
      Enters getc isMultiline fuel₀ c₀ s₀ fuel d s'
  | second {fuel c s d otherwise s' s₂ e s₃}
      (entered : Enters getc isMultiline fuel₀ c₀ s₀ (fuel + 1) c s)
      (stepped : outcome (step getc isMultiline c) s = (.ok (.either d otherwise), s'))
      (failed : Fails getc isMultiline fuel d s' s₂)
      (other : outcome otherwise s₂ = (.ok e, s₃)) : Enters getc isMultiline fuel₀ c₀ s₀ fuel e s₃

theorem exceptBacktrack_fails {α : Type} {first second : Search α}
    (failed : outcome (exceptBacktrack first second) s = (.error .backtrack, s')) :
    ∃ s₂, outcome first s = (.error .backtrack, s₂) ∧
      outcome second s₂ = (.error .backtrack, s') := by
  unfold exceptBacktrack orElse at failed
  rw [outcome_tryCatch] at failed
  cases tried : outcome first s with
  | mk result s₂ =>
    rw [tried] at failed
    cases result with
    | ok a => cases failed
    | error e =>
      by_cases backtracks : e = .backtrack
      · subst backtracks
        exact ⟨s₂, rfl, failed⟩
      · simp only [if_neg backtracks] at failed
        cases failed
        exact absurd rfl backtracks

section Restores

variable {R : Array String → Array String → Prop} {fails : Call X → Array String → Array String → Prop}

theorem run_restores {fuel₀ : Nat} {c₀ : Call X} {s₀ : Array String}
    (trans : ∀ {s s' s''}, R s s' → R s' s'' → R s s'')
    (restores : ∀ fuel c s, Enters getc isMultiline fuel₀ c₀ s₀ (fuel + 1) c s →
      Restores R (Fails getc isMultiline fuel) s (outcome (step getc isMultiline c) s))
    {fuel : Nat} {c : Call X} {s s' : Array String}
    (entered : Enters getc isMultiline fuel₀ c₀ s₀ fuel c s)
    (failed : Fails getc isMultiline fuel c s s') : R s s' := by
  unfold Fails at failed
  induction fuel generalizing c s s' with
  | zero =>
    rw [run_zero] at failed
    cases failed
  | succ fuel ih =>
    have restored := restores _ _ _ entered
    rw [run_succ, outcome_bind] at failed
    cases stepped : outcome (step getc isMultiline c) s with
    | mk result s₁ =>
      rw [stepped] at failed restored
      cases result with
      | error e =>
        cases failed
        exact restored rfl
      | ok st =>
        cases st with
        | give a => cases failed
        | next d => exact trans restored (ih (.next entered stepped) failed)
        | either d otherwise =>
          obtain ⟨s₂, first, second⟩ := exceptBacktrack_fails failed
          have undone := restored s₂ first (ih (.first entered stepped) first)
          rw [outcome_bind] at second
          cases other : outcome otherwise s₂ with
          | mk result s₃ =>
            rw [other] at second undone
            cases result with
            | error e =>
              cases second
              exact undone rfl
            | ok e => exact trans undone (ih (.second entered stepped first other) second)

/-- The call skips `x`, and finds the table `s₂` then: no number of turns is in range, or none is
needed and the first one has failed. -/
def SkipsPart (fails : Call X → Array String → Array String → Prop) (c : Call X) (s : Array String)
    (x : AbstractRegularExpression) (s₂ : Array String) : Prop :=
  ∃ min max re, c.todo = some (.interval x min max :: re) ∧ (lesseq min max = false ∧ s₂ = s ∨
    lesseq min max = true ∧ min ≤ 0 ∧
      fails (c.enter x (.repeat' x c.pos min max 1 re c.found c.stack)) s s₂)

section Step

variable {c : Call X} {s : Array String}

theorem restores_either (d e : Call X) : Restores R fails s (outcome (return .either d (return e)) s) :=
  fun _ _ changed => changed

theorem restores_if {p : Prop} [Decidable p] {yes no : Search (Step X)}
    (left : Restores R fails s (outcome yes s)) (right : Restores R fails s (outcome no s)) :
    Restores R fails s (outcome (if p then yes else no) s) := by
  split
  · exact left
  · exact right

variable (refl : ∀ s, R s s)
include refl

theorem restores_next (d : Call X) : Restores R fails s (outcome (return .next d) s) := refl s

theorem restores_throw {e : Raised} : Restores R fails s (outcome (throw e : Search (Step X)) s) :=
  fun _ => refl s

variable (getc isMultiline) in
theorem restores_interval {x : AbstractRegularExpression} {min : Int} {max : Option Int}
    {re : List AbstractRegularExpression} (todo : c.todo = some (.interval x min max :: re))
    (skips : ∀ x s₂, SkipsPart fails c s x s₂ → R s s₂ →
      R s (outcome (emptyAlternative x : Search (List (RegexMatchResult X))) s₂).2) :
    Restores R fails s (outcome (stepMatch getc isMultiline (.interval x min max) re c) s) := by
  unfold stepMatch
  simp only
  split
  · split
    · exact restores_next refl _
    · rename_i positive
      intro s₂ failed changed
      have skipped := skips x s₂ ⟨min, max, re, todo, .inr ⟨‹_›, by omega, failed⟩⟩ changed
      rw [outcome_bind]
      cases emptied : outcome (emptyAlternative x : Search (List (RegexMatchResult X))) s₂ with
      | mk result s₃ =>
        rw [emptied] at skipped
        cases result with
        | ok _ => exact skipped
        | error _ => exact fun _ => skipped
  · rename_i apart
    have skipped := skips x s ⟨min, max, re, todo, .inl ⟨by simpa using apart, rfl⟩⟩ (refl s)
    simp only [bind_assoc, outcome_bind]
    cases emptied : outcome (emptyAlternative x : Search (List (RegexMatchResult X))) s with
    | mk result s' =>
      rw [emptied] at skipped
      cases result with
      | ok _ => exact skipped
      | error _ => exact fun _ => skipped

theorem restores_assign {v : Int} {f : String → String} {re : List AbstractRegularExpression}
    {start : X} {pos : Nat} {siblings : List (RegexMatchResult X)} {stack : ReturnStack X}
    (top : c.stack = .assign v f re start pos siblings stack)
    (assigned : ∀ {s' n value saved}, s[n]? = some saved → R (s.setIfInBounds n value) s' →
      R s (s'.setIfInBounds n saved)) : Restores R fails s (outcome (stepPop getc c) s) := by
  unfold stepPop
  rw [top]
  simp only
  cases outcome_getBackref v s with
  | inr raised =>
    rw [outcome_bind, raised]
    exact fun _ => refl s
  | inl got =>
    obtain ⟨saved, nonneg, held, got⟩ := got
    rw [outcome_bind_ok got, outcome_bind]
    cases read : outcome (getNChars getc (c.pos - pos) start) s with
    | mk result s' =>
      obtain rfl := getNChars_state read
      cases result with
      | error e => exact fun _ => refl s
      | ok matched =>
        have lt := (Array.getElem?_eq_some_iff.mp held).1
        simp only [outcome_bind, outcome_setBackref]
        rw [if_neg (by omega)]
        intro s₂ _ changed
        simp only [outcome_bind, outcome_setBackref]
        by_cases outside : v < 0 ∨ s₂.size ≤ v.toNat
        · simp only [if_pos outside]
          intro same
          cases same
        · simp only [if_neg outside]
          exact fun _ => assigned held changed

theorem step_restores (skips : ∀ x s₂, SkipsPart fails c s x s₂ → R s s₂ →
      R s (outcome (emptyAlternative x : Search (List (RegexMatchResult X))) s₂).2)
    (assigned : ∀ {s' n value saved}, s[n]? = some saved → R (s.setIfInBounds n value) s' →
      R s (s'.setIfInBounds n saved)) :
    Restores R fails s (outcome (step getc isMultiline c) s) := by
  obtain ⟨todo, pos, thisChar, lastChar, rest, found, stack⟩ := c
  have next (d : Call X) : Restores R fails s (outcome (return .next d) s) := restores_next refl d
  have none {e : Raised} : Restores R fails s (outcome (throw e : Search (Step X)) s) :=
    restores_throw refl
  cases todo with
  | none =>
    cases stack with
    | group | concat => exact next _
    | return' => trivial
    | assign v f re start pos' siblings stack =>
      exact restores_assign (c := ⟨.none, pos, thisChar, lastChar, rest, found, _⟩) refl rfl assigned
    | guard predicate re start pos' siblings stack =>
      change Restores R fails s (outcome (getNChars getc (pos - pos') start >>= _) s)
      rw [outcome_bind]
      cases read : outcome (getNChars getc (pos - pos') start) s with
      | mk result s' =>
        obtain rfl := getNChars_state read
        cases result with
        | error e => exact none
        | ok matched => exact restores_if (next _) none
    | repeat' foo pos' min max i re siblings stack =>
      exact restores_if none (restores_if (next _)
        (restores_if (restores_either _ _) (next _)))
  | some re =>
    cases re with
    | nil => exact next _
    | cons x re =>
      cases x with
      | char | matchSet | nonmatchSet =>
        cases thisChar with
        | some this => exact restores_if (next _) none
        | none =>
          simp only [step, stepMatch, stepOne]
          cases getc rest with
          | none => exact none
          | some this => exact next _
      | group | concat | star | plus | option | assign | guard => exact next _
      | alt es =>
        cases es with
        | nil => exact none
        | cons y ys =>
          cases ys with
          | nil => exact next _
          | cons => exact restores_either _ _
      | interval x min max =>
        exact restores_interval getc isMultiline refl rfl skips
      | begin | boundary => exact restores_if (next _) none
      | end' =>
        simp only [step, stepMatch]
        cases getc rest with
        | none => exact next _
        | some next' =>
          refine restores_if (restores_if (next _) ?_) none
          cases getc next'.2 with
          | none => exact next _
          | some _ => exact none
      | backRef f v =>
        simp only [step, stepMatch]
        cases outcome_getBackref v s with
        | inr raised =>
          rw [outcome_bind, raised]
          exact fun _ => refl s
        | inl got =>
          obtain ⟨saved, -, -, got⟩ := got
          rw [outcome_bind_ok got]
          cases matchBackref getc (f saved).toList lastChar rest with
          | none => exact none
          | some read => exact next _

end Step

end Restores

def Emptied (before after : Array String) : Prop :=
  after.size = before.size ∧ ∀ i : Nat, after[i]? = before[i]? ∨
    i < before.size ∧ after[i]? = some ""

theorem Emptied.refl (references : Array String) : Emptied references references :=
  ⟨rfl, fun _ => .inl rfl⟩

theorem Emptied.trans {first second third : Array String} (left : Emptied first second)
    (right : Emptied second third) : Emptied first third := by
  refine ⟨right.1.trans left.1, fun i => ?_⟩
  cases right.2 i with
  | inl same =>
    rw [same]
    exact left.2 i
  | inr emptied =>
    rw [left.1] at emptied
    exact .inr emptied

theorem Emptied.blank {after : Array String}
    (emptied : Emptied (Array.replicate n "") after) : after = Array.replicate n "" := by
  obtain ⟨size, kept⟩ := emptied
  apply Array.ext
  · rw [size, Array.size_replicate]
  · intro i lt lt'
    rw [Array.getElem_replicate]
    have at' := kept i
    rw [Array.getElem?_eq_getElem lt, Array.getElem?_eq_getElem lt', Array.getElem_replicate] at at'
    cases at' with
    | inl same => exact Option.some.inj same
    | inr emptied => exact Option.some.inj emptied.2

theorem Emptied.restored {value saved : String}
    (held : s[n]? = some saved) (emptied : Emptied (s.setIfInBounds n value) s') :
    Emptied s (s'.setIfInBounds n saved) := by
  obtain ⟨size, kept⟩ := emptied
  rw [Array.size_setIfInBounds] at size
  refine ⟨by rw [Array.size_setIfInBounds, size], fun i => ?_⟩
  rw [Array.getElem?_setIfInBounds]
  by_cases here : n = i
  · subst here
    have lt : n < s'.size := by
      rw [size]
      exact (Array.getElem?_eq_some_iff.mp held).1
    rw [if_pos rfl, if_pos lt, held]
    exact .inl rfl
  · have at' := kept i
    rw [Array.getElem?_setIfInBounds, if_neg here, Array.size_setIfInBounds] at at'
    rw [if_neg here]
    exact at'

section Changes

variable {α β : Type}

theorem changes_pure (a : α) : Changes Emptied (pure a : Search α) := fun s => Emptied.refl s

theorem changes_bind {x : Search α} {f : α → Search β} (first : Changes Emptied x)
    (rest : ∀ a, Changes Emptied (f a)) : Changes Emptied (x >>= f) := by
  intro s
  have changed := first s
  rw [outcome_bind]
  cases run : outcome x s with
  | mk result s' =>
    rw [run] at changed
    cases result with
    | error e => exact changed
    | ok a => exact changed.trans (rest a s')

theorem changes_setBackref (v : Int) : Changes Emptied (setBackref v "") := by
  intro s
  unfold setBackref
  rw [outcome_bind]
  change Emptied s (outcome (if v < 0 ∨ s.size ≤ v.toNat then throw .indexOutOfBounds
    else set (s.setIfInBounds v.toNat "") : Search Unit) s).2
  split
  · exact Emptied.refl s
  · rename_i inBounds
    refine ⟨Array.size_setIfInBounds, fun i => ?_⟩
    change (s.setIfInBounds v.toNat "")[i]? = s[i]? ∨
      i < s.size ∧ (s.setIfInBounds v.toNat "")[i]? = some ""
    rw [Array.getElem?_setIfInBounds]
    by_cases here : v.toNat = i
    · rw [if_pos here, if_pos (by omega)]
      exact .inr ⟨by omega, rfl⟩
    · rw [if_neg here]
      exact .inl rfl

mutual

theorem changes_emptyAlternative (e : AbstractRegularExpression) :
    Changes Emptied (emptyAlternative e : Search (List (RegexMatchResult X))) := by
  cases e with
  | group e => exact changes_bind (changes_emptyAlternative e) fun children => changes_pure _
  | alt l => exact changes_emptyAlternatives l
  | concat l => exact changes_emptyAlternatives l
  | interval e _ _ => exact changes_emptyAlternative e
  | option e => exact changes_emptyAlternative e
  | star e => exact changes_emptyAlternative e
  | plus e => exact changes_emptyAlternative e
  | assign v _ e => exact changes_bind (changes_setBackref v) fun _ => changes_emptyAlternative e
  | guard _ e => exact changes_emptyAlternative e
  | _ => exact changes_pure _

theorem changes_emptyAlternatives (l : List AbstractRegularExpression) :
    Changes Emptied (emptyAlternatives l : Search (List (RegexMatchResult X))) := by
  cases l with
  | nil => exact changes_pure _
  | cons e l =>
    exact changes_bind (changes_emptyAlternative e) fun first =>
      changes_bind (changes_emptyAlternatives l) fun rest => changes_pure _

end

end Changes

end Mythryl.Regex.PerlEngine

/-! # Positions and the stream -/

namespace Mythryl.Regex.PerlEngine
open AbstractRegularExpression Reader RaisingState BacktrackingSearch

variable {X : Type} {getc : Getc X} {origin : X} {isMultiline : Bool}

def Ahead (getc : Getc X) (pos : Nat) (rest : X) (pos' : Nat) (rest' : X) : Prop :=
  ∃ w, Reads getc w rest rest' ∧ pos' ≤ pos + w.length

theorem Ahead.refl (pos : Nat) (rest : X) : Ahead getc pos rest pos rest :=
  ⟨[], rfl, Nat.le_refl _⟩

variable {pos start : Nat} {rest : X} {trees : List (RegexMatchResult X)} {c : Call X}

theorem Ahead.trans {pos' pos'' : Nat} {rest' rest'' : X}
    (first : Ahead getc pos rest pos' rest') (second : Ahead getc pos' rest' pos'' rest'') :
    Ahead getc pos rest pos'' rest'' := by
  obtain ⟨w, reads, le⟩ := first
  obtain ⟨w', reads', le'⟩ := second
  refine ⟨w ++ w', reads_append.mpr ⟨rest', reads, reads'⟩, ?_⟩
  rw [List.length_append]
  omega

def Later (getc : Getc X) (origin s : X) : Prop := ∃ w, Reads getc w origin s

/-- The range lies in what can be read from its position, which comes after `origin`. -/
def InRange (getc : Getc X) (origin : X) (range : MatchedRange X) : Prop :=
  Later getc origin range.matchPosition ∧
    ∃ w rest, Reads getc w range.matchPosition rest ∧ range.matchLength ≤ w.length

mutual

def TreeOk (getc : Getc X) (origin : X) : RegexMatchResult X → Prop
  | .regexMatchResult root children =>
      (∀ range ∈ root, InRange getc origin range) ∧ TreesOk getc origin children

def TreesOk (getc : Getc X) (origin : X) : List (RegexMatchResult X) → Prop
  | [] => True
  | tree :: trees => TreeOk getc origin tree ∧ TreesOk getc origin trees

end

theorem treesOk_iff : TreesOk getc origin trees ↔ ∀ tree ∈ trees, TreeOk getc origin tree := by
  induction trees with
  | nil => simp [TreesOk]
  | cons tree trees ih => simp [TreesOk, ih]

theorem treesOk_append {trees' : List (RegexMatchResult X)} (ok : TreesOk getc origin trees)
    (ok' : TreesOk getc origin trees') : TreesOk getc origin (trees ++ trees') := by
  rw [treesOk_iff] at ok ok' ⊢
  intro tree mem
  exact (List.mem_append.mp mem).elim (ok tree) (ok' tree)

theorem treesOk_reverse (ok : TreesOk getc origin trees) : TreesOk getc origin trees.reverse := by
  rw [treesOk_iff] at ok ⊢
  intro tree mem
  exact ok tree (List.mem_reverse.mp mem)

def StackOk (getc : Getc X) (origin : X) (pos : Nat) (rest : X) : ReturnStack X → Prop
  | .group _ start pos' siblings stack =>
      Later getc origin start ∧ Ahead getc pos' start pos rest ∧ TreesOk getc origin siblings ∧
        StackOk getc origin pos rest stack
  | .assign _ _ _ _ _ found stack => TreesOk getc origin found ∧ StackOk getc origin pos rest stack
  | .guard _ _ _ _ found stack => TreesOk getc origin found ∧ StackOk getc origin pos rest stack
  | .concat _ stack => StackOk getc origin pos rest stack
  | .repeat' _ _ _ _ _ _ found stack =>
      TreesOk getc origin found ∧ StackOk getc origin pos rest stack
  | .return' => True

theorem StackOk.ahead {pos' : Nat} {rest' : X} {stack : ReturnStack X}
    (ok : StackOk getc origin pos rest stack) (ahead : Ahead getc pos rest pos' rest') :
    StackOk getc origin pos' rest' stack := by
  induction stack with
  | group re start pos'' siblings stack ih =>
    exact ⟨ok.1, ok.2.1.trans ahead, ok.2.2.1, ih ok.2.2.2⟩
  | assign v f re start pos'' found stack ih => exact ⟨ok.1, ih ok.2⟩
  | guard predicate re start pos'' found stack ih => exact ⟨ok.1, ih ok.2⟩
  | concat re stack ih => exact ih ok
  | repeat' foo pos'' min max i re found stack ih => exact ⟨ok.1, ih ok.2⟩
  | return' => trivial

theorem placed_treesOk : Placed (TreesOk getc origin) where
  nil := trivial
  append := treesOk_append
  group ok := ⟨⟨by simp, ok⟩, trivial⟩

theorem stackOk_outer {stack stack' : ReturnStack X} {re found}
    (outer : stack.outer = some (re, found, stack')) :
    StackOk getc origin pos rest stack ↔ TreesOk getc origin found ∧ StackOk getc origin pos rest stack' := by
  cases stack with
  | assign | guard | repeat' =>
    cases outer
    rfl
  | group | concat | return' => cases outer

structure Good (getc : Getc X) (origin : X) (start : Nat) (c : Call X) : Prop where
  ahead : Ahead getc start origin c.pos c.rest
  found : TreesOk getc origin c.found
  stack : StackOk getc origin c.pos c.rest c.stack

theorem Good.later (good : Good getc origin start c) : Later getc origin c.rest := by
  obtain ⟨w, reads, -⟩ := good.ahead
  exact ⟨w, reads⟩

theorem Good.forward {d : Call X} (good : Good getc origin start c)
    (ahead : Ahead getc c.pos c.rest d.pos d.rest) (found : d.found = c.found)
    (stack : d.stack = c.stack) : Good getc origin start d := by
  refine ⟨good.ahead.trans ahead, ?_, ?_⟩
  · rw [found]
    exact good.found
  · rw [stack]
    exact good.stack.ahead ahead

theorem Good.moves {d : Call X} (good : Good getc origin start c)
    (moves : Moves getc isMultiline c d) : Good getc origin start d := by
  cases moves with
  | fetch | go => exact ⟨good.ahead, good.found, good.stack⟩
  | read reads => exact good.forward ⟨_, reads, Nat.le_refl _⟩ rfl rfl
  -- a line end that ends the text is passed without counting it
  | lineEnd _ _ got _ => exact good.forward ⟨['\n'], ⟨_, got, rfl⟩, by simp⟩ rfl rfl
  | skip x =>
    exact ⟨good.ahead, treesOk_append (treesOk_reverse (placed_treesOk.one x)) good.found, good.stack⟩
  | concat es re => exact ⟨good.ahead, good.found, good.stack⟩
  | group x re => exact ⟨good.ahead, trivial, good.later, .refl _ _, good.found, good.stack⟩
  | enter x outer => exact ⟨good.ahead, trivial, (stackOk_outer outer).mpr ⟨good.found, good.stack⟩⟩
  | again x before outer =>
    exact ⟨good.ahead, trivial, (stackOk_outer outer).mpr ((stackOk_outer before).mp good.stack)⟩
  | popGroup top =>
    have stack := good.stack
    rw [top] at stack
    obtain ⟨startLater, ⟨w, reads, le⟩, siblings, stack⟩ := stack
    refine ⟨good.ahead, ⟨⟨?_, treesOk_reverse good.found⟩, siblings⟩, stack⟩
    intro range mem
    cases mem
    exact ⟨startLater, w, _, reads, by simp only; omega⟩
  | popConcat top =>
    have stack := good.stack
    rw [top] at stack
    exact ⟨good.ahead, good.found, stack⟩
  | pop outer =>
    have stack := (stackOk_outer outer).mp good.stack
    exact ⟨good.ahead, treesOk_append good.found stack.1, stack.2⟩

theorem Path.good {calls : List (Call X × Bool)} {a : Success X}
    (path : Path getc isMultiline c calls a) (fetched : Fetched getc c)
    (good : Good getc origin start c) :
    Ahead getc start origin a.pos a.restOfString ∧ TreesOk getc origin a.matchesFound := by
  induction path with
  | give stepped =>
    obtain ⟨-, -, rfl⟩ := step_moves fetched _ _ _ stepped
    exact ⟨good.ahead, treesOk_reverse good.found⟩
  | next stepped goes _ ih =>
    obtain ⟨moves, fetched⟩ := (step_moves fetched _ _ _ stepped).goes goes
    exact ih fetched (good.moves moves)

theorem scan_good {re : CompiledRegularExpression} {fuel : Nat} {stream : X} {last : Buf X}
    {m : RegexMatchResult X} {references references' : Array String}
    (run : outcome (scan getc fuel re pos stream last) references
      = (.ok (some (m, rest)), references')) :
    TreeOk getc stream m ∧ ∃ w length, Reads getc w stream rest ∧ m.root = some ⟨stream, length⟩ ∧
      length ≤ w.length := by
  obtain ⟨a, path, rfl, rfl⟩ := scan_path run
  obtain ⟨⟨w, reads, le⟩, ok⟩ := path.good (.inl rfl) ⟨Ahead.refl pos stream, trivial, trivial⟩
  have short : a.pos - pos ≤ w.length := by omega
  refine ⟨⟨?_, ok⟩, w, _, reads, rfl, short⟩
  intro range mem
  cases mem
  exact ⟨⟨[], rfl⟩, w, _, reads, short⟩

end Mythryl.Regex.PerlEngine
