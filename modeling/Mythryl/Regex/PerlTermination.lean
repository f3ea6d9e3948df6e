import Mythryl.Regex.PerlFuel
import Mythryl.Regex.PerlLanguage

/-! # Termination of the Perl engine -/

namespace Mythryl.Regex.PerlEngine
open AbstractRegularExpression Reader RaisingState BacktrackingSearch

def Mentions (v : Int) (x : AbstractRegularExpression) : Prop :=
  (∃ f e, Part (.assign v f e) x) ∨ ∃ f, Part (.backRef f v) x

/-- The references of `x` are among the first `n`, unless `outside` holds. -/
def Within (n : Nat) (outside : Prop) (x : AbstractRegularExpression) : Prop :=
  ∀ v, Mentions v x → outside ∨ 0 ≤ v ∧ v < n

theorem Within.part {n : Nat} {outside : Prop} {x y : AbstractRegularExpression}
    (inside : Within n outside y) (part : Part x y) : Within n outside x := by
  intro v mentions
  apply inside v
  apply mentions.imp
  · exact fun ⟨f, e, assigned⟩ => ⟨f, e, assigned.trans part⟩
  · exact fun ⟨f, referred⟩ => ⟨f, referred.trans part⟩

/-- What a search comes to that ends: the table keeps its size, and `INDEX_OUT_OF_BOUNDS` is raised
only when `outside` holds. -/
inductive Settled {α : Type} (n : Nat) (outside : Prop) (P : α → Prop) :
    Except Raised α × Array String → Prop
  | ok {a s} (size : s.size = n) (holds : P a) : Settled n outside P (.ok a, s)
  | backtrack {s} (size : s.size = n) : Settled n outside P (.error .backtrack, s)
  | raised {s} (reason : outside) : Settled n outside P (.error .indexOutOfBounds, s)

def Ok {α : Type} (n : Nat) (outside : Prop) (m : Search α) (P : α → Prop) : Prop :=
  ∀ s : Array String, s.size = n → Settled n outside P (outcome m s)

section Rules

variable {α β : Type} {n : Nat} {outside : Prop} {P : α → Prop} {Q : β → Prop}

theorem ok_pure {a : α} (holds : P a) : Ok n outside (pure a) P := fun _ size => .ok size holds

theorem ok_backtrack : Ok n outside (throw .backtrack : Search α) P := fun _ size => .backtrack size

theorem ok_bind {m : Search α} {f : α → Search β} (first : Ok n outside m P)
    (rest : ∀ a, P a → Ok n outside (f a) Q) : Ok n outside (m >>= f) Q := by
  intro s size
  rw [outcome_bind]
  have settled := first s size
  cases ran : outcome m s with
  | mk result s' =>
    rw [ran] at settled
    cases settled with
    | ok size holds => exact rest _ holds s' size
    | backtrack size => exact .backtrack size
    | raised reason => exact .raised reason

theorem ok_if {c : Prop} [Decidable c] {yes no : Search α} (left : c → Ok n outside yes P)
    (right : ¬c → Ok n outside no P) : Ok n outside (if c then yes else no) P := by
  split
  · exact left ‹_›
  · exact right ‹_›

variable {v : Int} (inside : outside ∨ 0 ≤ v ∧ v < n)
include inside

theorem ok_getBackref : Ok n outside (getBackref v) fun _ => True := by
  intro s size
  obtain ⟨saved, -, -, found⟩ | raised := outcome_getBackref v s
  · rw [found]
    exact .ok size trivial
  · rw [raised]
    cases inside with
    | inl reason => exact .raised reason
    | inr inside =>
      have lt : v.toNat < s.size := by omega
      have found : outcome (getBackref v) s = (.ok s[v.toNat], s) := by
        unfold getBackref
        simp only [outcome_bind, outcome_get, if_neg (show ¬v < 0 by omega),
          Array.getElem?_eq_getElem lt]
        rfl
      rw [found] at raised
      cases raised

theorem ok_setBackref (value : String) : Ok n outside (setBackref v value) fun _ => True := by
  intro s size
  rw [outcome_setBackref]
  split
  · cases inside with
    | inl reason => exact .raised reason
    | inr inside => omega
  · exact .ok (by simp [size]) trivial

end Rules

section Searches

variable {X : Type} {getc : Getc X} {isMultiline : Bool} {n : Nat} {outside : Prop}

theorem ok_getNChars {w : List Char} {k : Nat} {s s' : X} (reads : Reads getc w s s')
    (enough : k ≤ w.length) : Ok n outside (getNChars getc k s) fun _ => True := by
  induction k generalizing w s with
  | zero => exact ok_pure trivial
  | succ k ih =>
    cases w with
    | nil => cases enough
    | cons c w =>
      obtain ⟨m, got, reads⟩ := reads
      rw [getNChars, got]
      exact ok_bind (ih reads (Nat.le_of_succ_le_succ enough)) fun _ _ => ok_pure trivial

mutual

theorem ok_emptyAlternative (e : AbstractRegularExpression) (inside : Within n outside e) :
    Ok n outside (emptyAlternative e : Search (List (RegexMatchResult X))) fun _ => True := by
  cases e with
  | group e =>
    have children := ok_emptyAlternative e (inside.part (.group .whole))
    exact ok_bind children fun _ _ => ok_pure trivial
  | alt l => exact ok_emptyAlternatives l fun e mem => inside.part (.alt mem .whole)
  | concat l => exact ok_emptyAlternatives l fun e mem => inside.part (.concat mem .whole)
  | interval e _ _ => exact ok_emptyAlternative e (inside.part (.interval .whole))
  | option e => exact ok_emptyAlternative e (inside.part (.option .whole))
  | star e => exact ok_emptyAlternative e (inside.part (.star .whole))
  | plus e => exact ok_emptyAlternative e (inside.part (.plus .whole))
  | assign v f e =>
    have emptied := ok_setBackref (inside v (.inl ⟨f, e, .whole⟩)) ""
    exact ok_bind emptied fun _ _ => ok_emptyAlternative e (inside.part (.assign .whole))
  | guard _ e => exact ok_emptyAlternative e (inside.part (.guard .whole))
  | _ => exact ok_pure trivial

theorem ok_emptyAlternatives (l : List AbstractRegularExpression)
    (inside : ∀ e ∈ l, Within n outside e) :
    Ok n outside (emptyAlternatives l : Search (List (RegexMatchResult X))) fun _ => True := by
  cases l with
  | nil => exact ok_pure trivial
  | cons e l =>
    have first := ok_emptyAlternative e (inside e (List.mem_cons_self ..))
    have rest := ok_emptyAlternatives l fun e mem => inside e (List.mem_cons_of_mem _ mem)
    exact ok_bind first fun _ _ => ok_bind rest fun _ _ => ok_pure trivial

end

variable (getc isMultiline n outside)

def Halts (c : Call X) : Prop :=
  ∀ s : Array String, s.size = n →
    ∃ fuel, Settled n outside (fun _ => True) (outcome (run getc isMultiline fuel c) s)

def Leads : Step X → Prop
  | .give _ => True
  | .next d => Halts getc isMultiline n outside d
  | .either d otherwise => Halts getc isMultiline n outside d ∧
      Ok n outside otherwise (Halts getc isMultiline n outside)

variable {getc isMultiline n outside}

theorem run_more {fuel fuel' : Nat} {c : Call X} {s : Array String}
    (settled : Settled n outside (fun _ => True) (outcome (run getc isMultiline fuel c) s))
    (le : fuel ≤ fuel') :
    outcome (run getc isMultiline fuel' c) s = outcome (run getc isMultiline fuel c) s := by
  induction fuel', le using Nat.le_induction with
  | base => rfl
  | succ fuel' le ih =>
    obtain ⟨s', stopped⟩ | ⟨same, -⟩ := run_steady fuel' c s
    · rw [ih] at stopped
      rw [stopped] at settled
      cases settled
    · rw [← same, ih]

/-- A handler for `BACKTRACK` gives the second search the fuel it needs. -/
theorem halts_either {d : Call X} {otherwise : Search (Call X)}
    (first : Halts getc isMultiline n outside d)
    (second : Ok n outside otherwise (Halts getc isMultiline n outside)) {s : Array String}
    (size : s.size = n) : ∃ fuel, Settled n outside (fun _ => True)
      (outcome (exceptBacktrack (run getc isMultiline fuel d)
        (otherwise >>= run getc isMultiline fuel)) s) := by
  obtain ⟨fuel, settled⟩ := first s size
  cases ran : outcome (run getc isMultiline fuel d) s with
  | mk result s' =>
    have settled' := settled
    rw [ran] at settled'
    cases settled' with
    | ok size => exact ⟨fuel, outcome_orElse_ok ran ▸ .ok size trivial⟩
    | raised reason =>
      refine ⟨fuel, ?_⟩
      rw [exceptBacktrack, orElse, outcome_tryCatch, ran]
      exact .raised reason
    | backtrack size =>
      have other := second s' size
      cases went : outcome otherwise s' with
      | mk result s₂ =>
        rw [went] at other
        cases other with
        | backtrack size =>
          refine ⟨fuel, ?_⟩
          rw [exceptBacktrack, outcome_orElse_fail ran, outcome_bind, went]
          exact .backtrack size
        | raised reason =>
          refine ⟨fuel, ?_⟩
          rw [exceptBacktrack, outcome_orElse_fail ran, outcome_bind, went]
          exact .raised reason
        | ok size halts =>
          obtain ⟨fuel', settled'⟩ := halts s₂ size
          have ran' := (run_more settled (Nat.le_max_left fuel fuel')).trans ran
          refine ⟨max fuel fuel', ?_⟩
          rw [exceptBacktrack, outcome_orElse_fail ran', outcome_bind_ok went,
            run_more settled' (Nat.le_max_right _ _)]
          exact settled'

theorem halts_of_step {c : Call X}
    (steps : Ok n outside (step getc isMultiline c) (Leads getc isMultiline n outside)) :
    Halts getc isMultiline n outside c := by
  intro s size
  suffices halts : ∃ fuel, Settled n outside (fun _ => True)
      (outcome (step getc isMultiline c >>= Step.continue pure (run getc isMultiline fuel)) s) by
    obtain ⟨fuel, settled⟩ := halts
    refine ⟨fuel + 1, ?_⟩
    rw [run_succ]
    exact settled
  have settled := steps s size
  cases stepped : outcome (step getc isMultiline c) s with
  | mk result s' =>
    rw [stepped] at settled
    simp only [outcome_bind, stepped]
    cases settled with
    | backtrack size => exact ⟨0, .backtrack size⟩
    | raised reason => exact ⟨0, .raised reason⟩
    | @ok st _ size leads =>
      cases st with
      | give a => exact ⟨0, .ok size trivial⟩
      | next d => exact leads s' size
      | either d otherwise => exact halts_either leads.1 leads.2 size

end Searches

section Continuations

variable {X : Type} (getc : Getc X) (isMultiline : Bool) (n : Nat) (outside : Prop)

def FiniteStream (rest : X) : Prop := ∃ text, Spells getc text rest

def Onward (pos : Nat) (rest : X) (pos' : Nat) (rest' : X) : Prop :=
  pos ≤ pos' ∧ Ahead getc pos rest pos' rest'

def HaltsAfter (re : List AbstractRegularExpression) (stack : ReturnStack X) (pos : Nat) (rest : X) :
    Prop :=
  ∀ pos' last' rest' found', Onward getc pos rest pos' rest' →
    Halts getc isMultiline n outside ⟨some re, pos', none, last', rest', found', stack⟩

def PopsAfter (stack : ReturnStack X) (pos : Nat) (rest : X) : Prop :=
  ∀ pos' last' rest' found', Onward getc pos rest pos' rest' →
    Halts getc isMultiline n outside ⟨none, pos', none, last', rest', found', stack⟩

def Passes (x : AbstractRegularExpression) : Prop :=
  ∀ re stack pos rest, FiniteStream getc rest → HaltsAfter getc isMultiline n outside re stack pos rest →
    HaltsAfter getc isMultiline n outside (x :: re) stack pos rest

variable {getc isMultiline n outside}

variable {x : AbstractRegularExpression} {re : List AbstractRegularExpression}
  {stack : ReturnStack X} {pos pos' : Nat} {rest rest' : X}

theorem Onward.refl (pos : Nat) (rest : X) : Onward getc pos rest pos rest :=
  ⟨Nat.le_refl _, .refl _ _⟩

theorem Onward.trans {pos'' : Nat} {rest'' : X} (first : Onward getc pos rest pos' rest')
    (second : Onward getc pos' rest' pos'' rest'') : Onward getc pos rest pos'' rest'' :=
  ⟨first.1.trans second.1, first.2.trans second.2⟩

theorem onward_reads {w : List Char} (reads : Reads getc w rest rest') :
    Onward getc pos rest (pos + w.length) rest' :=
  ⟨Nat.le_add_right _ _, w, reads, Nat.le_refl _⟩

theorem spells_reads {w text : List Char} (spells : Spells getc text rest)
    (reads : Reads getc w rest rest') : ∃ text', text = w ++ text' ∧ Spells getc text' rest' := by
  induction w generalizing text rest with
  | nil =>
    cases reads
    exact ⟨text, rfl, spells⟩
  | cons c w ih =>
    obtain ⟨m, got, reads⟩ := reads
    cases text with
    | nil =>
      rw [spells.nil] at got
      cases got
    | cons c' text =>
      obtain ⟨next, got', spells⟩ := spells.cons
      rw [got] at got'
      cases got'
      obtain ⟨text', rfl, spells'⟩ := ih spells reads
      exact ⟨text', rfl, spells'⟩

theorem FiniteStream.later (finite : FiniteStream getc rest) (onward : Onward getc pos rest pos' rest') :
    FiniteStream getc rest' := by
  obtain ⟨text, spells⟩ := finite
  obtain ⟨-, w, reads, -⟩ := onward
  obtain ⟨text', -, spells'⟩ := spells_reads spells reads
  exact ⟨text', spells'⟩

theorem Onward.span (onward : Onward getc pos rest pos' rest') :
    ∃ w, Reads getc w rest rest' ∧ pos' - pos ≤ w.length := by
  obtain ⟨-, w, reads, near⟩ := onward
  exact ⟨w, reads, by omega⟩

theorem HaltsAfter.later (after : HaltsAfter getc isMultiline n outside re stack pos rest)
    (onward : Onward getc pos rest pos' rest') :
    HaltsAfter getc isMultiline n outside re stack pos' rest' :=
  fun _ _ _ _ onward' => after _ _ _ _ (onward.trans onward')

theorem HaltsAfter.here (after : HaltsAfter getc isMultiline n outside re stack pos rest)
    (last : Buf X) (found : List (RegexMatchResult X)) :
    Halts getc isMultiline n outside ⟨some re, pos, none, last, rest, found, stack⟩ :=
  after _ _ _ _ (.refl _ _)

theorem PopsAfter.nil (pops : PopsAfter getc isMultiline n outside stack pos rest) :
    HaltsAfter getc isMultiline n outside [] stack pos rest :=
  fun _ _ _ _ onward => halts_of_step (ok_pure (pops _ _ _ _ onward))

theorem Passes.enter (passes : Passes getc isMultiline n outside x) (finite : FiniteStream getc rest)
    (pops : PopsAfter getc isMultiline n outside stack pos rest) (last : Buf X) :
    Halts getc isMultiline n outside ⟨some [x], pos, none, last, rest, [], stack⟩ :=
  (passes [] stack pos rest finite pops.nil).here last []

theorem passes_of_step (steps : ∀ re stack pos last rest found, FiniteStream getc rest →
      HaltsAfter getc isMultiline n outside re stack pos rest →
      Ok n outside (step getc isMultiline ⟨some (x :: re), pos, none, last, rest, found, stack⟩)
        (Leads getc isMultiline n outside)) : Passes getc isMultiline n outside x := by
  intro re stack pos rest finite after pos' last' rest' found' onward
  exact halts_of_step (steps _ _ _ _ _ _ (finite.later onward) (after.later onward))

theorem passes_one (wants : wantsChar x = true) : Passes getc isMultiline n outside x := by
  apply passes_of_step
  intro re stack pos last rest found finite after
  have one (this last : Buf X) :
      step getc isMultiline ⟨some (x :: re), pos, this, last, rest, found, stack⟩ =
        stepOne getc x re ⟨some (x :: re), pos, this, last, rest, found, stack⟩ := by
    cases x with
    | char | matchSet | nonmatchSet => rfl
    | _ => cases wants
  rw [one]
  unfold stepOne
  cases got : getc rest with
  | none => exact ok_backtrack
  | some next =>
    -- the same item again, with the character fetched
    refine ok_pure (halts_of_step ?_)
    rw [one]
    have reads : Reads getc [next.1] rest next.2 := ⟨next.2, got, rfl⟩
    exact ok_if (fun _ => ok_pure (after _ _ _ _ (onward_reads reads))) fun _ => ok_backtrack

theorem passes_alt {es : List AbstractRegularExpression}
    (parts : ∀ e ∈ es, Passes getc isMultiline n outside e) :
    Passes getc isMultiline n outside (.alt es) := by
  induction es with
  | nil => exact passes_of_step fun re stack pos last rest found finite after => ok_backtrack
  | cons e es ih =>
    rw [List.forall_mem_cons] at parts
    apply passes_of_step
    intro re stack pos last rest found finite after
    have first := (parts.1 re stack pos rest finite after).here last found
    cases es with
    | nil => exact ok_pure first
    | cons e' es =>
      exact ok_pure ⟨first, ok_pure ((ih parts.2 re stack pos rest finite after).here last found)⟩

theorem passes_all {es : List AbstractRegularExpression}
    (parts : ∀ e ∈ es, Passes getc isMultiline n outside e) (finite : FiniteStream getc rest)
    (pops : PopsAfter getc isMultiline n outside stack pos rest) :
    HaltsAfter getc isMultiline n outside es stack pos rest := by
  induction es with
  | nil => exact pops.nil
  | cons e es ih =>
    rw [List.forall_mem_cons] at parts
    exact parts.1 es stack pos rest finite (ih parts.2)

theorem repeat_pops (passes : Passes getc isMultiline n outside x) {min : Int} {max : Option Int}
    {found : List (RegexMatchResult X)} (after : HaltsAfter getc isMultiline n outside re stack pos rest)
    {i : Int} (again : ∀ pos' rest', Onward getc pos rest pos' rest' → ¬(i > 1 ∧ pos' = pos) →
      PopsAfter getc isMultiline n outside (.repeat' x pos' min max (i + 1) re found stack) pos' rest')
    (finite : FiniteStream getc rest) :
    PopsAfter getc isMultiline n outside (.repeat' x pos min max i re found stack) pos rest := by
  intro pos' last' rest' found' onward
  apply halts_of_step
  refine ok_if (fun _ => ok_backtrack) fun moved => ?_
  have turn := passes.enter (finite.later onward) (again pos' rest' onward moved) last'
  refine ok_if (fun _ => ok_pure turn) fun _ => ?_
  have leave := after _ last' _ (found' ++ found) onward
  exact ok_if (fun _ => ok_pure ⟨turn, ok_pure leave⟩) fun _ => ok_pure leave

/-- Each turn from the second on shortens what is left of the text. -/
theorem pops_later_turn (passes : Passes getc isMultiline n outside x) {min : Int} {max : Option Int}
    {found : List (RegexMatchResult X)} (after : HaltsAfter getc isMultiline n outside re stack pos rest)
    {i : Int} (later : i > 1) (finite : FiniteStream getc rest) :
    PopsAfter getc isMultiline n outside (.repeat' x pos min max i re found stack) pos rest := by
  obtain ⟨text, spells⟩ := finite
  induction length : text.length using Nat.strong_induction_on generalizing text pos rest i with
  | _ k ih =>
    refine repeat_pops passes after (fun pos' rest' onward moved => ?_) ⟨text, spells⟩
    obtain ⟨le, w, reads, near⟩ := onward
    obtain ⟨text', rfl, spells'⟩ := spells_reads spells reads
    have shorter : text'.length < k := by
      rw [List.length_append] at length
      omega
    exact ih _ shorter (after.later ⟨le, w, reads, near⟩) (by omega) text' spells' rfl

theorem passes_interval (passes : Passes getc isMultiline n outside x) (inside : Within n outside x)
    (min : Int) (max : Option Int) : Passes getc isMultiline n outside (.interval x min max) := by
  apply passes_of_step
  intro re stack pos last rest found finite after
  have try' : Halts getc isMultiline n outside ⟨some [x], pos, none, last, rest, [],
      .repeat' x pos min max 1 re found stack⟩ := by
    refine passes.enter finite (repeat_pops passes after (fun pos' rest' onward _ => ?_) finite) last
    exact pops_later_turn passes (after.later onward) (by omega) (finite.later onward)
  have skip : Ok n outside (do
      return (⟨some re, pos, none, last, rest, (← emptyAlternative x).reverse ++ found, stack⟩ : Call X))
      (Halts getc isMultiline n outside) :=
    ok_bind (ok_emptyAlternative x inside) fun skipped _ => ok_pure (after.here last _)
  refine ok_if (fun _ => ok_if (fun _ => ok_pure try') fun _ => ok_pure ⟨try', skip⟩) fun _ => ?_
  exact ok_bind skip fun d halts => ok_pure halts

theorem passes_end : Passes getc isMultiline n outside .end' := by
  apply passes_of_step
  intro re stack pos last rest found finite after
  change Ok n outside (stepMatch getc isMultiline .end' re _) _
  unfold stepMatch
  cases got : getc rest with
  | none => exact ok_pure (after.here last found)
  | some next =>
    obtain ⟨c, rest'⟩ := next
    have reads : Reads getc [c] rest rest' := ⟨rest', got, rfl⟩
    refine ok_if (fun _ => ok_if (fun _ => ?_) fun _ => ?_) fun _ => ok_backtrack
    · exact ok_pure (after _ _ _ _ (onward_reads reads))
    · cases getc rest' with
      -- here the stream moves on and the position does not
      | none => exact ok_pure (after _ _ _ _ ⟨Nat.le_refl _, [c], reads, Nat.le_add_right _ _⟩)
      | some next => exact ok_backtrack

theorem passes_assign (passes : Passes getc isMultiline n outside x) {v : Int} {f : String → String}
    (inside : outside ∨ 0 ≤ v ∧ v < n) : Passes getc isMultiline n outside (.assign v f x) := by
  apply passes_of_step
  intro re stack pos last rest found finite after
  refine ok_pure (passes.enter finite (fun pos' last' rest' found' onward => halts_of_step ?_) last)
  obtain ⟨w, reads, enough⟩ := onward.span
  refine ok_bind (ok_getBackref inside) fun saved _ => ?_
  refine ok_bind (ok_getNChars reads enough) fun matched _ => ?_
  refine ok_bind (ok_setBackref inside _) fun _ _ => ok_pure ⟨after _ _ _ _ onward, ?_⟩
  exact ok_bind (ok_setBackref inside saved) fun _ _ => ok_backtrack

theorem passes_guard (passes : Passes getc isMultiline n outside x) (predicate : String → Bool) :
    Passes getc isMultiline n outside (.guard predicate x) := by
  apply passes_of_step
  intro re stack pos last rest found finite after
  refine ok_pure (passes.enter finite (fun pos' last' rest' found' onward => halts_of_step ?_) last)
  obtain ⟨w, reads, enough⟩ := onward.span
  refine ok_bind (ok_getNChars reads enough) fun matched _ => ?_
  exact ok_if (fun _ => ok_pure (after _ _ _ _ onward)) fun _ => ok_backtrack

theorem passes_backRef {v : Int} (inside : outside ∨ 0 ≤ v ∧ v < n) (f : String → String) :
    Passes getc isMultiline n outside (.backRef f v) := by
  apply passes_of_step
  intro re stack pos last rest found finite after
  refine ok_bind (ok_getBackref inside) fun saved _ => ?_
  cases matched : matchBackref getc (f saved).toList last rest with
  | none => simp only [matched]; exact ok_backtrack
  | some read =>
    simp only [matched]
    exact ok_pure (after _ _ _ _ (onward_reads (matchBackref_reads matched)))

theorem passes (x : AbstractRegularExpression) (inside : Within n outside x) :
    Passes getc isMultiline n outside x := by
  cases x with
  | group e =>
    have part := passes e (inside.part (.group .whole))
    apply passes_of_step
    intro re stack pos last rest found finite after
    refine ok_pure (part.enter finite (fun pos' last' rest' found' onward => ?_) last)
    exact halts_of_step (ok_pure (after _ _ _ _ onward))
  | alt es => exact passes_alt fun e mem => passes e (inside.part (.alt mem .whole))
  | concat es =>
    have parts := fun e mem => passes e (inside.part (.concat mem .whole))
    apply passes_of_step
    intro re stack pos last rest found finite after
    refine ok_pure ((passes_all parts finite fun pos' last' rest' found' onward => ?_).here last found)
    exact halts_of_step (ok_pure (after _ _ _ _ onward))
  | interval e min max =>
    have within := inside.part (.interval .whole)
    exact passes_interval (passes e within) within min max
  | star e =>
    have within := inside.part (.star .whole)
    have turns := passes_interval (passes e within) within 0 none
    exact passes_of_step fun _ _ _ last _ found finite after =>
      ok_pure ((turns _ _ _ _ finite after).here last found)
  | plus e =>
    have within := inside.part (.plus .whole)
    have turns := passes_interval (passes e within) within 1 none
    exact passes_of_step fun _ _ _ last _ found finite after =>
      ok_pure ((turns _ _ _ _ finite after).here last found)
  | option e =>
    have within := inside.part (.option .whole)
    have turns := passes_interval (passes e within) within 0 (some 1)
    exact passes_of_step fun _ _ _ last _ found finite after =>
      ok_pure ((turns _ _ _ _ finite after).here last found)
  | matchSet | nonmatchSet | char => exact passes_one rfl
  | begin | boundary =>
    exact passes_of_step fun _ _ _ last _ found _ after =>
      ok_if (fun _ => ok_pure (after.here last found)) fun _ => ok_backtrack
  | end' => exact passes_end
  | assign v f e =>
    have part := passes e (inside.part (.assign .whole))
    exact passes_assign part (inside v (.inl ⟨f, e, .whole⟩))
  | backRef f v => exact passes_backRef (inside v (.inr ⟨f, .whole⟩)) f
  | guard predicate e => exact passes_guard (passes e (inside.part (.guard .whole))) predicate
termination_by sizeOf x

end Continuations

/-- On a stream that ends, a scan ends for every regular expression, position and table: it finds a
match or none, or raises `INDEX_OUT_OF_BOUNDS` for a reference that the table lacks. -/
theorem scan_terminates {X : Type} {getc : Getc X} {stream : X} (finite : FiniteStream getc stream)
    (re : CompiledRegularExpression) (pos : Nat) (last : Buf X) (references : Array String) :
    ∃ enough result references', (∀ fuel ≥ enough,
      outcome (scan getc fuel re pos stream last) references = (result, references')) ∧
      ((∃ found, result = .ok found) ∨ result = .error .indexOutOfBounds ∧
        ∃ v, Mentions v re.regexp ∧ (v < 0 ∨ references.size ≤ v)) := by
  let outside := ∃ v, Mentions v re.regexp ∧ (v < 0 ∨ references.size ≤ v)
  have inside : Within references.size outside re.regexp := by
    intro v mentions
    by_cases within : 0 ≤ v ∧ v < references.size
    · exact .inr within
    · exact .inl ⟨v, mentions, by omega⟩
  have after : HaltsAfter getc re.multiline references.size outside [] .return' pos stream :=
    PopsAfter.nil fun _ _ _ _ _ => halts_of_step (ok_pure trivial)
  have halts := (passes re.regexp inside [] .return' pos stream finite after).here last []
  obtain ⟨enough, settled⟩ := halts references rfl
  refine ⟨enough, ?_⟩
  cases ran : outcome (run getc re.multiline enough (.start re.regexp pos stream last)) references with
  | mk result s =>
    have more : ∀ fuel ≥ enough, outcome (matchRegex getc re.multiline fuel [re.regexp] pos none last
        stream [] .return') references = (result, s) :=
      fun fuel le => (run_more settled le).trans ran
    have settled' := settled
    rw [Call.start] at ran
    rw [ran] at settled'
    cases settled' with
    | @ok a _ size =>
      refine ⟨.ok (some (.regexMatchResult (some ⟨stream, a.pos - pos⟩) a.matchesFound,
        a.restOfString)), s, fun fuel le => ?_, .inl ⟨_, rfl⟩⟩
      apply outcome_orElse_ok
      rw [outcome_bind_ok (more fuel le)]
      rfl
    | backtrack size =>
      refine ⟨.ok none, s, fun fuel le => ?_, .inl ⟨_, rfl⟩⟩
      have failed : outcome (do
          let found ← matchRegex getc re.multiline fuel [re.regexp] pos none last stream [] .return'
          return some (RegexMatchResult.regexMatchResult (some ⟨stream, found.pos - pos⟩)
            found.matchesFound, found.restOfString)) references = (.error .backtrack, s) := by
        rw [outcome_bind, more fuel le]
      exact outcome_orElse_fail failed
    | raised reason =>
      refine ⟨.error .indexOutOfBounds, s, fun fuel le => ?_, .inr ⟨rfl, reason⟩⟩
      unfold scan exceptBacktrack orElse
      rw [outcome_tryCatch, outcome_bind, more fuel le]
      rfl

theorem scan_terminates_nested : ∃ enough result references', (∀ fuel ≥ enough,
    outcome (scan ofList fuel (compile (.star (.star (.option (.char 'a'))))) 0 ['a'] none) #[] =
      (result, references')) ∧ ((∃ found, result = .ok found) ∨ result = .error .indexOutOfBounds ∧
      ∃ v, Mentions v (compile (.star (.star (.option (.char 'a'))))).regexp ∧
        (v < 0 ∨ (0 : Nat) ≤ v)) :=
  scan_terminates ⟨['a'], [], ⟨[], rfl, rfl⟩, rfl⟩ _ 0 none #[]

theorem negative_reference_raises : FiniteStream ofList [] ∧
    ¬∃ fuel found, matchPrefix ofList fuel (compile (.backRef id (-1))) [] = .ok found := by
  refine ⟨⟨[], [], rfl, rfl⟩, ?_⟩
  rintro ⟨fuel, found, run⟩
  cases fuel with
  | zero => cases run
  | succ fuel => cases run

end Mythryl.Regex.PerlEngine
