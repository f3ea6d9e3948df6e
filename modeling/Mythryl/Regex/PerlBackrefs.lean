import Mythryl.Regex.PerlFuel

/-!
# Back references and backtracking

A search that raises `BACKTRACK` should leave the table of back references as it found it, so that
the next way sees the groups of the path up to there.
-/

namespace Mythryl.Regex.PerlEngine
open AbstractRegularExpression Reader RaisingState BacktrackingSearch

variable {X : Type}

def BlankIn (x : AbstractRegularExpression) (s : Array String) : Prop :=
  ∀ v f e, Part (.assign v f e) x → v < 0 ∨ s.size ≤ v.toNat ∨ s[v.toNat]? = some ""

section Blank

variable {s : Array String}

theorem unchanged_bind {α β : Type} {m : Search α} {f : α → Search β} (first : (outcome m s).2 = s)
    (rest : ∀ a, (outcome (f a) s).2 = s) : (outcome (m >>= f) s).2 = s := by
  rw [outcome_bind]
  cases run : outcome m s with
  | mk result s' =>
    rw [run] at first
    cases first
    cases result with
    | error e => rfl
    | ok a => exact rest a

theorem setIfInBounds_held {n : Nat} {saved : String} (held : s[n]? = some saved) :
    s.setIfInBounds n saved = s := by
  obtain ⟨lt, same⟩ := Array.getElem?_eq_some_iff.mp held
  simp [Array.setIfInBounds, lt, ← same]

theorem unchanged_setBackref {v : Int} (blank : v < 0 ∨ s.size ≤ v.toNat ∨ s[v.toNat]? = some "") :
    (outcome (setBackref v "") s).2 = s := by
  rw [outcome_setBackref]
  split
  · rfl
  · rename_i inside
    obtain negative | outside | empty := blank
    · exact absurd (.inl negative) inside
    · exact absurd (.inr outside) inside
    · exact setIfInBounds_held empty

mutual

theorem unchanged_emptyAlternative (e : AbstractRegularExpression) (blank : BlankIn e s) :
    (outcome (emptyAlternative e : Search (List (RegexMatchResult X))) s).2 = s := by
  cases e with
  | group e =>
    have inner := unchanged_emptyAlternative e fun v f e' part => blank v f e' (.group part)
    exact unchanged_bind inner fun _ => rfl
  | alt l => exact unchanged_emptyAlternatives l fun e mem v f e' part => blank v f e' (.alt mem part)
  | concat l =>
    exact unchanged_emptyAlternatives l fun e mem v f e' part => blank v f e' (.concat mem part)
  | interval e _ _ =>
    exact unchanged_emptyAlternative e fun v f e' part => blank v f e' (.interval part)
  | option e => exact unchanged_emptyAlternative e fun v f e' part => blank v f e' (.option part)
  | star e => exact unchanged_emptyAlternative e fun v f e' part => blank v f e' (.star part)
  | plus e => exact unchanged_emptyAlternative e fun v f e' part => blank v f e' (.plus part)
  | assign v f e =>
    have inner := unchanged_emptyAlternative e fun v f e' part => blank v f e' (.assign part)
    exact unchanged_bind (unchanged_setBackref (blank v f e .whole)) fun _ => inner
  | guard _ e => exact unchanged_emptyAlternative e fun v f e' part => blank v f e' (.guard part)
  | _ => rfl

theorem unchanged_emptyAlternatives (l : List AbstractRegularExpression)
    (blank : ∀ e ∈ l, BlankIn e s) :
    (outcome (emptyAlternatives l : Search (List (RegexMatchResult X))) s).2 = s := by
  cases l with
  | nil => rfl
  | cons e l =>
    have first := unchanged_emptyAlternative e (blank e (List.mem_cons_self ..))
    have rest := unchanged_emptyAlternatives l fun e mem => blank e (List.mem_cons_of_mem _ mem)
    exact unchanged_bind first fun _ => unchanged_bind rest fun _ => rfl

end

end Blank

/-- Where a scan skips a part only if its groups are empty already, a failed search leaves the
table as it found it, every other way is tried with the table that the call found, and a scan without
a match leaves the table unchanged. -/
theorem backtracking_restores {getc : Getc X} {re : CompiledRegularExpression} {fuel pos : Nat}
    {stream : X} {last : Buf X} {references : Array String}
    (blank : ∀ n c s x s₂, Enters getc re.multiline fuel (.start re.regexp pos stream last) references
      (n + 1) c s → SkipsPart (Fails getc re.multiline n) c s x s₂ → BlankIn x s₂) :
    (∀ n c s s', Enters getc re.multiline fuel (.start re.regexp pos stream last) references n c s →
      Fails getc re.multiline n c s s' → s' = s) ∧ (∀ n c s s' d otherwise s₂ e s₃,
      Enters getc re.multiline fuel (.start re.regexp pos stream last) references (n + 1) c s →
      outcome (step getc re.multiline c) s = (.ok (.either d otherwise), s') →
      Fails getc re.multiline n d s' s₂ → outcome otherwise s₂ = (.ok e, s₃) → s₃ = s) ∧
    ∀ s', outcome (scan getc fuel re pos stream last) references = (.ok none, s') →
      s' = references := by
  have steps (n : Nat) (c : Call X) (s : Array String)
      (entered : Enters getc re.multiline fuel (.start re.regexp pos stream last) references
        (n + 1) c s) :
      Restores Eq (Fails getc re.multiline n) s (outcome (step getc re.multiline c) s) := by
    apply step_restores fun _ => rfl
    · intro x s₂ skips same
      rw [unchanged_emptyAlternative x (blank _ _ _ _ _ entered skips)]
      exact same
    · intro s' n value saved held same
      rw [← same, Array.setIfInBounds_setIfInBounds, setIfInBounds_held held]
  have restored {n : Nat} {c : Call X} {s s' : Array String}
      (entered : Enters getc re.multiline fuel (.start re.regexp pos stream last) references n c s)
      (failed : Fails getc re.multiline n c s s') : s' = s :=
    (run_restores (R := Eq) Eq.trans steps entered failed).symm
  refine ⟨fun n c s s' => restored, ?_, ?_⟩
  · intro n c s s' d otherwise s₂ e s₃ entered stepped failed other
    have owes := steps n c s entered
    rw [stepped] at owes
    have undone := owes s₂ failed (restored (entered.first stepped) failed).symm
    rw [other] at undone
    exact undone.symm
  · exact fun s' scanned => restored .start (scan_fails scanned)

theorem failed_group_unchanged :
    outcome (scan (ofString ['b']) 3 (compile (.assign 0 id (.char 'a'))) 0 0 none) #["x"] =
      (.ok none, #["x"]) := by
  let call (thisChar : Buf Nat) : Call Nat :=
    ⟨some [.char 'a'], 0, thisChar, none, 0, [], .assign 0 id [] 0 0 [] .return'⟩
  have calls : ∀ n c s, Enters (ofString ['b']) false 3 (.start (.assign 0 id (.char 'a')) 0 0 none)
      #["x"] n c s → c = .start (.assign 0 id (.char 'a')) 0 0 none ∨ c = call none ∨
        c = call (some ('b', 1)) := by
    intro n c s entered
    induction entered with
    | start => exact .inl rfl
    | next _ stepped ih =>
      obtain rfl | rfl | rfl := ih <;> cases stepped
      · exact .inr (.inl rfl)
      · exact .inr (.inr rfl)
    | first _ stepped ih | second _ stepped _ _ ih => obtain rfl | rfl | rfl := ih <;> cases stepped
  have blank : ∀ n c s x s₂, Enters (ofString ['b']) (compile (.assign 0 id (.char 'a'))).multiline 3
      (.start (compile (.assign 0 id (.char 'a'))).regexp 0 0 none) #["x"] (n + 1) c s →
      SkipsPart (Fails (ofString ['b']) (compile (.assign 0 id (.char 'a'))).multiline n) c s x s₂ →
      BlankIn x s₂ := by
    intro n c s x s₂ entered skips
    obtain ⟨min, max, re, todo, -⟩ := skips
    obtain rfl | rfl | rfl := calls _ _ _ entered <;> cases todo
  exact Prod.ext rfl ((backtracking_restores blank).2.2 _ rfl)

def groupInLoop : AbstractRegularExpression :=
  .concat [.star (.concat [.option (.assign 0 id (.group (.char 'a'))), .char 'b']), .backRef id 0]

theorem emptied_group_lost :
    (∃ n c s, Enters (ofString ['a', 'b', 'a']) false 60 (.start groupInLoop 0 0 none) #[""] n c s ∧
      Fails (ofString ['a', 'b', 'a']) false n c s #[""] ∧ s ≠ #[""]) ∧
    ∃ groups, matchPrefix (ofString ['a', 'b', 'a']) 60 (compile groupInLoop) 0 =
      .ok (some (.regexMatchResult (some ⟨0, 2⟩) groups, 2)) := by
  have entered : Enters (ofString ['a', 'b', 'a']) false 60 (.start groupInLoop 0 0 none) #[""] 60
    (.start groupInLoop 0 0 none) #[""] := .start
  -- along the first ways, up to the second turn of the loop
  iterate 22
    first | replace entered := entered.next rfl | replace entered := entered.first rfl
    dsimp only [groupInLoop, Call.start, Call.enter, Call.leave, Call.read] at entered
  exact ⟨⟨_, _, _, entered, rfl, by decide⟩, _, rfl⟩

end Mythryl.Regex.PerlEngine
