import Mythryl.Threadkit.Steps

/-! # Which runs a firing ends -/

namespace Threadkit

open RaisingState LazyQueue

variable {V : Type}

inductive Wakes (s : State V) (call : Call) (flag : Flag) (e : Entry Unit) : Prop
  | nack {nackstate : Nackstate} {waitingThreads : List (Entry Unit)} :
      nackstate ∈ s.nackstates call → flag ∉ nackstate.2 →
      s.condvar nackstate.1 = .isNotSet waitingThreads → e ∈ waitingThreads →
      s.blocked e.call = true → Wakes s call flag e

inductive Ended (s : State V) : Call → Flag → Call → Prop
  | woken {call : Call} {flag : Flag} {e : Entry Unit} :
      Wakes s call flag e → Ended s call flag e.call
  | through {call other : Call} {flag flag' : Flag} {path : Path} {e : Entry Unit} :
      Wakes s call flag e → e.fate = .watch path flag' → Ended s e.call flag' other →
      Ended s call flag other

def EndedBy (s : State V) (e : Entry Unit) (call : Call) : Prop :=
  e.call = call ∨ ∃ path flag, e.fate = .watch path flag ∧ Ended s e.call flag call

section Quiet

variable {s s' : State V} {call other : Call} {flag : Flag} {e : Entry Unit}

theorem Wakes.quiet (wakes : Wakes s' call flag e) (quiet : Quiet s s') : Wakes s call flag e := by
  obtain ⟨member, outside, notSet, waiting, alive⟩ := wakes
  exact .nack (quiet.nackstates ▸ member) outside (quiet.waiting _ _ notSet) waiting
    (quiet.fewer _ alive)

theorem Ended.mono (ended : Ended s' call flag other)
    (wakes : ∀ {call flag e}, Wakes s' call flag e → Wakes s call flag e) :
    Ended s call flag other := by
  induction ended with
  | woken waking => exact .woken (wakes waking)
  | through waking fate _ ih => exact .through (wakes waking) fate ih

theorem Ended.quiet (ended : Ended s' call flag other) (quiet : Quiet s s') :
    Ended s call flag other :=
  ended.mono fun wakes => wakes.quiet quiet

theorem EndedBy.quiet (ended : EndedBy s' e call) (quiet : Quiet s s') : EndedBy s e call := by
  rcases ended with same | ⟨path, flag, fate, ended⟩
  · exact .inl same
  · exact .inr ⟨path, flag, fate, ended.quiet quiet⟩

theorem Wakes.ended (wakes : Wakes s call flag e) (ended : EndedBy s e other) :
    Ended s call flag other := by
  rcases ended with rfl | ⟨path, flag', fate, ended⟩
  · exact .woken wakes
  · exact .through wakes fate ended

end Quiet

def Spares (set : Condvar → Kit V Unit) (bound : Nat) (call : Call) : Prop :=
  ∀ s condvar s', Armed s → s.blockedCalls.card < bound → s.NotSent condvar →
    (∀ other, s.blocked other = true → condvar ∉ s.nacksOf other) →
    (∀ waitingThreads, s.condvar condvar = .isNotSet waitingThreads → ∀ e ∈ waitingThreads,
      s.blocked e.call = true → ¬ EndedBy s e call) →
    outcome (set condvar) s = (.ok (), s') → s.blocked call = true → s'.blocked call = true

section Send

variable {set : Condvar → Kit V Unit} {bound : Nat} {s s' : State V} {call other : Call}
  {path : Path} {flag : Flag} (sets : Sets set bound) (spares : Spares set bound other)
include spares

theorem checkCondvar_spares {first : Nackstate} {rest : List Nackstate}
    (sending : Sending s call flag bound (first :: rest))
    (apart : ¬ Ended s call flag other)
    (result : outcome (checkCondvar set call first) s = (.ok (), s'))
    (alive : s.blocked other = true) : s'.blocked other = true := by
  have covers : first.2.any (s.flag call) = decide (flag ∈ first.2) := by
    rw [funext sending.flags, Bool.eq_iff_iff]
    simp
  simp only [checkCondvar, outcome_bind, outcome_get, covers] at result
  by_cases member : flag ∈ first.2
  · simp only [member, decide_true, if_true, outcome_pure] at result
    cases result
    exact alive
  · simp only [member, decide_false, Bool.false_eq_true, if_false] at result
    refine spares s first.1 s' sending.armed sending.few (sending.notSent first (by simp))
      (fun other alive => sending.unowned (by simp) alive) ?_ result alive
    intro waitingThreads notSet e waiting alive ended
    exact apart ((Wakes.nack (sending.owned first (by simp)) member notSet waiting alive).ended
      ended)

include sets

theorem sendNacks_spares (rest : List Nackstate) (s : State V)
    (sending : Sending s call flag bound rest)
    (apart : ¬ Ended s call flag other)
    (result : outcome (sendNacks set call rest) s = (.ok (), s'))
    (alive : s.blocked other = true) : s'.blocked other = true := by
  induction rest generalizing s with
  | nil =>
    cases result
    exact alive
  | cons first rest ih =>
    obtain ⟨s₁, checked, armed₁, cascade, _⟩ := sending.check sets
    rw [sendNacks, outcome_bind_ok checked] at result
    refine ih s₁ (sending.next armed₁ cascade) (fun ended => apart (ended.quiet cascade.quiet))
      result ?_
    exact checkCondvar_spares spares sending apart checked alive

section Ending

variable (armed : Armed s) (few : s.blockedCalls.card < bound) (running : s.blocked call = false)
  (unspent : s.Unspent call)
include armed few running unspent

theorem fires_spares (apart : ¬ Ended s call flag other)
    (result : outcome (sendNacks set call (s.nackstates call)) (s.fires call path flag) =
      (.ok (), s')) (alive : s.blocked other = true) : s'.blocked other = true := by
  have fired : Quiet s (s.fires call path flag) :=
    (Cascade.fires s call path flag fun _ => False).quiet
  exact sendNacks_spares sets spares _ _ (fires_sending armed few running unspent)
    (fun ended => apart (ended.quiet fired)) result alive

theorem settleWith_spares {fate : Fate}
    (apart : ∀ path flag, fate = .watch path flag → ¬ Ended s call flag other)
    (result : outcome (settleWith set call fate) s = (.ok (), s'))
    (alive : s.blocked other = true) : s'.blocked other = true := by
  cases fate with
  | direct =>
    cases result
    exact alive
  | watch path flag =>
    have same := complete_eq running
    simp only [settleWith, finishWith, outcome_bind, outcome_modify, outcome_get, same] at result
    exact fires_spares sets spares armed few running unspent (apart path flag rfl) result alive

end Ending

theorem runWaiting_spares (condvar : Condvar) (waiting : List (Entry Unit)) (s : State V)
    (armed : Armed s)
    (few : s.blockedCalls.card ≤ bound) (fates : ∀ e ∈ waiting, s.FateOf e.call e.fate)
    (apart : ∀ e ∈ waiting, s.blocked e.call = true → ¬ EndedBy s e other)
    (result : outcome (runWaiting set condvar waiting) s = (.ok (), s'))
    (alive : s.blocked other = true) : s'.blocked other = true := by
  induction waiting generalizing s s' with
  | nil =>
    cases result
    exact alive
  | cons e rest ih =>
    rw [List.forall_mem_cons] at fates apart
    cases status : s.status e.call with
    | isComplete =>
      simp only [runWaiting, outcome_bind, outcome_get, status] at result
      exact ih s armed few fates.2 apart.2 result alive
    | isBlocked thread =>
      have woken : s.blocked e.call = true := by simp [State.blocked, status]
      have unspent := (armed.blocked woken).2
      have unspent' : (s.complete e.call).Unspent e.call := ⟨unspent.1, unspent.2, unspent.3⟩
      have few' := lt_of_lt_of_le (blockedCalls_complete armed woken) few
      obtain ⟨s₁, settled, armed₁, cascade₁, accounted⟩ := settleWith_outcome sets armed.complete
        few' (blocked_complete_self s e.call) unspent' fates.1
      have first := Cascade.of_complete woken cascade₁ accounted
      obtain ⟨s₂, result₂, _⟩ := runWaiting_outcome sets condvar rest s₁ armed₁
        ((Finset.card_le_card first.quiet.blockedCalls_subset).trans few)
        (fun e' member => first.quiet.fateOf (fates.2 e' member))
      simp only [runWaiting, outcome_bind, outcome_get, status, outcome_modify, settled,
        result₂] at result
      cases result
      have different : other ≠ e.call := fun same => apart.1 woken (.inl same.symm)
      have alive₁ : s₁.blocked other = true := by
        refine settleWith_spares sets spares armed.complete few' (blocked_complete_self s e.call)
          unspent' ?_ settled ?_
        · intro path flag fate ended
          exact apart.1 woken (.inr ⟨path, flag, fate, ended.quiet (.complete s e.call)⟩)
        · rw [blocked_complete, if_neg different]
          exact alive
      show s₂.blocked other = true
      exact ih s₁ armed₁ ((Finset.card_le_card first.quiet.blockedCalls_subset).trans few)
        (fun e' member => first.quiet.fateOf (fates.2 e' member))
        (fun e' member alive' ended => apart.2 e' member (first.quiet.fewer _ alive')
          (ended.quiet first.quiet)) result₂ alive₁

end Send

theorem setCondvarWithin_spares (depth : Nat) (other : Call) :
    Spares (setCondvarWithin depth : Condvar → Kit V Unit) depth other := by
  induction depth with
  | zero => exact fun _ _ _ _ few => absurd few (Nat.not_lt_zero _)
  | succ depth ih =>
    intro s condvar s' armed few notSent unowned apart result alive
    obtain ⟨⟨waitingThreads, notSet⟩, _⟩ := notSent
    simp only [setCondvarWithin, outcome_bind, outcome_get, notSet, outcome_modify] at result
    refine runWaiting_spares (setCondvarWithin_sets depth) ih condvar waitingThreads
      (s.setting condvar) (armed.setting unowned) (Nat.le_of_lt_succ few)
      (fun e member => (armed.waits (.condvar notSet member)).2) ?_ result alive
    exact fun e member alive ended => apart _ notSet e member alive (ended.quiet .setting)

theorem setCondvarIu_spares (bound : Nat) (other : Call) :
    Spares (setCondvarIu : Condvar → Kit V Unit) bound other := by
  intro s condvar s' armed few notSent unowned apart result alive
  simp only [setCondvarIu, outcome_bind, outcome_get] at result
  exact setCondvarWithin_spares (s.calls + 1) other s condvar s' armed (blockedCalls_bound s)
    notSent unowned apart result alive

def FireMailop.partner (s : State V) : FireMailop V → Option Call
  | .putInMailslot slot _ => (s.waiting (s.mailslot slot).inQ).head?.map Entry.call
  | .takeFromMailslot slot => (s.waiting (s.mailslot slot).outQ).head?.map Entry.call
  | _ => none

/-- The firing of the mailop that `call` picks does not end the partner of the mailop. -/
def SparesPartner (s : State V) (call : Call) (places : List (Placed V)) : Prop :=
  ∀ fire t, outcome (pickMailop places) (s.withMutex 1) = (.ok (some fire), t) →
    ∀ other ∈ fire.2.partner s, ¬ Ended s call fire.1.2 other

def Operation.SparesPartner (s : State V) (call : Call) : Operation V → Prop
  | doOneMailop mailops =>
      Threadkit.SparesPartner (s.claims call mailops (doOneMailopPrepared mailops s.condvars)) call
        (gatherPrepared (doOneMailopPrepared mailops s.condvars).1).1
  | blockUntilMailopFires mailop =>
      Threadkit.SparesPartner
        (s.claims call [mailop] (blockUntilMailopFiresPrepared mailop s.condvars)) call
        (gatherPrepared (blockUntilMailopFiresPrepared mailop s.condvars).1).1
  | _ => True

def Label.SparesPartner (s : State V) : Label V → Prop
  | .call operation => operation.SparesPartner s.begin s.calls
  | _ => True

section Asked

variable {s t : State V} {call other : Call} {flag : Flag} {e : Entry Unit}

theorem Wakes.asked (wakes : Wakes t call flag e) (asked : Asked s t) : Wakes s call flag e := by
  obtain @⟨nackstate, waitingThreads, member, outside, notSet, waiting, alive⟩ := wakes
  rw [asked.same.nackstates] at member
  rw [asked.same.blocked] at alive
  cases state : s.condvar nackstate.1 with
  | isSet priority =>
    obtain ⟨_, set⟩ := asked.same.isSet _ _ state
    rw [notSet] at set
    cases set
  | isNotSet waitingThreads' =>
    have kept := asked.notSet _ _ state
    rw [notSet] at kept
    cases kept
    exact .nack member outside state waiting alive

theorem Wakes.enter (wakes : Wakes (s.withMutex 1) call flag e) : Wakes s call flag e := by
  obtain ⟨member, outside, notSet, waiting, alive⟩ := wakes
  exact .nack member outside notSet waiting alive

theorem partner_first {fire : FireMailop V} (asked : Asked s t) (ready : fire.Ready t)
    (blocked : fire.PartnerBlocked t) {s' : State V} (quiet : Quiet t s')
    (spared : ∀ other ∈ fire.partner s, t.blocked other = true → s'.blocked other = true) :
    fire.PartnerBlocked s' := by
  cases fire with
  | putInMailslot slot msg =>
    obtain ⟨taker, rest, front⟩ := List.exists_cons_of_ne_nil ready
    have alive := blocked taker (by simp [front])
    have waiting : t.waiting (t.mailslot slot).inQ = taker :: _ := pending_front front alive
    rw [asked.takers] at waiting
    have kept := spared taker.call (by simp [FireMailop.partner, waiting]) alive
    simpa [FireMailop.PartnerBlocked, quiet.mailslot, front] using kept
  | takeFromMailslot slot =>
    obtain ⟨giver, rest, front⟩ := List.exists_cons_of_ne_nil ready
    have alive := blocked giver (by simp [front])
    have waiting : t.waiting (t.mailslot slot).outQ = giver :: _ := pending_front front alive
    rw [asked.givers] at waiting
    have kept := spared giver.call (by simp [FireMailop.partner, waiting]) alive
    simpa [FireMailop.PartnerBlocked, quiet.mailslot, front] using kept
  | _ => trivial

theorem SparesPartner.not_slips {places : List (Placed V)} (spares : SparesPartner s call places) :
    ¬ Slips s call places := by
  rintro ⟨t, fire, s', picked, asked, armed, flight, unspent, ready, blocked, sent, quiet, ended⟩
  refine ended (partner_first asked ready blocked quiet fun other partner alive => ?_)
  refine fires_spares (setCondvarIu_sets (t.calls + 1)) (setCondvarIu_spares _ other) armed
    (blockedCalls_bound t) flight.running unspent (fun ended => ?_) sent alive
  exact spares fire t picked other partner (ended.mono fun wakes => (wakes.asked asked).enter)

theorem Operation.SparesPartner.not_slips {operation : Operation V}
    (spares : operation.SparesPartner s call) : ¬ operation.Slips s call := by
  cases operation with
  | doOneMailop mailops => exact Threadkit.SparesPartner.not_slips spares
  | blockUntilMailopFires mailop => exact Threadkit.SparesPartner.not_slips spares
  | _ => exact id

end Asked

/-! No run is completed twice. -/

/-- Nothing has been completed twice, and no attempt at it has been made. -/
structure CompletedOnce (s : State V) : Prop where
  told : (s.trace.map Prod.fst).Nodup
  fired : ∀ call, (s.fired call).length ≤ 1
  control : ∀ call, s.control ≠ some (.raised call alreadyCancelled)
  runQueue : ∀ entry ∈ s.runQueue, ∀ call, entry.2 ≠ .raised call alreadyCancelled

section Runs

variable {cells : Cell → Option V} {s s' : State V} {label : Label V}

structure Unfailed (s : State V) : Prop where
  control : ∀ call, s.control ≠ some (.raised call alreadyCancelled)
  runQueue : ∀ entry ∈ s.runQueue, ∀ call, entry.2 ≠ .raised call alreadyCancelled

theorem Unfailed.onward {t : State V} (unfailed : Unfailed s) (onward : Onward s t) : Unfailed t where
  control := by
    intro call given
    rcases onward.control _ given with old | ⟨_, _, same⟩
    · exact unfailed.control call old
    · cases same
  runQueue := by
    intro entry member call same
    rcases onward.runQueue entry member with old | ⟨_, _, new⟩
    · exact unfailed.runQueue entry old call same
    · rw [same] at new
      cases new

theorem Unfailed.raised {t : State V} (unfailed : Unfailed t) {call : Call} {raised : Raised}
    (other : raised ≠ alreadyCancelled) : Unfailed (t.raised call raised) where
  control := by
    intro call given
    cases given
    exact other rfl
  runQueue := unfailed.runQueue

theorem Unfailed.call (unfailed : Unfailed s) (inv : Inv cells s) {operation : Operation V}
    (spares : operation.SparesPartner s.begin s.calls)
    (stepped : step s (.call operation) = some s') : Unfailed s' := by
  have begun : Unfailed s.begin := ⟨nofun, unfailed.runQueue⟩
  obtain ⟨_, t, ended⟩ := step_call stepped
  have onward := operation.goesOn s.calls s.begin
  rcases ended with ⟨result, rfl⟩ | ⟨raised, result, rfl⟩
  · rw [result] at onward
    exact begun.onward onward
  · rw [result] at onward
    refine (begun.onward onward).raised ?_
    cases Operation.comesOut inv.begun inv.toSound.beginPlain operation with
    | ends ends =>
      obtain ⟨_, result', _⟩ := ends
      rw [result] at result'
      cases result'
    | full _ _ result' =>
      rw [result] at result'
      cases result'
      exact nofun
    | foundNothing _ _ result' =>
      rw [result] at result'
      cases result'
    | slips slips _ => exact absurd slips spares.not_slips

theorem Unfailed.step (unfailed : Unfailed s) (inv : Inv cells s) (spares : label.SparesPartner s)
    (stepped : step s label = some s') : Unfailed s' := by
  cases label with
  | call operation => exact unfailed.call inv spares stepped
  | makeThread thread =>
    simp only [Threadkit.step, Option.ite_none_right_eq_some, Option.some.injEq] at stepped
    obtain ⟨_, rfl⟩ := stepped
    refine ⟨unfailed.control, fun entry member => ?_⟩
    rcases List.mem_append.mp member with old | new
    · exact unfailed.runQueue entry old
    · cases List.mem_singleton.mp new
      exact fun _ same => by cases same
  | exitThread =>
    simp only [Threadkit.step, Option.ite_none_right_eq_some, Option.some.injEq] at stepped
    obtain ⟨_, rfl⟩ := stepped
    exact ⟨fun _ same => (by cases same), unfailed.runQueue⟩
  | preempt =>
    simp only [Threadkit.step] at stepped
    split at stepped
    · rename_i control given
      simp only [Option.ite_none_right_eq_some, Option.some.injEq] at stepped
      obtain ⟨_, rfl⟩ := stepped
      refine ⟨fun _ same => (by cases same), fun entry member => ?_⟩
      rcases List.mem_append.mp member with old | new
      · exact unfailed.runQueue entry old
      · cases List.mem_singleton.mp new
        exact fun call same => unfailed.control call (given.trans (congrArg some same))
    · cases stepped
  | signalInScope =>
    cases stepped
    exact ⟨unfailed.control, unfailed.runQueue⟩
  | tick time =>
    cases stepped
    exact ⟨unfailed.control, unfailed.runQueue⟩
  | wakeSleepers =>
    obtain ⟨t, result, _, _⟩ := wakeSleepingThreadsWhoseTimeHasComeIu_outcome inv
    have onward := wakeSleepingThreadsWhoseTimeHasComeIu_goesOn s
    simp only [Threadkit.step, result, Option.ite_none_right_eq_some,
      Option.some.injEq] at stepped
    obtain ⟨_, rfl⟩ := stepped
    rw [result] at onward
    exact unfailed.onward onward
  | dispatch k =>
    simp only [Threadkit.step] at stepped
    split at stepped
    · rename_i thread control _ found
      cases stepped
      refine ⟨fun call given => ?_, fun entry member => ?_⟩
      · cases given
        exact unfailed.runQueue _ (List.mem_of_getElem? found) call rfl
      · exact unfailed.runQueue entry ((List.eraseIdx_sublist _ _).subset member)
    · cases stepped

theorem ReachableBy.unfailed (reachable : ReachableBy cells (fun s label => label.SparesPartner s) s) :
    Unfailed s := by
  induction reachable with
  | start => exact ⟨nofun, nofun⟩
  | step before spares stepped ih => exact ih.step before.reachable.inv spares stepped

theorem fired_once (sound : Sound s) (call : Call) : (s.fired call).length ≤ 1 := by
  rcases sound.either call with unspent | ⟨path, flag, spent⟩
  · simp [unspent.fired]
  · simp [spent.fired]

theorem completed_once (reachable : ReachableBy cells (fun s label => label.SparesPartner s) s) :
    CompletedOnce s where
  told := reachable.reachable.inv.once
  fired := fired_once reachable.reachable.inv.toSound
  control := reachable.unfailed.control
  runQueue := reachable.unfailed.runQueue

theorem completed_once_always : ∃ s, step (State.start fun _ => (none : Option Nat))
    (.call (.doOneMailop alwaysOrTake)) = some s ∧ CompletedOnce s := by
  have spares : (Label.call (.doOneMailop alwaysOrTake)).SparesPartner
      (State.start fun _ => (none : Option Nat)) := by
    intro fire t picked other partner
    cases picked
    cases partner
  have stepped : step (State.start fun _ => (none : Option Nat))
    (.call (.doOneMailop alwaysOrTake)) = some _ := rfl
  exact ⟨_, stepped, completed_once (.step .start spares stepped)⟩

def nackOrTake : List (Mailop (BaseMailop Nat)) :=
  [.base [.waitOnCondvar 0, .takeFromMailslot 0]]

def nackOrPut : List (Mailop (BaseMailop Nat)) :=
  [.dynamicWithNack fun _ => .base [], .base [.putInMailslot 0 7]]

theorem completed_twice : ∃ s, Reachable (fun _ => (none : Option Nat)) s ∧
    s.control = some (.raised 1 (.fail
      "Compiler bug:  Attempt to cancel already-cancelled transaction-id")) ∧ s.mutex = 1 := by
  have steps : stepsFrom (State.start fun _ => (none : Option Nat))
    [.makeThread 1, .call (.doOneMailop nackOrTake), .dispatch 0,
      .call (.doOneMailop nackOrPut)] = some _ := rfl
  exact ⟨_, Reachable.start.stepsFrom steps, rfl, rfl⟩

/-! Scopes are left. -/

/-- The step takes nothing from an empty cell without blocking, and ends no partner it is to meet. -/
def Label.LeavesScope (s : State V) : Label V → Prop
  | .call operation =>
      (∀ cell, operation.takesNow = some cell → (s.maildrop cell).value ≠ none) ∧
        operation.SparesPartner s.begin s.calls
  | _ => True

theorem step_balanced (inv : Inv cells s) (balanced : s.control ≠ none → s.mutex = 0)
    (leaves : label.LeavesScope s) (stepped : step s label = some s') :
    s'.control ≠ none → s'.mutex = 0 := by
  cases label with
  | call operation =>
    rcases inv.calls stepped with finished | ⟨cell, v, _, _, rfl⟩ | ⟨cell, takes, empty, _⟩ |
      ⟨slips, _⟩
    · exact finished.balanced
    · exact fun _ => rfl
    · exact absurd empty (leaves.1 cell takes)
    · exact absurd slips leaves.2.not_slips
  | makeThread thread =>
    simp only [step, Option.ite_none_right_eq_some, Option.some.injEq] at stepped
    obtain ⟨_, rfl⟩ := stepped
    exact balanced
  | exitThread =>
    simp only [step, Option.ite_none_right_eq_some, Option.some.injEq] at stepped
    obtain ⟨_, rfl⟩ := stepped
    exact fun control => absurd rfl control
  | preempt =>
    simp only [step] at stepped
    split at stepped
    · simp only [Option.ite_none_right_eq_some, Option.some.injEq] at stepped
      obtain ⟨_, rfl⟩ := stepped
      exact fun control => absurd rfl control
    · cases stepped
  | signalInScope =>
    cases stepped
    exact balanced
  | tick time =>
    cases stepped
    exact balanced
  | wakeSleepers =>
    have idle := (step_wakeSleepers inv stepped).2
    exact fun control => absurd idle control
  | dispatch k =>
    simp only [step] at stepped
    split at stepped
    · cases stepped
      exact fun _ => rfl
    · cases stepped

theorem scopes_balanced (reachable : ReachableBy cells (fun s label => label.LeavesScope s) s) :
    s.control ≠ none → s.mutex = 0 := by
  induction reachable with
  | start => exact fun _ => rfl
  | step before leaves stepped ih => exact step_balanced before.reachable.inv ih leaves stepped

theorem scopes_balanced_take : ∃ s, step (State.start fun _ => some 3)
    (.call (.nonblockingTakeFromMaildrop 0)) = some s ∧ s.mutex = 0 := by
  have leaves : (Label.call (.nonblockingTakeFromMaildrop 0)).LeavesScope
      (State.start fun _ => some 3) := by
    refine ⟨?_, trivial⟩
    rintro _ ⟨⟩
    exact nofun
  have stepped : step (State.start fun _ => some 3) (.call (.nonblockingTakeFromMaildrop 0)) =
    some _ := rfl
  exact ⟨_, stepped, scopes_balanced (.step .start leaves stepped) nofun⟩

theorem scopes_unbalanced : ∃ s, step (State.start fun _ => (none : Option Nat))
    (.call (.nonblockingTakeFromMaildrop 0)) = some s ∧
    s.control = some (.returned 0 .foundNothing) ∧ s.mutex = 1 :=
  ⟨_, rfl, rfl, rfl⟩

end Runs

end Threadkit
