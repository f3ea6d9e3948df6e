import Mathlib.Data.Finset.Card
import Mathlib.Data.Finset.Range
import Mythryl.Threadkit.Machine

/-! # What a firing sends -/

namespace Threadkit

open RaisingState LazyQueue

variable {V : Type}

inductive Waits (s : State V) : Call → Fate → Prop
  | mailqueue {q : Nat} {readers : Queue (Entry Unit)} {e : Entry Unit} :
      s.mailqueue q = .empty readers → e ∈ readers.contents → Waits s e.call e.fate
  | inQ {slot : Nat} {e : Entry Unit} :
      e ∈ (s.mailslot slot).inQ.contents → Waits s e.call e.fate
  | outQ {slot : Nat} {e : Entry V} :
      e ∈ (s.mailslot slot).outQ.contents → Waits s e.call e.fate
  | readQ {cell : Cell} {e : Entry (Reader V)} :
      e ∈ (s.maildrop cell).readQ.contents → Waits s e.call e.fate
  | condvar {condvar : Condvar} {waitingThreads : List (Entry Unit)} {e : Entry Unit} :
      s.condvar condvar = .isNotSet waitingThreads → e ∈ waitingThreads → Waits s e.call e.fate
  | asleep {e : Sleeper} : e ∈ s.sleepQueue → Waits s e.call (.watch e.path e.flag)

theorem Waits.same {s s' : State V} {call : Call} {fate : Fate} (waits : Waits s' call fate)
    (mailqueue : s'.mailqueue = s.mailqueue) (mailslot : s'.mailslot = s.mailslot)
    (maildrop : s'.maildrop = s.maildrop)
    (condvar : ∀ condvar waitingThreads, s'.condvar condvar = .isNotSet waitingThreads →
      s.condvar condvar = .isNotSet waitingThreads)
    (sleepQueue : s'.sleepQueue = s.sleepQueue) : Waits s call fate := by
  cases waits with
  | mailqueue readers member => exact .mailqueue (mailqueue ▸ readers) member
  | inQ member => exact .inQ (mailslot ▸ member)
  | outQ member => exact .outQ (mailslot ▸ member)
  | readQ member => exact .readQ (maildrop ▸ member)
  | condvar notSet member => exact .condvar (condvar _ _ notSet) member
  | asleep member => exact .asleep (sleepQueue ▸ member)

namespace State

/-- A plain operation, or a mailop gathered for the run `call` with this flag. -/
def FateOf (s : State V) (call : Call) : Fate → Prop
  | .direct => s.mailops call = none
  | .watch path flag =>
      s.mailops call ≠ none ∧ ∃ mailop, ((path, mailop), flag) ∈ s.places call

def nacksOf (s : State V) (call : Call) : List Condvar := (s.nackstates call).map Prod.fst

def NotSent (s : State V) (condvar : Condvar) : Prop :=
  (∃ waitingThreads, s.condvar condvar = .isNotSet waitingThreads) ∧ s.timesSet condvar = 0

def Sent (s : State V) (condvar : Condvar) : Prop :=
  (∃ priority, s.condvar condvar = .isSet priority) ∧ s.timesSet condvar = 1

structure Unspent (s : State V) (call : Call) : Prop where
  fired : s.fired call = []
  flags : ∀ flag, s.flag call flag = false
  nacks : ∀ condvar ∈ s.nacksOf call, s.NotSent condvar

structure SpentAt (s : State V) (call : Call) (path : Path) (flag : Flag) : Prop where
  fired : s.fired call = [(path, flag)]
  place : ∃ mailop, ((path, mailop), flag) ∈ s.places call
  covered : ∀ nackstate ∈ s.nackstates call, flag ∈ nackstate.2 → s.NotSent nackstate.1
  uncovered : ∀ nackstate ∈ s.nackstates call, flag ∉ nackstate.2 → s.Sent nackstate.1

def Spent (s : State V) (call : Call) : Prop := ∃ path flag, s.SpentAt call path flag

structure Accounted (s : State V) (call : Call) : Prop where
  run : s.mailops call ≠ none → s.Spent call
  plain : s.mailops call = none → s.Unspent call

def blockedCalls (s : State V) : Finset Call := (Finset.range s.calls).filter (s.blocked · = true)

end State

structure Armed (s : State V) : Prop where
  waits : ∀ {call fate}, Waits s call fate → call < s.calls ∧ s.FateOf call fate
  apart : ∀ {call call' condvar},
    condvar ∈ s.nacksOf call → condvar ∈ s.nacksOf call' → call = call'
  nodup : ∀ call, (s.nacksOf call).Nodup
  blocked : ∀ {call}, s.blocked call = true → call < s.calls ∧ s.Unspent call
  traced : ∀ {entry}, entry ∈ s.trace → entry.1 < s.calls ∧ s.blocked entry.1 = false
  once : (s.trace.map Prod.fst).Nodup

structure InFlight (s : State V) (call : Call) : Prop where
  made : call < s.calls
  running : s.blocked call = false
  untold : call ∉ s.trace.map Prod.fst

structure Quiet (s s' : State V) : Prop where
  mailqueue : s'.mailqueue = s.mailqueue
  mailslot : s'.mailslot = s.mailslot
  maildrop : s'.maildrop = s.maildrop
  sleepQueue : s'.sleepQueue = s.sleepQueue
  mutex : s'.mutex = s.mutex
  control : s'.control = s.control
  currentThread : s'.currentThread = s.currentThread
  awaits : s'.awaits = s.awaits
  calls : s'.calls = s.calls
  condvars : s'.condvars = s.condvars
  mailops : s'.mailops = s.mailops
  places : s'.places = s.places
  nackstates : s'.nackstates = s.nackstates
  fewer : ∀ call, s'.blocked call = true → s.blocked call = true
  waiting : ∀ condvar waitingThreads, s'.condvar condvar = .isNotSet waitingThreads →
    s.condvar condvar = .isNotSet waitingThreads
  told : ∃ events, s'.trace = s.trace ++ events ∧
    ∀ entry ∈ events, s.blocked entry.1 = true ∧ ∃ event, entry.2 = .event event

namespace Quiet

variable {s s' s'' : State V}

theorem refl (s : State V) : Quiet s s := by
  constructor
  case told => exact ⟨[], by simp⟩
  case fewer => exact fun _ => id
  case waiting => exact fun _ _ => id
  all_goals rfl

theorem trans (first : Quiet s s') (second : Quiet s' s'') : Quiet s s'' where
  mailqueue := second.mailqueue.trans first.mailqueue
  mailslot := second.mailslot.trans first.mailslot
  maildrop := second.maildrop.trans first.maildrop
  sleepQueue := second.sleepQueue.trans first.sleepQueue
  mutex := second.mutex.trans first.mutex
  control := second.control.trans first.control
  currentThread := second.currentThread.trans first.currentThread
  awaits := second.awaits.trans first.awaits
  calls := second.calls.trans first.calls
  condvars := second.condvars.trans first.condvars
  mailops := second.mailops.trans first.mailops
  places := second.places.trans first.places
  nackstates := second.nackstates.trans first.nackstates
  fewer := fun call alive => first.fewer call (second.fewer call alive)
  waiting := fun condvar ws notSet => first.waiting condvar ws (second.waiting condvar ws notSet)
  told := by
    obtain ⟨events, trace, told⟩ := first.told
    obtain ⟨events', trace', told'⟩ := second.told
    refine ⟨events ++ events', by rw [trace', trace, List.append_assoc], ?_⟩
    intro entry member
    rcases List.mem_append.mp member with old | new
    · exact told entry old
    · exact ⟨first.fewer _ (told' entry new).1, (told' entry new).2⟩

variable {call : Call}

theorem unblocked (quiet : Quiet s s') (running : s.blocked call = false) :
    s'.blocked call = false := by
  cases alive : s'.blocked call with
  | false => rfl
  | true => rw [quiet.fewer call alive] at running; cases running

theorem nacksOf (quiet : Quiet s s') (call : Call) : s'.nacksOf call = s.nacksOf call := by
  simp only [State.nacksOf, quiet.nackstates]

theorem fateOf (quiet : Quiet s s') {fate : Fate} (ok : s.FateOf call fate) :
    s'.FateOf call fate := by
  cases fate <;> simpa [State.FateOf, quiet.mailops, quiet.places] using ok

theorem inFlight (quiet : Quiet s s') (flight : InFlight s call) :
    InFlight s' call where
  made := quiet.calls ▸ flight.made
  running := quiet.unblocked flight.running
  untold := by
    obtain ⟨events, trace, told⟩ := quiet.told
    rw [trace, List.map_append, List.mem_append, not_or]
    refine ⟨flight.untold, ?_⟩
    intro member
    obtain ⟨entry, found, rfl⟩ := List.mem_map.mp member
    have alive := (told entry found).1
    rw [flight.running] at alive
    cases alive

theorem blockedCalls_subset (quiet : Quiet s s') : s'.blockedCalls ⊆ s.blockedCalls := by
  intro call member
  simp only [State.blockedCalls, Finset.mem_filter, Finset.mem_range, quiet.calls] at member ⊢
  exact ⟨member.1, quiet.fewer call member.2⟩

end Quiet

/-- From `s` to `s'`, besides the calls blocked in `s` and their nacks, only the calls in `R` and the
condition variables in `C` have changed. The blocked calls stay as they are or are spent. -/
structure Cascade (C : Condvar → Prop) (R : Call → Prop) (s s' : State V) : Prop where
  quiet : Quiet s s'
  condvars : ∀ condvar, ¬ C condvar →
    (∀ call, s.blocked call = true → condvar ∉ s.nacksOf call) →
    s'.condvar condvar = s.condvar condvar ∧ s'.timesSet condvar = s.timesSet condvar
  running : ∀ call, s.blocked call = false → ¬ R call →
    s'.fired call = s.fired call ∧ s'.flag call = s.flag call
  ended : ∀ call, s.blocked call = true → s'.blocked call = false → s'.Accounted call

namespace Cascade

variable {C : Condvar → Prop} {R : Call → Prop} {s s' s'' : State V}

theorem refl (s : State V) : Cascade C R s s where
  quiet := .refl s
  condvars := fun _ _ _ => ⟨rfl, rfl⟩
  running := fun _ _ _ => ⟨rfl, rfl⟩
  ended := fun call alive running => by rw [alive] at running; cases running

theorem mono {C' : Condvar → Prop} {R' : Call → Prop} (cascade : Cascade C R s s')
    (condvars : ∀ c, C c → C' c) (calls : ∀ call, R call → R' call) : Cascade C' R' s s' where
  __ := cascade
  condvars := fun condvar out => cascade.condvars condvar fun member => out (condvars _ member)
  running := fun call running out =>
    cascade.running call running fun member => out (calls _ member)

variable {call : Call}

theorem keeps (cascade : Cascade C R s s') (armed : Armed s)
    (running : s.blocked call = false) (out : ¬ R call)
    (apart : ∀ condvar ∈ s.nacksOf call, ¬ C condvar) :
    (s.Unspent call → s'.Unspent call) ∧ ∀ path flag, s.SpentAt call path flag →
      s'.SpentAt call path flag := by
  obtain ⟨fired, flags⟩ := cascade.running call running out
  have same : ∀ condvar ∈ s.nacksOf call, s'.condvar condvar = s.condvar condvar ∧
      s'.timesSet condvar = s.timesSet condvar := by
    intro condvar member
    apply cascade.condvars condvar (apart condvar member)
    intro other alive owned
    rw [armed.apart member owned, alive] at running
    cases running
  have notSent : ∀ condvar ∈ s.nacksOf call, s.NotSent condvar → s'.NotSent condvar := by
    intro condvar member notSent
    simpa only [State.NotSent, same condvar member] using notSent
  have sent : ∀ condvar ∈ s.nacksOf call, s.Sent condvar → s'.Sent condvar := by
    intro condvar member sent
    simpa only [State.Sent, same condvar member] using sent
  have owned : ∀ nackstate ∈ s.nackstates call, nackstate.1 ∈ s.nacksOf call := fun _ member =>
    List.mem_map_of_mem member
  constructor
  · intro unspent
    refine ⟨fired.trans unspent.fired, fun flag => ?_, fun condvar member => ?_⟩
    · rw [flags, unspent.flags]
    · rw [cascade.quiet.nacksOf] at member
      exact notSent condvar member (unspent.nacks condvar member)
  · intro path flag spent
    refine ⟨fired.trans spent.fired, ?_, fun nackstate member uncovered => ?_,
      fun nackstate member uncovered => ?_⟩
    · rw [cascade.quiet.places]
      exact spent.place
    · rw [cascade.quiet.nackstates] at member
      exact notSent _ (owned _ member) (spent.covered nackstate member uncovered)
    · rw [cascade.quiet.nackstates] at member
      exact sent _ (owned _ member) (spent.uncovered nackstate member uncovered)

theorem accounted (cascade : Cascade C R s s') (armed : Armed s)
    (running : s.blocked call = false) (out : ¬ R call)
    (apart : ∀ condvar ∈ s.nacksOf call, ¬ C condvar) (accounted : s.Accounted call) :
    s'.Accounted call := by
  obtain ⟨unspent, spent⟩ := cascade.keeps armed running out apart
  constructor
  · intro run
    rw [cascade.quiet.mailops] at run
    obtain ⟨path, flag, at'⟩ := accounted.run run
    exact ⟨path, flag, spent path flag at'⟩
  · intro plain
    rw [cascade.quiet.mailops] at plain
    exact unspent (accounted.plain plain)

theorem trans (first : Cascade C R s s') (second : Cascade C R s' s'') (armed : Armed s')
    (own : ∀ call condvar, s.blocked call = true → condvar ∈ s.nacksOf call → ¬ C condvar)
    (calls : ∀ call, R call → s.blocked call = false) : Cascade C R s s'' where
  quiet := first.quiet.trans second.quiet
  condvars := by
    intro condvar out unowned
    have kept := first.condvars condvar out unowned
    have kept' := second.condvars condvar out fun call alive => by
      rw [first.quiet.nacksOf]
      exact unowned call (first.quiet.fewer call alive)
    exact ⟨kept'.1.trans kept.1, kept'.2.trans kept.2⟩
  running := by
    intro call running out
    have kept := first.running call running out
    have kept' := second.running call (first.quiet.unblocked running) out
    exact ⟨kept'.1.trans kept.1, kept'.2.trans kept.2⟩
  ended := by
    intro call alive running
    cases middle : s'.blocked call with
    | true => exact second.ended call middle running
    | false =>
      refine second.accounted armed middle ?_ ?_ (first.ended call alive middle)
      · intro member
        rw [calls call member] at alive
        cases alive
      · intro condvar owned
        rw [first.quiet.nacksOf] at owned
        exact own call condvar alive owned

theorem push (cascade : Cascade C R s s') (alive : s.blocked call = true)
    (thread : Thread) (event : Event) : Cascade C R s (s'.push thread call (.event event)) where
  quiet := {
    cascade.quiet with
    told := by
      obtain ⟨events, trace, told⟩ := cascade.quiet.told
      refine ⟨events ++ [(call, .event event)], by simp [trace], ?_⟩
      intro entry member
      rcases List.mem_append.mp member with old | new
      · exact told entry old
      · cases List.mem_singleton.mp new
        exact ⟨alive, event, rfl⟩ }
  __ := cascade
  ended := by
    intro call alive running
    obtain ⟨run, plain⟩ := cascade.ended call alive running
    constructor
    · intro run'
      obtain ⟨path, flag, spent⟩ := run run'
      exact ⟨path, flag, spent.1, spent.2, spent.3, spent.4⟩
    · intro plain'
      obtain ⟨fired, flags, nacks⟩ := plain plain'
      exact ⟨fired, flags, nacks⟩

end Cascade

section Complete

variable {s s' : State V} {call : Call}

theorem blocked_iff : s.blocked call = true ↔ ∃ thread, s.status call = .isBlocked thread := by
  unfold State.blocked
  cases s.status call <;> simp

theorem blocked_complete (s : State V) (call other : Call) :
    (s.complete call).blocked other = (if other = call then false else s.blocked other) := by
  by_cases same : other = call
  · subst same
    simp [State.blocked]
  · simp [State.blocked, same]

@[simp] theorem blocked_complete_self (s : State V) (call : Call) :
    (s.complete call).blocked call = false := by
  simp [blocked_complete]

theorem blocked_of_complete {other : Call} (alive : (s.complete call).blocked other = true) :
    other ≠ call ∧ s.blocked other = true := by
  rw [blocked_complete] at alive
  split at alive
  · cases alive
  · exact ⟨‹_›, alive⟩

theorem Waits.complete {other : Call} {fate : Fate} (waits : Waits (s.complete call) other fate) :
    Waits s other fate :=
  waits.same rfl rfl rfl (fun _ _ => id) rfl

theorem Armed.complete (armed : Armed s) : Armed (s.complete call) where
  waits := fun waits => armed.waits waits.complete
  __ := armed
  blocked := by
    intro other alive
    obtain ⟨made, unspent⟩ := armed.blocked (blocked_of_complete alive).2
    exact ⟨made, unspent.1, unspent.2, unspent.3⟩
  traced := by
    intro entry member
    refine ⟨(armed.traced member).1, ?_⟩
    rw [blocked_complete, (armed.traced member).2]
    simp

theorem Armed.takes (armed : Armed s) (alive : s.blocked call = true) :
    InFlight (s.complete call) call where
  made := (armed.blocked alive).1
  running := blocked_complete_self s call
  untold := by
    intro member
    obtain ⟨entry, found, rfl⟩ := List.mem_map.mp member
    have running := (armed.traced found).2
    rw [alive] at running
    cases running

theorem Quiet.complete (s : State V) (call : Call) : Quiet s (s.complete call) where
  __ := Quiet.refl s
  fewer := fun _ alive => (blocked_of_complete alive).2

theorem blockedCalls_complete (armed : Armed s) (alive : s.blocked call = true) :
    (s.complete call).blockedCalls.card < s.blockedCalls.card := by
  apply Finset.card_lt_card
  refine ⟨(Quiet.complete s call).blockedCalls_subset, fun subset => ?_⟩
  have member : call ∈ s.blockedCalls := by
    simp [State.blockedCalls, alive, (armed.blocked alive).1]
  have kept := subset member
  simp [State.blockedCalls] at kept

theorem blockedCalls_bound (s : State V) : s.blockedCalls.card < s.calls + 1 := by
  have bound := Finset.card_filter_le (Finset.range s.calls) (s.blocked · = true)
  rw [Finset.card_range] at bound
  exact Nat.lt_succ_of_le bound

theorem Cascade.of_complete (alive : s.blocked call = true)
    (cascade : Cascade (· ∈ s.nacksOf call) (· = call) (s.complete call) s')
    (accounted : s'.Accounted call) :
    Cascade (fun _ => False) (fun _ => False) s s' where
  quiet := (Quiet.complete s call).trans cascade.quiet
  condvars := by
    intro condvar _ unowned
    apply cascade.condvars condvar (unowned call alive)
    exact fun other alive' => unowned other (blocked_of_complete alive').2
  running := by
    intro other running _
    apply cascade.running other ((Quiet.complete s call).unblocked running)
    rintro rfl
    rw [alive] at running
    cases running
  ended := by
    intro other alive' running
    by_cases same : other = call
    · subst same
      exact accounted
    · refine cascade.ended other ?_ running
      rw [blocked_complete, if_neg same]
      exact alive'

end Complete

section Fire

variable {s s' : State V} {call : Call} {path : Path} {flag : Flag}

namespace State

def fires (s : State V) (call : Call) (path : Path) (flag : Flag) : State V :=
  (s.countFire call path flag).raiseFlag call flag

def mark (s : State V) (fired : Call → List (Path × Flag)) (flag : Call → Flag → Bool) :
    State V :=
  { s with fired := fired, flag := flag }

end State

theorem fires_flag (unspent : s.Unspent call) (other : Flag) :
    (s.fires call path flag).flag call other = decide (other = flag) := by
  by_cases same : other = flag
  · subst same
    simp [State.fires]
  · simp [State.fires, same, unspent.flags]

section Mark

variable {fired : Call → List (Path × Flag)} {flag : Call → Flag → Bool}

theorem Armed.mark (armed : Armed s) (running : s.blocked call = false)
    (others : ∀ other, other ≠ call → fired other = s.fired other ∧ flag other = s.flag other) :
    Armed (s.mark fired flag) where
  waits := fun waits => armed.waits (waits.same rfl rfl rfl (fun _ _ => id) rfl)
  __ := armed
  blocked := by
    intro other waiting
    have alive : s.blocked other = true := waiting
    have different : other ≠ call := fun same => by
      rw [same, running] at alive
      cases alive
    obtain ⟨made, unspent⟩ := armed.blocked alive
    refine ⟨made, ?_, ?_, unspent.nacks⟩
    · exact (others other different).1.trans unspent.fired
    · exact fun f => (congrFun (others other different).2 f).trans (unspent.flags f)

theorem Cascade.mark (C : Condvar → Prop)
    (others : ∀ other, other ≠ call → fired other = s.fired other ∧ flag other = s.flag other) :
    Cascade C (· = call) s (s.mark fired flag) where
  quiet := { Quiet.refl s with }
  condvars := fun _ _ _ => ⟨rfl, rfl⟩
  running := fun other _ different => others other different
  ended := by
    intro other alive running
    rw [show (s.mark fired flag).blocked other = s.blocked other from rfl, alive] at running
    cases running

end Mark

theorem countFire_others : ∀ other, other ≠ call →
    (s.countFire call path flag).fired other = s.fired other ∧ s.flag other = s.flag other := by
  intro other different
  simp [different]

theorem fires_others : ∀ other, other ≠ call →
    (s.fires call path flag).fired other = s.fired other ∧
      (s.fires call path flag).flag other = s.flag other := by
  intro other different
  refine ⟨by simp [State.fires, different], ?_⟩
  funext other'
  simp [State.fires, different]

theorem Armed.countFire (armed : Armed s) (running : s.blocked call = false) :
    Armed (s.countFire call path flag) := armed.mark running countFire_others

theorem Armed.fires (armed : Armed s) (running : s.blocked call = false) :
    Armed (s.fires call path flag) := armed.mark running fires_others

theorem Cascade.countFire (C : Condvar → Prop) :
    Cascade C (· = call) s (s.countFire call path flag) := .mark C countFire_others

theorem Cascade.fires (s : State V) (call : Call) (path : Path) (flag : Flag)
    (C : Condvar → Prop) : Cascade C (· = call) s (s.fires call path flag) := .mark C fires_others

end Fire

/-- `set` sets a condition variable that is not set and whose run is not blocked, while fewer than
`bound` calls are blocked. -/
def Sets (set : Condvar → Kit V Unit) (bound : Nat) : Prop :=
  ∀ s condvar, Armed s → s.blockedCalls.card < bound → s.NotSent condvar →
    (∀ call, s.blocked call = true → condvar ∉ s.nacksOf call) →
    ∃ s', outcome (set condvar) s = (.ok (), s') ∧ Armed s' ∧
      Cascade (· = condvar) (fun _ => False) s s' ∧ s'.Sent condvar

section Send

variable {set : Condvar → Kit V Unit} {bound : Nat} {s : State V} {call : Call} {path : Path}
  {flag : Flag}

theorem checkCondvar_outcome (sets : Sets set bound) (nackstate : Nackstate) (armed : Armed s)
    (few : s.blockedCalls.card < bound) (running : s.blocked call = false)
    (owned : nackstate ∈ s.nackstates call)
    (flags : ∀ other, s.flag call other = decide (other = flag))
    (notSent : s.NotSent nackstate.1) :
    ∃ s', outcome (checkCondvar set call nackstate) s = (.ok (), s') ∧ Armed s' ∧
      Cascade (· = nackstate.1) (fun _ => False) s s' ∧
      (flag ∈ nackstate.2 → s'.NotSent nackstate.1) ∧
      (flag ∉ nackstate.2 → s'.Sent nackstate.1) := by
  have covers : nackstate.2.any (s.flag call) = decide (flag ∈ nackstate.2) := by
    rw [funext flags, Bool.eq_iff_iff]
    simp
  simp only [checkCondvar, outcome_bind, outcome_get, covers]
  by_cases member : flag ∈ nackstate.2
  · simp only [member, decide_true, if_true, outcome_pure]
    exact ⟨s, rfl, armed, .refl s, fun _ => notSent, fun out => absurd trivial out⟩
  · simp only [member, decide_false, Bool.false_eq_true, if_false]
    obtain ⟨s', result, armed', cascade, sent⟩ := sets s nackstate.1 armed few notSent <| by
      intro other alive owned'
      rw [armed.apart (List.mem_map_of_mem owned) owned', alive] at running
      cases running
    exact ⟨s', result, armed', cascade, False.elim, fun _ => sent⟩

structure Sending (s : State V) (call : Call) (flag : Flag) (bound : Nat)
    (rest : List Nackstate) : Prop where
  armed : Armed s
  few : s.blockedCalls.card < bound
  running : s.blocked call = false
  owned : ∀ nackstate ∈ rest, nackstate ∈ s.nackstates call
  nodup : (rest.map Prod.fst).Nodup
  flags : ∀ other, s.flag call other = decide (other = flag)
  notSent : ∀ nackstate ∈ rest, s.NotSent nackstate.1

namespace Sending

variable {first : Nackstate} {rest : List Nackstate}

theorem unowned (sending : Sending s call flag bound rest) {other : Call} {nackstate : Nackstate}
    (member : nackstate ∈ rest) (alive : s.blocked other = true) :
    nackstate.1 ∉ s.nacksOf other := by
  intro owned
  have running := sending.running
  rw [sending.armed.apart (List.mem_map_of_mem (sending.owned nackstate member)) owned, alive]
    at running
  cases running

theorem check (sending : Sending s call flag bound (first :: rest)) (sets : Sets set bound) :
    ∃ s', outcome (checkCondvar set call first) s = (.ok (), s') ∧ Armed s' ∧
      Cascade (· = first.1) (fun _ => False) s s' ∧
      (flag ∈ first.2 → s'.NotSent first.1) ∧ (flag ∉ first.2 → s'.Sent first.1) :=
  checkCondvar_outcome sets first sending.armed sending.few sending.running
    (sending.owned first (by simp)) sending.flags (sending.notSent first (by simp))

theorem next (sending : Sending s call flag bound (first :: rest)) {s' : State V} (armed : Armed s')
    (cascade : Cascade (· = first.1) (fun _ => False) s s') :
    Sending s' call flag bound rest where
  armed := armed
  few := lt_of_le_of_lt (Finset.card_le_card cascade.quiet.blockedCalls_subset) sending.few
  running := cascade.quiet.unblocked sending.running
  owned := by
    intro nackstate member
    rw [cascade.quiet.nackstates]
    exact sending.owned nackstate (by simp [member])
  nodup := (List.nodup_cons.mp sending.nodup).2
  flags := fun other => by rw [(cascade.running call sending.running id).2, sending.flags]
  notSent := by
    intro nackstate member
    have different : nackstate.1 ≠ first.1 := fun same =>
      (List.nodup_cons.mp sending.nodup).1 (same ▸ List.mem_map_of_mem member)
    have same := cascade.condvars nackstate.1 different fun other alive =>
      sending.unowned (by simp [member]) alive
    simpa only [State.NotSent, same] using sending.notSent nackstate (by simp [member])

end Sending

theorem sendNacks_outcome (sets : Sets set bound) (rest : List Nackstate) (s : State V)
    (sending : Sending s call flag bound rest) :
    ∃ s', outcome (sendNacks set call rest) s = (.ok (), s') ∧ Armed s' ∧
      Cascade (· ∈ rest.map Prod.fst) (fun _ => False) s s' ∧
      (∀ nackstate ∈ rest, flag ∈ nackstate.2 → s'.NotSent nackstate.1) ∧
      ∀ nackstate ∈ rest, flag ∉ nackstate.2 → s'.Sent nackstate.1 := by
  induction rest generalizing s with
  | nil => exact ⟨s, rfl, sending.armed, .refl s, by simp, by simp⟩
  | cons first rest ih =>
    obtain ⟨s₁, result, armed₁, cascade, held, sent⟩ := sending.check sets
    obtain ⟨s₂, result₂, armed₂, cascade₂, held₂, sent₂⟩ := ih s₁ (sending.next armed₁ cascade)
    have kept : s₂.condvar first.1 = s₁.condvar first.1 ∧
        s₂.timesSet first.1 = s₁.timesSet first.1 := by
      refine cascade₂.condvars first.1 (List.nodup_cons.mp sending.nodup).1 fun other alive => ?_
      rw [cascade.quiet.nacksOf]
      exact sending.unowned (by simp) (cascade.quiet.fewer other alive)
    refine ⟨s₂, ?_, armed₂, ?_, ?_, ?_⟩
    · rw [sendNacks, outcome_bind_ok result, result₂]
    · refine (cascade.mono ?_ fun _ => id).trans (cascade₂.mono ?_ fun _ => id) armed₁ ?_ ?_
      · rintro _ rfl
        simp
      · intro _ member
        simp [member]
      · intro other _ alive owned' member
        obtain ⟨nackstate, found, rfl⟩ := List.mem_map.mp member
        exact sending.unowned found alive owned'
      · exact fun _ => False.elim
    · rw [List.forall_mem_cons]
      exact ⟨fun inside => by simpa only [State.NotSent, kept] using held inside, held₂⟩
    · rw [List.forall_mem_cons]
      exact ⟨fun outside => by simpa only [State.Sent, kept] using sent outside, sent₂⟩

theorem fires_sending (armed : Armed s) (few : s.blockedCalls.card < bound)
    (running : s.blocked call = false) (unspent : s.Unspent call) :
    Sending (s.fires call path flag) call flag bound (s.nackstates call) where
  armed := armed.fires running
  few := few
  running := running
  owned := fun _ => id
  nodup := armed.nodup call
  flags := fires_flag unspent
  notSent := fun _ member => unspent.nacks _ (List.mem_map_of_mem member)

theorem complete_of_running (running : s.blocked call = false) :
    (s.complete call).status = s.status := by
  funext other
  by_cases same : other = call
  · subst same
    revert running
    simp only [State.blocked, State.complete_status, Function.update_self]
    cases s.status other <;> simp
  · simp [same]

theorem complete_eq (running : s.blocked call = false) : s.complete call = s := by
  have status := complete_of_running running
  obtain ⟨⟩ := s
  simpa [State.complete] using status

section Ending

variable (sets : Sets set bound) (armed : Armed s) (few : s.blockedCalls.card < bound)
  (running : s.blocked call = false) (unspent : s.Unspent call)
include sets armed few running unspent

theorem fires_outcome (place : ∃ mailop, ((path, mailop), flag) ∈ s.places call) :
    ∃ s', outcome (sendNacks set call (s.nackstates call)) (s.fires call path flag) =
        (.ok (), s') ∧ Armed s' ∧
      Cascade (· ∈ s.nacksOf call) (· = call) s s' ∧ s'.SpentAt call path flag := by
  obtain ⟨s', result, armed', cascade, held, sent⟩ := sendNacks_outcome sets (s.nackstates call)
    (s.fires call path flag) (fires_sending armed few running unspent)
  have whole := (Cascade.fires s call path flag (· ∈ s.nacksOf call)).trans
    (cascade.mono (fun _ => id) fun _ => False.elim) (armed.fires running)
    (fun other condvar alive owned member => by
      rw [armed.apart member owned, alive] at running
      cases running)
    (fun _ same => same ▸ running)
  refine ⟨s', result, armed', whole, ?_, ?_, ?_, ?_⟩
  · rw [(cascade.running call running id).1]
    simp [State.fires, unspent.fired]
  · rw [whole.quiet.places]
    exact place
  · rw [whole.quiet.nackstates]
    exact held
  · rw [whole.quiet.nackstates]
    exact sent

theorem finishWith_outcome (place : ∃ mailop, ((path, mailop), flag) ∈ s.places call) :
    ∃ s', outcome (finishWith set call path flag) s = (.ok (), s') ∧ Armed s' ∧
      Cascade (· ∈ s.nacksOf call) (· = call) s s' ∧ s'.SpentAt call path flag := by
  have same := complete_eq running
  obtain ⟨s', result, rest⟩ := fires_outcome sets armed few running unspent place
  refine ⟨s', ?_, rest⟩
  simpa [finishWith, outcome_bind, same, State.fires] using result

theorem settleWith_outcome {fate : Fate} (ok : s.FateOf call fate) :
    ∃ s', outcome (settleWith set call fate) s = (.ok (), s') ∧ Armed s' ∧
      Cascade (· ∈ s.nacksOf call) (· = call) s s' ∧ s'.Accounted call := by
  cases fate with
  | direct =>
    exact ⟨s, rfl, armed, .refl s, fun run => absurd ok run, fun _ => unspent⟩
  | watch path flag =>
    obtain ⟨s', result, armed', cascade, spent⟩ :=
      finishWith_outcome sets armed few running unspent ok.2
    refine ⟨s', result, armed', cascade, fun _ => ⟨path, flag, spent⟩, fun plain => ?_⟩
    rw [cascade.quiet.mailops] at plain
    exact absurd plain ok.1

end Ending

theorem Armed.push (armed : Armed s) (flight : InFlight s call) (thread : Thread)
    (done : Done V) : Armed (s.push thread call done) where
  waits := fun waits => armed.waits (waits.same rfl rfl rfl (fun _ _ => id) rfl)
  __ := armed
  blocked := fun alive =>
    let ⟨made, unspent⟩ := armed.blocked alive
    ⟨made, unspent.1, unspent.2, unspent.3⟩
  traced := by
    intro entry member
    rcases List.mem_append.mp member with old | new
    · exact armed.traced old
    · cases List.mem_singleton.mp new
      exact ⟨flight.made, flight.running⟩
  once := by
    simp only [State.push_trace, List.map_append, List.map_cons, List.map_nil]
    exact List.nodup_append.mpr ⟨armed.once, by simp, by
      rintro other member _ found rfl
      rw [List.mem_singleton.mp found] at member
      exact flight.untold member⟩

end Send

section Set

variable {set : Condvar → Kit V Unit} {bound : Nat}

theorem runWaiting_outcome (sets : Sets set bound) (condvar : Condvar)
    (waiting : List (Entry Unit)) (s : State V) (armed : Armed s)
    (few : s.blockedCalls.card ≤ bound) (fates : ∀ e ∈ waiting, s.FateOf e.call e.fate) :
    ∃ s', outcome (runWaiting set condvar waiting) s = (.ok (), s') ∧ Armed s' ∧
      Cascade (fun _ => False) (fun _ => False) s s' := by
  induction waiting generalizing s with
  | nil => exact ⟨s, rfl, armed, .refl s⟩
  | cons e rest ih =>
    rw [List.forall_mem_cons] at fates
    cases status : s.status e.call with
    | isComplete =>
      obtain ⟨s', result, done⟩ := ih s armed few fates.2
      exact ⟨s', by simpa [runWaiting, outcome_bind, status] using result, done⟩
    | isBlocked thread =>
      have alive : s.blocked e.call = true := by simp [State.blocked, status]
      have unspent := (armed.blocked alive).2
      have ended : Armed (s.complete e.call) := armed.complete
      obtain ⟨s₁, settled, armed₁, cascade₁, accounted⟩ := settleWith_outcome sets ended
        (lt_of_lt_of_le (blockedCalls_complete armed alive) few)
        (blocked_complete_self s e.call) ⟨unspent.1, unspent.2, unspent.3⟩
        fates.1
      have first := Cascade.of_complete alive cascade₁ accounted
      obtain ⟨s₂, result, armed₂, cascade₂⟩ := ih s₁ armed₁
        ((Finset.card_le_card first.quiet.blockedCalls_subset).trans few)
        (fun e' member => first.quiet.fateOf (fates.2 e' member))
      have flight : InFlight s₂ e.call :=
        cascade₂.quiet.inFlight (cascade₁.quiet.inFlight (armed.takes alive))
      have whole := first.trans cascade₂ armed₁ (fun _ _ _ _ => id) (fun _ => False.elim)
      refine ⟨_, ?_, armed₂.push flight thread (.event (.condvar condvar)),
        whole.push alive thread (.condvar condvar)⟩
      simp [runWaiting, outcome_bind, status, settled, result]

def State.setting (s : State V) (condvar : Condvar) : State V :=
  (s.setCondvarState condvar (.isSet 1)).countSet condvar

section Setting

variable {s : State V} {condvar : Condvar}

theorem setting_others : ∀ other ≠ condvar, (s.setting condvar).condvar other = s.condvar other ∧
    (s.setting condvar).timesSet other = s.timesSet other := by
  intro other different
  simp [State.setting, different]

theorem setting_waiting : ∀ other waitingThreads,
    (s.setting condvar).condvar other = .isNotSet waitingThreads →
    s.condvar other = .isNotSet waitingThreads := by
  intro other waitingThreads notSet
  by_cases same : other = condvar
  · subst same
    simp [State.setting] at notSet
  · rw [← (setting_others other same).1, notSet]

theorem Quiet.setting : Quiet s (s.setting condvar) where
  __ := Quiet.refl s
  waiting := setting_waiting

theorem Armed.setting (armed : Armed s)
    (unowned : ∀ call, s.blocked call = true → condvar ∉ s.nacksOf call) :
    Armed (s.setting condvar) where
  waits := fun waits => armed.waits (waits.same rfl rfl rfl setting_waiting rfl)
  __ := armed
  blocked := by
    intro other alive
    obtain ⟨made, unspent⟩ := armed.blocked alive
    refine ⟨made, unspent.fired, unspent.flags, fun nack member => ?_⟩
    have different : nack ≠ condvar := by
      rintro rfl
      exact unowned other alive member
    simpa only [State.NotSent, setting_others nack different] using unspent.nacks nack member

theorem Cascade.setting : Cascade (· = condvar) (fun _ => False) s (s.setting condvar) where
  quiet := .setting
  condvars := fun other different _ => setting_others other different
  running := fun _ _ _ => ⟨rfl, rfl⟩
  ended := by
    intro other alive running
    rw [show (s.setting condvar).blocked other = s.blocked other from rfl, alive] at running
    cases running

end Setting

theorem setCondvarWithin_sets (depth : Nat) :
    Sets (setCondvarWithin depth : Condvar → Kit V Unit) depth := by
  induction depth with
  | zero => exact fun _ _ _ few => absurd few (Nat.not_lt_zero _)
  | succ depth ih =>
    intro s condvar armed few notSent unowned
    obtain ⟨⟨waitingThreads, notSet⟩, never⟩ := notSent
    have sent : (s.setting condvar).Sent condvar := by simp [State.Sent, State.setting, never]
    obtain ⟨s₂, result, armed₂, cascade₂⟩ := runWaiting_outcome ih condvar waitingThreads
      (s.setting condvar) (armed.setting unowned) (Nat.le_of_lt_succ few)
      (fun e member => (armed.waits (.condvar notSet member)).2)
    refine ⟨s₂, ?_, armed₂, ?_, ?_⟩
    · simp only [setCondvarWithin, outcome_bind, outcome_get, notSet, outcome_modify]
      exact result
    · refine Cascade.setting.trans (cascade₂.mono (fun _ => False.elim) fun _ => id)
        (armed.setting unowned) ?_ ?_
      · rintro other _ alive owned rfl
        exact unowned other alive owned
      · exact fun _ => False.elim
    · have kept := cascade₂.condvars condvar id unowned
      simpa only [State.Sent, kept] using sent

theorem setCondvarIu_sets (bound : Nat) : Sets (setCondvarIu : Condvar → Kit V Unit) bound := by
  intro s condvar armed few notSent unowned
  obtain ⟨s', result, rest⟩ := setCondvarWithin_sets (s.calls + 1) s condvar armed
    (blockedCalls_bound s) notSent unowned
  exact ⟨s', by simpa [setCondvarIu, outcome_bind] using result, rest⟩

end Set

end Threadkit
