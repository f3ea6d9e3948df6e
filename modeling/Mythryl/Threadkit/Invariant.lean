import Mythryl.Threadkit.Gathering
import Mythryl.Threadkit.Nacks

/-!
# What holds of the calls in every state

`Sound` is about the calls and their nacks.
-/

namespace Threadkit

open RaisingState LazyQueue

variable {V : Type}

structure Tracked (s : State V) : Prop extends Armed s where
  fresh : ∀ {call}, s.calls ≤ call → s.mailops call = none ∧ s.awaits call = []
  unclaimed : ∀ {condvar}, s.condvars ≤ condvar → s.NotSent condvar
  claimed : ∀ {call condvar}, condvar ∈ s.nacksOf call → condvar < s.condvars
  either : ∀ call, s.Unspent call ∨ s.Spent call
  plain : ∀ {call}, s.mailops call = none → s.Unspent call
  gathered : ∀ {call mailops first}, s.mailops call = some (mailops, first) →
    ∃ next, GatheredFor mailops first next (s.places call) (s.nackstates call)

structure Sound (s : State V) : Prop extends Tracked s where
  told : ∀ {entry}, entry ∈ s.trace → s.Accounted entry.1

@[simps] def State.tell (s : State V) (call : Call) (done : Done V) : State V :=
  { s with trace := s.trace ++ [(call, done)] }

structure SameRuns (s s' : State V) : Prop where
  condvars : s'.condvars = s.condvars
  mailops : s'.mailops = s.mailops
  places : s'.places = s.places
  nackstates : s'.nackstates = s.nackstates
  fired : s'.fired = s.fired
  flag : s'.flag = s.flag
  timesSet : s'.timesSet = s.timesSet
  isSet : ∀ condvar priority, s.condvar condvar = .isSet priority →
    ∃ priority', s'.condvar condvar = .isSet priority'
  isNotSet : ∀ condvar waitingThreads, s.condvar condvar = .isNotSet waitingThreads →
    ∃ waitingThreads', s'.condvar condvar = .isNotSet waitingThreads'

namespace SameRuns

variable {s s' s'' : State V} {call : Call}

theorem of_eq (condvars : s'.condvars = s.condvars) (mailops : s'.mailops = s.mailops)
    (places : s'.places = s.places) (nackstates : s'.nackstates = s.nackstates)
    (fired : s'.fired = s.fired) (flag : s'.flag = s.flag) (timesSet : s'.timesSet = s.timesSet)
    (condvar : s'.condvar = s.condvar) : SameRuns s s' where
  condvars := condvars
  mailops := mailops
  places := places
  nackstates := nackstates
  fired := fired
  flag := flag
  timesSet := timesSet
  isSet := fun _ priority set => ⟨priority, condvar ▸ set⟩
  isNotSet := fun _ waitingThreads notSet => ⟨waitingThreads, condvar ▸ notSet⟩

theorem complete : SameRuns s (s.complete call) := .of_eq rfl rfl rfl rfl rfl rfl rfl rfl

theorem block : SameRuns s (s.block call) := .of_eq rfl rfl rfl rfl rfl rfl rfl rfl

theorem begin : SameRuns s s.begin := .of_eq rfl rfl rfl rfl rfl rfl rfl rfl

theorem push (thread : Thread) (done : Done V) : SameRuns s (s.push thread call done) :=
  .of_eq rfl rfl rfl rfl rfl rfl rfl rfl

theorem tell (done : Done V) : SameRuns s (s.tell call done) :=
  .of_eq rfl rfl rfl rfl rfl rfl rfl rfl

theorem trans (first : SameRuns s s') (second : SameRuns s' s'') : SameRuns s s'' where
  condvars := second.condvars.trans first.condvars
  mailops := second.mailops.trans first.mailops
  places := second.places.trans first.places
  nackstates := second.nackstates.trans first.nackstates
  fired := second.fired.trans first.fired
  flag := second.flag.trans first.flag
  timesSet := second.timesSet.trans first.timesSet
  isSet := fun condvar _ set =>
    let ⟨_, set'⟩ := first.isSet condvar _ set
    second.isSet condvar _ set'
  isNotSet := fun condvar _ notSet =>
    let ⟨_, notSet'⟩ := first.isNotSet condvar _ notSet
    second.isNotSet condvar _ notSet'

theorem notSent (same : SameRuns s s') {condvar : Condvar} (notSent : s.NotSent condvar) :
    s'.NotSent condvar := by
  obtain ⟨⟨waitingThreads, notSet⟩, never⟩ := notSent
  exact ⟨same.isNotSet _ _ notSet, by rw [same.timesSet, never]⟩

theorem sent (same : SameRuns s s') {condvar : Condvar} (sent : s.Sent condvar) :
    s'.Sent condvar := by
  obtain ⟨⟨priority, set⟩, once⟩ := sent
  exact ⟨same.isSet _ _ set, by rw [same.timesSet, once]⟩

theorem nacksOf (same : SameRuns s s') : s'.nacksOf call = s.nacksOf call := by
  simp only [State.nacksOf, same.nackstates]

theorem fateOf (same : SameRuns s s') {fate : Fate} (ok : s.FateOf call fate) :
    s'.FateOf call fate := by
  cases fate <;> simpa [State.FateOf, same.mailops, same.places] using ok

theorem unspent (same : SameRuns s s') (unspent : s.Unspent call) : s'.Unspent call where
  fired := by rw [same.fired, unspent.fired]
  flags := fun flag => by rw [same.flag, unspent.flags]
  nacks := fun condvar member => same.notSent (unspent.nacks condvar (same.nacksOf ▸ member))

theorem spentAt (same : SameRuns s s') {path : Path} {flag : Flag}
    (spent : s.SpentAt call path flag) : s'.SpentAt call path flag where
  fired := by rw [same.fired, spent.fired]
  place := same.places ▸ spent.place
  covered := by
    rw [same.nackstates]
    exact fun nackstate member inside => same.notSent (spent.covered nackstate member inside)
  uncovered := by
    rw [same.nackstates]
    exact fun nackstate member outside => same.sent (spent.uncovered nackstate member outside)

theorem spent (same : SameRuns s s') (spent : s.Spent call) : s'.Spent call := by
  obtain ⟨path, flag, spent⟩ := spent
  exact ⟨path, flag, same.spentAt spent⟩

theorem accounted (same : SameRuns s s') (accounted : s.Accounted call) : s'.Accounted call where
  run := fun run => same.spent (accounted.run (same.mailops ▸ run))
  plain := fun plain => same.unspent (accounted.plain (same.mailops ▸ plain))

end SameRuns

structure Tellable (s : State V) (call : Call) : Prop extends InFlight s call where
  accounted : s.Accounted call

section Next

variable {s s' s'' : State V} {call : Call}

theorem Tracked.next (tracked : Tracked s) (same : SameRuns s s')
    (waits : ∀ {call fate}, Waits s' call fate → call < s'.calls ∧ s.FateOf call fate)
    (blocked : ∀ {call}, s'.blocked call = true → call < s'.calls ∧ s.Unspent call)
    (traced : ∀ {entry}, entry ∈ s'.trace → entry.1 < s'.calls ∧ s'.blocked entry.1 = false)
    (once : (s'.trace.map Prod.fst).Nodup)
    (fresh : ∀ {call}, s'.calls ≤ call → s.mailops call = none ∧ s'.awaits call = []) :
    Tracked s' where
  waits := fun waiting => ⟨(waits waiting).1, same.fateOf (waits waiting).2⟩
  apart := by
    intro call call' condvar member member'
    rw [same.nacksOf] at member member'
    exact tracked.apart member member'
  nodup := fun call => same.nacksOf ▸ tracked.nodup call
  blocked := fun alive => ⟨(blocked alive).1, same.unspent (blocked alive).2⟩
  traced := traced
  once := once
  fresh := fun new => ⟨same.mailops ▸ (fresh new).1, (fresh new).2⟩
  unclaimed := fun free => same.notSent (tracked.unclaimed (same.condvars ▸ free))
  claimed := by
    intro call condvar member
    rw [same.nacksOf] at member
    rw [same.condvars]
    exact tracked.claimed member
  either := fun call => (tracked.either call).imp same.unspent same.spent
  plain := fun plain => same.unspent (tracked.plain (same.mailops ▸ plain))
  gathered := by
    intro call mailops first run
    rw [same.mailops] at run
    rw [same.places, same.nackstates]
    exact tracked.gathered run

/-! Objects change, and nothing happens to the calls. -/

structure SameCalls (s s' : State V) : Prop extends SameRuns s s' where
  status : s'.status = s.status
  trace : s'.trace = s.trace
  calls : s'.calls = s.calls
  awaits : ∀ call, s.calls ≤ call → s'.awaits call = s.awaits call

namespace SameCalls

theorem refl (s : State V) : SameCalls s s :=
  ⟨.of_eq rfl rfl rfl rfl rfl rfl rfl rfl, rfl, rfl, rfl, fun _ _ => rfl⟩

theorem await (made : call < s.calls) (mailop : BaseMailop V) : SameCalls s (s.await call mailop) := by
  refine ⟨.of_eq rfl rfl rfl rfl rfl rfl rfl rfl, rfl, rfl, rfl, fun other fresh => ?_⟩
  have different : other ≠ call := fun same => absurd made (Nat.not_lt_of_le (same ▸ fresh))
  simp [different]

theorem setMailqueue {q : Nat} {state : MailqueueState V} : SameCalls s (s.setMailqueue q state) :=
  { refl s with }

theorem setMailslot {slot : Nat} {mailslot : Mailslot V} :
    SameCalls s (s.setMailslot slot mailslot) :=
  { refl s with }

theorem setMaildrop {cell : Cell} {maildrop : Maildrop V} :
    SameCalls s (s.setMaildrop cell maildrop) :=
  { refl s with }

theorem blocked (same : SameCalls s s') : s'.blocked call = s.blocked call := by
  simp only [State.blocked, same.status]

theorem inFlight (same : SameCalls s s') (flight : InFlight s call) : InFlight s' call where
  made := same.calls ▸ flight.made
  running := same.blocked.trans flight.running
  untold := same.trace ▸ flight.untold

theorem trans (first : SameCalls s s') (second : SameCalls s' s'') : SameCalls s s'' where
  toSameRuns := first.toSameRuns.trans second.toSameRuns
  status := second.status.trans first.status
  trace := second.trace.trans first.trace
  calls := second.calls.trans first.calls
  awaits := fun call new =>
    (second.awaits call (first.calls ▸ new)).trans (first.awaits call new)

theorem tellable (same : SameCalls s s') (tellable : Tellable s call) : Tellable s' call where
  toInFlight := same.inFlight tellable.toInFlight
  accounted := same.accounted tellable.accounted

end SameCalls

theorem Sound.same (sound : Sound s) (same : SameCalls s s')
    (waits : ∀ {call fate}, Waits s' call fate →
      Waits s call fate ∨ (call < s.calls ∧ s.FateOf call fate)) : Sound s' where
  toTracked := by
    refine sound.toTracked.next same.toSameRuns ?_ ?_ ?_ (same.trace ▸ sound.once) ?_
    · intro call fate waiting
      rw [same.calls]
      exact (waits waiting).elim sound.waits id
    · intro call alive
      rw [same.blocked] at alive
      rw [same.calls]
      exact sound.blocked alive
    · intro entry member
      rw [same.trace] at member
      rw [same.calls, same.blocked]
      exact sound.traced member
    · intro call new
      rw [same.calls] at new
      exact ⟨(sound.fresh new).1, (same.awaits call new).trans (sound.fresh new).2⟩
  told := fun member => same.accounted (sound.told (same.trace ▸ member))

end Next

/-! Who waits when one object is changed: those who waited elsewhere, and those in its queues. -/

namespace Waits

variable {s : State V} {call : Call} {fate : Fate} {P : Call → Fate → Prop}

theorem setMailqueue {q : Nat} {state : MailqueueState V}
    (waits : Waits (s.setMailqueue q state) call fate)
    (old : ∀ {call fate}, Waits s call fate → P call fate)
    (new : ∀ readers, state = .empty readers → ∀ e ∈ readers.contents, P e.call e.fate) :
    P call fate := by
  cases waits with
  | @mailqueue q' readers e empty member =>
    by_cases same : q' = q
    · subst same
      exact new readers (by simpa using empty) e member
    · exact old (.mailqueue (by simpa [same] using empty) member)
  | inQ member => exact old (.inQ member)
  | outQ member => exact old (.outQ member)
  | readQ member => exact old (.readQ member)
  | condvar notSet member => exact old (.condvar notSet member)
  | asleep member => exact old (.asleep member)

theorem setMailslot {slot : Nat} {mailslot : Mailslot V}
    (waits : Waits (s.setMailslot slot mailslot) call fate)
    (old : ∀ {call fate}, Waits s call fate → P call fate)
    (newIn : ∀ e ∈ mailslot.inQ.contents, P e.call e.fate)
    (newOut : ∀ e ∈ mailslot.outQ.contents, P e.call e.fate) : P call fate := by
  cases waits with
  | mailqueue empty member => exact old (.mailqueue empty member)
  | @inQ slot' e member =>
    by_cases same : slot' = slot
    · subst same
      exact newIn e (by simpa using member)
    · exact old (.inQ (by simpa [same] using member))
  | @outQ slot' e member =>
    by_cases same : slot' = slot
    · subst same
      exact newOut e (by simpa using member)
    · exact old (.outQ (by simpa [same] using member))
  | readQ member => exact old (.readQ member)
  | condvar notSet member => exact old (.condvar notSet member)
  | asleep member => exact old (.asleep member)

theorem setMaildrop {cell : Cell} {maildrop : Maildrop V}
    (waits : Waits (s.setMaildrop cell maildrop) call fate)
    (old : ∀ {call fate}, Waits s call fate → P call fate)
    (new : ∀ e ∈ maildrop.readQ.contents, P e.call e.fate) : P call fate := by
  cases waits with
  | mailqueue empty member => exact old (.mailqueue empty member)
  | inQ member => exact old (.inQ member)
  | outQ member => exact old (.outQ member)
  | @readQ cell' e member =>
    by_cases same : cell' = cell
    · subst same
      exact new e (by simpa using member)
    · exact old (.readQ (by simpa [same] using member))
  | condvar notSet member => exact old (.condvar notSet member)
  | asleep member => exact old (.asleep member)

theorem setSleepQueue {sleepQueue : List Sleeper}
    (waits : Waits (s.setSleepQueue sleepQueue) call fate)
    (old : ∀ {call fate}, Waits s call fate → P call fate)
    (new : ∀ e ∈ sleepQueue, P e.call (.watch e.path e.flag)) : P call fate := by
  cases waits with
  | mailqueue empty member => exact old (.mailqueue empty member)
  | inQ member => exact old (.inQ member)
  | outQ member => exact old (.outQ member)
  | readQ member => exact old (.readQ member)
  | condvar notSet member => exact old (.condvar notSet member)
  | asleep member => exact new _ member

theorem setCondvarState {condvar : Condvar} {state : CondvarState}
    (waits : Waits (s.setCondvarState condvar state) call fate)
    (old : ∀ {call fate}, Waits s call fate → P call fate)
    (new : ∀ waitingThreads, state = .isNotSet waitingThreads →
      ∀ e ∈ waitingThreads, P e.call e.fate) : P call fate := by
  cases waits with
  | mailqueue empty member => exact old (.mailqueue empty member)
  | inQ member => exact old (.inQ member)
  | outQ member => exact old (.outQ member)
  | readQ member => exact old (.readQ member)
  | @condvar other waitingThreads e notSet member =>
    by_cases same : other = condvar
    · subst same
      exact new waitingThreads (by simpa using notSet) e member
    · exact old (.condvar (by simpa [same] using notSet) member)
  | asleep member => exact old (.asleep member)

end Waits

structure Aside (s s' : State V) : Prop where
  status : s'.status = s.status
  trace : s'.trace = s.trace
  calls : s'.calls = s.calls
  awaits : s'.awaits = s.awaits
  condvars : s'.condvars = s.condvars
  mailops : s'.mailops = s.mailops
  places : s'.places = s.places
  nackstates : s'.nackstates = s.nackstates
  fired : s'.fired = s.fired
  flag : s'.flag = s.flag
  timesSet : s'.timesSet = s.timesSet
  mailqueue : s'.mailqueue = s.mailqueue
  mailslot : s'.mailslot = s.mailslot
  maildrop : s'.maildrop = s.maildrop
  condvar : s'.condvar = s.condvar
  sleepQueue : s'.sleepQueue = s.sleepQueue

namespace Aside

variable {s s' : State V} {call : Call}

theorem withMutex (mutex : Nat) : Aside s (s.withMutex mutex) := by constructor <;> rfl

theorem install (thread : Thread) : Aside s (s.install thread) := by constructor <;> rfl

theorem switchNoted (noted : Bool) : Aside s (s.switchNoted noted) := by constructor <;> rfl

theorem yielded : Aside s s.yielded := by constructor <;> rfl

theorem setCount (count : Nat) : Aside s (s.setCount count) := by constructor <;> rfl

theorem cacheTime : Aside s s.cacheTime := by constructor <;> rfl

theorem raised (raised : Raised) : Aside s (s.raised call raised) := by constructor <;> rfl

theorem dispatch (k : Nat) (thread : Thread) (control : Control V) :
    Aside s (s.dispatch k thread control) := by constructor <;> rfl

theorem preempt (control : Control V) : Aside s (s.preempt control) := by constructor <;> rfl

theorem makeThread (thread : Thread) : Aside s (s.makeThread thread) := by constructor <;> rfl

theorem exitThread : Aside s s.exitThread := by constructor <;> rfl

theorem tick (time : Nat) : Aside s (s.tick time) := by constructor <;> rfl

theorem sameCalls (aside : Aside s s') : SameCalls s s' where
  toSameRuns := .of_eq aside.condvars aside.mailops aside.places aside.nackstates aside.fired
    aside.flag aside.timesSet aside.condvar
  __ := aside
  awaits := fun _ _ => by rw [aside.awaits]

theorem waits (aside : Aside s s') {fate : Fate} (waits : Waits s' call fate) : Waits s call fate :=
  waits.same aside.mailqueue aside.mailslot aside.maildrop
    (fun _ _ notSet => aside.condvar ▸ notSet) aside.sleepQueue

end Aside

namespace Sound

variable {s s' : State V} {call : Call}

theorem aside (sound : Sound s) (aside : Aside s s') : Sound s' :=
  sound.same aside.sameCalls fun waits => .inl (aside.waits waits)

theorem await (sound : Sound s) (made : call < s.calls) (mailop : BaseMailop V) :
    Sound (s.await call mailop) :=
  sound.same (.await made mailop) fun waits => .inl (waits.same rfl rfl rfl (fun _ _ => id) rfl)

/-! Queues of waiting calls: each entry is there already or has its fate in order. -/

def Admits (s : State V) (call : Call) (fate : Fate) : Prop :=
  Waits s call fate ∨ (call < s.calls ∧ s.FateOf call fate)

theorem setMailqueue (sound : Sound s) (q : Nat) (state : MailqueueState V)
    (admits : ∀ readers, state = .empty readers → ∀ e ∈ readers.contents, Admits s e.call e.fate) :
    Sound (s.setMailqueue q state) :=
  sound.same .setMailqueue fun waits => waits.setMailqueue (P := Admits s) .inl admits

theorem setMailslot (sound : Sound s) (slot : Nat) (mailslot : Mailslot V)
    (admitsIn : ∀ e ∈ mailslot.inQ.contents, Admits s e.call e.fate)
    (admitsOut : ∀ e ∈ mailslot.outQ.contents, Admits s e.call e.fate) :
    Sound (s.setMailslot slot mailslot) :=
  sound.same .setMailslot fun waits => waits.setMailslot (P := Admits s) .inl admitsIn admitsOut

theorem setMaildrop (sound : Sound s) (cell : Cell) (maildrop : Maildrop V)
    (admits : ∀ e ∈ maildrop.readQ.contents, Admits s e.call e.fate) :
    Sound (s.setMaildrop cell maildrop) :=
  sound.same .setMaildrop fun waits => waits.setMaildrop (P := Admits s) .inl admits

theorem setSleepQueue (sound : Sound s) (sleepQueue : List Sleeper)
    (admits : ∀ e ∈ sleepQueue, Admits s e.call (.watch e.path e.flag)) :
    Sound (s.setSleepQueue sleepQueue) :=
  sound.same { SameCalls.refl s with }
    fun waits => waits.setSleepQueue (P := Admits s) .inl admits

theorem setCondvarState (sound : Sound s) (condvar : Condvar) (state : CondvarState)
    (isSet : ∀ priority, s.condvar condvar = .isSet priority → ∃ priority', state = .isSet priority')
    (isNotSet : ∀ waitingThreads, s.condvar condvar = .isNotSet waitingThreads →
      ∃ waitingThreads', state = .isNotSet waitingThreads')
    (admits : ∀ waitingThreads, state = .isNotSet waitingThreads →
      ∀ e ∈ waitingThreads, Admits s e.call e.fate) : Sound (s.setCondvarState condvar state) := by
  refine sound.same ⟨⟨rfl, rfl, rfl, rfl, rfl, rfl, rfl, ?_, ?_⟩, rfl, rfl, rfl, fun _ _ => rfl⟩
    fun waits => waits.setCondvarState (P := Admits s) .inl admits
  · intro other priority set
    by_cases same : other = condvar
    · subst same
      simpa using isSet priority set
    · exact ⟨priority, by simpa [same] using set⟩
  · intro other waitingThreads notSet
    by_cases same : other = condvar
    · subst same
      simpa using isNotSet waitingThreads notSet
    · exact ⟨waitingThreads, by simpa [same] using notSet⟩

end Sound

/-! Calls begin, block, are ended and told. -/

section Calls

variable {s s' : State V} {call : Call}

theorem Tracked.complete (tracked : Tracked s) : Tracked (s.complete call) := by
  have armed : Armed (s.complete call) := tracked.toArmed.complete
  refine tracked.next .complete ?_ ?_ armed.traced armed.once
    tracked.fresh
  · exact fun waits => tracked.waits waits.complete
  · exact fun alive => tracked.blocked (blocked_of_complete alive).2

theorem Sound.complete (sound : Sound s) : Sound (s.complete call) where
  toTracked := sound.toTracked.complete
  told := fun member => SameRuns.complete.accounted (sound.told member)

theorem Tracked.push (tracked : Tracked s) (flight : InFlight s call) (thread : Thread)
    (done : Done V) : Tracked (s.push thread call done) := by
  have armed := tracked.toArmed.push flight thread done
  refine tracked.next (.push thread done) ?_ tracked.blocked armed.traced
    armed.once tracked.fresh
  exact fun waits => tracked.waits (waits.same rfl rfl rfl (fun _ _ => id) rfl)

theorem Sound.push (sound : Sound s) (tellable : Tellable s call) (thread : Thread)
    (done : Done V) : Sound (s.push thread call done) where
  toTracked := sound.toTracked.push tellable.toInFlight thread done
  told := by
    have same : SameRuns s (s.push thread call done) := .push thread done
    intro entry member
    rcases List.mem_append.mp member with old | new
    · exact same.accounted (sound.told old)
    · cases List.mem_singleton.mp new
      exact same.accounted tellable.accounted

theorem Aside.push (thread : Thread) (done : Done V) :
    Aside (s.tell call done) (s.push thread call done) := by constructor <;> rfl

theorem Aside.returned (done : Done V) : Aside (s.tell call done) (s.returned call done) := by
  constructor <;> rfl

theorem Sound.tell (sound : Sound s) (tellable : Tellable s call) (done : Done V) :
    Sound (s.tell call done) :=
  (sound.push tellable 0 done).aside (by constructor <;> rfl)

theorem Tellable.tell {other : Call} (tellable : Tellable s call) (different : call ≠ other)
    (done : Done V) : Tellable (s.tell other done) call where
  __ := tellable
  untold := by simpa [different] using tellable.untold
  accounted := (SameRuns.tell done).accounted tellable.accounted

theorem Tellable.complete {other : Call} (tellable : Tellable s call) :
    Tellable (s.complete other) call where
  __ := tellable
  running := by simp [blocked_complete, tellable.running]
  accounted := SameRuns.complete.accounted tellable.accounted

theorem blocked_block (s : State V) (call other : Call) :
    (s.block call).blocked other = (if other = call then true else s.blocked other) := by
  by_cases same : other = call
  · subst same
    simp [State.blocked]
  · simp [State.blocked, same]

theorem Sound.block (sound : Sound s) (flight : InFlight s call) (unspent : s.Unspent call) :
    Sound (s.block call) where
  toTracked := by
    refine sound.toTracked.next .block ?_ ?_ ?_ sound.once
      sound.fresh
    · exact fun waits => sound.waits (waits.same rfl rfl rfl (fun _ _ => id) rfl)
    · intro other alive
      rw [blocked_block] at alive
      split at alive
      · subst other
        exact ⟨flight.made, unspent⟩
      · exact sound.blocked alive
    · intro entry member
      have different : entry.1 ≠ call := fun same =>
        flight.untold (same ▸ List.mem_map_of_mem member)
      rw [blocked_block, if_neg different]
      exact sound.traced member
  told := fun member => SameRuns.block.accounted (sound.told member)

structure Starting (s : State V) (call : Call) : Prop extends InFlight s call where
  last : s.calls = call + 1
  unspent : s.Unspent call
  idle : ∀ fate, ¬ Waits s call fate
  awaits : s.awaits call = []

theorem Sound.begin (sound : Sound s) : Sound s.begin where
  toTracked := by
    refine sound.toTracked.next .begin ?_ ?_ ?_ sound.once ?_
    · intro call fate waits
      have known := sound.waits (waits.same rfl rfl rfl (fun _ _ => id) rfl)
      exact ⟨Nat.lt_succ_of_lt known.1, known.2⟩
    · exact fun alive => ⟨Nat.lt_succ_of_lt (sound.blocked alive).1, (sound.blocked alive).2⟩
    · exact fun member => ⟨Nat.lt_succ_of_lt (sound.traced member).1, (sound.traced member).2⟩
    · exact fun new => sound.fresh (Nat.le_of_succ_le new)
  told := fun member => SameRuns.begin.accounted (sound.told member)

theorem Sound.starting (sound : Sound s) : Starting s.begin s.calls where
  made := Nat.lt_succ_self _
  running := by
    cases alive : s.begin.blocked s.calls with
    | false => rfl
    | true => exact absurd (sound.blocked alive).1 (Nat.lt_irrefl _)
  untold := by
    intro member
    obtain ⟨entry, found, same⟩ := List.mem_map.mp member
    have made := (sound.traced found).1
    rw [same] at made
    exact Nat.lt_irrefl _ made
  last := rfl
  unspent := SameRuns.begin.unspent
    (sound.plain (sound.fresh (Nat.le_refl _)).1)
  idle := fun _ waits =>
    absurd (sound.waits (waits.same rfl rfl rfl (fun _ _ => id) rfl)).1 (Nat.lt_irrefl _)
  awaits := (sound.fresh (Nat.le_refl _)).2

theorem Starting.same (starting : Starting s call) (same : SameCalls s s')
    (waits : ∀ {fate}, Waits s' call fate → Waits s call fate)
    (awaits : s'.awaits call = s.awaits call) : Starting s' call where
  toInFlight := same.inFlight starting.toInFlight
  last := same.calls.trans starting.last
  unspent := same.unspent starting.unspent
  idle := fun fate waiting => starting.idle fate (waits waiting)
  awaits := awaits.trans starting.awaits

end Calls

/-! A run claims its condition variables. -/

section Claim

variable {s : State V} {call : Call} {mailops : List (Mailop (BaseMailop V))}
  {places : List ((Path × BaseMailop V) × Flag)} {nackstates : List Nackstate} {next : Condvar}

theorem nacksOf_claim (other : Call) : (s.claim call mailops places nackstates next).nacksOf other =
      if other = call then nackstates.map Prod.fst else s.nacksOf other := by
  by_cases same : other = call
  · subst same
    simp [State.nacksOf]
  · simp [State.nacksOf, same]

variable {other : Call}

theorem unspent_claim (different : other ≠ call) (unspent : s.Unspent other) :
    (s.claim call mailops places nackstates next).Unspent other where
  __ := unspent
  nacks := by
    rw [nacksOf_claim, if_neg different]
    exact unspent.nacks

theorem spent_claim (different : other ≠ call) (spent : s.Spent other) :
    (s.claim call mailops places nackstates next).Spent other := by
  obtain ⟨path, flag, spent⟩ := spent
  have same : (s.claim call mailops places nackstates next).nackstates other = s.nackstates other :=
    by simp [different]
  refine ⟨path, flag, spent.fired, by simpa [different] using spent.place, ?_, ?_⟩
  · rw [same]
    exact spent.covered
  · rw [same]
    exact spent.uncovered

theorem accounted_claim (different : other ≠ call) (accounted : s.Accounted other) :
    (s.claim call mailops places nackstates next).Accounted other where
  run := fun run => spent_claim different (accounted.run (by simpa [different] using run))
  plain := fun plain => unspent_claim different (accounted.plain (by simpa [different] using plain))

theorem fateOf_claim (different : other ≠ call) {fate : Fate} (ok : s.FateOf other fate) :
    (s.claim call mailops places nackstates next).FateOf other fate := by
  cases fate <;> simpa [State.FateOf, different] using ok

theorem Sound.claim_unspent (sound : Sound s) (starting : Starting s call)
    (gathered : GatheredFor mailops s.condvars next places nackstates) :
    (s.claim call mailops places nackstates next).Unspent call where
  __ := starting.unspent
  nacks := by
    rw [nacksOf_claim, if_pos rfl]
    intro condvar member
    obtain ⟨nackstate, found, rfl⟩ := List.mem_map.mp member
    exact sound.unclaimed (gathered.bounds nackstate found).1

theorem Starting.claim (sound : Sound s) (starting : Starting s call)
    (gathered : GatheredFor mailops s.condvars next places nackstates) :
    Starting (s.claim call mailops places nackstates next) call where
  __ := starting
  unspent := sound.claim_unspent starting gathered
  idle := fun fate waits => starting.idle fate (waits.same rfl rfl rfl (fun _ _ => id) rfl)

theorem Sound.claim (sound : Sound s) (starting : Starting s call)
    (gathered : GatheredFor mailops s.condvars next places nackstates) :
    Sound (s.claim call mailops places nackstates next) where
  waits := by
    intro other fate waits
    have waits' : Waits s other fate := waits.same rfl rfl rfl (fun _ _ => id) rfl
    have different : other ≠ call := fun same => starting.idle fate (same ▸ waits')
    exact ⟨(sound.waits waits').1, fateOf_claim different (sound.waits waits').2⟩
  apart := by
    have new : ∀ {condvar}, condvar ∈ nackstates.map Prod.fst → s.condvars ≤ condvar := by
      intro condvar member
      obtain ⟨nackstate, found, rfl⟩ := List.mem_map.mp member
      exact (gathered.bounds nackstate found).1
    intro other other' condvar member member'
    rw [nacksOf_claim] at member member'
    split at member <;> split at member'
    · exact ‹other = call›.trans ‹other' = call›.symm
    · exact absurd (sound.claimed member') (Nat.not_lt_of_le (new member))
    · exact absurd (sound.claimed member) (Nat.not_lt_of_le (new member'))
    · exact sound.apart member member'
  nodup := by
    intro other
    rw [nacksOf_claim]
    split
    · exact gathered.nodup
    · exact sound.nodup other
  blocked := by
    intro other alive'
    have alive : s.blocked other = true := alive'
    obtain ⟨made, unspent⟩ := sound.blocked alive
    have different : other ≠ call := by
      rintro rfl
      have running := starting.running
      rw [alive] at running
      cases running
    exact ⟨made, unspent_claim different unspent⟩
  __ := sound
  fresh := by
    intro other new
    have different : other ≠ call := by
      rintro rfl
      exact absurd starting.made (Nat.not_lt_of_le new)
    simpa [different] using sound.fresh new
  unclaimed := fun free => sound.unclaimed (Nat.le_trans gathered.made free)
  claimed := by
    intro other condvar member
    rw [nacksOf_claim] at member
    split at member
    · obtain ⟨nackstate, found, rfl⟩ := List.mem_map.mp member
      exact (gathered.bounds nackstate found).2
    · exact Nat.lt_of_lt_of_le (sound.claimed member) gathered.made
  either := by
    intro other
    by_cases same : other = call
    · subst same
      exact .inl (sound.claim_unspent starting gathered)
    · exact (sound.either other).imp (unspent_claim same) (spent_claim same)
  plain := by
    intro other plain
    by_cases same : other = call
    · subst same
      simp at plain
    · exact unspent_claim same (sound.plain (by simpa [same] using plain))
  gathered := by
    intro other mailops' first run
    by_cases same : other = call
    · subst same
      simp only [State.claim_mailops, Function.update_self, Option.some.injEq,
        Prod.mk.injEq] at run
      obtain ⟨rfl, rfl⟩ := run
      exact ⟨next, by simpa using gathered⟩
    · simpa [same] using sound.gathered (by simpa [same] using run)
  told := by
    intro entry member
    have different : entry.1 ≠ call := fun same =>
      starting.untold (same ▸ List.mem_map_of_mem member)
    exact accounted_claim different (sound.told member)

end Claim

/-! Nacks are sent for `call`. -/

section Cascades

variable {s s' : State V} {call : Call}

theorem State.Accounted.either {call : Call} (accounted : s.Accounted call) :
    s.Unspent call ∨ s.Spent call := by
  by_cases plain : s.mailops call = none
  · exact .inl (accounted.plain plain)
  · exact .inr (accounted.run plain)

variable {other : Call}

theorem Cascade.settled (cascade : Cascade (· ∈ s.nacksOf call) (· = call) s s')
    (accounted : s'.Accounted call)
    (either : other = call ∨ s.blocked other = true) (running : s'.blocked other = false) :
    s'.Accounted other := by
  rcases either with rfl | alive
  · exact accounted
  · exact cascade.ended other alive running

theorem Tracked.apart_of (tracked : Tracked s) (different : other ≠ call) :
    ∀ condvar ∈ s.nacksOf other, condvar ∉ s.nacksOf call :=
  fun _ member member' => different (tracked.apart member member')

theorem Tracked.cascade (tracked : Tracked s) (armed : Armed s')
    (cascade : Cascade (· ∈ s.nacksOf call) (· = call) s s')
    (accounted : s'.Accounted call) : Tracked s' where
  toArmed := armed
  fresh := by
    rw [cascade.quiet.calls, cascade.quiet.mailops, cascade.quiet.awaits]
    exact tracked.fresh
  unclaimed := by
    intro condvar free
    rw [cascade.quiet.condvars] at free
    have unowned : ∀ other, condvar ∉ s.nacksOf other := fun other member =>
      absurd (tracked.claimed member) (Nat.not_lt_of_le free)
    have kept := cascade.condvars condvar (unowned call) fun other _ => unowned other
    simpa only [State.NotSent, kept] using tracked.unclaimed free
  claimed := by
    intro other condvar member
    rw [cascade.quiet.nacksOf] at member
    rw [cascade.quiet.condvars]
    exact tracked.claimed member
  either := by
    intro other
    cases alive : s'.blocked other with
    | true => exact .inl (armed.blocked alive).2
    | false =>
      by_cases mine : other = call ∨ s.blocked other = true
      · exact (cascade.settled accounted mine alive).either
      · rw [not_or, Bool.not_eq_true] at mine
        obtain ⟨unspent, spent⟩ :=
          cascade.keeps tracked.toArmed mine.2 mine.1 (tracked.apart_of mine.1)
        refine (tracked.either other).imp unspent ?_
        rintro ⟨path, flag, fired⟩
        exact ⟨path, flag, spent path flag fired⟩
  plain := by
    intro other plain
    cases alive : s'.blocked other with
    | true => exact (armed.blocked alive).2
    | false =>
      by_cases mine : other = call ∨ s.blocked other = true
      · exact (cascade.settled accounted mine alive).plain plain
      · rw [not_or, Bool.not_eq_true] at mine
        rw [cascade.quiet.mailops] at plain
        exact (cascade.keeps tracked.toArmed mine.2 mine.1 (tracked.apart_of mine.1)).1
          (tracked.plain plain)
  gathered := by
    rw [cascade.quiet.mailops, cascade.quiet.places, cascade.quiet.nackstates]
    exact tracked.gathered

theorem Cascade.told (cascade : Cascade (· ∈ s.nacksOf call) (· = call) s s') (tracked : Tracked s)
    (armed : Armed s') (accounted : s'.Accounted call)
    (told : ∀ entry ∈ s.trace, entry.1 ≠ call → s.Accounted entry.1) :
    ∀ entry ∈ s'.trace, s'.Accounted entry.1 := by
  obtain ⟨events, trace, new⟩ := cascade.quiet.told
  intro entry member
  have running' := (armed.traced member).2
  by_cases same : entry.1 = call
  · rw [same]
    exact accounted
  rw [trace] at member
  rcases List.mem_append.mp member with old | recent
  · exact cascade.accounted tracked.toArmed (tracked.traced old).2 same (tracked.apart_of same)
      (told entry old same)
  · exact cascade.ended _ (new entry recent).1 running'

theorem Sound.cascade (sound : Sound s) (armed : Armed s')
    (cascade : Cascade (· ∈ s.nacksOf call) (· = call) s s')
    (accounted : s'.Accounted call) : Sound s' where
  toTracked := sound.toTracked.cascade armed cascade accounted
  told := fun member => cascade.told sound.toTracked armed accounted
    (fun _ old _ => sound.told old) _ member

theorem Tellable.cascade (tellable : Tellable s other) (tracked : Tracked s)
    (cascade : Cascade (· ∈ s.nacksOf call) (· = call) s s') (different : other ≠ call) :
    Tellable s' other where
  toInFlight := cascade.quiet.inFlight tellable.toInFlight
  accounted := cascade.accounted tracked.toArmed tellable.running different
    (tracked.apart_of different) tellable.accounted

theorem Sound.settle (sound : Sound s) (flight : InFlight s call) (unspent : s.Unspent call)
    {fate : Fate} (ok : s.FateOf call fate) :
    ∃ s', outcome (settle call fate) s = (.ok (), s') ∧ Sound s' ∧ Tellable s' call ∧
      Cascade (· ∈ s.nacksOf call) (· = call) s s' := by
  obtain ⟨s', result, armed, cascade, accounted⟩ := settleWith_outcome
    (setCondvarIu_sets (s.calls + 1)) sound.toArmed (blockedCalls_bound s) flight.running unspent ok
  exact ⟨s', result, sound.cascade armed cascade accounted,
    ⟨cascade.quiet.inFlight flight, accounted⟩, cascade⟩

end Cascades

end Threadkit
