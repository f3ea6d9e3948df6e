import Mythryl.Threadkit.Mailqueue
import Mythryl.Threadkit.Mailslot
import Mythryl.Threadkit.Maildrop

/-!
# do_one_mailop, and all interleavings

A base mailop is asked whether it is ready to fire; the answer carries what the source captures in
its `fire_mailop`.
-/

namespace Threadkit

open RaisingState LazyQueue

variable {V : Type}

inductive FireMailop (V : Type)
  | takeFromMailqueue (q : Nat) (messages : Queue V)
  | putInMailslot (slot : Nat) (msg : V)
  | takeFromMailslot (slot : Nat)
  | readCell (cell : Cell) (reader : Reader V) (value : V)
  | waitOnCondvar (condvar : Condvar)
  | timeout
  | always (result : V)

/-- A priority and a `fire_mailop`, or `none` for a mailop that is not ready. -/
abbrev MailopReadiness (V : Type) := Option (Int × FireMailop V)

/-! `clean_and_check` bumps the priority when there is a live partner; it answers 0 if there is
none. -/

def cleanAndCheckInQ (slot : Nat) : Kit V Nat := do
  let s ← get
  let checked := cleanAndCheck (fun e => s.blocked e.call) (s.mailslot slot).inQ
  modify fun s => s.setMailslot slot ((s.mailslot slot).withInQ checked.2)
  if checked.1 then do
    setSlotPriority slot ((s.mailslot slot).priority + 1)
    return (s.mailslot slot).priority
  else return 0

def cleanAndCheckOutQ (slot : Nat) : Kit V Nat := do
  let s ← get
  let checked := cleanAndCheck (fun e => s.blocked e.call) (s.mailslot slot).outQ
  modify fun s => s.setMailslot slot ((s.mailslot slot).withOutQ checked.2)
  if checked.1 then do
    setSlotPriority slot ((s.mailslot slot).priority + 1)
    return (s.mailslot slot).priority
  else return 0

def isReaderReadyToFire (cell : Cell) (reader : Reader V) : Kit V (MailopReadiness V) := do
  let drop := (← get).maildrop cell
  match drop.value with
  | none => return none
  | some v => do
      setCellPriority cell (drop.priority + 1)
      return some (drop.priority, .readCell cell reader v)

def isMailopReadyToFire : BaseMailop V → Kit V (MailopReadiness V)
  | .takeFromMailqueue q => do
      match (← get).mailqueue q with
      | .empty _ => return none
      | .nonempty priority messages => do
          modify fun s => s.setMailqueue q (.nonempty (priority + 1) messages)
          return some (priority, .takeFromMailqueue q messages)
  | .putInMailslot slot msg => do
      match ← cleanAndCheckInQ slot with
      | 0 => return none
      | priority => return some (priority, .putInMailslot slot msg)
  | .takeFromMailslot slot => do
      match ← cleanAndCheckOutQ slot with
      | 0 => return none
      | priority => return some (priority, .takeFromMailslot slot)
  | .readMaildrop drop reader => isReaderReadyToFire (.maildrop drop) reader
  | .takeFromOneshot oneshot => isReaderReadyToFire (.oneshot oneshot) .peek
  | .waitOnCondvar condvar => do
      match (← get).condvar condvar with
      | .isSet priority => do
          modify fun s => s.setCondvarState condvar (.isSet (priority + 1))
          return some (priority, .waitOnCondvar condvar)
      | .isNotSet _ => return none
  | .timeoutIn sleepDuration =>
      if sleepDuration = 0 then return some (-1, .timeout) else return none
  | .timeoutAt wakeupTime => do
      if wakeupTime ≤ (← getApproximateTime) then return some (-1, .timeout) else return none
  | .always result => return some (-1, .always result)

def takeFromFrontOfInQ (slot : Nat) : Kit V (Entry Unit) := do
  let taken := ((← get).mailslot slot).inQ.takeFromFront
  modify fun s => s.setMailslot slot ((s.mailslot slot).withInQ taken.2)
  match taken.1 with
  | some taker => return taker
  | none => throw (.fail "queue is empty")

def takeFromFrontOfOutQ (slot : Nat) : Kit V (Entry V) := do
  let taken := ((← get).mailslot slot).outQ.takeFromFront
  modify fun s => s.setMailslot slot ((s.mailslot slot).withOutQ taken.2)
  match taken.1 with
  | some giver => return giver
  | none => throw (.fail "queue is empty")

def fireMailop (call : Call) : FireMailop V → Kit V Unit
  | .takeFromMailqueue q messages => getMsgXu call q messages
  | .putInMailslot slot msg => do
      let taker ← takeFromFrontOfInQ slot
      giveTo call slot msg taker
  | .takeFromMailslot slot => do
      let giver ← takeFromFrontOfOutQ slot
      takeFrom call slot giver
  | .readCell cell reader value => do
      match cell with
      | .maildrop _ => readNow cell reader
      | .oneshot _ => setCellPriority cell 1
      exitScope
      returnTo call (reader.done cell value)
  | .waitOnCondvar condvar => do
      modify fun s => s.setCondvarState condvar (.isSet 1)
      exitScope
      returnTo call (.event (.condvar condvar))
  | .timeout => do
      exitScope
      returnTo call (.event .timeout)
  | .always _ => do
      exitScope
      returnTo call (.event .always)

def timeWait (sleeper : Sleeper) (blocked : Call → Bool) : List Sleeper → List Sleeper
  | [] => [sleeper]
  | item :: rest =>
      if blocked item.call then
        if item.time < sleeper.time then item :: timeWait sleeper blocked rest
        else sleeper :: item :: rest
      else timeWait sleeper blocked rest

abbrev Placed (V : Type) := (Path × BaseMailop V) × Flag

def setUpMailopreadyWatch (call : Call) (placed : Placed V) : Kit V Unit := do
  let fate := Fate.watch placed.1.1 placed.2
  match placed.1.2 with
  | .takeFromMailqueue q => do
      match (← get).mailqueue q with
      | .empty readers =>
          modify fun s => s.setMailqueue q (.empty (readers.putOnBack ⟨call, fate, ()⟩))
      | .nonempty _ _ => throw (.fail "Compiler bug: Unsupported NONEMPTY case")
  | .putInMailslot slot msg =>
      modify fun s => s.setMailslot slot ((s.mailslot slot).withOutQ
        (cleanAndEnqueue (fun e => s.blocked e.call) (s.mailslot slot).outQ ⟨call, fate, msg⟩))
  | .takeFromMailslot slot =>
      modify fun s => s.setMailslot slot ((s.mailslot slot).withInQ
        (cleanAndEnqueue (fun e => s.blocked e.call) (s.mailslot slot).inQ ⟨call, fate, ()⟩))
  | .readMaildrop drop reader => waitInReadQ (.maildrop drop) ⟨call, fate, reader⟩
  | .takeFromOneshot oneshot => waitInReadQ (.oneshot oneshot) ⟨call, fate, .peek⟩
  | .waitOnCondvar condvar => do
      match (← get).condvar condvar with
      | .isNotSet waitingThreads =>
          modify fun s => s.setCondvarState condvar (.isNotSet (⟨call, fate, ()⟩ :: waitingThreads))
      | .isSet _ => throw (.fail "Bug in wait_on_condvar'")
  | .timeoutIn sleepDuration =>
      modify fun s => s.setSleepQueue
        (timeWait ⟨sleepDuration + s.now, call, placed.1.1, placed.2⟩ s.blocked s.sleepQueue)
  | .timeoutAt wakeupTime =>
      modify fun s => s.setSleepQueue
        (timeWait ⟨wakeupTime, call, placed.1.1, placed.2⟩ s.blocked s.sleepQueue)
  | .always _ => throw (.fail "impossible")
  modify fun s => s.await call placed.1.2

/-! Testing all mailops, and picking one of those that are ready. -/

abbrev Firing (V : Type) := (Path × Flag) × FireMailop V

inductive TestResult (V : Type)
  | noReadyMailops (startMailopWatchFns : List (Placed V))
  | readyMailops (fireMailopFns : List (Int × Firing V)) (n : Nat)

def testMailopsForReadinessToFire' : List (Placed V) → List (Int × Firing V) → Nat →
    Kit V (TestResult V)
  | mailop :: rest, fireMailopFns, n => do
      match ← isMailopReadyToFire mailop.1.2 with
      | some (priority, fire) =>
          testMailopsForReadinessToFire' rest
            ((priority, (mailop.1.1, mailop.2), fire) :: fireMailopFns) (n + 1)
      | none => testMailopsForReadinessToFire' rest fireMailopFns n
  | [], fireMailopFns, n => return .readyMailops fireMailopFns n

def testMailopsForReadinessToFire : List (Placed V) → List (Placed V) → Kit V (TestResult V)
  | mailop :: rest, startMailopWatchFns => do
      match ← isMailopReadyToFire mailop.1.2 with
      | none => testMailopsForReadinessToFire rest (mailop :: startMailopWatchFns)
      | some (priority, fire) =>
          testMailopsForReadinessToFire' rest [(priority, (mailop.1.1, mailop.2), fire)] 1
  | [], startMailopWatchFns => return .noReadyMailops startMailopWatchFns

def pickFairly (i : Nat) : Kit V Nat := do
  let j := (← get).count
  modify fun s => s.setCount (if j = 1000000 then 0 else j + 1)
  return j % i

section Pick

variable {α : Type}

def maxPriority (n : Nat) : List (Int × α) → Int → Nat → List α → Nat × List α
  | (p, fireMailop) :: rest, maxP, k, fireMailopFns =>
      let p := if p = -1 then (n : Int) else p
      if p > maxP then maxPriority n rest p 1 [fireMailop]
      else if p = maxP then maxPriority n rest maxP (k + 1) (fireMailop :: fireMailopFns)
      else maxPriority n rest maxP k fireMailopFns
  | [], _, k, fireMailopFns => (k, fireMailopFns)

def pickHighestPriorityMailopBreakingTiesFairly : List (Int × α) → Nat → Kit V α
  | [(_, fireMailop)], _ => return fireMailop
  | l, n => match maxPriority n l 0 0 [] with
      | (_, [fireMailop]) => return fireMailop
      | (k, fireMailopFns) => do
          match fireMailopFns[← pickFairly k]? with
          | some fireMailop => return fireMailop
          | none => throw .subscript

end Pick

def setUpMailopreadyWatchesLoop (call : Call) : List (Placed V) → Kit V Unit
  | [] => dispatchNextThreadUsendNoreturn
  | mailop :: rest => do
      setUpMailopreadyWatch call mailop
      setUpMailopreadyWatchesLoop call rest

def doOneBaseMailop (call : Call) (mailop : Placed V) : Kit V Unit := do
  enterScope
  match ← isMailopReadyToFire mailop.1.2 with
  | some (_, fire) => do
      modify fun s => s.countFire call mailop.1.1 mailop.2
      fireMailop call fire
  | none => do
      modify fun s => s.block call
      setUpMailopreadyWatchesLoop call [mailop]

def doNackfreeMailops (call : Call) : List (Placed V) → Kit V Unit
  | [] => dispatchNextThreadNoreturn
  | [mailop] => doOneBaseMailop call mailop
  | mailops => do
      enterScope
      match ← testMailopsForReadinessToFire mailops [] with
      | .readyMailops fireMailopFns n => do
          let fire ← pickHighestPriorityMailopBreakingTiesFairly fireMailopFns n
          modify fun s => s.countFire call fire.1.1 fire.1.2
          fireMailop call fire.2
      | .noReadyMailops startMailopWatchFns => do
          modify fun s => s.block call
          setUpMailopreadyWatchesLoop call startMailopWatchFns

def doNackfullMailops (call : Call) (mailops : List (Placed V)) : Kit V Unit := do
  enterScope
  match ← testMailopsForReadinessToFire mailops [] with
  | .readyMailops fireMailopFns n => do
      let fire ← pickHighestPriorityMailopBreakingTiesFairly fireMailopFns n
      modify fun s => s.countFire call fire.1.1 fire.1.2
      modify fun s => s.raiseFlag call fire.1.2
      sendNacks setCondvarIu call ((← get).nackstates call)
      fireMailop call fire.2
  | .noReadyMailops startMailopWatchFns => do
      modify fun s => s.block call
      setUpMailopreadyWatchesLoop call startMailopWatchFns

def runPrepared (call : Call) (mailops : List (Mailop (BaseMailop V)))
    (prepared : PreparedMailops (Path × BaseMailop V) × Condvar) : Kit V Unit := do
  let gathered := gatherPrepared prepared.1
  modify fun s => s.claim call mailops gathered.1 gathered.2 prepared.2
  match prepared.1 with
  | .nackfree _ => doNackfreeMailops call gathered.1
  | _ => doNackfullMailops call gathered.1

/-- The condition variables are made before the scope is entered. They are private to this call
until then, except that a `makeMailop` may have passed one on; a thread may therefore wait on any
condition variable, also on one that is not made yet. -/
def doOneMailop (call : Call) (mailops : List (Mailop (BaseMailop V))) : Kit V Unit := do
  runPrepared call mailops
    (DoOneMailop.prepareMailops (taggedFrom mailops [] 0) [] (← get).condvars)

def blockUntilMailopFires (call : Call) (mailop : Mailop (BaseMailop V)) : Kit V Unit := do
  runPrepared call [mailop]
    (BlockUntilMailopFires.prepare (mailop.tagged [0]) (← get).condvars)

inductive Operation (V : Type)
  | putInMailqueue (q : Nat) (x : V)
  | takeFromMailqueue (q : Nat)
  | nonblockingTakeFromMailqueue (q : Nat)
  | putInMailslot (slot : Nat) (msg : V)
  | nonblockingPutInMailslot (slot : Nat) (msg : V)
  | takeFromMailslot (slot : Nat)
  | nonblockingTakeFromMailslot (slot : Nat)
  | putInMaildrop (drop : Nat) (value : V)
  | takeFromMaildrop (drop : Nat)
  | nonblockingTakeFromMaildrop (drop : Nat)
  | peekInMaildrop (drop : Nat)
  | nonblockingPeekInMaildrop (drop : Nat)
  | maildropSwap (drop : Nat) (newValue : V)
  | putInOneshot (oneshot : Nat) (value : V)
  | takeFromOneshot (oneshot : Nat)
  | nonblockingTakeFromOneshot (oneshot : Nat)
  | doOneMailop (mailops : List (Mailop (BaseMailop V)))
  | blockUntilMailopFires (mailop : Mailop (BaseMailop V))

def Operation.run (call : Call) : Operation V → Kit V Unit
  | .putInMailqueue q x => Threadkit.putInMailqueue call q x
  | .takeFromMailqueue q => Threadkit.takeFromMailqueue call q
  | .nonblockingTakeFromMailqueue q => Threadkit.nonblockingTakeFromMailqueue call q
  | .putInMailslot slot msg => Threadkit.putInMailslot call slot msg
  | .nonblockingPutInMailslot slot msg => Threadkit.nonblockingPutInMailslot call slot msg
  | .takeFromMailslot slot => Threadkit.takeFromMailslot call slot
  | .nonblockingTakeFromMailslot slot => Threadkit.nonblockingTakeFromMailslot call slot
  | .putInMaildrop drop value => Threadkit.putInMaildrop call drop value
  | .takeFromMaildrop drop => Threadkit.takeFromMaildrop call drop
  | .nonblockingTakeFromMaildrop drop => Threadkit.nonblockingTakeFromMaildrop call drop
  | .peekInMaildrop drop => Threadkit.peekInMaildrop call drop
  | .nonblockingPeekInMaildrop drop => Threadkit.nonblockingPeekInMaildrop call drop
  | .maildropSwap drop newValue => Threadkit.maildropSwap call drop newValue
  | .putInOneshot oneshot value => Threadkit.putInOneshot call oneshot value
  | .takeFromOneshot oneshot => Threadkit.takeFromOneshot call oneshot
  | .nonblockingTakeFromOneshot oneshot => Threadkit.nonblockingTakeFromOneshot call oneshot
  | .doOneMailop mailops => Threadkit.doOneMailop call mailops
  | .blockUntilMailopFires mailop => Threadkit.blockUntilMailopFires call mailop

/-! The sleep queue is looked through by the scheduler, between threads. -/

def dropCancelledQueueEntries (blocked : Call → Bool) (items : List Sleeper) : List Sleeper :=
  items.filter fun item => blocked item.call

def wakeThem (now : Nat) : List Sleeper → Kit V (List Sleeper)
  | [] => return []
  | item :: rest => do
      let s ← get
      match s.status item.call with
      | .isComplete => wakeThem now rest
      | .isBlocked thread =>
          if item.time ≤ now then do
            modify fun s => s.push thread item.call (.event .timeout)
            finishDo1mailoprun item.call item.path item.flag
            wakeThem now rest
          else return dropCancelledQueueEntries s.blocked (item :: rest)

def wakeSleepingThreadsWhoseTimeHasComeIu : Kit V Unit := do
  let now ← getApproximateTime
  let sleepers ← wakeThem now (← get).sleepQueue
  modify fun s => s.setSleepQueue sleepers

namespace State

@[simps] def begin (s : State V) : State V := { s with calls := s.calls + 1, control := none }

@[simps] def raised (s : State V) (call : Call) (raised : Raised) : State V :=
  { s with control := some (.raised call raised) }

@[simps] def dispatch (s : State V) (k : Nat) (thread : Thread) (control : Control V) : State V :=
  { s with
    runQueue := s.runQueue.eraseIdx k
    currentThread := thread
    mutex := 0
    control := some control }

@[simps] def preempt (s : State V) (control : Control V) : State V :=
  { s with
    cachedApproximateTime := none
    mutex := 1
    runQueue := s.runQueue ++ [(s.currentThread, control)]
    control := none }

@[simps] def makeThread (s : State V) (thread : Thread) : State V :=
  { s with runQueue := s.runQueue ++ [(thread, .running)] }

@[simps] def exitThread (s : State V) : State V := { s with mutex := 1, control := none }

@[simps] def tick (s : State V) (time : Nat) : State V :=
  { s with now := s.now + time, cachedApproximateTime := none }

def start (cells : Cell → Option V) : State V where
  mutex := 0
  needToSwitchThreads := false
  currentThread := 0
  runQueue := []
  mailqueue := fun _ => .empty .empty
  mailslot := fun _ => ⟨1, .empty, .empty⟩
  maildrop := fun cell => ⟨0, .empty, cells cell⟩
  condvar := fun _ => .isNotSet []
  sleepQueue := []
  now := 0
  cachedApproximateTime := none
  count := 0
  status := fun _ => .isComplete
  flag := fun _ _ => false
  nackstates := fun _ => []
  control := some .running
  calls := 0
  condvars := 0
  trace := []
  awaits := fun _ => []
  mailops := fun _ => none
  places := fun _ => []
  fired := fun _ => []
  timesSet := fun _ => 0

end State

/-- What happens next: the thread in control calls an operation, makes a thread or ends; a timer
signal preempts it, or comes while the next scope runs; or, while no thread has control, the
scheduler wakes sleepers or dispatches a thread of the run queue. -/
inductive Label (V : Type)
  | call (operation : Operation V)
  | makeThread (thread : Thread)
  | exitThread
  | preempt
  | signalInScope
  | tick (time : Nat)
  | wakeSleepers
  | dispatch (k : Nat)

def step (s : State V) : Label V → Option (State V)
  | .call operation =>
      if s.control.isSome then
        match outcome (operation.run s.calls) s.begin with
        | (.ok (), s') => some s'
        | (.error .exitUncleanly, _) => none
        | (.error .unfinished, _) => none
        | (.error raised, s') => some (s'.raised s.calls raised)
      else none
  | .makeThread thread => if s.control.isSome then some (s.makeThread thread) else none
  | .exitThread => if s.control.isSome then some s.exitThread else none
  | .preempt => match s.control with
      | some control => if s.mutex = 0 then some (s.preempt control) else none
      | none => none
  | .signalInScope => some (s.switchNoted true)
  | .tick time => some (s.tick time)
  | .wakeSleepers =>
      if s.control.isNone then
        match outcome wakeSleepingThreadsWhoseTimeHasComeIu s with
        | (.ok (), s') => some s'
        | (.error _, _) => none
      else none
  | .dispatch k => match s.control, s.runQueue[k]? with
      | none, some (thread, control) => some (s.dispatch k thread control)
      | _, _ => none

inductive Reachable (cells : Cell → Option V) : State V → Prop
  | start : Reachable cells (State.start cells)
  | step {s s' : State V} {label : Label V} :
      Reachable cells s → step s label = some s' → Reachable cells s'

end Threadkit
