import Mythryl.LazyQueue
import Mythryl.RaisingState
import Mathlib.Logic.Function.Basic
import Mathlib.Tactic.Simps.Basic

/-!
# Mailop expressions

`do_one_mailop` and `block_until_mailop_fires` first unfold the dynamic parts of the expression and
flatten it, keeping apart only what is wrapped in a `DYNAMIC_MAILOP_WITH_NACK`; a second walk hands
out the flags.
-/

namespace Threadkit

abbrev Condvar := Nat
abbrev Flag := Nat
abbrev Nackstate := Condvar × List Flag

inductive Mailop (β : Type)
  | base (mailops : List β)
  | choose (mailops : List (Mailop β))
  | dynamic (makeMailop : Unit → Mailop β)
  | dynamicWithNack (makeMailop : Condvar → Mailop β)

inductive PreparedMailops (β : Type)
  | nackfree (mailops : List β)
  | nackfull (groups : List (PreparedMailops β))
  | withnack (condvar : Condvar) (group : PreparedMailops β)

variable {β : Type}

namespace BlockUntilMailopFires

mutual

def prepare' : Mailop β → Condvar → PreparedMailops β × Condvar
  | .dynamic makeMailop, next => prepare' (makeMailop ()) next
  | .dynamicWithNack makeMailop, next =>
      let group := prepare' (makeMailop next) (next + 1)
      (.withnack next group.1, group.2)
  | .base mailops, next => (.nackfree mailops, next)
  | .choose mailops, next => prepareMailops mailops [] next

def prepareMailops : List (Mailop β) → List β → Condvar → PreparedMailops β × Condvar
  | [], mailops', next => (.nackfree mailops', next)
  | mailop :: rest, mailops', next =>
      match prepare' mailop next with
      | (.nackfree mailops, next') => prepareMailops rest (mailops ++ mailops') next'
      | (.nackfull groups, next') =>
          prepareNackfullMailops rest (groups ++ [.nackfree mailops']) next'
      | (.withnack condvar group, next') =>
          prepareNackfullMailops rest [.withnack condvar group, .nackfree mailops'] next'

def prepareNackfullMailops :
    List (Mailop β) → List (PreparedMailops β) → Condvar → PreparedMailops β × Condvar
  | [], [group], next => (group, next)
  | [], l, next => (.nackfull l, next)
  | mailop :: rest, l, next =>
      match prepare' mailop next, l with
      | (.nackfree mailops, next'), .nackfree mailops' :: rest' =>
          prepareNackfullMailops rest (.nackfree (mailops ++ mailops') :: rest') next'
      | (.nackfull groups, next'), l => prepareNackfullMailops rest (groups ++ l) next'
      | (group, next'), l => prepareNackfullMailops rest (group :: l) next'

end

def prepare : Mailop β → Condvar → PreparedMailops β × Condvar
  | .base mailops, next => (.nackfree mailops, next)
  | mailop, next => prepare' mailop next

end BlockUntilMailopFires

namespace DoOneMailop

mutual

def prepareMailops : List (Mailop β) → List β → Condvar → PreparedMailops β × Condvar
  | mailop :: rest, mailops', next =>
      match prepareOneMailop mailop next with
      | (.nackfree mailops, next') => prepareMailops rest (mailops ++ mailops') next'
      | (.nackfull groups, next') =>
          prepareNackfullMailops rest (groups ++ [.nackfree mailops']) next'
      | (.withnack condvar group, next') =>
          prepareNackfullMailops rest [.withnack condvar group, .nackfree mailops'] next'
  | [], mailops', next => (.nackfree mailops', next)

def prepareNackfullMailops :
    List (Mailop β) → List (PreparedMailops β) → Condvar → PreparedMailops β × Condvar
  | [], [result], next => (result, next)
  | [], results, next => (.nackfull results, next)
  | mailop :: rest, results, next =>
      match prepareOneMailop mailop next, results with
      | (.nackfree mailops, next'), .nackfree mailops' :: rest' =>
          prepareNackfullMailops rest (.nackfree (mailops ++ mailops') :: rest') next'
      | (.nackfull groups, next'), results =>
          prepareNackfullMailops rest (groups ++ results) next'
      | (other, next'), results => prepareNackfullMailops rest (other :: results) next'

def prepareOneMailop : Mailop β → Condvar → PreparedMailops β × Condvar
  | .base mailops, next => (.nackfree mailops, next)
  | .choose mailops, next => prepareMailops mailops [] next
  | .dynamic makeMailop, next => prepareOneMailop (makeMailop ()) next
  | .dynamicWithNack makeMailop, next =>
      let group := prepareOneMailop (makeMailop next) (next + 1)
      (.withnack next group.1, group.2)

end

end DoOneMailop

/-! The two walks that hand out flags. All mailops outside every nack share one flag. -/

def reverseAndPrependMailops (flag : Flag) : List β → List (β × Flag) → List (β × Flag)
  | mailop :: rest, results => reverseAndPrependMailops flag rest ((mailop, flag) :: results)
  | [], results => results

structure Gathered (β : Type) where
  mailops : List (β × Flag)
  allFlags : List Flag
  nackstates : List Nackstate
  next : Nat

def gatherFlags : List β → Gathered β → Gathered β
  | [], g => g
  | mailop :: rest, g =>
      gatherFlags rest
        ⟨(mailop, g.next) :: g.mailops, g.next :: g.allFlags, g.nackstates, g.next + 1⟩

mutual

def gather : PreparedMailops β → Gathered β → Gathered β
  | .nackfree mailops, g => gatherFlags mailops g
  | .nackfull groups, g => gatherGroups groups g
  | .withnack condvar group, g =>
      let g' := gather group ⟨g.mailops, [], g.nackstates, g.next⟩
      ⟨g'.mailops, g'.allFlags ++ g.allFlags, (condvar, g'.allFlags) :: g'.nackstates, g'.next⟩

def gatherGroups : List (PreparedMailops β) → Gathered β → Gathered β
  | [], g => g
  | group :: rest, g => gatherGroups rest (gather group g)

end

def gatherWrapped (group : PreparedMailops β) (g : Gathered β) : Gathered β :=
  let g' := gather group ⟨g.mailops, [], g.nackstates, g.next⟩
  ⟨g'.mailops, g.allFlags, g'.nackstates, g'.next⟩

def unWrappedFlag : Flag := 0

mutual

def gatherMailops : PreparedMailops β → Gathered β → Gathered β
  | .nackfree mailops, g =>
      ⟨reverseAndPrependMailops unWrappedFlag mailops g.mailops, g.allFlags, g.nackstates, g.next⟩
  | .nackfull groups, g => gatherMailopsOf groups g
  | .withnack condvar group, g => gatherWrapped (.withnack condvar group) g

def gatherMailopsOf : List (PreparedMailops β) → Gathered β → Gathered β
  | [], g => g
  | group :: rest, g => gatherMailopsOf rest (gatherMailops group g)

end

def gatherBaseMailopsAndNackstates :
    PreparedMailops β → List (β × Flag) × List Nackstate
  | .nackfull groups =>
      let g := gatherMailops (.nackfull groups) ⟨[], [], [], unWrappedFlag + 1⟩
      (g.mailops, g.nackstates)
  | group =>
      let g := gatherWrapped group ⟨[], [], [], unWrappedFlag + 1⟩
      (g.mailops, g.nackstates)

def gatherPrepared : PreparedMailops β → List (β × Flag) × List Nackstate
  | .nackfree mailops => (mailops.map fun mailop => (mailop, unWrappedFlag), [])
  | group => gatherBaseMailopsAndNackstates group

/-! To say which subexpression a base mailop was generated in, each is given the path that leads to it. -/

abbrev Path := List Nat

mutual

def Mailop.tagged : Mailop β → Path → Mailop (Path × β)
  | .base mailops, path => .base (mailops.mapIdx fun i mailop => (path ++ [i], mailop))
  | .choose mailops, path => .choose (taggedFrom mailops path 0)
  | .dynamic makeMailop, path => .dynamic fun _ => (makeMailop ()).tagged path
  | .dynamicWithNack makeMailop, path =>
      .dynamicWithNack fun condvar => (makeMailop condvar).tagged path

def taggedFrom : List (Mailop β) → Path → Nat → List (Mailop (Path × β))
  | [], _, _ => []
  | mailop :: rest, path, i => mailop.tagged (path ++ [i]) :: taggedFrom rest path (i + 1)

end

mutual

def Mailop.nacks : Mailop β → Path → Condvar → List (Path × Condvar) × Condvar
  | .base _, _, next => ([], next)
  | .choose mailops, path, next => nacksFrom mailops path 0 next
  | .dynamic makeMailop, path, next => (makeMailop ()).nacks path next
  | .dynamicWithNack makeMailop, path, next =>
      let inner := (makeMailop next).nacks path (next + 1)
      ((path, next) :: inner.1, inner.2)

def nacksFrom : List (Mailop β) → Path → Nat → Condvar → List (Path × Condvar) × Condvar
  | [], _, _, next => ([], next)
  | mailop :: rest, path, i, next =>
      let first := mailop.nacks (path ++ [i]) next
      let others := nacksFrom rest path (i + 1) first.2
      (first.1 ++ others.1, others.2)

end

mutual

def Mailop.bases : Mailop β → Path → Condvar → List (Path × β)
  | .base mailops, path, _ => mailops.mapIdx fun i mailop => (path ++ [i], mailop)
  | .choose mailops, path, next => basesFrom mailops path 0 next
  | .dynamic makeMailop, path, next => (makeMailop ()).bases path next
  | .dynamicWithNack makeMailop, path, next => (makeMailop next).bases path (next + 1)

def basesFrom : List (Mailop β) → Path → Nat → Condvar → List (Path × β)
  | [], _, _, _ => []
  | mailop :: rest, path, i, next =>
      mailop.bases (path ++ [i]) next ++
        basesFrom rest path (i + 1) (mailop.nacks (path ++ [i]) next).2

end

/-! # The state of the thread kit and its scheduler -/

open RaisingState LazyQueue

abbrev Thread := Nat
abbrev Call := Nat

inductive Do1mailoprunStatus
  | isComplete
  | isBlocked (thread : Thread)

inductive Fate
  | direct
  | watch (path : Path) (flag : Flag)

structure Entry (α : Type) where
  call : Call
  fate : Fate
  what : α

inductive CondvarState
  | isNotSet (waitingThreads : List (Entry Unit))
  | isSet (priority : Nat)

inductive MailqueueState (V : Type)
  | empty (readers : Queue (Entry Unit))
  | nonempty (priority : Nat) (messages : Queue V)

structure Mailslot (V : Type) where
  priority : Nat
  inQ : Queue (Entry Unit)
  outQ : Queue (Entry V)

inductive Reader (V : Type)
  | take
  | peek
  | swap (newValue : V)

structure Maildrop (V : Type) where
  priority : Nat
  readQ : Queue (Entry (Reader V))
  value : Option V

inductive Cell
  | maildrop (name : Nat)
  | oneshot (name : Nat)
  deriving DecidableEq

structure Sleeper where
  time : Nat
  call : Call
  path : Path
  flag : Flag

inductive Event
  | condvar (condvar : Condvar)
  | timeout
  | always

inductive Done (V : Type)
  | putInMailqueue (q : Nat) (msg : V)
  | tookFromMailqueue (q : Nat) (msg : V)
  | putInMailslot (slot : Nat) (msg : V)
  | tookFromMailslot (slot : Nat) (msg : V)
  | putInCell (cell : Cell) (value : V)
  | tookFromCell (cell : Cell) (value : V)
  | peekedInCell (cell : Cell) (value : V)
  | swappedInCell (cell : Cell) (value newValue : V)
  | foundNothing
  | event (event : Event)

inductive Raised
  | fail (message : String)
  | mayNotFillAlreadyFull (cell : Cell)
  | subscript
  | exitUncleanly
  | unfinished
  deriving DecidableEq

inductive Control (V : Type)
  | running
  | returned (call : Call) (done : Done V)
  | raised (call : Call) (raised : Raised)

/-- The base mailops. `readMaildrop` is `take_from_maildrop'`, `peek_in_maildrop'` or
`maildrop_swap'`, as its reader says. A plain operation that blocks waits as its mailop would. -/
inductive BaseMailop (V : Type)
  | takeFromMailqueue (q : Nat)
  | putInMailslot (slot : Nat) (msg : V)
  | takeFromMailslot (slot : Nat)
  | readMaildrop (drop : Nat) (reader : Reader V)
  | takeFromOneshot (oneshot : Nat)
  | waitOnCondvar (condvar : Condvar)
  | timeoutIn (sleepDuration : Nat)
  | timeoutAt (wakeupTime : Nat)
  | always (result : V)

structure State (V : Type) where
  mutex : Nat
  needToSwitchThreads : Bool
  currentThread : Thread
  runQueue : List (Thread × Control V)
  mailqueue : Nat → MailqueueState V
  mailslot : Nat → Mailslot V
  maildrop : Cell → Maildrop V
  condvar : Condvar → CondvarState
  sleepQueue : List Sleeper
  now : Nat
  cachedApproximateTime : Option Nat
  count : Nat
  status : Call → Do1mailoprunStatus
  flag : Call → Flag → Bool
  nackstates : Call → List Nackstate
  /-- The thread that has control and what it has got, or `none` in the scheduler. -/
  control : Option (Control V)
  -- The rest is only written: calls and condition variables made so far, what was settled, what
  -- each call waits for, the expression it runs and its gathered base mailops, and what has fired.
  calls : Nat
  condvars : Nat
  trace : List (Call × Done V)
  awaits : Call → List (BaseMailop V)
  mailops : Call → Option (List (Mailop (BaseMailop V)) × Condvar)
  places : Call → List ((Path × BaseMailop V) × Flag)
  fired : Call → List (Path × Flag)
  timesSet : Condvar → Nat

abbrev Kit (V : Type) := Raising Raised (State V)

variable {V : Type}

namespace Do1mailoprunStatus

@[simp] def blocked : Do1mailoprunStatus → Bool
  | isComplete => false
  | isBlocked _ => true

end Do1mailoprunStatus

namespace Mailslot

@[simps] def withPriority (m : Mailslot V) (priority : Nat) : Mailslot V :=
  { m with priority := priority }

@[simps] def withInQ (m : Mailslot V) (inQ : Queue (Entry Unit)) : Mailslot V :=
  { m with inQ := inQ }

@[simps] def withOutQ (m : Mailslot V) (outQ : Queue (Entry V)) : Mailslot V :=
  { m with outQ := outQ }

end Mailslot

namespace Maildrop

@[simps] def withPriority (m : Maildrop V) (priority : Nat) : Maildrop V :=
  { m with priority := priority }

@[simps] def withReadQ (m : Maildrop V) (readQ : Queue (Entry (Reader V))) : Maildrop V :=
  { m with readQ := readQ }

@[simps] def withValue (m : Maildrop V) (value : Option V) : Maildrop V :=
  { m with value := value }

end Maildrop

namespace State

def blocked (s : State V) (call : Call) : Bool := (s.status call).blocked

@[simps] def withMutex (s : State V) (mutex : Nat) : State V := { s with mutex := mutex }

@[simps] def switchNoted (s : State V) (noted : Bool) : State V :=
  { s with needToSwitchThreads := noted }

@[simps] def install (s : State V) (thread : Thread) : State V := { s with currentThread := thread }

@[simps] def push (s : State V) (thread : Thread) (call : Call) (done : Done V) : State V :=
  { s with
    runQueue := s.runQueue ++ [(thread, .returned call done)]
    trace := s.trace ++ [(call, done)] }

@[simps] def yielded (s : State V) : State V := { s with control := none }

@[simps] def returned (s : State V) (call : Call) (done : Done V) : State V :=
  { s with control := some (.returned call done), trace := s.trace ++ [(call, done)] }

@[simps] def complete (s : State V) (call : Call) : State V :=
  { s with status := Function.update s.status call .isComplete }

@[simps] def block (s : State V) (call : Call) : State V :=
  { s with status := Function.update s.status call (.isBlocked s.currentThread) }

@[simps] def await (s : State V) (call : Call) (mailop : BaseMailop V) : State V :=
  { s with awaits := Function.update s.awaits call (s.awaits call ++ [mailop]) }

@[simps] def setMailqueue (s : State V) (q : Nat) (state : MailqueueState V) : State V :=
  { s with mailqueue := Function.update s.mailqueue q state }

@[simps] def setMailslot (s : State V) (slot : Nat) (mailslot : Mailslot V) : State V :=
  { s with mailslot := Function.update s.mailslot slot mailslot }

@[simps] def setMaildrop (s : State V) (cell : Cell) (maildrop : Maildrop V) : State V :=
  { s with maildrop := Function.update s.maildrop cell maildrop }

@[simps] def setCondvarState (s : State V) (condvar : Condvar) (state : CondvarState) : State V :=
  { s with condvar := Function.update s.condvar condvar state }

@[simps] def countSet (s : State V) (condvar : Condvar) : State V :=
  { s with timesSet := Function.update s.timesSet condvar (s.timesSet condvar + 1) }

@[simps] def raiseFlag (s : State V) (call : Call) (flag : Flag) : State V :=
  { s with flag := Function.update s.flag call (Function.update (s.flag call) flag true) }

@[simps] def countFire (s : State V) (call : Call) (path : Path) (flag : Flag) : State V :=
  { s with fired := Function.update s.fired call (s.fired call ++ [(path, flag)]) }

@[simps] def setSleepQueue (s : State V) (sleepQueue : List Sleeper) : State V :=
  { s with sleepQueue := sleepQueue }

@[simps] def setCount (s : State V) (count : Nat) : State V := { s with count := count }

@[simps] def cacheTime (s : State V) : State V := { s with cachedApproximateTime := some s.now }

@[simps] def claim (s : State V) (call : Call) (mailops : List (Mailop (BaseMailop V)))
    (places : List ((Path × BaseMailop V) × Flag)) (nackstates : List Nackstate)
    (next : Condvar) : State V :=
  { s with
    nackstates := Function.update s.nackstates call nackstates
    mailops := Function.update s.mailops call (some (mailops, s.condvars))
    places := Function.update s.places call places
    condvars := next }

end State

def enterScope : Kit V Unit := modify fun s => s.withMutex 1

def exitScope : Kit V Unit := modify fun s => s.withMutex 0

def getCurrentThread : Kit V Thread := do
  return (← get).currentThread

def setCurrentThread (thread : Thread) : Kit V Unit := modify fun s => s.install thread

def returnTo (call : Call) (done : Done V) : Kit V Unit := modify fun s => s.returned call done

def getApproximateTime : Kit V Nat := do
  match (← get).cachedApproximateTime with
  | some time => return time
  | none => do
      modify State.cacheTime
      return (← get).now

def endDo1mailoprunAndReturnThread (call : Call) : Kit V Thread := do
  match (← get).status call with
  | .isBlocked thread => do
      modify fun s => s.complete call
      return thread
  | .isComplete => throw (.fail "Compiler bug:  Attempt to cancel already-cancelled transaction-id")

def enqueueOldThreadPlusOldFateThenInstallNewThread (newThread : Thread) (oldCall : Call)
    (done : Done V) : Kit V Unit := do
  modify fun s => s.push s.currentThread oldCall done
  setCurrentThread newThread

/-! Setting a condition variable wakes the calls that wait on it, and each of them may send nacks of its
own. -/

def checkCondvar (setCondvar : Condvar → Kit V Unit) (call : Call) (nackstate : Nackstate) :
    Kit V Unit := do
  if nackstate.2.any ((← get).flag call) then pure () else setCondvar nackstate.1

def sendNacks (setCondvar : Condvar → Kit V Unit) (call : Call) : List Nackstate → Kit V Unit
  | [] => pure ()
  | nackstate :: rest => do
      checkCondvar setCondvar call nackstate
      sendNacks setCondvar call rest

def finishWith (setCondvar : Condvar → Kit V Unit) (call : Call) (path : Path) (flag : Flag) :
    Kit V Unit := do
  modify fun s => s.complete call
  modify fun s => s.countFire call path flag
  modify fun s => s.raiseFlag call flag
  sendNacks setCondvar call ((← get).nackstates call)

def settleWith (setCondvar : Condvar → Kit V Unit) (call : Call) : Fate → Kit V Unit
  | .direct => pure ()
  | .watch path flag => finishWith setCondvar call path flag

def runWaiting (setCondvar : Condvar → Kit V Unit) (condvar : Condvar) :
    List (Entry Unit) → Kit V Unit
  | [] => pure ()
  | waiting :: rest => do
      match (← get).status waiting.call with
      | .isComplete => runWaiting setCondvar condvar rest
      | .isBlocked thread => do
          modify fun s => s.complete waiting.call
          settleWith setCondvar waiting.call waiting.fate
          runWaiting setCondvar condvar rest
          modify fun s => s.push thread waiting.call (.event (.condvar condvar))

def setCondvarWithin : Nat → Condvar → Kit V Unit
  | 0, _ => throw .unfinished
  | depth + 1, condvar => do
      match (← get).condvar condvar with
      | .isNotSet waitingThreads => do
          modify fun s => s.setCondvarState condvar (.isSet 1)
          modify fun s => s.countSet condvar
          runWaiting (setCondvarWithin depth) condvar waitingThreads
      | .isSet _ => throw (.fail "condvar already set")

def setCondvarIu (condvar : Condvar) : Kit V Unit := do
  setCondvarWithin ((← get).calls + 1) condvar

def finishDo1mailoprun (call : Call) (path : Path) (flag : Flag) : Kit V Unit :=
  finishWith setCondvarIu call path flag

def settle (call : Call) (fate : Fate) : Kit V Unit := settleWith setCondvarIu call fate

def dispatchNextThreadUsendNoreturn : Kit V Unit := do
  if (← get).mutex ≠ 1 then throw .exitUncleanly
  modify fun s => s.switchNoted false
  modify State.yielded

def dispatchNextThreadNoreturn : Kit V Unit := do
  enterScope
  dispatchNextThreadUsendNoreturn

def yieldToNextThreadXu (call : Call) (done : Done V) : Kit V Unit := do
  modify fun s => s.push s.currentThread call done
  dispatchNextThreadUsendNoreturn

/-- `requested` gets its result in `requestedThread`; the current call, `old`, is done. When a switch
is due, both wait in the run queue for something unrelated to run first. -/
def switchToThreadXu (requestedThread : Thread) (requested : Call) (requestedArg : Done V)
    (old : Call) (done : Done V) : Kit V Unit := do
  let mode := (← get).mutex
  if mode = 1 ∧ (← get).needToSwitchThreads then do
    modify fun s => s.push requestedThread requested requestedArg
    modify fun s => s.push s.currentThread old done
    dispatchNextThreadUsendNoreturn
  else do
    enqueueOldThreadPlusOldFateThenInstallNewThread requestedThread old done
    modify fun s => s.withMutex (mode - 1)
    returnTo requested requestedArg

end Threadkit
