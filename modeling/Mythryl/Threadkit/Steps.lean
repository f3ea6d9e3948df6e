import Mythryl.Threadkit.Firing
import Mythryl.Threadkit.History
import Mathlib.Logic.Relation

/-! # Every step keeps the invariant -/

namespace Threadkit

open RaisingState LazyQueue

variable {V : Type}

namespace Operation

def fills : Operation V → Option Cell
  | putInMaildrop drop _ => some (.maildrop drop)
  | putInOneshot oneshot _ => some (.oneshot oneshot)
  | _ => none

def takesNow : Operation V → Option Cell
  | nonblockingTakeFromMaildrop drop => some (.maildrop drop)
  | nonblockingTakeFromOneshot oneshot => some (.oneshot oneshot)
  | _ => none

def Slips (s : State V) (call : Call) : Operation V → Prop
  | doOneMailop mailops =>
      Threadkit.Slips (s.claims call mailops (doOneMailopPrepared mailops s.condvars)) call
        (gatherPrepared (doOneMailopPrepared mailops s.condvars).1).1
  | blockUntilMailopFires mailop =>
      Threadkit.Slips (s.claims call [mailop] (blockUntilMailopFiresPrepared mailop s.condvars)) call
        (gatherPrepared (blockUntilMailopFiresPrepared mailop s.condvars).1).1
  | _ => False

end Operation

inductive ComesOut (cells : Cell → Option V) (s : State V) (call : Call) (operation : Operation V) :
    Prop
  | ends : Ends cells (operation.run call) s → ComesOut cells s call operation
  | full {cell : Cell} {v : V} : operation.fills = some cell → (s.maildrop cell).value = some v →
      outcome (operation.run call) s =
        (.error (.mayNotFillAlreadyFull cell), (s.withMutex 1).withMutex 0) →
      ComesOut cells s call operation
  | foundNothing {cell : Cell} : operation.takesNow = some cell →
      (s.maildrop cell).value = none →
      outcome (operation.run call) s = (.ok (), (s.withMutex 1).returned call .foundNothing) →
      ComesOut cells s call operation
  | slips : operation.Slips s call → Fails cells (operation.run call) s →
      ComesOut cells s call operation

section Operations

variable {cells : Cell → Option V} {s s' : State V} {call : Call}

theorem nonblockingTakeFromMaildrop_empty {drop : Nat}
    (empty : (s.maildrop (.maildrop drop)).value = none) :
    outcome (nonblockingTakeFromMaildrop call drop) s =
      (.ok (), (s.withMutex 1).returned call .foundNothing) := by
  simp only [nonblockingTakeFromMaildrop, enterScope, outcome_bind, outcome_modify, outcome_get,
    State.withMutex_maildrop, empty]
  rfl

theorem nonblockingTakeFromOneshot_empty {oneshot : Nat}
    (empty : (s.maildrop (.oneshot oneshot)).value = none) :
    outcome (nonblockingTakeFromOneshot call oneshot) s =
      (.ok (), (s.withMutex 1).returned call .foundNothing) := by
  simp only [nonblockingTakeFromOneshot, enterScope, outcome_bind, outcome_modify, outcome_get,
    State.withMutex_maildrop, empty]
  rfl

theorem Sound.beginPlain (sound : Sound s) : s.begin.mailops s.calls = none :=
  (sound.fresh (Nat.le_refl _)).1

theorem Inv.begun (inv : Inv cells s) : Begun cells s.begin s.calls where
  toInv := inv.untouched inv.toSound.begin (.of_eq rfl rfl rfl rfl rfl rfl)
  toStarting := inv.toSound.starting
  control := rfl

theorem Operation.comesOut (begun : Begun cells s call) (plain : s.mailops call = none)
    (operation : Operation V) : ComesOut cells s call operation := by
  have puts : ∀ {cell : Cell} {value : V}, operation.fills = some cell →
      operation.run call = putInCell call cell value → ComesOut cells s call operation := by
    intro cell value fills run
    cases full : (s.maildrop cell).value with
    | none => exact .ends (run ▸ putInCell_ends begun plain value full)
    | some v => exact .full fills full (run ▸ putInCell_full value full)
  cases operation with
  | putInMailqueue q x => exact .ends (putInMailqueue_ends begun plain q x)
  | takeFromMailqueue q => exact .ends (takeFromMailqueue_ends begun plain q)
  | nonblockingTakeFromMailqueue q => exact .ends (nonblockingTakeFromMailqueue_ends begun plain q)
  | putInMailslot slot msg => exact .ends (putInMailslot_ends begun plain slot msg)
  | nonblockingPutInMailslot slot msg =>
    exact .ends (nonblockingPutInMailslot_ends begun plain slot msg)
  | takeFromMailslot slot => exact .ends (takeFromMailslot_ends begun plain slot)
  | nonblockingTakeFromMailslot slot =>
    exact .ends (nonblockingTakeFromMailslot_ends begun plain slot)
  | putInMaildrop drop value => exact puts rfl rfl
  | takeFromMaildrop drop => exact .ends (takeFromMaildrop_ends begun plain drop)
  | nonblockingTakeFromMaildrop drop =>
    cases value : (s.maildrop (.maildrop drop)).value with
    | none => exact .foundNothing rfl value (nonblockingTakeFromMaildrop_empty value)
    | some v => exact .ends (nonblockingTakeFromMaildrop_ends begun plain value)
  | peekInMaildrop drop => exact .ends (peekInMaildrop_ends begun plain drop)
  | nonblockingPeekInMaildrop drop => exact .ends (nonblockingPeekInMaildrop_ends begun plain drop)
  | maildropSwap drop newValue => exact .ends (maildropSwap_ends begun plain drop newValue)
  | putInOneshot oneshot value => exact puts rfl rfl
  | takeFromOneshot oneshot => exact .ends (takeFromOneshot_ends begun plain oneshot)
  | nonblockingTakeFromOneshot oneshot =>
    cases value : (s.maildrop (.oneshot oneshot)).value with
    | none => exact .foundNothing rfl value (nonblockingTakeFromOneshot_empty value)
    | some v => exact .ends (nonblockingTakeFromOneshot_ends begun plain value)
  | doOneMailop mailops =>
    rcases doOneMailop_outcome begun mailops with ends | ⟨slips, fails⟩
    · exact .ends ends
    · exact .slips slips fails
  | blockUntilMailopFires mailop =>
    rcases blockUntilMailopFires_outcome begun mailop with ends | ⟨slips, fails⟩
    · exact .ends ends
    · exact .slips slips fails

end Operations

/-! The sleep queue. -/

section Sleepers

variable {cells : Cell → Option V} {s s' : State V} {call : Call}

theorem wakes (inv : Inv cells s) {item : Sleeper} (asleep : item ∈ s.sleepQueue) {thread : Thread}
    (status : s.status item.call = .isBlocked thread) :
    ∃ s', outcome (finishDo1mailoprun item.call item.path item.flag)
        (s.push thread item.call (.event .timeout)) = (.ok (), s') ∧ Inv cells s' ∧
      s'.sleepQueue = s.sleepQueue ∧ s'.control = s.control := by
  have alive : s.blocked item.call = true := blocked_iff.mpr ⟨thread, status⟩
  obtain ⟨run, place⟩ := (inv.waits (.asleep asleep)).2
  let t := (s.complete item.call).push thread item.call (.event .timeout)
  have same : SameRuns s t := SameRuns.complete.trans (.push thread _)
  have flight : InFlight (s.complete item.call) item.call := inv.toArmed.takes alive
  have tracked : Tracked t := inv.toTracked.complete.push flight thread _
  have running : t.blocked item.call = false := flight.running
  obtain ⟨s', result, armed, cascade, spent⟩ := finishWith_outcome
    (setCondvarIu_sets (t.calls + 1)) tracked.toArmed (blockedCalls_bound t) running
    (same.unspent (inv.blocked alive).2) place
  have accounted : s'.Accounted item.call := by
    refine ⟨fun _ => ⟨_, _, spent⟩, fun plain => ?_⟩
    rw [cascade.quiet.mailops] at plain
    exact absurd plain run
  have told : ∀ entry ∈ t.trace, entry.1 ≠ item.call → t.Accounted entry.1 := by
    intro entry member different
    rcases List.mem_append.mp member with old | new
    · exact same.accounted (inv.told old)
    · cases List.mem_singleton.mp new
      exact absurd rfl different
  refine ⟨s', ?_, inv.untouched ⟨tracked.cascade armed cascade accounted, fun member =>
    cascade.told tracked armed accounted told _ member⟩ ?_, cascade.quiet.sleepQueue,
    cascade.quiet.control⟩
  · rw [← result, finishDo1mailoprun, finishWith, outcome_bind, outcome_bind, outcome_modify,
      outcome_modify]
    have once : t.complete item.call = (s.push thread item.call (.event .timeout)).complete
        item.call := by simp [t, State.complete, State.push]
    rw [once]
  · have pushed : Within none (s.complete item.call) t :=
      (Within.tell (by simp [Done.object])).trans (.of_aside (.push thread (.event .timeout)))
    exact Within.complete.trans (pushed.trans (.of_quiet cascade.quiet))

theorem wakeThem_outcome (now : Nat) (items : List Sleeper) (s : State V) (inv : Inv cells s)
    (asleep : ∀ item ∈ items, item ∈ s.sleepQueue) :
    ∃ s' items', outcome (wakeThem now items) s = (.ok items', s') ∧ Inv cells s' ∧
      s'.sleepQueue = s.sleepQueue ∧ s'.control = s.control ∧ items' ⊆ items := by
  induction items generalizing s with
  | nil => exact ⟨s, [], rfl, inv, rfl, rfl, by simp⟩
  | cons item rest ih =>
    rw [List.forall_mem_cons] at asleep
    cases status : s.status item.call with
    | isComplete =>
      obtain ⟨s', items', result, inv', same, control, subset⟩ := ih s inv asleep.2
      refine ⟨s', items', ?_, inv', same, control, fun e member =>
        List.mem_cons_of_mem _ (subset member)⟩
      simpa only [wakeThem, outcome_bind, outcome_get, status] using result
    | isBlocked thread =>
      by_cases due : item.time ≤ now
      · obtain ⟨s₁, woken, inv₁, same₁, control₁⟩ := wakes inv asleep.1 status
        obtain ⟨s', items', result, inv', same, control, subset⟩ := ih s₁ inv₁ (by
          rw [same₁]
          exact asleep.2)
        refine ⟨s', items', ?_, inv', same.trans same₁, control.trans control₁,
          fun e member => List.mem_cons_of_mem _ (subset member)⟩
        simp only [wakeThem, outcome_bind, outcome_get, status, if_pos due, outcome_modify,
          woken, result]
      · refine ⟨s, dropCancelledQueueEntries s.blocked (item :: rest), ?_, inv, rfl, rfl,
          fun e member => (List.mem_filter.mp member).1⟩
        simp only [wakeThem, outcome_bind, outcome_get, status, if_neg due, outcome_pure]

theorem wakeSleepingThreadsWhoseTimeHasComeIu_outcome (inv : Inv cells s) :
    ∃ s', outcome wakeSleepingThreadsWhoseTimeHasComeIu s = (.ok (), s') ∧ Inv cells s' ∧
      s'.control = s.control := by
  obtain ⟨t, now, time, aside, _, control, _⟩ := getApproximateTime_outcome s
  have inv := inv.aside aside
  obtain ⟨s', items', result, inv', same, control', subset⟩ :=
    wakeThem_outcome now t.sleepQueue t inv fun _ => id
  refine ⟨s'.setSleepQueue items', ?_, ?_, control'.trans control⟩
  · simp only [wakeSleepingThreadsWhoseTimeHasComeIu, outcome_bind, time, outcome_get, result,
      outcome_modify]
  · refine inv'.untouched (inv'.toSound.setSleepQueue items' fun e member => ?_)
      (.of_eq rfl rfl rfl rfl rfl rfl)
    exact .inl (.asleep (same ▸ subset member))

end Sleepers

/-! Steps. -/

section Steps

variable {cells : Cell → Option V} {s s' : State V} {label : Label V} {operation : Operation V}

theorem step_call (stepped : step s (.call operation) = some s') :
    s.control ≠ none ∧ ∃ t, (outcome (operation.run s.calls) s.begin = (.ok (), t) ∧ s' = t) ∨
      ∃ raised, outcome (operation.run s.calls) s.begin = (.error raised, t) ∧
        s' = t.raised s.calls raised := by
  simp only [step] at stepped
  split at stepped
  · refine ⟨Option.isSome_iff_ne_none.mp ‹_›, ?_⟩
    split at stepped
    · exact ⟨_, .inl ⟨‹_›, (Option.some.inj stepped).symm⟩⟩
    · cases stepped
    · cases stepped
    · exact ⟨_, .inr ⟨_, ‹_›, (Option.some.inj stepped).symm⟩⟩
  · cases stepped

theorem Inv.calls (inv : Inv cells s) (stepped : step s (.call operation) = some s') :
    Finished cells s' ∨ (∃ cell v, operation.fills = some cell ∧ (s.maildrop cell).value = some v ∧
        s' = ((s.begin.withMutex 1).withMutex 0).raised s.calls (.mayNotFillAlreadyFull cell)) ∨
      (∃ cell, operation.takesNow = some cell ∧ (s.maildrop cell).value = none ∧
        s' = (s.begin.withMutex 1).returned s.calls .foundNothing) ∨
      (operation.Slips s.begin s.calls ∧ ∃ t, Inv cells t ∧ t.mutex = 1 ∧
        s' = t.raised s.calls alreadyCancelled) := by
  obtain ⟨_, t, ended⟩ := step_call stepped
  cases Operation.comesOut inv.begun inv.toSound.beginPlain operation with
  | ends ends =>
    obtain ⟨u, result, finished⟩ := ends
    rcases ended with ⟨result', rfl⟩ | ⟨raised, result', _⟩
    · rw [result] at result'
      cases result'
      exact .inl finished
    · rw [result] at result'
      cases result'
  | full fills full result =>
    rcases ended with ⟨result', _⟩ | ⟨raised, result', rfl⟩
    · rw [result] at result'
      cases result'
    · rw [result] at result'
      cases result'
      exact .inr (.inl ⟨_, _, fills, full, rfl⟩)
  | foundNothing takes empty result =>
    rcases ended with ⟨result', rfl⟩ | ⟨raised, result', _⟩
    · rw [result] at result'
      cases result'
      exact .inr (.inr (.inl ⟨_, takes, empty, rfl⟩))
    · rw [result] at result'
      cases result'
  | slips slips fails =>
    obtain ⟨u, result, inv', mutex⟩ := fails
    rcases ended with ⟨result', _⟩ | ⟨raised, result', rfl⟩
    · rw [result] at result'
      cases result'
    · rw [result] at result'
      cases result'
      exact .inr (.inr (.inr ⟨slips, _, inv', mutex, rfl⟩))

theorem step_aside (stepped : step s label = some s') (call : ∀ operation, label ≠ .call operation)
    (wakes : label ≠ .wakeSleepers) : Aside s s' := by
  cases label with
  | call operation => exact absurd rfl (call operation)
  | makeThread thread =>
    simp only [step, Option.ite_none_right_eq_some, Option.some.injEq] at stepped
    exact stepped.2 ▸ .makeThread thread
  | exitThread =>
    simp only [step, Option.ite_none_right_eq_some, Option.some.injEq] at stepped
    exact stepped.2 ▸ .exitThread
  | preempt =>
    simp only [step] at stepped
    split at stepped
    · simp only [Option.ite_none_right_eq_some, Option.some.injEq] at stepped
      exact stepped.2 ▸ .preempt _
    · cases stepped
  | signalInScope => exact Option.some.inj stepped ▸ .switchNoted true
  | tick time => exact Option.some.inj stepped ▸ .tick time
  | wakeSleepers => exact absurd rfl wakes
  | dispatch k =>
    simp only [step] at stepped
    split at stepped
    · exact Option.some.inj stepped ▸ .dispatch k _ _
    · cases stepped

theorem step_wakeSleepers (inv : Inv cells s) (stepped : step s .wakeSleepers = some s') :
    Inv cells s' ∧ s'.control = none := by
  obtain ⟨t, result, inv', control⟩ := wakeSleepingThreadsWhoseTimeHasComeIu_outcome inv
  simp only [step, result, Option.ite_none_right_eq_some, Option.some.injEq] at stepped
  obtain ⟨idle, rfl⟩ := stepped
  exact ⟨inv', control.trans (Option.isNone_iff_eq_none.mp idle)⟩

theorem step_inv (inv : Inv cells s) (stepped : step s label = some s') : Inv cells s' := by
  by_cases wakes : label = .wakeSleepers
  · subst wakes
    exact (step_wakeSleepers inv stepped).1
  by_cases call : ∀ operation, label ≠ .call operation
  · exact inv.aside (step_aside stepped call wakes)
  push Not at call
  obtain ⟨operation, rfl⟩ := call
  have begun := inv.begun
  rcases inv.calls stepped with finished | ⟨cell, v, _, _, rfl⟩ | ⟨cell, _, _, rfl⟩ |
    ⟨_, t, inv', _, rfl⟩
  · exact finished.toInv
  · refine begun.toInv.aside ?_
    constructor <;> rfl
  · have told := begun.toInv.foundNothing (begun.tellable inv.toSound.beginPlain)
    refine told.aside ?_
    constructor <;> rfl
  · exact inv'.aside (.raised alreadyCancelled)

theorem step_trace (stepped : step s label = some s') : s.trace <+: s'.trace := by
  by_cases wakes : label = .wakeSleepers
  · subst wakes
    simp only [step] at stepped
    split at stepped
    · have onward := wakeSleepingThreadsWhoseTimeHasComeIu_goesOn s
      split at stepped
      · rename_i result
        rw [result] at onward
        exact Option.some.inj stepped ▸ onward.trace
      · cases stepped
    · cases stepped
  by_cases call : ∀ operation, label ≠ .call operation
  · exact (step_aside stepped call wakes).trace ▸ List.prefix_rfl
  push Not at call
  obtain ⟨operation, rfl⟩ := call
  have onward := operation.goesOn s.calls s.begin
  obtain ⟨_, t, ⟨result, rfl⟩ | ⟨raised, result, rfl⟩⟩ := step_call stepped
  · rw [result] at onward
    exact onward.trace
  · rw [result] at onward
    exact onward.trace

theorem start_waits {call : Call} {fate : Fate} : ¬ Waits (State.start cells) call fate := by
  intro waits
  cases waits with
  | mailqueue empty member =>
    cases empty
    cases member
  | inQ member => cases member
  | outQ member => cases member
  | readQ member => cases member
  | condvar notSet member =>
    cases notSet
    cases member
  | asleep member => cases member

theorem start_unspent (call : Call) : (State.start cells).Unspent call where
  fired := rfl
  flags := fun _ => rfl
  nacks := nofun

theorem start_sound (cells : Cell → Option V) : Sound (State.start cells) where
  waits := fun waits => absurd waits start_waits
  apart := nofun
  nodup := fun _ => .nil
  blocked := nofun
  traced := nofun
  once := .nil
  fresh := fun _ => ⟨rfl, rfl⟩
  unclaimed := fun _ => ⟨⟨[], rfl⟩, rfl⟩
  claimed := nofun
  either := fun call => .inl (start_unspent call)
  plain := fun _ => start_unspent _
  gathered := nofun
  told := nofun

theorem start_line {α : Type} {o : Object} {mailop : α → BaseMailop V} {ends : Done V → Prop} :
    Line (State.start cells) o mailop ends ([] : List (Entry α)) :=
  .nil nofun

theorem start_inv (cells : Cell → Option V) : Inv cells (State.start cells) where
  toSound := start_sound cells
  object := by
    intro o
    cases o with
    | mailqueue q => exact ⟨rfl, nofun, start_line⟩
    | mailslot slot =>
      exact ⟨Nat.le_refl 1, ⟨[], .none, rfl⟩, start_line, start_line, fun e member => by cases member⟩
    | cell cell =>
      refine ⟨⟨.made, start_line, ?_, ?_⟩, fun _ => rfl⟩
      · exact fun _ _ e member => by cases member
      · exact fun _ _ entry member => by cases member

theorem Reachable.inv (reachable : Reachable cells s) : Inv cells s := by
  induction reachable with
  | start => exact start_inv cells
  | step _ stepped inv => exact step_inv inv stepped

def Steps : State V → State V → Prop :=
  Relation.ReflTransGen fun s s' => ∃ label, step s label = some s'

theorem Reachable.steps (reachable : Reachable cells s) (steps : Steps s s') :
    Reachable cells s' := by
  induction steps with
  | refl => exact reachable
  | tail _ stepped ih =>
    obtain ⟨label, stepped⟩ := stepped
    exact ih.step stepped

theorem Steps.trace (steps : Steps s s') : s.trace <+: s'.trace := by
  induction steps with
  | refl => exact List.prefix_rfl
  | tail _ stepped ih =>
    obtain ⟨label, stepped⟩ := stepped
    exact ih.trans (step_trace stepped)

def stepsFrom (s : State V) : List (Label V) → Option (State V)
  | [] => some s
  | label :: rest => (step s label).bind fun s' => stepsFrom s' rest

theorem Reachable.stepsFrom {labels : List (Label V)} (reachable : Reachable cells s)
    (steps : stepsFrom s labels = some s') : Reachable cells s' := by
  induction labels generalizing s with
  | nil => exact Option.some.inj steps ▸ reachable
  | cons label rest ih =>
    obtain ⟨t, stepped, rest'⟩ := Option.bind_eq_some_iff.mp steps
    exact ih (reachable.step stepped) rest'

inductive ReachableBy (cells : Cell → Option V) (ok : State V → Label V → Prop) : State V → Prop
  | start : ReachableBy cells ok (State.start cells)
  | step {s s' : State V} {label : Label V} :
      ReachableBy cells ok s → ok s label → step s label = some s' → ReachableBy cells ok s'

theorem ReachableBy.reachable {ok : State V → Label V → Prop} (by' : ReachableBy cells ok s) :
    Reachable cells s := by
  induction by' with
  | start => exact .start
  | step _ _ stepped ih => exact ih.step stepped

theorem call_control (result : outcome (operation.run s.calls) s.begin = (.ok (), s')) :
    ∀ control, s'.control = some control → ∃ call done, control = .returned call done := by
  intro control given
  have onward := operation.goesOn s.calls s.begin
  rw [result] at onward
  exact (onward.control control given).elim (nofun) id

end Steps

/-! # What the thread kit guarantees -/

structure LosslessFifo (s : State V) (q : Nat) : Prop where
  lossless : s.msgsPut q = s.msgsTaken q ++ (s.mailqueue q).queued
  once : ((s.eventsOf (.mailqueue q)).map Prod.fst).Nodup
  nonempty : ∀ priority messages, s.mailqueue q = .nonempty priority messages →
    messages.contents ≠ []
  handedOver : (s.mailqueue q).queued ≠ [] →
    ∀ call, s.blocked call = true → .takeFromMailqueue q ∉ s.awaits call

structure Rendezvous (s : State V) (slot : Nat) : Prop where
  meetings : Meetings slot (s.eventsOf (.mailslot slot))
  once : ((s.eventsOf (.mailslot slot)).map Prod.fst).Nodup
  takersWait : ∀ call, s.blocked call = true → .takeFromMailslot slot ∈ s.awaits call →
    ∃ e ∈ s.waiting (s.mailslot slot).inQ, e.call = call
  giversWait : ∀ call msg, s.blocked call = true → .putInMailslot slot msg ∈ s.awaits call →
    ∃ e ∈ s.waiting (s.mailslot slot).outQ, e.call = call ∧ e.what = msg
  takersInOrder : (s.waiting (s.mailslot slot).inQ).Pairwise fun e e' => e.call ≤ e'.call
  giversInOrder : (s.waiting (s.mailslot slot).outQ).Pairwise fun e e' => e.call ≤ e'.call
  takersFifo : ∀ call msg, (call, .tookFromMailslot slot msg) ∈ s.trace →
    ∀ e ∈ s.waiting (s.mailslot slot).inQ, call < e.call
  giversFifo : ∀ call msg, (call, .putInMailslot slot msg) ∈ s.trace →
    ∀ e ∈ s.waiting (s.mailslot slot).outQ, call < e.call
  apart : ∀ e ∈ s.waiting (s.mailslot slot).inQ, ∀ e' ∈ s.waiting (s.mailslot slot).outQ,
    e.call = e'.call

structure FiredAt (s : State V) (call : Call) (mailops : List (Mailop (BaseMailop V)))
    (first : Condvar) (path : Path) : Prop where
  fired : ∃ flag, s.fired call = [(path, flag)]
  base : ∃ mailop, (path, mailop) ∈ basesFrom mailops [] 0 first
  covered : ∀ nack ∈ (nacksFrom mailops [] 0 first).1, nack.1 <+: path → s.NotSent nack.2
  uncovered : ∀ nack ∈ (nacksFrom mailops [] 0 first).1, ¬ nack.1 <+: path → s.Sent nack.2

/-- The run `call` of `mailops` fires one base mailop. Until then none of its nacks is sent. -/
structure ExactNacks (s : State V) (call : Call) (mailops : List (Mailop (BaseMailop V)))
    (first : Condvar) : Prop where
  before : s.fired call = [] → ∀ nack ∈ (nacksFrom mailops [] 0 first).1, s.NotSent nack.2
  after : s.fired call ≠ [] → ∃ path, FiredAt s call mailops first path
  blocked : s.blocked call = true → s.fired call = []
  settled : call ∈ s.trace.map Prod.fst → s.fired call ≠ []

/-! The buffer is deterministic, and one that only keeps its value never loses it. -/

theorem Buffer.unique {v w w' : Option V} {done : Done V} (first : Buffer v done w)
    (second : Buffer v done w') : w = w' := by
  cases first <;> cases second <;> rfl

variable {first value : Option V} {l : List (Call × Done V)} {v : V}

theorem Plays.last (plays : Plays first l value) :
    (l = [] ∧ value = first) ∨ ∃ l' v entry, l = l' ++ [entry] ∧ Plays first l' v ∧
      Buffer v entry.2 value := by
  cases plays with
  | made => exact .inl ⟨rfl, rfl⟩
  | step before acts => exact .inr ⟨_, _, _, rfl, before, acts⟩

theorem Plays.unique {value' : Option V}
    (plays : Plays first l value) (plays' : Plays first l value') : value = value' := by
  induction plays generalizing value' with
  | made =>
    rcases plays'.last with ⟨_, same⟩ | ⟨l, _, entry, equal, _⟩
    · exact same.symm
    · simp at equal
  | step before acts ih =>
    rcases plays'.last with ⟨equal, _⟩ | ⟨l, _, entry, equal, before', acts'⟩
    · simp at equal
    · obtain ⟨rfl, same⟩ := List.append_inj' equal rfl
      cases List.singleton_inj.mp same
      rw [ih before'] at acts
      exact acts.unique acts'

theorem Buffer.keeps {done : Done V} (acts : Buffer (some v) done value)
    (keeps : done.Keeps) : value = some v := by
  cases acts with
  | take => cases keeps
  | peek => rfl
  | swap => cases keeps

theorem Plays.keeps (plays : Plays first l value)
    (keeps : ∀ entry ∈ l, entry.2.Keeps) {l' : List (Call × Done V)} (earlier : l' <+: l)
    (held : Plays first l' (some v)) : value = some v := by
  induction plays with
  | made =>
    rw [List.prefix_nil.mp earlier] at held
    exact (Plays.unique .made held)
  | @step l value _ call done before acts ih =>
    rcases List.prefix_concat_iff.mp earlier with rfl | earlier
    · exact (before.step acts).unique held
    · have same := ih (fun entry member => keeps entry (List.mem_append_left _ member)) earlier
      subst same
      exact acts.keeps (keeps (call, done) (by simp))

theorem Plays.peeked (plays : Plays first l value)
    (keeps : ∀ entry ∈ l, entry.2.Keeps) {call : Call} {cell : Cell}
    (peeked : (call, .peekedInCell cell v) ∈ l) : value = some v := by
  induction plays with
  | made => cases peeked
  | @step l value _ call' done before acts ih =>
    rcases List.mem_append.mp peeked with old | new
    · have same := ih (fun entry member => keeps entry (List.mem_append_left _ member)) old
      subst same
      exact acts.keeps (keeps (call', done) (by simp))
    · cases List.mem_singleton.mp new
      cases acts
      rfl

structure OnePlaceBuffer (first : Option V) (s : State V) (cell : Cell) : Prop where
  plays : Plays first (s.eventsOf (.cell cell)) (s.maildrop cell).value
  once : ((s.eventsOf (.cell cell)).map Prod.fst).Nodup
  idle : (s.maildrop cell).value ≠ none → s.waiting (s.maildrop cell).readQ = []
  readersWait : ∀ call reader, s.blocked call = true → readMailop reader cell ∈ s.awaits call →
    ∃ e ∈ s.waiting (s.maildrop cell).readQ, e.call = call
  puts : ∀ operation s', operation.fills = some cell → (s.maildrop cell).value = none →
    step s (.call operation) = some s' → ∀ raised, s'.control ≠ some (.raised s.calls raised)
  raises : ∀ operation s', operation.fills = some cell → (s.maildrop cell).value ≠ none →
    step s (.call operation) = some s' →
    s' = ((s.begin.withMutex 1).withMutex 0).raised s.calls (.mayNotFillAlreadyFull cell)

structure KeepsForever (s : State V) (oneshot : Nat) : Prop where
  only : ∀ entry ∈ s.eventsOf (.cell (.oneshot oneshot)), entry.2.Keeps
  keeps : ∀ v, (s.maildrop (.oneshot oneshot)).value = some v → ∀ s', Steps s s' →
    (s'.maildrop (.oneshot oneshot)).value = some v ∧
      ∀ call v', (call, .peekedInCell (.oneshot oneshot) v') ∈ s'.trace → v' = v

section Guarantees

variable {cells : Cell → Option V} {s : State V}

theorem events_once (sound : Sound s) (o : Object) : ((s.eventsOf o).map Prod.fst).Nodup :=
  sound.once.sublist (List.filter_sublist.map Prod.fst)

/-- What a call returned is final: it never blocks again, and never returns anything else. -/
theorem outcome_final (reachable : Reachable cells s) {s' : State V} (steps : Steps s s')
    {call : Call} {done : Done V} (told : (call, done) ∈ s.trace) :
    s'.blocked call = false ∧ ∀ done', (call, done') ∈ s'.trace → done' = done := by
  have inv := (reachable.steps steps).inv
  have still : (call, done) ∈ s'.trace := steps.trace.subset told
  refine ⟨(inv.traced still).2, fun done' told' => ?_⟩
  cases List.inj_on_of_nodup_map inv.once told' still rfl
  rfl

theorem outcome_final_put : ∃ s, step (State.start fun _ => none)
    (.call (.putInMaildrop 0 7)) = some s ∧ s.blocked 0 = false ∧
      ∀ done, (0, done) ∈ s.trace → done = .putInCell (.maildrop 0) 7 := by
  have stepped : step (State.start fun _ => none) (.call (.putInMaildrop 0 7)) = some _ := rfl
  exact ⟨_, stepped, outcome_final (.step .start stepped) .refl List.mem_cons_self⟩

theorem mailqueue_losslessFifo (reachable : Reachable cells s) (q : Nat) : LosslessFifo s q := by
  have inv := reachable.inv
  have ok := inv.queue q
  refine ⟨ok.lossless, events_once inv.toSound _, ok.nonempty, ?_⟩
  intro queued call alive
  have line := ok.readers
  cases state : s.mailqueue q with
  | empty readers => simp [state, MailqueueState.queued] at queued
  | nonempty priority messages =>
    rw [state] at line
    exact line.idle alive ()

theorem mailqueue_losslessFifo_put : ∃ s, step (State.start fun _ => (none : Option Nat))
    (.call (.putInMailqueue 0 7)) = some s ∧ LosslessFifo s 0 := by
  have stepped : step (State.start fun _ => (none : Option Nat)) (.call (.putInMailqueue 0 7)) =
    some _ := rfl
  exact ⟨_, stepped, mailqueue_losslessFifo (.step .start stepped) 0⟩

theorem mailslot_rendezvous (reachable : Reachable cells s) (slot : Nat) : Rendezvous s slot := by
  have inv := reachable.inv
  have ok := inv.slot slot
  refine ⟨?_, events_once inv.toSound _, ?_, ?_, ok.takers.sorted, ok.givers.sorted, ?_, ?_,
    ok.apart⟩
  · obtain ⟨l, meetings, events⟩ := ok.meetings
    rw [events, List.append_nil]
    exact meetings
  · intro call alive waits
    obtain ⟨e, member, same, _⟩ := ok.takers.registered call () alive waits
    exact ⟨e, member, same⟩
  · intro call msg alive waits
    obtain ⟨e, member, same, what⟩ := ok.givers.registered call msg alive waits
    cases what
    exact ⟨e, member, same, rfl⟩
  · intro call msg member
    exact ok.takers.fifo _ (mem_eventsOf.mpr ⟨member, rfl⟩) ⟨msg, rfl⟩
  · intro call msg member
    exact ok.givers.fifo _ (mem_eventsOf.mpr ⟨member, rfl⟩) ⟨msg, rfl⟩

theorem mailslot_rendezvous_put : ∃ s, step (State.start fun _ => (none : Option Nat))
    (.call (.putInMailslot 0 7)) = some s ∧ Rendezvous s 0 := by
  have stepped : step (State.start fun _ => (none : Option Nat)) (.call (.putInMailslot 0 7)) =
    some _ := rfl
  exact ⟨_, stepped, mailslot_rendezvous (.step .start stepped) 0⟩

theorem Sound.firedAt (sound : Sound s) {call : Call} {mailops : List (Mailop (BaseMailop V))}
    {first : Condvar} (run : s.mailops call = some (mailops, first)) (spent : s.Spent call) :
    ∃ path, FiredAt s call mailops first path := by
  obtain ⟨next, gathered⟩ := sound.gathered run
  obtain ⟨path, flag, fired, ⟨mailop, place⟩, covered, uncovered⟩ := spent
  refine ⟨path, ⟨flag, fired⟩, ⟨mailop, gathered.bases.mem_iff.mp (List.mem_map_of_mem place)⟩,
    ?_, ?_⟩
  · intro nack member inside
    obtain ⟨flags, state, covers⟩ := gathered.covers nack member
    exact covered _ state ((covers _ place).mpr inside)
  · intro nack member outside
    obtain ⟨flags, state, covers⟩ := gathered.covers nack member
    exact uncovered _ state fun inside => outside ((covers _ place).mp inside)

theorem nacks_exact (reachable : Reachable cells s) {call : Call}
    {mailops : List (Mailop (BaseMailop V))} {first : Condvar}
    (run : s.mailops call = some (mailops, first)) : ExactNacks s call mailops first := by
  have sound := reachable.inv.toSound
  have spent : s.Spent call → s.fired call ≠ [] := by
    rintro ⟨path, flag, spent⟩
    simp [spent.fired]
  refine ⟨?_, ?_, ?_, ?_⟩
  · intro fresh nack member
    obtain ⟨next, gathered⟩ := sound.gathered run
    obtain ⟨flags, state, _⟩ := gathered.covers nack member
    rcases sound.either call with unspent | fired
    · exact unspent.nacks nack.2 (List.mem_map_of_mem state)
    · exact absurd fresh (spent fired)
  · intro fired
    rcases sound.either call with unspent | spent
    · exact absurd unspent.fired fired
    · exact sound.firedAt run spent
  · exact fun alive => (sound.blocked alive).2.fired
  · intro told
    obtain ⟨entry, member, rfl⟩ := List.mem_map.mp told
    exact spent ((sound.told member).run (by simp [run]))

def alwaysOrTake : List (Mailop (BaseMailop Nat)) :=
  [.base [.always 7], .dynamicWithNack fun _ => .base [.takeFromMailqueue 0]]

theorem nacks_exact_always : ∃ s, step (State.start fun _ => (none : Option Nat))
    (.call (.doOneMailop alwaysOrTake)) = some s ∧ ExactNacks s 0 alwaysOrTake 0 := by
  have stepped : step (State.start fun _ => (none : Option Nat))
    (.call (.doOneMailop alwaysOrTake)) = some _ := rfl
  exact ⟨_, stepped, nacks_exact (.step .start stepped) rfl⟩

variable {cell : Cell} {operation : Operation V}

theorem fills_only (fills : operation.fills = some cell) :
    operation.takesNow = none ∧ ∀ s call, ¬ operation.Slips s call := by
  cases operation with
  | putInMaildrop drop value => exact ⟨rfl, fun _ _ => id⟩
  | putInOneshot oneshot value => exact ⟨rfl, fun _ _ => id⟩
  | _ => cases fills

theorem puts_return (inv : Inv cells s) {s' : State V}
    (fills : operation.fills = some cell) (empty : (s.maildrop cell).value = none)
    (stepped : step s (.call operation) = some s') (raised : Raised) :
    s'.control ≠ some (.raised s.calls raised) := by
  intro given
  obtain ⟨_, t, ⟨result, rfl⟩ | ⟨_, result, _⟩⟩ := step_call stepped
  · obtain ⟨_, _, same⟩ := call_control result _ given
    cases same
  · cases Operation.comesOut inv.begun inv.toSound.beginPlain operation with
    | ends ends =>
      obtain ⟨_, result', _⟩ := ends
      rw [result] at result'
      cases result'
    | @full cell' v fills' full _ =>
      cases fills.symm.trans fills'
      have full' : (s.maildrop cell).value = some v := full
      rw [empty] at full'
      cases full'
    | foundNothing takes _ _ =>
      rw [(fills_only fills).1] at takes
      cases takes
    | slips slips _ => exact (fills_only fills).2 _ _ slips

theorem puts_raise {s' : State V}
    (fills : operation.fills = some cell) (full : (s.maildrop cell).value ≠ none)
    (stepped : step s (.call operation) = some s') :
    s' = ((s.begin.withMutex 1).withMutex 0).raised s.calls (.mayNotFillAlreadyFull cell) := by
  obtain ⟨v, full⟩ := Option.ne_none_iff_exists'.mp full
  have full' : (s.begin.maildrop cell).value = some v := full
  have result : ∃ value, operation.run s.calls = putInCell s.calls cell value := by
    cases operation with
    | putInMaildrop drop value =>
      cases fills
      exact ⟨value, rfl⟩
    | putInOneshot oneshot value =>
      cases fills
      exact ⟨value, rfl⟩
    | _ => cases fills
  obtain ⟨value, run⟩ := result
  obtain ⟨_, t, ended⟩ := step_call stepped
  rw [run, putInCell_full value full'] at ended
  rcases ended with ⟨result, _⟩ | ⟨raised, result, rfl⟩
  · cases result
  · cases result
    rfl

theorem cell_onePlaceBuffer (reachable : Reachable cells s) (cell : Cell) :
    OnePlaceBuffer (cells cell) s cell where
  plays := by
    have plays := (reachable.inv.cell cell).plays
    rwa [List.append_nil] at plays
  once := events_once reachable.inv.toSound _
  idle := (reachable.inv.cell cell).idle
  readersWait := by
    intro call reader alive waits
    obtain ⟨e, member, same, _⟩ :=
      (reachable.inv.cell cell).readers.registered call reader alive waits
    exact ⟨e, member, same⟩
  puts := fun _ _ fills empty stepped => puts_return reachable.inv fills empty stepped
  raises := fun _ _ fills full stepped => puts_raise fills full stepped

theorem oneshot_keepsForever (reachable : Reachable cells s) (oneshot : Nat) :
    KeepsForever s oneshot where
  only := by
    have keeps := (reachable.inv.cell (.oneshot oneshot)).keeps oneshot rfl
    rwa [List.append_nil] at keeps
  keeps := by
    intro v full s' steps
    have plays := (cell_onePlaceBuffer reachable (.oneshot oneshot)).plays
    have plays' := (cell_onePlaceBuffer (reachable.steps steps) (.oneshot oneshot)).plays
    have keeps := ((reachable.steps steps).inv.cell (.oneshot oneshot)).keeps oneshot rfl
    rw [List.append_nil] at keeps
    rw [full] at plays
    have held := plays'.keeps keeps (steps.trace.filter _) plays
    refine ⟨held, fun call v' member => ?_⟩
    have peeked := plays'.peeked keeps (mem_eventsOf.mpr ⟨member, rfl⟩)
    rw [held] at peeked
    exact (Option.some.inj peeked).symm

theorem maildrops_are_buffers (reachable : Reachable cells s) :
    (∀ cell, OnePlaceBuffer (cells cell) s cell) ∧ ∀ oneshot, KeepsForever s oneshot :=
  ⟨cell_onePlaceBuffer reachable, oneshot_keepsForever reachable⟩

theorem maildrops_are_buffers_put : ∃ s, step (State.start fun _ => some 3)
    (.call (.putInMaildrop 0 7)) = some s ∧
    (∀ cell, OnePlaceBuffer (some 3) s cell) ∧ ∀ oneshot, KeepsForever s oneshot := by
  have stepped : step (State.start fun _ => some 3) (.call (.putInMaildrop 0 7)) = some _ := rfl
  exact ⟨_, stepped, maildrops_are_buffers (.step .start stepped)⟩

end Guarantees

end Threadkit
