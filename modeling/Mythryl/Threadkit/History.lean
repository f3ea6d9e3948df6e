import Mythryl.Threadkit.Machine

/-! # What an operation adds -/

namespace Threadkit

open RaisingState LazyQueue

variable {V : Type}

structure Onward (s s' : State V) : Prop where
  trace : s.trace <+: s'.trace
  runQueue : ∀ entry ∈ s'.runQueue,
    entry ∈ s.runQueue ∨ ∃ call done, entry.2 = .returned call done
  control : ∀ control, s'.control = some control →
    s.control = some control ∨ ∃ call done, control = .returned call done

namespace Onward

variable {s s' s'' : State V}

theorem same (trace : s'.trace = s.trace) (runQueue : s'.runQueue = s.runQueue)
    (control : s'.control = s.control) : Onward s s' where
  trace := trace ▸ List.prefix_rfl
  runQueue := fun _ member => .inl (runQueue ▸ member)
  control := fun _ given => .inl (control ▸ given)

theorem trans (first : Onward s s') (second : Onward s' s'') : Onward s s'' where
  trace := first.trace.trans second.trace
  runQueue := fun entry member => (second.runQueue entry member).elim (first.runQueue entry) .inr
  control := fun control given => (second.control control given).elim (first.control control) .inr

theorem push (thread : Thread) (call : Call) (done : Done V) :
    Onward s (s.push thread call done) where
  trace := List.prefix_append _ _
  runQueue := by
    intro entry member
    rcases List.mem_append.mp member with old | new
    · exact .inl old
    · cases List.mem_singleton.mp new
      exact .inr ⟨call, done, rfl⟩
  control := fun _ => .inl

theorem returned (call : Call) (done : Done V) : Onward s (s.returned call done) where
  trace := List.prefix_append _ _
  runQueue := fun _ => .inl
  control := by
    rintro _ ⟨⟩
    exact .inr ⟨call, done, rfl⟩

theorem yielded : Onward s s.yielded where
  trace := List.prefix_rfl
  runQueue := fun _ => .inl
  control := by
    intro control given
    cases given

end Onward

def GoesOn {α : Type} (m : Kit V α) : Prop := ∀ s, Onward s (outcome m s).2

namespace GoesOn

variable {α β : Type}

theorem pure {a : α} : GoesOn (pure a : Kit V α) := fun _ => .same rfl rfl rfl

theorem throw {raised : Raised} : GoesOn (throw raised : Kit V α) := fun _ => .same rfl rfl rfl

theorem get : GoesOn (get : Kit V (State V)) := fun _ => .same rfl rfl rfl

theorem set {f : State V → State V} (trace : ∀ s, (f s).trace = s.trace)
    (runQueue : ∀ s, (f s).runQueue = s.runQueue) (control : ∀ s, (f s).control = s.control) :
    GoesOn (modify f : Kit V Unit) := fun s => .same (trace s) (runQueue s) (control s)

theorem modify {f : State V → State V} (onward : ∀ s, Onward s (f s)) :
    GoesOn (modify f : Kit V Unit) := onward

theorem bind {m : Kit V α} {f : α → Kit V β} (first : GoesOn m) (rest : ∀ a, GoesOn (f a)) :
    GoesOn (m >>= f) := by
  intro s
  rw [outcome_bind]
  have before := first s
  revert before
  rcases outcome m s with ⟨_ | a, s'⟩
  · exact id
  · exact fun before => before.trans (rest a s')

theorem map {m : Kit V α} {f : α → β} (first : GoesOn m) : GoesOn (f <$> m) := by
  rw [map_eq_pure_bind]
  exact first.bind fun _ => .pure

end GoesOn

/-! The scheduler. -/

section Scheduler

variable {call : Call}

theorem enterScope_goesOn : GoesOn (enterScope : Kit V Unit) :=
  .set (fun _ => rfl) (fun _ => rfl) fun _ => rfl

theorem exitScope_goesOn : GoesOn (exitScope : Kit V Unit) :=
  .set (fun _ => rfl) (fun _ => rfl) fun _ => rfl

theorem setCurrentThread_goesOn (thread : Thread) : GoesOn (setCurrentThread thread : Kit V Unit) :=
  .set (fun _ => rfl) (fun _ => rfl) fun _ => rfl

theorem returnTo_goesOn (done : Done V) : GoesOn (returnTo call done) :=
  .modify fun _ => .returned call done

theorem leave_goesOn (done : Done V) :
    GoesOn (exitScope >>= fun _ => returnTo call done) :=
  exitScope_goesOn.bind fun _ => returnTo_goesOn done

theorem getApproximateTime_goesOn : GoesOn (getApproximateTime : Kit V Nat) := by
  refine .bind .get fun s => ?_
  split
  · exact .pure
  · refine .bind (.set ?_ ?_ ?_) fun _ => .map .get
    all_goals exact fun _ => rfl

theorem endDo1mailoprunAndReturnThread_goesOn :
    GoesOn (endDo1mailoprunAndReturnThread call : Kit V Thread) := by
  refine .bind .get fun s => ?_
  split
  · refine .bind (.set ?_ ?_ ?_) fun _ => .pure
    all_goals exact fun _ => rfl
  · exact .throw

theorem enqueueOldThread_goesOn (thread : Thread) (done : Done V) :
    GoesOn (enqueueOldThreadPlusOldFateThenInstallNewThread thread call done) :=
  .bind (.modify fun _ => .push _ call done) fun _ => setCurrentThread_goesOn thread

variable {set : Condvar → Kit V Unit}

theorem sendNacks_goesOn (sets : ∀ condvar, GoesOn (set condvar))
    (rest : List Nackstate) : GoesOn (sendNacks set call rest) := by
  induction rest with
  | nil => exact .pure
  | cons nackstate rest ih =>
    refine .bind (.bind .get fun s => ?_) fun _ => ih
    split
    · exact .pure
    · exact sets _

theorem finishWith_goesOn (sets : ∀ condvar, GoesOn (set condvar))
    (path : Path) (flag : Flag) : GoesOn (finishWith set call path flag) := by
  refine .bind (.set ?_ ?_ ?_) fun _ => .bind (.set ?_ ?_ ?_) fun _ => .bind (.set ?_ ?_ ?_)
    fun _ => .bind .get fun s => sendNacks_goesOn sets _
  all_goals exact fun _ => rfl

theorem settleWith_goesOn (sets : ∀ condvar, GoesOn (set condvar))
    (fate : Fate) : GoesOn (settleWith set call fate) := by
  cases fate with
  | direct => exact .pure
  | watch path flag => exact finishWith_goesOn sets path flag

theorem runWaiting_goesOn (sets : ∀ condvar, GoesOn (set condvar))
    (condvar : Condvar) (waiting : List (Entry Unit)) :
    GoesOn (runWaiting set condvar waiting) := by
  induction waiting with
  | nil => exact .pure
  | cons e rest ih =>
    refine .bind .get fun s => ?_
    split
    · exact ih
    · refine .bind (.set ?_ ?_ ?_) fun _ => .bind (settleWith_goesOn sets _) fun _ =>
        .bind ih fun _ => .modify fun _ => .push _ _ _
      all_goals exact fun _ => rfl

theorem setCondvarWithin_goesOn (depth : Nat) (condvar : Condvar) :
    GoesOn (setCondvarWithin depth condvar : Kit V Unit) := by
  induction depth generalizing condvar with
  | zero => exact .throw
  | succ depth ih =>
    refine .bind .get fun s => ?_
    split
    · refine .bind (.set ?_ ?_ ?_) fun _ => .bind (.set ?_ ?_ ?_) fun _ =>
        runWaiting_goesOn ih condvar _
      all_goals exact fun _ => rfl
    · exact .throw

theorem setCondvarIu_goesOn (condvar : Condvar) : GoesOn (setCondvarIu condvar : Kit V Unit) :=
  .bind .get fun _ => setCondvarWithin_goesOn _ condvar

theorem settle_goesOn (fate : Fate) : GoesOn (settle call fate : Kit V Unit) :=
  settleWith_goesOn setCondvarIu_goesOn fate

theorem dispatchNextThreadUsendNoreturn_goesOn :
    GoesOn (dispatchNextThreadUsendNoreturn : Kit V Unit) := by
  refine .bind .get fun s => ?_
  have yields : GoesOn (modify (fun s => s.switchNoted false) >>=
      fun _ => modify State.yielded : Kit V Unit) := by
    refine .bind (.set ?_ ?_ ?_) fun _ => .modify fun _ => .yielded
    all_goals exact fun _ => rfl
  split
  · exact .bind .throw fun _ => yields
  · exact yields

theorem yieldToNextThreadXu_goesOn (done : Done V) : GoesOn (yieldToNextThreadXu call done) :=
  .bind (.modify fun _ => .push _ call done) fun _ => dispatchNextThreadUsendNoreturn_goesOn

theorem switchToThreadXu_goesOn (thread : Thread) (requested old : Call)
    (requestedArg done : Done V) :
    GoesOn (switchToThreadXu thread requested requestedArg old done) := by
  refine .bind .get fun s => .bind .get fun s' => ?_
  split
  · exact .bind (.modify fun _ => .push _ _ _) fun _ => .bind (.modify fun _ => .push _ _ _)
      fun _ => dispatchNextThreadUsendNoreturn_goesOn
  · refine .bind (enqueueOldThread_goesOn thread done) fun _ => .bind (.set ?_ ?_ ?_)
      fun _ => returnTo_goesOn requestedArg
    all_goals exact fun _ => rfl

end Scheduler

/-! Mailqueues. -/

section Mailqueue

variable {call : Call}

theorem setMailqueue_goesOn (q : Nat) (state : MailqueueState V) :
    GoesOn (modify fun s => s.setMailqueue q state : Kit V Unit) :=
  .set (fun _ => rfl) (fun _ => rfl) fun _ => rfl

theorem getMsgXu_goesOn (q : Nat) (messages : Queue V) : GoesOn (getMsgXu call q messages) := by
  unfold getMsgXu
  split
  · exact .throw
  · split
    · exact (setMailqueue_goesOn q _).bind fun _ => leave_goesOn _
    · exact (setMailqueue_goesOn q _).bind fun _ => leave_goesOn _

theorem awaits_goesOn {join : Kit V Unit} (joins : GoesOn join) (mailop : BaseMailop V) :
    GoesOn (modify (fun s => s.block call) >>= fun _ => join >>=
      fun _ => modify (fun s => s.await call mailop) >>=
        fun _ => (dispatchNextThreadUsendNoreturn : Kit V Unit)) := by
  refine .bind (.set ?_ ?_ ?_) fun _ => joins.bind fun _ =>
    .bind (.set ?_ ?_ ?_) fun _ => dispatchNextThreadUsendNoreturn_goesOn
  all_goals exact fun _ => rfl

theorem takeFromMailqueue_goesOn (q : Nat) : GoesOn (takeFromMailqueue call q : Kit V Unit) := by
  refine enterScope_goesOn.bind fun _ => .bind .get fun s => ?_
  split
  · exact awaits_goesOn (setMailqueue_goesOn q _) _
  · exact getMsgXu_goesOn q _

theorem nonblockingTakeFromMailqueue_goesOn (q : Nat) :
    GoesOn (nonblockingTakeFromMailqueue call q : Kit V Unit) := by
  refine enterScope_goesOn.bind fun _ => .bind .get fun s => ?_
  split
  · exact leave_goesOn _
  · exact getMsgXu_goesOn q _

theorem putInMailqueue_goesOn (q : Nat) (x : V) : GoesOn (putInMailqueue call q x) := by
  refine enterScope_goesOn.bind fun _ => .bind .get fun s => ?_
  split
  · split
    · exact (setMailqueue_goesOn q _).bind fun _ => leave_goesOn _
    · exact (setMailqueue_goesOn q _).bind fun _ => endDo1mailoprunAndReturnThread_goesOn.bind
        fun thread => (enqueueOldThread_goesOn thread _).bind fun _ =>
          (settle_goesOn _).bind fun _ => leave_goesOn _
  · exact (setMailqueue_goesOn q _).bind fun _ => yieldToNextThreadXu_goesOn _

end Mailqueue

/-! Mailslots. -/

section Mailslot

variable {call : Call}

theorem cleanAndRemoveInQ_goesOn (slot : Nat) :
    GoesOn (cleanAndRemoveInQ slot : Kit V (Option (Entry Unit))) := by
  refine .bind .get fun s => .bind (.set ?_ ?_ ?_) fun _ => .pure
  all_goals exact fun _ => rfl

theorem cleanAndRemoveOutQ_goesOn (slot : Nat) :
    GoesOn (cleanAndRemoveOutQ slot : Kit V (Option (Entry V))) := by
  refine .bind .get fun s => .bind (.set ?_ ?_ ?_) fun _ => .pure
  all_goals exact fun _ => rfl

theorem setSlotPriority_goesOn (slot priority : Nat) :
    GoesOn (setSlotPriority slot priority : Kit V Unit) :=
  .set (fun _ => rfl) (fun _ => rfl) fun _ => rfl

theorem giveTo_goesOn (slot : Nat) (msg : V) (taker : Entry Unit) :
    GoesOn (giveTo call slot msg taker) :=
  endDo1mailoprunAndReturnThread_goesOn.bind fun thread =>
    (enqueueOldThread_goesOn thread _).bind fun _ => (setSlotPriority_goesOn slot 1).bind
      fun _ => (settle_goesOn _).bind fun _ => leave_goesOn _

theorem takeFrom_goesOn (slot : Nat) (giver : Entry V) : GoesOn (takeFrom call slot giver) :=
  .bind (.bind .get fun _ => .pure) fun _ => endDo1mailoprunAndReturnThread_goesOn.bind
    fun thread => (setCurrentThread_goesOn thread).bind fun _ => (setSlotPriority_goesOn slot 1).bind
      fun _ => (settle_goesOn _).bind fun _ => switchToThreadXu_goesOn _ _ _ _ _

theorem putInMailslot_goesOn (slot : Nat) (msg : V) : GoesOn (putInMailslot call slot msg) := by
  refine enterScope_goesOn.bind fun _ => (cleanAndRemoveInQ_goesOn slot).bind fun taker => ?_
  split
  · exact giveTo_goesOn slot msg _
  · refine awaits_goesOn (.set ?_ ?_ ?_) _
    all_goals exact fun _ => rfl

theorem nonblockingPutInMailslot_goesOn (slot : Nat) (msg : V) :
    GoesOn (nonblockingPutInMailslot call slot msg) := by
  refine enterScope_goesOn.bind fun _ => (cleanAndRemoveInQ_goesOn slot).bind fun taker => ?_
  split
  · exact giveTo_goesOn slot msg _
  · exact leave_goesOn _

theorem takeFromMailslot_goesOn (slot : Nat) : GoesOn (takeFromMailslot call slot : Kit V Unit) := by
  refine enterScope_goesOn.bind fun _ => (cleanAndRemoveOutQ_goesOn slot).bind fun giver => ?_
  split
  · exact takeFrom_goesOn slot _
  · refine awaits_goesOn (.set ?_ ?_ ?_) _
    all_goals exact fun _ => rfl

theorem nonblockingTakeFromMailslot_goesOn (slot : Nat) :
    GoesOn (nonblockingTakeFromMailslot call slot : Kit V Unit) := by
  refine enterScope_goesOn.bind fun _ => (cleanAndRemoveOutQ_goesOn slot).bind fun giver => ?_
  split
  · exact takeFrom_goesOn slot _
  · exact leave_goesOn _

end Mailslot

/-! Maildrops and oneshot maildrops. -/

section Maildrop

variable {call : Call} {cell : Cell}

theorem setValue_goesOn (value : Option V) : GoesOn (setValue cell value) :=
  .set (fun _ => rfl) (fun _ => rfl) fun _ => rfl

theorem setCellPriority_goesOn (priority : Nat) :
    GoesOn (setCellPriority cell priority : Kit V Unit) :=
  .set (fun _ => rfl) (fun _ => rfl) fun _ => rfl

theorem cleanAndRemoveReadQ_goesOn :
    GoesOn (cleanAndRemoveReadQ cell : Kit V (Option (Entry (Reader V)))) := by
  refine .bind .get fun s => .bind (.set ?_ ?_ ?_) fun _ => .pure
  all_goals exact fun _ => rfl

theorem resumeReader_goesOn {relayMsg : V → Call → Done V → Kit V Unit}
    (relays : ∀ msg call done, GoesOn (relayMsg msg call done)) (reader : Entry (Reader V))
    (value : V) : GoesOn (resumeReader relayMsg cell reader value) := by
  refine (settle_goesOn _).bind fun _ => ?_
  split
  · exact (setValue_goesOn _).bind fun _ => leave_goesOn _
  · exact relays _ _ _
  · exact (setValue_goesOn _).bind fun _ => relays _ _ _

theorem relayMsgWithin_goesOn (length : Nat) (msg : V) (call : Call) (done : Done V) :
    GoesOn (relayMsgWithin cell length msg call done) := by
  induction length generalizing msg call done with
  | zero => exact .throw
  | succ length ih =>
    refine cleanAndRemoveReadQ_goesOn.bind fun reader => ?_
    split
    · exact leave_goesOn _
    · exact endDo1mailoprunAndReturnThread_goesOn.bind fun thread =>
        (enqueueOldThread_goesOn thread _).bind fun _ => resumeReader_goesOn ih _ _

theorem relayMsg_goesOn (msg : V) (call : Call) (done : Done V) :
    GoesOn (relayMsg cell msg call done) :=
  .bind .get fun _ => relayMsgWithin_goesOn _ msg call done

theorem putInCell_goesOn (value : V) : GoesOn (putInCell call cell value) := by
  refine enterScope_goesOn.bind fun _ => .bind .get fun s => ?_
  split
  · refine (setValue_goesOn _).bind fun _ => cleanAndRemoveReadQ_goesOn.bind fun reader => ?_
    split
    · exact leave_goesOn _
    · exact endDo1mailoprunAndReturnThread_goesOn.bind fun thread =>
        (enqueueOldThread_goesOn thread _).bind fun _ => (setCellPriority_goesOn 1).bind
          fun _ => resumeReader_goesOn relayMsg_goesOn _ _
  · exact exitScope_goesOn.bind fun _ => .throw

theorem readNow_goesOn (reader : Reader V) : GoesOn (readNow cell reader) := by
  cases reader with
  | take => exact setValue_goesOn _
  | peek => exact .pure
  | swap newValue => exact setValue_goesOn _

theorem waitInReadQ_goesOn (reader : Entry (Reader V)) : GoesOn (waitInReadQ cell reader) :=
  .set (fun _ => rfl) (fun _ => rfl) fun _ => rfl

theorem readCell_goesOn (reader : Reader V) : GoesOn (readCell call cell reader) := by
  refine enterScope_goesOn.bind fun _ => .bind .get fun s => ?_
  split
  · exact awaits_goesOn (waitInReadQ_goesOn _) _
  · exact (readNow_goesOn reader).bind fun _ => leave_goesOn _

theorem nonblockingTakeFromMaildrop_goesOn (drop : Nat) :
    GoesOn (nonblockingTakeFromMaildrop call drop : Kit V Unit) := by
  refine enterScope_goesOn.bind fun _ => .bind .get fun s => ?_
  split
  · exact (setValue_goesOn _).bind fun _ => leave_goesOn _
  · exact returnTo_goesOn _

theorem nonblockingPeekInMaildrop_goesOn (drop : Nat) :
    GoesOn (nonblockingPeekInMaildrop call drop : Kit V Unit) := by
  refine enterScope_goesOn.bind fun _ => .bind .get fun s => ?_
  split
  · exact leave_goesOn _
  · exact leave_goesOn _

theorem nonblockingTakeFromOneshot_goesOn (oneshot : Nat) :
    GoesOn (nonblockingTakeFromOneshot call oneshot : Kit V Unit) := by
  refine enterScope_goesOn.bind fun _ => .bind .get fun s => ?_
  split
  · exact leave_goesOn _
  · exact returnTo_goesOn _

end Maildrop

/-! Expressions of mailops. -/

section Mailops

variable {call : Call}

theorem cleanAndCheckInQ_goesOn (slot : Nat) : GoesOn (cleanAndCheckInQ slot : Kit V Nat) := by
  refine .bind .get fun s => .bind (.set ?_ ?_ ?_) fun _ => ?_
  iterate 3 exact fun _ => rfl
  split
  · exact (setSlotPriority_goesOn slot _).bind fun _ => .pure
  · exact .pure

theorem cleanAndCheckOutQ_goesOn (slot : Nat) : GoesOn (cleanAndCheckOutQ slot : Kit V Nat) := by
  refine .bind .get fun s => .bind (.set ?_ ?_ ?_) fun _ => ?_
  iterate 3 exact fun _ => rfl
  split
  · exact (setSlotPriority_goesOn slot _).bind fun _ => .pure
  · exact .pure

theorem isReaderReadyToFire_goesOn (cell : Cell) (reader : Reader V) :
    GoesOn (isReaderReadyToFire cell reader) := by
  refine .bind .get fun s => ?_
  dsimp only
  split
  · exact .pure
  · exact (setCellPriority_goesOn _).bind fun _ => .pure

theorem isMailopReadyToFire_goesOn (mailop : BaseMailop V) :
    GoesOn (isMailopReadyToFire mailop) := by
  cases mailop with
  | takeFromMailqueue q =>
    refine .bind .get fun s => ?_
    split
    · exact .pure
    · exact (setMailqueue_goesOn q _).bind fun _ => .pure
  | putInMailslot slot msg =>
    refine (cleanAndCheckInQ_goesOn slot).bind fun priority => ?_
    split
    · exact .pure
    · exact .pure
  | takeFromMailslot slot =>
    refine (cleanAndCheckOutQ_goesOn slot).bind fun priority => ?_
    split
    · exact .pure
    · exact .pure
  | readMaildrop drop reader => exact isReaderReadyToFire_goesOn _ reader
  | takeFromOneshot oneshot => exact isReaderReadyToFire_goesOn _ _
  | waitOnCondvar condvar =>
    refine .bind .get fun s => ?_
    split
    · refine .bind (.set ?_ ?_ ?_) fun _ => .pure
      all_goals exact fun _ => rfl
    · exact .pure
  | timeoutIn sleepDuration =>
    simp only [isMailopReadyToFire]
    split
    · exact .pure
    · exact .pure
  | timeoutAt wakeupTime =>
    refine getApproximateTime_goesOn.bind fun time => ?_
    split
    · exact .pure
    · exact .pure
  | always result => exact .pure

theorem takeFromFrontOfInQ_goesOn (slot : Nat) :
    GoesOn (takeFromFrontOfInQ slot : Kit V (Entry Unit)) := by
  refine .bind .get fun s => .bind (.set ?_ ?_ ?_) fun _ => ?_
  iterate 3 exact fun _ => rfl
  split
  · exact .pure
  · exact .throw

theorem takeFromFrontOfOutQ_goesOn (slot : Nat) :
    GoesOn (takeFromFrontOfOutQ slot : Kit V (Entry V)) := by
  refine .bind .get fun s => .bind (.set ?_ ?_ ?_) fun _ => ?_
  iterate 3 exact fun _ => rfl
  split
  · exact .pure
  · exact .throw

theorem fireMailop_goesOn (fire : FireMailop V) : GoesOn (fireMailop call fire) := by
  cases fire with
  | takeFromMailqueue q messages => exact getMsgXu_goesOn q messages
  | putInMailslot slot msg =>
    exact (takeFromFrontOfInQ_goesOn slot).bind fun taker => giveTo_goesOn slot msg taker
  | takeFromMailslot slot =>
    exact (takeFromFrontOfOutQ_goesOn slot).bind fun giver => takeFrom_goesOn slot giver
  | readCell cell reader value =>
    cases cell with
    | maildrop drop => exact (readNow_goesOn reader).bind fun _ => leave_goesOn _
    | oneshot oneshot => exact (setCellPriority_goesOn 1).bind fun _ => leave_goesOn _
  | waitOnCondvar condvar =>
    refine .bind (.set ?_ ?_ ?_) fun _ => leave_goesOn _
    all_goals exact fun _ => rfl
  | timeout => exact leave_goesOn _
  | always result => exact leave_goesOn _

theorem setUpMailopreadyWatch_goesOn (placed : Placed V) :
    GoesOn (setUpMailopreadyWatch call placed) := by
  have await : GoesOn (modify fun s => s.await call placed.1.2 : Kit V Unit) :=
    .set (fun _ => rfl) (fun _ => rfl) fun _ => rfl
  obtain ⟨⟨path, mailop⟩, flag⟩ := placed
  cases mailop with
  | takeFromMailqueue q =>
    refine .bind .get fun s => ?_
    split
    · exact (setMailqueue_goesOn q _).bind fun _ => await
    · exact .bind .throw fun _ => await
  | waitOnCondvar condvar =>
    refine .bind .get fun s => ?_
    split
    · refine .bind (.set ?_ ?_ ?_) fun _ => await
      all_goals exact fun _ => rfl
    · exact .bind .throw fun _ => await
  | always result => exact .bind .throw fun _ => await
  | _ =>
    refine .bind (.set ?_ ?_ ?_) fun _ => await
    all_goals exact fun _ => rfl

theorem setUpMailopreadyWatchesLoop_goesOn (watches : List (Placed V)) :
    GoesOn (setUpMailopreadyWatchesLoop call watches) := by
  induction watches with
  | nil => exact dispatchNextThreadUsendNoreturn_goesOn
  | cons placed rest ih => exact (setUpMailopreadyWatch_goesOn placed).bind fun _ => ih

theorem watches_goesOn (watches : List (Placed V)) :
    GoesOn (modify (fun s => s.block call) >>=
      fun _ => setUpMailopreadyWatchesLoop call watches) := by
  refine .bind (.set ?_ ?_ ?_) fun _ => setUpMailopreadyWatchesLoop_goesOn watches
  all_goals exact fun _ => rfl

theorem testMailopsForReadinessToFire'_goesOn (mailops : List (Placed V))
    (fireMailopFns : List (Int × Firing V)) (n : Nat) :
    GoesOn (testMailopsForReadinessToFire' mailops fireMailopFns n) := by
  induction mailops generalizing fireMailopFns n with
  | nil => exact .pure
  | cons mailop rest ih =>
    refine (isMailopReadyToFire_goesOn _).bind fun answer => ?_
    split <;> exact ih _ _

theorem testMailopsForReadinessToFire_goesOn (mailops watches : List (Placed V)) :
    GoesOn (testMailopsForReadinessToFire mailops watches) := by
  induction mailops generalizing watches with
  | nil => exact .pure
  | cons mailop rest ih =>
    refine (isMailopReadyToFire_goesOn _).bind fun answer => ?_
    split
    · exact ih _
    · exact testMailopsForReadinessToFire'_goesOn _ _ _

theorem pickFairly_goesOn (i : Nat) : GoesOn (pickFairly i : Kit V Nat) := by
  refine .bind .get fun s => .bind (.set ?_ ?_ ?_) fun _ => .pure
  all_goals exact fun _ => rfl

theorem pick_goesOn {α : Type} (l : List (Int × α)) (n : Nat) :
    GoesOn (pickHighestPriorityMailopBreakingTiesFairly l n : Kit V α) := by
  unfold pickHighestPriorityMailopBreakingTiesFairly
  split
  · exact .pure
  · split
    · exact .pure
    · refine (pickFairly_goesOn _).bind fun j => ?_
      split
      · exact .pure
      · exact .throw

theorem countFire_goesOn (path : Path) (flag : Flag) :
    GoesOn (modify fun s => s.countFire call path flag : Kit V Unit) :=
  .set (fun _ => rfl) (fun _ => rfl) fun _ => rfl

theorem doOneBaseMailop_goesOn (mailop : Placed V) : GoesOn (doOneBaseMailop call mailop) := by
  refine enterScope_goesOn.bind fun _ => (isMailopReadyToFire_goesOn _).bind fun answer => ?_
  split
  · exact (countFire_goesOn _ _).bind fun _ => fireMailop_goesOn _
  · exact watches_goesOn _

theorem doNackfreeMailops_goesOn (mailops : List (Placed V)) :
    GoesOn (doNackfreeMailops call mailops) := by
  rcases mailops with _ | ⟨mailop, _ | ⟨mailop', rest⟩⟩
  · exact enterScope_goesOn.bind fun _ => dispatchNextThreadUsendNoreturn_goesOn
  · exact doOneBaseMailop_goesOn mailop
  · refine enterScope_goesOn.bind fun _ => (testMailopsForReadinessToFire_goesOn _ _).bind
      fun tested => ?_
    split
    · exact (pick_goesOn _ _).bind fun fire => (countFire_goesOn _ _).bind
        fun _ => fireMailop_goesOn _
    · exact watches_goesOn _

theorem doNackfullMailops_goesOn (mailops : List (Placed V)) :
    GoesOn (doNackfullMailops call mailops) := by
  refine enterScope_goesOn.bind fun _ => (testMailopsForReadinessToFire_goesOn _ _).bind
    fun tested => ?_
  split
  · refine (pick_goesOn _ _).bind fun fire => (countFire_goesOn _ _).bind fun _ =>
      .bind (.set ?_ ?_ ?_) fun _ => .bind .get fun s =>
        (sendNacks_goesOn setCondvarIu_goesOn _).bind fun _ => fireMailop_goesOn _
    all_goals exact fun _ => rfl
  · exact watches_goesOn _

theorem runPrepared_goesOn (mailops : List (Mailop (BaseMailop V)))
    (prepared : PreparedMailops (Path × BaseMailop V) × Condvar) :
    GoesOn (runPrepared call mailops prepared) := by
  refine .bind (.set ?_ ?_ ?_) fun _ => ?_
  iterate 3 exact fun _ => rfl
  split
  · exact doNackfreeMailops_goesOn _
  · exact doNackfullMailops_goesOn _

end Mailops

theorem Operation.goesOn (call : Call) (operation : Operation V) : GoesOn (operation.run call) := by
  cases operation with
  | putInMailqueue q x => exact putInMailqueue_goesOn q x
  | takeFromMailqueue q => exact takeFromMailqueue_goesOn q
  | nonblockingTakeFromMailqueue q => exact nonblockingTakeFromMailqueue_goesOn q
  | putInMailslot slot msg => exact putInMailslot_goesOn slot msg
  | nonblockingPutInMailslot slot msg => exact nonblockingPutInMailslot_goesOn slot msg
  | takeFromMailslot slot => exact takeFromMailslot_goesOn slot
  | nonblockingTakeFromMailslot slot => exact nonblockingTakeFromMailslot_goesOn slot
  | putInMaildrop drop value => exact putInCell_goesOn value
  | takeFromMaildrop drop => exact readCell_goesOn _
  | nonblockingTakeFromMaildrop drop => exact nonblockingTakeFromMaildrop_goesOn drop
  | peekInMaildrop drop => exact readCell_goesOn _
  | nonblockingPeekInMaildrop drop => exact nonblockingPeekInMaildrop_goesOn drop
  | maildropSwap drop newValue => exact readCell_goesOn _
  | putInOneshot oneshot value => exact putInCell_goesOn value
  | takeFromOneshot oneshot => exact readCell_goesOn _
  | nonblockingTakeFromOneshot oneshot => exact nonblockingTakeFromOneshot_goesOn oneshot
  | doOneMailop mailops => exact .bind .get fun _ => runPrepared_goesOn _ _
  | blockUntilMailopFires mailop => exact .bind .get fun _ => runPrepared_goesOn _ _

theorem wakeThem_goesOn (now : Nat) (items : List Sleeper) :
    GoesOn (wakeThem now items : Kit V (List Sleeper)) := by
  induction items with
  | nil => exact .pure
  | cons item rest ih =>
    refine .bind .get fun s => ?_
    split
    · exact ih
    · split
      · exact .bind (.modify fun _ => .push _ _ _) fun _ =>
          (finishWith_goesOn setCondvarIu_goesOn _ _).bind fun _ => ih
      · exact .pure

theorem wakeSleepingThreadsWhoseTimeHasComeIu_goesOn :
    GoesOn (wakeSleepingThreadsWhoseTimeHasComeIu : Kit V Unit) := by
  refine getApproximateTime_goesOn.bind fun now => .bind .get fun s => (wakeThem_goesOn _ _).bind
    fun sleepers => .set ?_ ?_ ?_
  all_goals exact fun _ => rfl

end Threadkit
