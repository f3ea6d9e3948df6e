import Mythryl.Threadkit.MailslotRuns

/-! # Mailops fire -/

namespace Threadkit

open RaisingState LazyQueue

variable {V : Type}

section Pick

variable {α : Type}

structure Counted (l : List (Int × α)) (fns : List α) (result : Nat × List α) : Prop where
  count : result.1 = result.2.length
  some : result.2 ≠ []
  members : ∀ f ∈ result.2, f ∈ fns ∨ ∃ x ∈ l, x.2 = f

theorem Counted.cons {l : List (Int × α)} {fns fns' : List α} {result : Nat × List α}
    (counted : Counted l fns' result) (x : Int × α) (old : ∀ f ∈ fns', f ∈ fns ∨ f = x.2) :
    Counted (x :: l) fns result where
  __ := counted
  members := by
    intro f member
    rcases counted.members f member with before | ⟨y, found, same⟩
    · rcases old f before with older | rfl
      · exact .inl older
      · exact .inr ⟨x, List.mem_cons_self, rfl⟩
    · exact .inr ⟨y, List.mem_cons_of_mem x found, same⟩

theorem maxPriority_counted (n : Nat) (l : List (Int × α)) (maxP : Int) (k : Nat) (fns : List α)
    (count : k = fns.length) (known : ∀ x ∈ l, x.1 = -1 ∨ 0 ≤ x.1)
    (some : fns ≠ [] ∨ (l ≠ [] ∧ maxP = 0)) : Counted l fns (maxPriority n l maxP k fns) := by
  induction l generalizing maxP k fns with
  | nil =>
    refine ⟨count, ?_, fun f member => .inl member⟩
    rcases some with some | ⟨none, _⟩
    · exact some
    · exact absurd rfl none
  | cons x rest ih =>
    rw [List.forall_mem_cons] at known
    have nonneg : 0 ≤ (if x.1 = -1 then (n : Int) else x.1) := by
      rcases known.1 with fixed | known
      · simp [fixed]
      · split
        · simp
        · exact known
    simp only [maxPriority]
    generalize (if x.1 = -1 then (n : Int) else x.1) = p at nonneg
    split
    · exact (ih p 1 [x.2] rfl known.2 (by simp)).cons x (by simp)
    · split
      · exact (ih maxP (k + 1) (x.2 :: fns) (by simp [count]) known.2 (by simp)).cons x
          (by simp [or_comm])
      · refine (ih maxP k fns count known.2 (.inl ?_)).cons x fun f member => .inl member
        rcases some with some | ⟨_, rfl⟩
        · exact some
        · omega

variable {cells : Cell → Option V} {s : State V} {call : Call}

theorem pickFairly_outcome (i : Nat) (positive : 0 < i) :
    ∃ j c, outcome (pickFairly i) s = (.ok j, s.setCount c) ∧ j < i :=
  ⟨s.count % i, _, rfl, Nat.mod_lt _ positive⟩

theorem pick_outcome (l : List (Int × α)) (n : Nat) (some : l ≠ [])
    (known : ∀ x ∈ l, x.1 = -1 ∨ 0 ≤ x.1) (begun : Begun cells s call) :
    ∃ s' f, outcome (pickHighestPriorityMailopBreakingTiesFairly l n) s = (.ok f, s') ∧
      Begun cells s' call ∧ Asked s s' ∧ ∃ x ∈ l, x.2 = f := by
  have counted := maxPriority_counted n l 0 0 [] rfl known (.inr ⟨some, rfl⟩)
  unfold pickHighestPriorityMailopBreakingTiesFairly
  split
  · exact ⟨s, _, rfl, begun, .refl s, _, List.mem_singleton_self _, rfl⟩
  · split
    · rename_i f single
      rw [single] at counted
      have member := counted.members f (by simp)
      exact ⟨s, f, rfl, begun, .refl s, by simpa using member⟩
    · rename_i k fns _ several
      rw [several] at counted
      have count : k = fns.length := counted.count
      have some' : fns ≠ [] := counted.some
      have members : ∀ f ∈ fns, f ∈ [] ∨ ∃ x ∈ l, x.2 = f := counted.members
      subst count
      obtain ⟨j, c, result, bound⟩ :=
        @pickFairly_outcome V s fns.length (List.length_pos_iff.mpr some')
      have asked : Asked s (s.setCount c) := .of_aside (.setCount c) rfl rfl rfl
      refine ⟨_, fns[j], ?_, begun.asked (begun.toInv.aside (.setCount c)) asked, asked, ?_⟩
      · rw [outcome_bind_ok result]
        simp [bound]
      · simpa using members fns[j] (List.getElem_mem bound)

end Pick

/-! Watches. -/

structure Watching (cells : Cell → Option V) (s : State V) (call : Call) : Prop
    extends Inv cells s where
  alive : s.blocked call = true
  last : s.calls = call + 1
  mutex : s.mutex = 1

structure Watched (call : Call) (s s' : State V) : Prop where
  same : SameCalls s s'
  mutex : s'.mutex = s.mutex
  empty : ∀ q, (∃ readers, s.mailqueue q = .empty readers) →
    ∃ readers, s'.mailqueue q = .empty readers
  takers : ∀ slot, ∀ e ∈ s'.waiting (s'.mailslot slot).inQ,
    e ∈ s.waiting (s.mailslot slot).inQ ∨ e.call = call
  givers : ∀ slot, ∀ e ∈ s'.waiting (s'.mailslot slot).outQ,
    e ∈ s.waiting (s.mailslot slot).outQ ∨ e.call = call
  value : ∀ cell, (s'.maildrop cell).value = (s.maildrop cell).value
  notSet : ∀ condvar, (∃ waitingThreads, s.condvar condvar = .isNotSet waitingThreads) →
    ∃ waitingThreads, s'.condvar condvar = .isNotSet waitingThreads

namespace Watched

variable {s s' : State V} {call : Call}

theorem refl (call : Call) (s : State V) : Watched call s s :=
  ⟨.refl s, rfl, fun _ => id, fun _ _ => .inl, fun _ _ => .inl, fun _ => rfl, fun _ => id⟩

theorem await (watched : Watched call s s') (made : call < s'.calls) (mailop : BaseMailop V) :
    Watched call s (s'.await call mailop) where
  same := watched.same.trans (.await made mailop)
  __ := watched

theorem notReady (watched : Watched call s s') {mailop : BaseMailop V}
    (idle : mailop.NotReady s call) : mailop.NotReady s' call := by
  cases mailop with
  | takeFromMailqueue q => exact watched.empty q idle
  | putInMailslot slot msg => exact fun e member => (watched.takers slot e member).elim (idle e) id
  | takeFromMailslot slot => exact fun e member => (watched.givers slot e member).elim (idle e) id
  | readMaildrop drop reader => exact (watched.value _).trans idle
  | takeFromOneshot oneshot => exact (watched.value _).trans idle
  | waitOnCondvar condvar => exact watched.notSet condvar idle
  | timeoutIn sleepDuration => trivial
  | timeoutAt wakeupTime => trivial
  | always result => exact idle

theorem setMailqueue (q : Nat) (readers : Queue (Entry Unit)) :
    Watched call s (s.setMailqueue q (.empty readers)) where
  same := .setMailqueue
  __ := refl call s
  empty := by
    intro q' before
    by_cases same : q' = q
    · subst same
      exact ⟨readers, by simp⟩
    · simpa [same] using before

theorem setMailslot {slot : Nat} {mailslot : Mailslot V}
    (takers : ∀ e ∈ s.waiting mailslot.inQ, e ∈ s.waiting (s.mailslot slot).inQ ∨ e.call = call)
    (givers : ∀ e ∈ s.waiting mailslot.outQ, e ∈ s.waiting (s.mailslot slot).outQ ∨ e.call = call) :
    Watched call s (s.setMailslot slot mailslot) where
  same := .setMailslot
  __ := refl call s
  takers := by
    intro slot' e member
    by_cases same : slot' = slot
    · subst same
      exact takers e (by simpa [State.waiting, State.blocked] using member)
    · exact .inl (by simpa [State.waiting, State.blocked, same] using member)
  givers := by
    intro slot' e member
    by_cases same : slot' = slot
    · subst same
      exact givers e (by simpa [State.waiting, State.blocked] using member)
    · exact .inl (by simpa [State.waiting, State.blocked, same] using member)

theorem setReadQ (cell : Cell) (readQ : Queue (Entry (Reader V))) :
    Watched call s (s.setMaildrop cell ((s.maildrop cell).withReadQ readQ)) where
  same := .setMaildrop
  __ := refl call s
  value := by
    intro cell'
    by_cases same : cell' = cell
    · subst same
      simp
    · simp [same]

theorem setCondvarState {condvar : Condvar} {waitingThreads waitingThreads' : List (Entry Unit)}
    (notSet : s.condvar condvar = .isNotSet waitingThreads) :
    Watched call s (s.setCondvarState condvar (.isNotSet waitingThreads')) where
  same := by
    refine ⟨⟨rfl, rfl, rfl, rfl, rfl, rfl, rfl, ?_, ?_⟩, rfl, rfl, rfl, fun _ _ => rfl⟩
    · intro other priority set
      have different : other ≠ condvar := by
        rintro rfl
        simp [notSet] at set
      exact ⟨priority, by simpa [different] using set⟩
    · intro other waitingThreads notSet
      by_cases same : other = condvar
      · subst same
        simp
      · exact ⟨waitingThreads, by simpa [same] using notSet⟩
  __ := refl call s
  notSet := by
    intro other before
    by_cases same : other = condvar
    · subst same
      simp
    · simpa [same] using before

theorem setSleepQueue (sleepQueue : List Sleeper) :
    Watched call s (s.setSleepQueue sleepQueue) where
  __ := refl call s
  same := { SameCalls.refl s with }

end Watched

section Watch

variable {cells : Cell → Option V} {s s' : State V} {call : Call}

theorem Watching.watched (watching : Watching cells s call) (inv : Inv cells s')
    (watched : Watched call s s') : Watching cells s' call where
  toInv := inv
  alive := watched.same.blocked.trans watching.alive
  last := watched.same.calls.trans watching.last
  mutex := watched.mutex.trans watching.mutex

variable {mailop : BaseMailop V}

theorem Inv.joinOther (inv : Inv cells s) (made : call < s.calls)
    (object : mailop.object = none) (sound : Sound s') (same : s'.calls = s.calls)
    (within : Within none s s') : Inv cells (s'.await call mailop) :=
  inv.untouched (sound.await (same ▸ made) mailop) (within.trans (.await (by simp [object])))

theorem timeWait_subset (sleeper : Sleeper) (blocked : Call → Bool) (l : List Sleeper) :
    ∀ e ∈ timeWait sleeper blocked l, e = sleeper ∨ e ∈ l := by
  induction l with
  | nil => simp [timeWait]
  | cons item rest ih =>
    intro e member
    simp only [timeWait] at member
    split at member
    · split at member
      · rcases List.mem_cons.mp member with rfl | member
        · simp
        · exact (ih e member).imp id (List.mem_cons_of_mem item)
      · simpa using member
    · exact (ih e member).imp id (List.mem_cons_of_mem item)

theorem Watching.sleeps (watching : Watching cells s call) (made : call < s.calls) {path : Path}
    {flag : Flag} (ok : s.FateOf call (.watch path flag)) {time : Nat}
    (object : mailop.object = none) :
    Inv cells ((s.setSleepQueue (timeWait ⟨time, call, path, flag⟩ s.blocked s.sleepQueue)).await
      call mailop) := by
  refine watching.joinOther made object (watching.setSleepQueue _ fun e member => ?_) rfl
    (.of_eq rfl rfl rfl rfl rfl rfl)
  rcases timeWait_subset _ _ _ e member with rfl | old
  · exact .inr ⟨made, ok⟩
  · exact .inl (.asleep old)

theorem setUpMailopreadyWatch_outcome (watching : Watching cells s call) (placed : Placed V)
    (ok : s.FateOf call (.watch placed.1.1 placed.2)) (idle : placed.1.2.NotReady s call) :
    ∃ s', outcome (setUpMailopreadyWatch call placed) s = (.ok (), s') ∧
      Watching cells s' call ∧ Watched call s s' := by
  have made : call < s.calls := watching.last ▸ Nat.lt_succ_self call
  have suffices' : ∀ s' : State V,
      outcome (setUpMailopreadyWatch call placed) s = (.ok (), s'.await call placed.1.2) →
      Inv cells (s'.await call placed.1.2) → Watched call s s' →
      ∃ s', outcome (setUpMailopreadyWatch call placed) s = (.ok (), s') ∧
        Watching cells s' call ∧ Watched call s s' := by
    intro s' result inv watched
    have watched' := watched.await (watched.same.calls ▸ made) placed.1.2
    exact ⟨_, result, watching.watched inv watched', watched'⟩
  obtain ⟨⟨path, mailop⟩, flag⟩ := placed
  cases mailop with
  | takeFromMailqueue q =>
    obtain ⟨readers, empty⟩ := idle
    refine suffices' _ ?_ (watching.joinReaders watching.alive watching.last ok empty)
      (.setMailqueue q _)
    simp only [setUpMailopreadyWatch, outcome_bind, outcome_get, outcome_modify, empty]
  | putInMailslot slot msg =>
    obtain ⟨grown, contents⟩ := @waiting_cleanAndEnqueue V _ s
      ⟨call, .watch path flag, msg⟩ (s.mailslot slot).outQ watching.alive
    refine suffices' _ rfl
      (watching.joinGivers watching.alive watching.last ok idle contents grown)
      (.setMailslot (fun _ => .inl) fun e member => ?_)
    rw [Mailslot.withOutQ_outQ, grown, List.mem_append, List.mem_singleton] at member
    exact member.imp id (congrArg Entry.call)
  | takeFromMailslot slot =>
    obtain ⟨grown, contents⟩ := @waiting_cleanAndEnqueue V _ s
      ⟨call, .watch path flag, ()⟩ (s.mailslot slot).inQ watching.alive
    refine suffices' _ rfl
      (watching.joinTakers watching.alive watching.last ok idle contents grown)
      (.setMailslot (fun e member => ?_) fun _ => .inl)
    rw [Mailslot.withInQ_inQ, grown, List.mem_append, List.mem_singleton] at member
    exact member.imp id (congrArg Entry.call)
  | readMaildrop drop reader =>
    refine suffices' _ rfl (watching.joinReadQ watching.alive watching.last ok idle nofun)
      (.setReadQ _ _)
  | takeFromOneshot oneshot =>
    refine suffices' _ rfl (watching.joinReadQ watching.alive watching.last ok idle
      fun _ _ => rfl) (.setReadQ _ _)
  | waitOnCondvar condvar =>
    obtain ⟨waitingThreads, notSet⟩ := idle
    refine suffices' (s.setCondvarState condvar
        (.isNotSet (⟨call, .watch path flag, ()⟩ :: waitingThreads))) ?_
      (watching.joinOther made rfl ?_ rfl (.of_eq rfl rfl rfl rfl rfl rfl))
      (.setCondvarState notSet)
    · simp only [setUpMailopreadyWatch, outcome_bind, outcome_get, outcome_modify, notSet]
    · refine watching.setCondvarState condvar _ ?_ (fun _ _ => ⟨_, rfl⟩) ?_
      · simp [notSet]
      · rintro _ ⟨⟩ e member
        rcases List.mem_cons.mp member with rfl | old
        · exact .inr ⟨made, ok⟩
        · exact .inl (.condvar notSet old)
  | timeoutIn sleepDuration =>
    exact suffices' _ rfl (watching.sleeps made ok rfl) (.setSleepQueue _)
  | timeoutAt wakeupTime =>
    exact suffices' _ rfl (watching.sleeps made ok rfl) (.setSleepQueue _)
  | always result => exact idle.elim

theorem setUpMailopreadyWatchesLoop_ends (watches : List (Placed V)) (s : State V)
    (watching : Watching cells s call)
    (ok : ∀ placed ∈ watches, s.FateOf call (.watch placed.1.1 placed.2) ∧
      placed.1.2.NotReady s call) : Ends cells (setUpMailopreadyWatchesLoop call watches) s := by
  induction watches generalizing s with
  | nil => exact .dispatch watching.toInv watching.mutex
  | cons placed rest ih =>
    rw [List.forall_mem_cons] at ok
    obtain ⟨s', result, watching', watched⟩ :=
      setUpMailopreadyWatch_outcome watching placed ok.1.1 ok.1.2
    refine .bind result (ih s' watching' fun placed member => ?_)
    have before := ok.2 placed member
    exact ⟨watched.same.fateOf before.1, watched.notReady before.2⟩

theorem BaseMailop.NotReady.block (idle : mailop.NotReady s call) :
    mailop.NotReady (s.block call) call := by
  have joined : ∀ {α : Type} {queue : Queue (Entry α)}, (∀ e ∈ s.waiting queue, e.call = call) →
      ∀ e ∈ (s.block call).waiting queue, e.call = call := by
    intro α queue only e member
    by_cases same : e.call = call
    · exact same
    · rw [mem_waiting, blocked_block, if_neg same] at member
      exact only e (mem_waiting.mpr member)
  cases mailop with
  | putInMailslot slot msg => exact joined idle
  | takeFromMailslot slot => exact joined idle
  | _ => exact idle

theorem Begun.watches (begun : Begun cells s call) (mutex : s.mutex = 1)
    (run : s.mailops call ≠ none) {watches : List (Placed V)}
    (idle : ∀ placed ∈ watches, placed ∈ s.places call ∧ placed.1.2.NotReady s call) :
    Ends cells (modify (fun s => s.block call) >>=
      fun _ => setUpMailopreadyWatchesLoop call watches) s := by
  obtain ⟨inv, alive, last⟩ := begun.blocks
  refine .modify (setUpMailopreadyWatchesLoop_ends watches _ ⟨inv, alive, last, mutex⟩ ?_)
  exact fun placed member => ⟨⟨run, _, (idle placed member).1⟩, (idle placed member).2.block⟩

end Watch

/-! Firing. -/

section Fire

variable {cells : Cell → Option V} {s s' : State V} {call : Call} {fire : FireMailop V}

theorem Inv.tellOther (inv : Inv cells s) (tellable : Tellable s call) {done : Done V}
    (other : done.object = none) : Inv cells (s.tell call done) :=
  inv.untouched (inv.toSound.tell tellable done) (.tell (by simp [other]))

variable {slot : Nat}

theorem takeFromFrontOfInQ_outcome {taker : Entry Unit} {rest : List (Entry Unit)}
    (front : (s.mailslot slot).inQ.front = taker :: rest) :
    outcome (takeFromFrontOfInQ slot) s = (.ok taker, s.setMailslot slot
      ((s.mailslot slot).withInQ ⟨rest, (s.mailslot slot).inQ.back⟩)) := by
  simp only [takeFromFrontOfInQ, outcome_bind, outcome_get, outcome_modify,
    takeFromFront_cons front, outcome_pure]

theorem takeFromFrontOfOutQ_outcome {giver : Entry V} {rest : List (Entry V)}
    (front : (s.mailslot slot).outQ.front = giver :: rest) :
    outcome (takeFromFrontOfOutQ slot) s = (.ok giver, s.setMailslot slot
      ((s.mailslot slot).withOutQ ⟨rest, (s.mailslot slot).outQ.back⟩)) := by
  simp only [takeFromFrontOfOutQ, outcome_bind, outcome_get, outcome_modify,
    takeFromFront_cons front, outcome_pure]

theorem contents_front {α : Type} {queue : Queue α} {first : α} {rest : List α}
    (front : queue.front = first :: rest) :
    (Queue.mk rest queue.back).contents ⊆ queue.contents := by
  simp [Queue.contents, front]

theorem fireMailop_ends (inv : Inv cells s) (tellable : Tellable s call) (mutex : s.mutex = 1)
    (ready : fire.Ready s) (blocked : fire.PartnerBlocked s) :
    Ends cells (fireMailop call fire) s := by
  cases fire with
  | takeFromMailqueue q messages => exact getMsgXu_ends inv tellable ready.choose_spec
  | putInMailslot slot msg =>
    obtain ⟨taker, rest, front⟩ := List.exists_cons_of_ne_nil ready
    have alive := blocked taker (by simp [front])
    refine .bind (takeFromFrontOfInQ_outcome front) ?_
    exact giveTo_ends inv tellable msg (contents_front front) (pending_front front alive)
  | takeFromMailslot slot =>
    obtain ⟨giver, rest, front⟩ := List.exists_cons_of_ne_nil ready
    have alive := blocked giver (by simp [front])
    refine .bind (takeFromFrontOfOutQ_outcome front) ?_
    exact takeFrom_ends inv tellable mutex (contents_front front) (pending_front front alive)
  | readCell cell reader value =>
    cases cell with
    | maildrop drop => exact readNow_ends inv tellable ready.1 ready.2
    | oneshot oneshot =>
      cases ready.2 oneshot rfl
      have full : ((s.setMaildrop (.oneshot oneshot) ((s.maildrop (.oneshot oneshot)).withPriority
          1)).maildrop (.oneshot oneshot)).value = some value := by simp [ready.1]
      exact .modify (@readNow_ends V cells _ call _ (inv.setCellPriority _ 1)
        (SameCalls.setMaildrop.tellable tellable) value full .peek fun _ _ => rfl)
  | waitOnCondvar condvar =>
    obtain ⟨priority, set⟩ := ready
    refine .modify (.leave (Inv.tellOther ?_ ((Asked.setCondvar set).same.tellable tellable) rfl))
    refine inv.untouched (inv.toSound.setCondvarState condvar _ (fun _ _ => ⟨1, rfl⟩) ?_ nofun)
      (.of_eq rfl rfl rfl rfl rfl rfl)
    simp [set]
  | timeout => exact .leave (inv.tellOther tellable rfl)
  | always result => exact .leave (inv.tellOther tellable rfl)

def alreadyCancelled : Raised :=
  .fail "Compiler bug:  Attempt to cancel already-cancelled transaction-id"

def Fails (cells : Cell → Option V) (m : Kit V Unit) (s : State V) : Prop :=
  ∃ s', outcome m s = (.error alreadyCancelled, s') ∧ Inv cells s' ∧ s'.mutex = 1

namespace Fails

variable {α : Type} {rest : Kit V Unit}

theorem bind {m : Kit V α} {f : α → Kit V Unit} {a : α} (first : outcome m s = (.ok a, s'))
    (last : Fails cells (f a) s') : Fails cells (m >>= f) s := by
  obtain ⟨s'', result, kept⟩ := last
  exact ⟨s'', by rw [outcome_bind_ok first, result], kept⟩

theorem get {f : State V → Kit V Unit} (last : Fails cells (f s) s) : Fails cells (get >>= f) s :=
  .bind (outcome_get s) last

theorem modify {f : State V → State V} (last : Fails cells rest (f s)) :
    Fails cells (modify f >>= fun _ => rest) s :=
  .bind (outcome_modify f s) last

theorem enter (last : Fails cells rest (s.withMutex 1)) :
    Fails cells (enterScope >>= fun _ => rest) s := modify last

end Fails

theorem endDo1mailoprunAndReturnThread_fails {dead : Call} (running : s.blocked dead = false) :
    outcome (endDo1mailoprunAndReturnThread dead) s = (.error alreadyCancelled, s) := by
  cases status : s.status dead with
  | isComplete =>
    simp [endDo1mailoprunAndReturnThread, outcome_bind, status, alreadyCancelled]
  | isBlocked thread => simp [State.blocked, status] at running

theorem giveTo_fails {msg : V} {taker : Entry Unit} (dead : s.blocked taker.call = false) :
    outcome (giveTo call slot msg taker) s = (.error alreadyCancelled, s) := by
  rw [giveTo, outcome_bind, endDo1mailoprunAndReturnThread_fails dead]

theorem takeFrom_fails {giver : Entry V} (dead : s.blocked giver.call = false) :
    outcome (takeFrom call slot giver) s = (.error alreadyCancelled, s) := by
  simp only [takeFrom, getCurrentThread, outcome_bind, outcome_get, outcome_pure,
    endDo1mailoprunAndReturnThread_fails dead]

theorem pending_dead {α : Type} {live : α → Bool} {queue : Queue α} {first : α} {rest : List α}
    (front : queue.front = first :: rest) (dead : live first = false) :
    Queue.pending live ⟨rest, queue.back⟩ = queue.pending live := by
  simp [pending_parts, front, dead]

theorem fireMailop_fails (inv : Inv cells s) (mutex : s.mutex = 1) (ready : fire.Ready s)
    (blocked : ¬ fire.PartnerBlocked s) : Fails cells (fireMailop call fire) s := by
  cases fire with
  | putInMailslot slot msg =>
    obtain ⟨taker, rest, front⟩ := List.exists_cons_of_ne_nil ready
    have dead : s.blocked taker.call = false := by
      simpa [FireMailop.PartnerBlocked, front] using blocked
    refine ⟨s.setMailslot slot ((s.mailslot slot).withInQ ⟨rest, (s.mailslot slot).inQ.back⟩), ?_,
      inv.setMailslot (inv.slot slot).priority (contents_front front) (fun _ => id) ?_ rfl, mutex⟩
    · rw [fireMailop, outcome_bind_ok (takeFromFrontOfInQ_outcome front)]
      exact giveTo_fails dead
    · exact pending_dead front dead
  | takeFromMailslot slot =>
    obtain ⟨giver, rest, front⟩ := List.exists_cons_of_ne_nil ready
    have dead : s.blocked giver.call = false := by
      simpa [FireMailop.PartnerBlocked, front] using blocked
    refine ⟨s.setMailslot slot ((s.mailslot slot).withOutQ ⟨rest, (s.mailslot slot).outQ.back⟩),
      ?_, inv.setMailslot (inv.slot slot).priority (fun _ => id) (contents_front front) rfl ?_,
      mutex⟩
    · rw [fireMailop, outcome_bind_ok (takeFromFrontOfOutQ_outcome front)]
      exact takeFrom_fails dead
    · exact pending_dead front dead
  | _ => exact absurd trivial blocked

theorem FireMailop.Ready.quiet (ready : fire.Ready s) (quiet : Quiet s s') : fire.Ready s' := by
  cases fire with
  | takeFromMailqueue q messages =>
    show ∃ priority, s'.mailqueue q = _
    rw [quiet.mailqueue]
    exact ready
  | putInMailslot slot msg =>
    show (s'.mailslot slot).inQ.front ≠ []
    rw [quiet.mailslot]
    exact ready
  | takeFromMailslot slot =>
    show (s'.mailslot slot).outQ.front ≠ []
    rw [quiet.mailslot]
    exact ready
  | readCell cell reader value =>
    refine ⟨?_, ready.2⟩
    rw [quiet.maildrop]
    exact ready.1
  | waitOnCondvar condvar =>
    obtain ⟨priority, set⟩ := ready
    cases state : s'.condvar condvar with
    | isSet priority' => exact ⟨priority', state⟩
    | isNotSet waitingThreads =>
      rw [quiet.waiting condvar waitingThreads state] at set
      cases set
  | timeout => trivial
  | always result => trivial

theorem FireMailop.PartnerBlocked.same (blocked : fire.PartnerBlocked s)
    (mailslot : s'.mailslot = s.mailslot) (status : s'.status = s.status) :
    fire.PartnerBlocked s' := by
  cases fire <;> simp_all [FireMailop.PartnerBlocked, State.blocked]

end Fire

/-! Running what has been gathered. -/

structure Claimed (cells : Cell → Option V) (s : State V) (call : Call)
    (places : List (Placed V)) : Prop extends Begun cells s call where
  run : s.mailops call ≠ none
  places : s.places call = places

def pickMailop (mailops : List (Placed V)) : Kit V (Option (Firing V)) := do
  match ← testMailopsForReadinessToFire mailops [] with
  | .readyMailops fireMailopFns n =>
      return some (← pickHighestPriorityMailopBreakingTiesFairly fireMailopFns n)
  | .noReadyMailops _ => return none

section Run

variable {cells : Cell → Option V} {s s' : State V} {call : Call} {places : List (Placed V)}
  {path : Path} {flag : Flag}

theorem Claimed.enter (claimed : Claimed cells s call places) :
    Claimed cells (s.withMutex 1) call places :=
  ⟨claimed.toBegun.withMutex 1, claimed.run, claimed.places⟩

theorem Claimed.asked (claimed : Claimed cells s call places) (begun : Begun cells s' call)
    (asked : Asked s s') : Claimed cells s' call places :=
  ⟨begun, asked.same.mailops ▸ claimed.run, asked.same.places ▸ claimed.places⟩

theorem Claimed.fired (claimed : Claimed cells s call places) (armed : Armed s')
    (cascade : Cascade (· ∈ s.nacksOf call) (· = call) s s') (spent : s'.SpentAt call path flag) :
    Inv cells s' ∧ Tellable s' call := by
  have accounted : s'.Accounted call := by
    refine ⟨fun _ => ⟨path, flag, spent⟩, fun plain => ?_⟩
    rw [cascade.quiet.mailops] at plain
    exact absurd plain claimed.run
  exact ⟨claimed.toInv.untouched (claimed.toSound.cascade armed cascade accounted)
    (.of_quiet cascade.quiet), cascade.quiet.inFlight claimed.toInFlight, accounted⟩

theorem Claimed.countFire (claimed : Claimed cells s call places)
    (nackfree : s.nackstates call = []) (place : ∃ mailop, ((path, mailop), flag) ∈ places) :
    Inv cells (s.countFire call path flag) ∧ Tellable (s.countFire call path flag) call := by
  have spent : (s.countFire call path flag).SpentAt call path flag := by
    refine ⟨?_, ?_, ?_, ?_⟩
    · simp [claimed.unspent.fired]
    · simpa [claimed.places] using place
    · simp [nackfree]
    · simp [nackfree]
  exact claimed.fired (claimed.toArmed.countFire claimed.running) (.countFire _) spent

theorem Claimed.fires_free (claimed : Claimed cells s call places) (mutex : s.mutex = 1)
    (nackfree : s.nackstates call = []) {f : Int × Firing V} (fireable : Fireable s places f) :
    Ends cells (modify (fun s => s.countFire call f.2.1.1 f.2.1.2) >>=
      fun _ => fireMailop call f.2.2) s := by
  obtain ⟨inv, tellable⟩ := claimed.countFire nackfree fireable.place
  exact .modify (fireMailop_ends inv tellable mutex
    (fireable.ready.quiet (Cascade.countFire fun _ => False).quiet) (fireable.blocked.same rfl rfl))

theorem Claimed.tests (claimed : Claimed cells s call places) (mutex : s.mutex = 1) :
    ∃ t, Claimed cells t call places ∧ t.mutex = 1 ∧ Asked s t ∧
      ((∃ watches, outcome (testMailopsForReadinessToFire places []) s =
          (.ok (.noReadyMailops watches), t) ∧
          ∀ placed ∈ watches, placed ∈ t.places call ∧ placed.1.2.NotReady t call) ∨
        ∃ u fns n f, outcome (testMailopsForReadinessToFire places []) s =
          (.ok (.readyMailops fns n), u) ∧
          outcome (pickHighestPriorityMailopBreakingTiesFairly fns n) u = (.ok f.2, t) ∧
          Fireable t places f) := by
  have placed : ∀ mailop ∈ places, mailop ∈ places := fun _ => id
  obtain ⟨u, tested, result, begun, asked, true_⟩ :=
    testMailopsForReadinessToFire_outcome places [] s claimed.toBegun placed (by simp)
  have claimed := claimed.asked begun asked
  cases tested with
  | noReadyMailops watches =>
    refine ⟨u, claimed, asked.mutex.trans mutex, asked, .inl ⟨watches, result, ?_⟩⟩
    rw [claimed.places]
    exact true_
  | readyMailops fns n =>
    obtain ⟨some, fireable⟩ := true_
    obtain ⟨t, f, picked, begun', asked', x, member, rfl⟩ :=
      pick_outcome fns n some (fun f member => (fireable f member).priority) begun
    exact ⟨t, claimed.asked begun' asked', (asked'.mutex.trans asked.mutex).trans mutex,
      asked.trans asked', .inr ⟨u, fns, n, x, result, picked, (fireable x member).asked asked'⟩⟩

theorem doOneBaseMailop_ends {mailop : Placed V} (claimed : Claimed cells s call [mailop])
    (nackfree : s.nackstates call = []) : Ends cells (doOneBaseMailop call mailop) s := by
  refine .enter ?_
  have claimed := claimed.enter
  obtain ⟨t, answer, result, begun, asked, true_⟩ :=
    isMailopReadyToFire_asks claimed.toBegun mailop.1.2
  have claimed := claimed.asked begun asked
  refine .bind result ?_
  cases answer with
  | none =>
    refine begun.watches asked.mutex claimed.run fun placed member => ?_
    cases List.mem_singleton.mp member
    exact ⟨by simp [claimed.places], true_⟩
  | some found =>
    refine claimed.fires_free asked.mutex ?_ (f := (found.1, (mailop.1.1, mailop.2), found.2))
      ⟨true_.1, ⟨mailop.1.2, by simp⟩, true_.2.1, true_.2.2⟩
    rw [asked.same.nackstates]
    exact nackfree

theorem doNackfreeMailops_ends (claimed : Claimed cells s call places)
    (nackfree : s.nackstates call = []) : Ends cells (doNackfreeMailops call places) s := by
  rcases places with _ | ⟨mailop, _ | ⟨mailop', rest⟩⟩
  · exact .enter (.dispatch (claimed.toInv.aside (.withMutex 1)) rfl)
  · exact doOneBaseMailop_ends claimed nackfree
  · refine .enter ?_
    obtain ⟨t, claimed, mutex, asked, result⟩ := claimed.enter.tests rfl
    rcases result with ⟨watches, tested, idle⟩ | ⟨u, fns, n, f, tested, picked, fireable⟩
    · exact .bind tested (claimed.watches mutex claimed.run idle)
    · refine .bind tested (.bind picked (claimed.fires_free mutex ?_ fireable))
      rw [asked.same.nackstates]
      exact nackfree

structure Slips (s : State V) (call : Call) (places : List (Placed V)) : Prop where
  slips : ∃ t fire s', outcome (pickMailop places) (s.withMutex 1) = (.ok (some fire), t) ∧
    Asked (s.withMutex 1) t ∧ Armed t ∧ InFlight t call ∧ t.Unspent call ∧ fire.2.Ready t ∧
    fire.2.PartnerBlocked t ∧ outcome (sendNacks setCondvarIu call (t.nackstates call))
      (t.fires call fire.1.1 fire.1.2) = (.ok (), s') ∧ Quiet t s' ∧ ¬ fire.2.PartnerBlocked s'

theorem doNackfullMailops_outcome (claimed : Claimed cells s call places) :
    Ends cells (doNackfullMailops call places) s ∨
      (Slips s call places ∧ Fails cells (doNackfullMailops call places) s) := by
  obtain ⟨t, claimed, mutex, asked, result⟩ := claimed.enter.tests rfl
  rcases result with ⟨watches, tested, idle⟩ | ⟨u, fns, n, f, tested, picked, fireable⟩
  · exact .inl (.enter (.bind tested (claimed.watches mutex claimed.run idle)))
  · obtain ⟨s', sent, armed, cascade, spent⟩ := fires_outcome (setCondvarIu_sets (t.calls + 1))
      claimed.toArmed (blockedCalls_bound t) claimed.running claimed.unspent
      (claimed.places ▸ fireable.place)
    obtain ⟨inv, tellable⟩ := claimed.fired armed cascade spent
    have ready := fireable.ready.quiet cascade.quiet
    have mutex' : s'.mutex = 1 := cascade.quiet.mutex.trans mutex
    by_cases blocked : f.2.2.PartnerBlocked s'
    · refine .inl (.enter (.bind tested (.bind picked (.modify (.modify (.get (.bind sent ?_)))))))
      exact fireMailop_ends inv tellable mutex' ready blocked
    · refine .inr ⟨⟨t, f.2, s', ?_, asked, claimed.toArmed, claimed.toInFlight, claimed.unspent,
        fireable.ready, fireable.blocked, sent, cascade.quiet, blocked⟩, ?_⟩
      · rw [pickMailop, outcome_bind_ok tested]
        exact outcome_bind_ok picked
      · exact .enter (.bind tested (.bind picked (.modify (.modify (.get (.bind sent
          (fireMailop_fails inv mutex' ready blocked)))))))

theorem Begun.claim (begun : Begun cells s call) {mailops : List (Mailop (BaseMailop V))}
    {nackstates : List Nackstate} {next : Condvar}
    (gathered : GatheredFor mailops s.condvars next places nackstates) :
    Claimed cells (s.claim call mailops places nackstates next) call places where
  toInv := begun.toInv.untouched (begun.toSound.claim begun.toStarting gathered)
    (.of_eq rfl rfl rfl rfl rfl rfl)
  toStarting := begun.toStarting.claim begun.toSound gathered
  control := begun.control
  run := by simp
  places := by simp

def State.claims (s : State V) (call : Call) (mailops : List (Mailop (BaseMailop V)))
    (prepared : PreparedMailops (Path × BaseMailop V) × Condvar) : State V :=
  s.claim call mailops (gatherPrepared prepared.1).1 (gatherPrepared prepared.1).2 prepared.2

theorem runPrepared_outcome (begun : Begun cells s call) {mailops : List (Mailop (BaseMailop V))}
    {prepared : PreparedMailops (Path × BaseMailop V) × Condvar}
    (gathered : GatheredFor mailops s.condvars prepared.2 (gatherPrepared prepared.1).1
      (gatherPrepared prepared.1).2) : Ends cells (runPrepared call mailops prepared) s ∨
      (Slips (s.claims call mailops prepared) call (gatherPrepared prepared.1).1 ∧
        Fails cells (runPrepared call mailops prepared) s) := by
  have claimed : Claimed cells (s.claims call mailops prepared) call _ := begun.claim gathered
  obtain ⟨group, next⟩ := prepared
  cases group with
  | nackfree mailops =>
    refine .inl (.modify (doNackfreeMailops_ends claimed ?_))
    simp [gatherPrepared]
  | nackfull groups =>
    exact (doNackfullMailops_outcome claimed).imp .modify (.imp id .modify)
  | withnack condvar group =>
    exact (doNackfullMailops_outcome claimed).imp .modify (.imp id .modify)

/-- What `do_one_mailop mailops` prepares when `next` is the next condition variable. -/
def doOneMailopPrepared (mailops : List (Mailop (BaseMailop V))) (next : Condvar) :
    PreparedMailops (Path × BaseMailop V) × Condvar :=
  DoOneMailop.prepareMailops (taggedFrom mailops [] 0) [] next

def blockUntilMailopFiresPrepared (mailop : Mailop (BaseMailop V)) (next : Condvar) :
    PreparedMailops (Path × BaseMailop V) × Condvar :=
  BlockUntilMailopFires.prepare (mailop.tagged [0]) next

theorem doOneMailop_outcome (begun : Begun cells s call) (mailops : List (Mailop (BaseMailop V))) :
    Ends cells (doOneMailop call mailops) s ∨
      (Slips (s.claims call mailops (doOneMailopPrepared mailops s.condvars)) call
          (gatherPrepared (doOneMailopPrepared mailops s.condvars).1).1 ∧
        Fails cells (doOneMailop call mailops) s) :=
  (runPrepared_outcome begun (doOneMailop_gathered mailops s.condvars)).imp .get (.imp id .get)

theorem blockUntilMailopFires_outcome (begun : Begun cells s call)
    (mailop : Mailop (BaseMailop V)) : Ends cells (blockUntilMailopFires call mailop) s ∨
      (Slips (s.claims call [mailop] (blockUntilMailopFiresPrepared mailop s.condvars)) call
          (gatherPrepared (blockUntilMailopFiresPrepared mailop s.condvars).1).1 ∧
        Fails cells (blockUntilMailopFires call mailop) s) :=
  (runPrepared_outcome begun (blockUntilMailopFires_gathered mailop s.condvars)).imp .get
    (.imp id .get)

end Run

end Threadkit
