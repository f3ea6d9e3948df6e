import Mythryl.Threadkit.Objects

/-! # How a scope ends -/

namespace Threadkit

open RaisingState LazyQueue

variable {V : Type}

structure Begun (cells : Cell → Option V) (s : State V) (call : Call) : Prop
    extends Inv cells s, Starting s call where
  control : s.control = none

structure Finished (cells : Cell → Option V) (s : State V) : Prop extends Inv cells s where
  balanced : s.control ≠ none → s.mutex = 0

structure Taken (s : State V) (call : Call) (fate : Fate) : Prop extends InFlight s call where
  unspent : s.Unspent call
  ok : s.FateOf call fate

section Taken

variable {s s' : State V} {call : Call} {fate : Fate}

theorem Sound.taken (sound : Sound s) (alive : s.blocked call = true) (ok : s.FateOf call fate) :
    Taken (s.complete call) call fate where
  toInFlight := sound.toArmed.takes alive
  unspent := SameRuns.complete.unspent (sound.blocked alive).2
  ok := SameRuns.complete.fateOf ok

theorem Taken.same (taken : Taken s call fate) (same : SameCalls s s') : Taken s' call fate where
  toInFlight := same.inFlight taken.toInFlight
  unspent := same.unspent taken.unspent
  ok := same.fateOf taken.ok

theorem Taken.tell (taken : Taken s call fate) {other : Call} (different : call ≠ other)
    (done : Done V) : Taken (s.tell other done) call fate where
  __ := taken
  untold := by simpa [different] using taken.untold
  unspent := (SameRuns.tell done).unspent taken.unspent
  ok := (SameRuns.tell done).fateOf taken.ok

end Taken

def Ends (cells : Cell → Option V) (m : Kit V Unit) (s : State V) : Prop :=
  ∃ s', outcome m s = (.ok (), s') ∧ Finished cells s'

theorem fateOf_direct {s : State V} {call : Call} (plain : s.mailops call = none) :
    s.FateOf call .direct := plain

section Rules

variable {cells : Cell → Option V} {s s' : State V} {call : Call} {α : Type} {rest : Kit V Unit}

theorem Begun.withMutex (begun : Begun cells s call) (mutex : Nat) :
    Begun cells (s.withMutex mutex) call where
  toInv := begun.toInv.aside (.withMutex mutex)
  toStarting := begun.toStarting.same (Aside.withMutex mutex).sameCalls
    (Aside.withMutex mutex).waits rfl
  control := begun.control

theorem Begun.tellable (begun : Begun cells s call) (plain : s.mailops call = none) :
    Tellable s call where
  toInFlight := begun.toInFlight
  accounted := ⟨fun run => absurd plain run, fun _ => begun.unspent⟩

theorem Begun.blocks (begun : Begun cells s call) :
    Inv cells (s.block call) ∧ (s.block call).blocked call = true ∧
      (s.block call).calls = call + 1 :=
  ⟨begun.toInv.block begun.toStarting, by simp [blocked_block], begun.last⟩

namespace Ends

theorem bind {m : Kit V α} {f : α → Kit V Unit} {a : α} (first : outcome m s = (.ok a, s'))
    (last : Ends cells (f a) s') : Ends cells (m >>= f) s := by
  obtain ⟨s'', result, finished⟩ := last
  exact ⟨s'', by rw [outcome_bind_ok first, result], finished⟩

theorem get {f : State V → Kit V Unit} (last : Ends cells (f s) s) : Ends cells (get >>= f) s :=
  .bind (outcome_get s) last

theorem modify {f : State V → State V} (last : Ends cells rest (f s)) :
    Ends cells (modify f >>= fun _ => rest) s :=
  .bind (outcome_modify f s) last

theorem enter (last : Ends cells rest (s.withMutex 1)) :
    Ends cells (enterScope >>= fun _ => rest) s := modify last

theorem enters (begun : Begun cells s call) (plain : s.mailops call = none)
    (last : ∀ s₁, Begun cells s₁ call → Tellable s₁ call → s₁.mutex = 1 → Ends cells rest s₁) :
    Ends cells (enterScope >>= fun _ => rest) s :=
  enter (last _ (begun.withMutex 1) ((begun.withMutex 1).tellable plain) rfl)

theorem leave {done : Done V} (inv : Inv cells (s.tell call done)) :
    Ends cells (exitScope >>= fun _ => returnTo call done) s :=
  ⟨(s.withMutex 0).returned call done, rfl,
    (inv.aside (.withMutex 0)).aside (.returned (s := s.withMutex 0) done), fun _ => rfl⟩

theorem dispatch (inv : Inv cells s) (mutex : s.mutex = 1) :
    Ends cells dispatchNextThreadUsendNoreturn s := by
  refine ⟨(s.switchNoted false).yielded, ?_,
    (inv.aside (.switchNoted false)).aside .yielded, fun control => absurd rfl control⟩
  simp [dispatchNextThreadUsendNoreturn, outcome_bind, mutex]

theorem yield {done : Done V} (inv : Inv cells (s.tell call done)) (mutex : s.mutex = 1) :
    Ends cells (yieldToNextThreadXu call done) s :=
  modify (dispatch (inv.aside (.push s.currentThread done)) mutex)

theorem endDo1mailoprun {thread : Thread} {f : Thread → Kit V Unit}
    (status : s.status call = .isBlocked thread) (last : Ends cells (f thread) (s.complete call)) :
    Ends cells (endDo1mailoprunAndReturnThread call >>= f) s := by
  refine .bind ?_ last
  rw [endDo1mailoprunAndReturnThread, outcome_bind, outcome_get]
  simp only [status]
  rfl

theorem setCurrentThread {thread : Thread}
    (last : ∀ t, Aside s t → t.mutex = s.mutex → Ends cells rest t) :
    Ends cells (Threadkit.setCurrentThread thread >>= fun _ => rest) s :=
  modify (last _ (.install thread) rfl)

theorem enqueueOldThread {thread : Thread} {done : Done V}
    (last : Ends cells rest ((s.push s.currentThread call done).install thread)) :
    Ends cells (enqueueOldThreadPlusOldFateThenInstallNewThread thread call done >>= fun _ => rest)
      s := by
  exact .bind (a := ()) rfl last

theorem switch {requested old : Call} {requestedThread : Thread} {requestedArg done : Done V}
    (resumed : Inv cells ((s.tell old done).tell requested requestedArg))
    (waiting : Inv cells ((s.tell requested requestedArg).tell old done)) (mutex : s.mutex = 1) :
    Ends cells (switchToThreadXu requestedThread requested requestedArg old done) s := by
  refine .get (.get ?_)
  by_cases due : s.mutex = 1 ∧ s.needToSwitchThreads = true
  · rw [if_pos due]
    refine .modify (.modify (.dispatch (waiting.aside ?_) mutex))
    constructor <;> rfl
  · rw [if_neg due]
    refine .enqueueOldThread (.modify ?_)
    rw [mutex]
    refine ⟨_, rfl, resumed.aside ?_, fun _ => rfl⟩
    constructor <;> rfl

theorem settle {fate : Fate} (sound : Sound s) (taken : Taken s call fate)
    (last : ∀ s', Sound s' → Tellable s' call →
      Cascade (· ∈ s.nacksOf call) (· = call) s s' → Ends cells rest s') :
    Ends cells (Threadkit.settle call fate >>= fun _ => rest) s := by
  obtain ⟨s', result, sound', tellable, cascade⟩ :=
    sound.settle taken.toInFlight taken.unspent taken.ok
  exact .bind result (last s' sound' tellable cascade)

theorem handOver {other : Call} {fate : Fate} {thread : Thread} {done : Done V} (sound : Sound s)
    (tellable : Tellable s call) (status : s.status other = .isBlocked thread)
    (ok : s.FateOf other fate)
    (last : ∀ t, Sound t → Taken t other fate → Aside ((s.complete other).tell call done) t →
      Ends cells rest t) :
    Ends cells (endDo1mailoprunAndReturnThread other >>= fun newThread =>
      enqueueOldThreadPlusOldFateThenInstallNewThread newThread call done >>= fun _ => rest) s := by
  have alive : s.blocked other = true := by simp [State.blocked, status]
  have different : other ≠ call := fun same => by
    rw [same, tellable.running] at alive
    cases alive
  have aside : Aside ((s.complete other).tell call done)
      (((s.complete other).push s.currentThread call done).install thread) := by
    constructor <;> rfl
  refine .endDo1mailoprun status (.enqueueOldThread (last _ ?_ ?_ aside))
  · exact (sound.complete.tell tellable.complete done).aside aside
  · have taken := (sound.taken alive ok).tell different done
    exact taken.same aside.sameCalls

end Ends

end Rules

/-! # Mailqueues keep the invariant -/

theorem dequeue_some {messages : Queue V} (held : messages.contents ≠ []) :
    ∃ msg messages', dequeue messages = some (msg, messages') ∧
      messages.contents = msg :: messages'.contents := by
  obtain ⟨front, back⟩ := messages
  cases front with
  | cons msg rest => exact ⟨msg, ⟨rest, back⟩, rfl, rfl⟩
  | nil =>
    cases reversed : back.reverse with
    | nil => simp [Queue.contents, reversed] at held
    | cons msg rest =>
      exact ⟨msg, ⟨rest, []⟩, by simp [dequeue, reversed], by simp [Queue.contents, reversed]⟩

namespace QueueOk

variable {held : List V} {s s' : State V} {q : Nat} {call : Call} {x : V}

theorem put (ok : QueueOk held s q) (call : Call) (x : V) :
    QueueOk (held ++ [x]) (s.tell call (.putInMailqueue q x)) q where
  lossless := by
    rw [msgsPut_tell s call rfl, msgsTaken_tell s call rfl, ok.lossless]
    simp [Done.msgPut, Done.msgTaken]
  nonempty := ok.nonempty
  readers := ok.readers.tell rfl rfl (eventsOf_tell_here rfl) (by simp)

theorem took (ok : QueueOk (x :: held) s q)
    (ahead : ∀ e ∈ s.waiting (s.mailqueue q).readers, call < e.call) :
    QueueOk held (s.tell call (.tookFromMailqueue q x)) q where
  lossless := by
    rw [msgsPut_tell s call rfl, msgsTaken_tell s call rfl, ok.lossless]
    simp [Done.msgPut, Done.msgTaken]
  nonempty := ok.nonempty
  readers := ok.readers.tell rfl rfl (eventsOf_tell_here rfl) fun _ => ahead

theorem set (ok : QueueOk held s q) {state : MailqueueState V}
    (nonempty : ∀ priority messages, state = .nonempty priority messages → messages.contents ≠ [])
    (readers : s.waiting state.readers = s.waiting (s.mailqueue q).readers) :
    QueueOk held (s.setMailqueue q state) q where
  lossless := ok.lossless
  nonempty := by simpa using nonempty
  readers := by
    have line := ok.readers.same (t := s.setMailqueue q state) rfl (fun _ _ => .rfl) rfl
    rw [← readers] at line
    simpa [State.waiting, State.blocked] using line

theorem remove (ok : QueueOk held s q) {readers readers' : Queue (Entry Unit)}
    {reader : Entry Unit} (empty : s.mailqueue q = .empty readers)
    (first : s.waiting readers = reader :: s.waiting readers') :
    QueueOk held ((s.setMailqueue q (.empty readers')).complete reader.call) q ∧
      ∀ e ∈ ((s.setMailqueue q (.empty readers')).complete reader.call).waiting readers',
        reader.call < e.call := by
  have line := ok.readers
  rw [empty] at line
  obtain ⟨line, ahead⟩ := line.served (t := (s.setMailqueue q (.empty readers')).complete reader.call)
    first rfl (fun _ _ => .rfl) rfl
  have here : ((s.setMailqueue q (.empty readers')).complete reader.call).mailqueue q =
      .empty readers' := by simp
  refine ⟨⟨ok.lossless, by simp, ?_⟩, ahead⟩
  rw [here]
  exact line

end QueueOk

section Runs

variable {cells : Cell → Option V} {s : State V} {call : Call} {q : Nat}

theorem Inv.takeMsg (inv : Inv cells s) (tellable : Tellable s call) {priority : Nat}
    {messages : Queue V} (nonempty : s.mailqueue q = .nonempty priority messages) {msg : V}
    {state : MailqueueState V} (queued : messages.contents = msg :: state.queued)
    (held : ∀ priority messages, state = .nonempty priority messages → messages.contents ≠ [])
    (readers : state.readers = .empty) :
    Inv cells ((s.setMailqueue q state).tell call (.tookFromMailqueue q msg)) := by
  refine inv.touched (o := .mailqueue q) ?_
    ((Within.setMailqueue state).trans (.tell (by simp [Done.object]))) ?_
  · refine (inv.toSound.setMailqueue q state ?_).tell (SameCalls.setMailqueue.tellable tellable) _
    rintro _ rfl e member
    simp only [MailqueueState.readers] at readers
    simp [readers] at member
  · have ok := inv.queue q
    rw [nonempty, MailqueueState.queued, queued] at ok
    have set : QueueOk (msg :: state.queued) (s.setMailqueue q state) q := by
      refine ok.set held ?_
      rw [readers, nonempty]
      rfl
    have here : ((s.setMailqueue q state).tell call (.tookFromMailqueue q msg)).mailqueue q = state :=
      by simp
    show QueueOk _ _ _
    rw [here]
    exact set.took (by simp [readers])

theorem getMsgXu_ends (inv : Inv cells s) (tellable : Tellable s call) {priority : Nat}
    {messages : Queue V} (nonempty : s.mailqueue q = .nonempty priority messages) :
    Ends cells (getMsgXu call q messages) s := by
  obtain ⟨msg, messages', dequeued, contents⟩ :=
    dequeue_some ((inv.queue q).nonempty priority messages nonempty)
  rw [getMsgXu, dequeued]
  obtain ⟨front, back⟩ := messages'
  have left : ∀ held : (Queue.mk front back).contents ≠ [],
      Ends cells (modify (fun s => s.setMailqueue q (.nonempty 1 ⟨front, back⟩)) >>=
        fun _ => exitScope >>= fun _ => returnTo call (.tookFromMailqueue q msg)) s := by
    intro held
    refine .modify (.leave (inv.takeMsg tellable nonempty contents ?_ rfl))
    rintro _ _ ⟨⟩
    exact held
  cases front with
  | cons x front => exact left (by simp [Queue.contents])
  | nil =>
    cases back with
    | cons x back => exact left (by simp [Queue.contents])
    | nil => exact .modify (.leave (inv.takeMsg tellable nonempty contents (by simp) rfl))

theorem Inv.joinReaders (inv : Inv cells s) (alive : s.blocked call = true)
    (last : s.calls = call + 1) {fate : Fate} (ok : s.FateOf call fate)
    {readers : Queue (Entry Unit)} (empty : s.mailqueue q = .empty readers) :
    Inv cells ((s.setMailqueue q (.empty (readers.putOnBack ⟨call, fate, ()⟩))).await call
      (.takeFromMailqueue q)) := by
  have made : call < s.calls := last ▸ Nat.lt_succ_self call
  refine inv.touched (o := .mailqueue q) ?_
    ((Within.setMailqueue _).trans (.await (by simp [BaseMailop.object]))) ?_
  · refine Sound.await (inv.toSound.setMailqueue q _ ?_) made _
    rintro _ ⟨⟩ e member
    rw [contents_putOnBack, List.mem_append] at member
    rcases member with old | new
    · exact .inl (.mailqueue empty old)
    · cases List.mem_singleton.mp new
      exact .inr ⟨made, ok⟩
  · have before := inv.queue q
    rw [empty] at before
    have line := before.readers
    rw [empty] at line
    have here : ((s.setMailqueue q (.empty (readers.putOnBack ⟨call, fate, ()⟩))).await call
        (.takeFromMailqueue q)).mailqueue q = .empty (readers.putOnBack ⟨call, fate, ()⟩) := by simp
    show QueueOk _ _ _
    rw [here]
    refine ⟨before.lossless, by simp, ?_⟩
    rw [here]
    have joined := line.join (t := (s.setMailqueue q
      (.empty (readers.putOnBack ⟨call, fate, ()⟩))).await call (.takeFromMailqueue q))
      inv.toSound alive last fate () rfl rfl rfl
    rw [← waiting_putOnBack alive] at joined
    exact joined

theorem handToReader_ends (inv : Inv cells s) (tellable : Tellable s call) (x : V)
    {readers readers' : Queue (Entry Unit)} {reader : Entry Unit}
    (empty : s.mailqueue q = .empty readers) (subset : readers'.contents ⊆ readers.contents)
    (first : s.waiting readers = reader :: s.waiting readers') :
    Ends cells (do
      modify fun s => s.setMailqueue q (.empty readers')
      let newThread ← endDo1mailoprunAndReturnThread reader.call
      enqueueOldThreadPlusOldFateThenInstallNewThread newThread call (.putInMailqueue q x)
      resumeQueueReader q reader x) s := by
  obtain ⟨member, alive⟩ := mem_waiting.mp (first ▸ List.mem_cons_self)
  obtain ⟨thread, status⟩ := blocked_iff.mp alive
  have sound : Sound (s.setMailqueue q (.empty readers')) := by
    refine inv.toSound.setMailqueue q _ ?_
    rintro _ ⟨⟩ e member
    exact .inl (.mailqueue empty (subset member))
  have ok := inv.queue q
  rw [empty] at ok
  obtain ⟨ok, ahead⟩ := ok.remove empty first
  refine .modify (.handOver sound (SameCalls.setMailqueue.tellable tellable) status
    (inv.waits (.mailqueue empty member)).2 fun t sound taken aside => ?_)
  refine .settle sound taken fun s' sound tellable cascade => .leave ?_
  have later : Within none (((s.setMailqueue q (.empty readers')).complete reader.call).tell call
      (.putInMailqueue q x)) s' := (Within.of_aside aside).trans (.of_quiet cascade.quiet)
  have within : Within (some (.mailqueue q)) s s' :=
    (Within.setMailqueue _).trans (.trans .complete (.trans (.tell (by simp [Done.object]))
      later.of_none))
  refine inv.touched (o := .mailqueue q) (sound.tell tellable _)
    (within.trans (.tell (by simp [Done.object]))) ?_
  have here : s'.mailqueue q = .empty readers' := by simp [later.mailqueue q (by rintro ⟨⟩)]
  have put : QueueOk [x] s' q := (ok.put call x).within later (by rintro ⟨⟩)
  show QueueOk (s'.mailqueue q).queued (s'.tell reader.call _) q
  rw [here]
  refine put.took fun e waiting => ?_
  rw [here] at waiting
  exact ahead e (waiting_of_fewer later.fewer waiting)

theorem Inv.queueMsg (inv : Inv cells s) (tellable : Tellable s call) {x : V}
    {state : MailqueueState V} (queued : state.queued = (s.mailqueue q).queued ++ [x])
    (readers : state.readers = .empty) (idle : s.waiting (s.mailqueue q).readers = []) :
    Inv cells ((s.setMailqueue q state).tell call (.putInMailqueue q x)) := by
  have nonempty : ∀ priority messages, state = .nonempty priority messages →
      messages.contents ≠ [] := by
    rintro _ _ rfl
    rw [MailqueueState.queued] at queued
    simp [queued]
  refine inv.touched (o := .mailqueue q) ?_
    ((Within.setMailqueue state).trans (.tell (by simp [Done.object]))) ?_
  · refine (inv.toSound.setMailqueue q state ?_).tell (SameCalls.setMailqueue.tellable tellable) _
    rintro _ rfl e member
    simp only [MailqueueState.readers] at readers
    simp [readers] at member
  · have set : QueueOk (s.mailqueue q).queued (s.setMailqueue q state) q :=
      (inv.queue q).set nonempty (by rw [readers, idle, waiting_empty])
    have here : ((s.setMailqueue q state).tell call (.putInMailqueue q x)).mailqueue q = state :=
      by simp
    show QueueOk _ _ _
    rw [here, queued]
    exact set.put call x

variable (begun : Begun cells s call) (plain : s.mailops call = none)
include begun plain

theorem takeFromMailqueue_ends (q : Nat) : Ends cells (takeFromMailqueue call q) s := by
  refine .enter (.get ?_)
  have begun := begun.withMutex 1
  cases state : (s.withMutex 1).mailqueue q with
  | empty readers =>
    obtain ⟨inv, alive, last⟩ := begun.blocks
    refine .modify (.modify (.modify (.dispatch ?_ rfl)))
    exact inv.joinReaders alive last (fateOf_direct plain) state
  | nonempty priority messages =>
    exact getMsgXu_ends begun.toInv (begun.tellable plain) state

theorem nonblockingTakeFromMailqueue_ends (q : Nat) :
    Ends cells (nonblockingTakeFromMailqueue call q) s := by
  refine .enters begun plain fun s begun tellable mutex => .get ?_
  cases state : s.mailqueue q with
  | empty readers =>
    exact .leave (begun.toInv.untouched (begun.toSound.tell tellable _)
      (.tell (by simp [Done.object])))
  | nonempty priority messages => exact getMsgXu_ends begun.toInv tellable state

theorem putInMailqueue_ends (q : Nat) (x : V) : Ends cells (putInMailqueue call q x) s := by
  refine .enters begun plain fun s begun tellable mutex => .get ?_
  cases state : s.mailqueue q with
  | empty readers =>
    dsimp only
    rcases removed : cleanAndRemove (fun e => s.blocked e.call) readers with
      ⟨_ | reader, readers'⟩
    · have idle := (waiting_removed_none removed).1
      rw [removed]
      refine .modify (.leave (begun.toInv.queueMsg tellable ?_ rfl ?_))
      · simp [state, MailqueueState.queued, Queue.contents]
      · rw [state]
        exact idle
    · obtain ⟨first, subset⟩ := waiting_removed removed
      rw [removed]
      exact handToReader_ends begun.toInv tellable x state subset first
  | nonempty priority messages =>
    refine .modify (.yield (begun.toInv.queueMsg tellable ?_ rfl ?_) mutex)
    · simp [state, MailqueueState.queued]
    · rw [state]
      rfl

end Runs

/-! # Maildrops keep the invariant -/

namespace CellPlays

variable {first value value' : Option V} {late : List (Call × Done V)} {s : State V} {cell : Cell}
  {call : Call} {done : Done V}

theorem set (ok : CellPlays first late value s cell) {maildrop : Maildrop V}
    (readers : s.waiting maildrop.readQ = s.waiting (s.maildrop cell).readQ) :
    CellPlays first late value (s.setMaildrop cell maildrop) cell := by
  have here : (s.setMaildrop cell maildrop).maildrop cell = maildrop := by simp
  refine ⟨ok.plays, ?_, ?_, ok.keeps⟩
  · rw [here]
    exact readers ▸ ok.readers.same rfl (fun _ _ => .rfl) rfl
  · rw [here]
    intro oneshot same
    show ∀ e ∈ s.waiting maildrop.readQ, e.what = .peek
    rw [readers]
    exact ok.peeks oneshot same

theorem act (ok : CellPlays first [] value s cell) (call : Call) (step : Buffer value done value')
    (keeps : ∀ oneshot, cell = .oneshot oneshot → done.Keeps) :
    CellPlays first [(call, done)] value' s cell where
  plays := by
    have played := ok.plays
    rw [List.append_nil] at played
    exact played.step step
  __ := ok
  keeps := by
    intro oneshot same entry member
    rcases List.mem_append.mp member with old | new
    · exact ok.keeps oneshot same entry (List.mem_append_left _ old)
    · cases List.mem_singleton.mp new
      exact keeps oneshot same

theorem tell (ok : CellPlays first [(call, done)] value s cell)
    (here : done.object = some (.cell cell)) :
    CellPlays first [] value (s.tell call done) cell where
  plays := by
    rw [eventsOf_tell_here here, List.append_nil]
    exact ok.plays
  readers := ok.readers.tell rfl rfl (eventsOf_tell_here here) False.elim
  peeks := ok.peeks
  keeps := by
    rw [eventsOf_tell_here here, List.append_nil]
    exact ok.keeps

theorem remove (ok : CellPlays first late value s cell) {readQ : Queue (Entry (Reader V))}
    {reader : Entry (Reader V)}
    (next : s.waiting (s.maildrop cell).readQ = reader :: s.waiting readQ) :
    CellPlays first late value
        ((s.setMaildrop cell ((s.maildrop cell).withReadQ readQ)).complete reader.call) cell ∧
      ∀ oneshot, cell = .oneshot oneshot → reader.what = .peek := by
  have line := ok.readers.served (t := (s.setMaildrop cell
    ((s.maildrop cell).withReadQ readQ)).complete reader.call) next rfl (fun _ _ => .rfl) rfl
  have here : ((s.setMaildrop cell ((s.maildrop cell).withReadQ readQ)).complete
      reader.call).maildrop cell = (s.maildrop cell).withReadQ readQ := by simp
  refine ⟨⟨ok.plays, ?_, ?_, ok.keeps⟩, fun oneshot same => ok.peeks oneshot same reader ?_⟩
  · rw [here]
    exact line.1
  · rw [here]
    intro oneshot same e member
    have before : e ∈ s.waiting readQ :=
      waiting_of_fewer (fun _ alive => (blocked_of_complete alive).2) member
    exact ok.peeks oneshot same e (by simp [next, before])
  · simp [next]

theorem ok (plays : CellPlays first [] value s cell) (same : (s.maildrop cell).value = value)
    (idle : value ≠ none → s.waiting (s.maildrop cell).readQ = []) : CellOk first s cell := by
  subst same
  exact ⟨plays, idle⟩

end CellPlays

theorem Sound.setCell {s : State V} {cell : Cell} {maildrop : Maildrop V} (sound : Sound s)
    (subset : maildrop.readQ.contents ⊆ (s.maildrop cell).readQ.contents) :
    Sound (s.setMaildrop cell maildrop) :=
  sound.setMaildrop cell maildrop fun _ member => .inl (.readQ (subset member))

theorem Sound.withValue {s : State V} (sound : Sound s) (cell : Cell) (value : Option V) :
    Sound (s.setMaildrop cell ((s.maildrop cell).withValue value)) :=
  sound.setCell fun _ => id

section Relay

variable {cells : Cell → Option V} {cell : Cell} {s s' : State V} {msg : V} {call : Call}
  {done : Done V} {reader : Entry (Reader V)} {bound : Nat}

def Others (cells : Cell → Option V) (cell : Cell) (s : State V) : Prop :=
  ∀ o, o ≠ .cell cell → ObjectOk cells s o

theorem Others.within (others : Others cells cell s) (within : Within (some (.cell cell)) s s') :
    Others cells cell s' :=
  fun o different => (others o different).within within fun same =>
    different (Option.some.inj same).symm

theorem Inv.others (inv : Inv cells s) : Others cells cell s := fun o _ => inv.object o

theorem Others.inv (others : Others cells cell s) (sound : Sound s)
    (ok : CellOk (cells cell) s cell) : Inv cells s where
  toSound := sound
  object := by
    intro o
    by_cases same : o = .cell cell
    · exact same ▸ ok
    · exact others o same

structure Relaying (cells : Cell → Option V) (cell : Cell) (s : State V) (msg : V) (call : Call)
    (done : Done V) : Prop where
  sound : Sound s
  others : Others cells cell s
  tellable : Tellable s call
  plays : CellPlays (cells cell) [(call, done)] (some msg) s cell
  value : (s.maildrop cell).value = some msg
  here : done.object = some (.cell cell)

structure Resuming (cells : Cell → Option V) (cell : Cell) (s : State V) (msg : V)
    (reader : Entry (Reader V)) : Prop where
  sound : Sound s
  others : Others cells cell s
  taken : Taken s reader.call reader.fate
  plays : CellPlays (cells cell) [] (some msg) s cell
  value : (s.maildrop cell).value = some msg
  peeks : ∀ oneshot, cell = .oneshot oneshot → reader.what = .peek

def Relays (cells : Cell → Option V) (cell : Cell) (bound : Nat)
    (relay : V → Call → Done V → Kit V Unit) : Prop :=
  ∀ s msg call done, Relaying cells cell s msg call done → s.blockedCalls.card < bound →
    Ends cells (relay msg call done) s

theorem resumeReader_ends {relay : V → Call → Done V → Kit V Unit}
    (relays : Relays cells cell bound relay) (resuming : Resuming cells cell s msg reader)
    (few : s.blockedCalls.card < bound) : Ends cells (resumeReader relay cell reader msg) s := by
  refine .settle resuming.sound resuming.taken fun s' sound tellable cascade => ?_
  have later : Within none s s' := .of_quiet cascade.quiet
  have others := resuming.others.within later.of_none
  have plays := resuming.plays.within later nofun
  have value : (s'.maildrop cell).value = some msg := by
    rw [later.maildrop cell nofun]
    exact resuming.value
  have few : s'.blockedCalls.card < bound :=
    lt_of_le_of_lt (Finset.card_le_card cascade.quiet.blockedCalls_subset) few
  have steady : reader.what ≠ .peek → ∀ {done : Done V} oneshot, cell = .oneshot oneshot →
      done.Keeps := fun different _ oneshot same => absurd (resuming.peeks oneshot same) different
  cases what : reader.what with
  | take =>
    have taken : CellPlays (cells cell) [(reader.call, .tookFromCell cell msg)] none s' cell :=
      plays.act reader.call .take (steady (by simp [what]))
    have set : CellPlays (cells cell) [(reader.call, .tookFromCell cell msg)] none
        (s'.setMaildrop cell ((s'.maildrop cell).withValue none)) cell := taken.set rfl
    refine .modify (.leave (Others.inv ?_ ?_ ((set.tell rfl).ok (by simp) (by simp))))
    · exact others.within ((Within.setMaildrop _).trans (.tell (by simp [Done.object])))
    · exact (sound.withValue cell none).tell
        (SameCalls.setMaildrop.tellable tellable) _
  | peek =>
    refine relays s' msg reader.call _ ⟨sound, others, tellable, ?_, value, rfl⟩ few
    exact plays.act reader.call .peek fun _ _ => .peek
  | swap newValue =>
    have swapped : CellPlays (cells cell) [(reader.call, .swappedInCell cell msg newValue)]
        (some newValue) s' cell := plays.act reader.call .swap (steady (by simp [what]))
    refine .modify (relays _ newValue reader.call _ ⟨?_, others.within (.setMaildrop _),
      SameCalls.setMaildrop.tellable tellable, swapped.set rfl, by simp, rfl⟩ few)
    exact sound.withValue cell _

theorem Relaying.handOver (relaying : Relaying cells cell s msg call done)
    {readQ : Queue (Entry (Reader V))} {rest : Kit V Unit}
    (subset : readQ.contents ⊆ (s.maildrop cell).readQ.contents)
    (next : s.waiting (s.maildrop cell).readQ = reader :: s.waiting readQ)
    (last : ∀ t, Resuming cells cell t msg reader → t.blockedCalls.card < s.blockedCalls.card →
      Ends cells rest t) :
    Ends cells (endDo1mailoprunAndReturnThread reader.call >>= fun newThread =>
      enqueueOldThreadPlusOldFateThenInstallNewThread newThread call done >>= fun _ => rest)
      (s.setMaildrop cell ((s.maildrop cell).withReadQ readQ)) := by
  obtain ⟨member, alive⟩ := mem_waiting.mp (next ▸ List.mem_cons_self)
  obtain ⟨thread, status⟩ := blocked_iff.mp alive
  have sound : Sound (s.setMaildrop cell ((s.maildrop cell).withReadQ readQ)) :=
    relaying.sound.setCell subset
  obtain ⟨plays, peeks⟩ := relaying.plays.remove next
  refine .handOver sound (SameCalls.setMaildrop.tellable relaying.tellable) status
    (relaying.sound.waits (.readQ member)).2 fun t sound taken aside => last t ?_ ?_
  · refine ⟨sound, relaying.others.within ?_, taken,
      (plays.tell relaying.here).within (o := none) (.of_aside aside) nofun, ?_, peeks⟩
    · exact (Within.setMaildrop _).trans (.trans .complete (.trans
        (.tell (by simp [relaying.here])) (.of_aside aside)))
    · rw [aside.maildrop]
      simpa using relaying.value
  · have same : t.blockedCalls = (s.complete reader.call).blockedCalls := by
      simp only [State.blockedCalls, State.blocked, aside.status, aside.calls]
      rfl
    rw [same]
    exact blockedCalls_complete relaying.sound.toArmed alive

theorem cleanAndRemoveReadQ_outcome {removed : Option (Entry (Reader V))}
    {readQ : Queue (Entry (Reader V))}
    (result : cleanAndRemove (fun e => s.blocked e.call) (s.maildrop cell).readQ =
      (removed, readQ)) :
    outcome (cleanAndRemoveReadQ cell) s =
      (.ok removed, s.setMaildrop cell ((s.maildrop cell).withReadQ readQ)) := by
  simp only [cleanAndRemoveReadQ, outcome_bind, outcome_get, outcome_modify, outcome_pure, result]

theorem Relaying.leave (relaying : Relaying cells cell s msg call done)
    {readQ : Queue (Entry (Reader V))}
    (removed : cleanAndRemove (fun e => s.blocked e.call) (s.maildrop cell).readQ =
      (none, readQ)) :
    Inv cells ((s.setMaildrop cell ((s.maildrop cell).withReadQ readQ)).tell call done) := by
  obtain ⟨idle, idle', subset⟩ := waiting_removed_none removed
  have set : CellPlays (cells cell) [(call, done)] (some msg)
      (s.setMaildrop cell ((s.maildrop cell).withReadQ readQ)) cell :=
    relaying.plays.set (idle'.trans idle.symm)
  refine Others.inv (relaying.others.within ?_) ?_ ((set.tell relaying.here).ok ?_ ?_)
  · exact (Within.setMaildrop _).trans (.tell (by simp [relaying.here]))
  · exact (relaying.sound.setCell subset).tell
      (SameCalls.setMaildrop.tellable relaying.tellable) _
  · simpa using relaying.value
  · intro _
    rw [State.tell_maildrop, State.setMaildrop_maildrop, Function.update_self]
    exact idle'

theorem relayMsgWithin_relays (cell : Cell) (length : Nat) :
    Relays cells cell length (relayMsgWithin cell length) := by
  induction length with
  | zero => exact fun _ _ _ _ _ few => absurd few (Nat.not_lt_zero _)
  | succ length ih =>
    intro s msg call done relaying few
    rcases result : cleanAndRemove (fun e => s.blocked e.call) (s.maildrop cell).readQ with
      ⟨_ | reader, readQ⟩
    · exact .bind (cleanAndRemoveReadQ_outcome result) (.leave (relaying.leave result))
    · refine .bind (cleanAndRemoveReadQ_outcome result) ?_
      obtain ⟨next, subset⟩ := waiting_removed result
      refine relaying.handOver subset next fun t resuming fewer => ?_
      exact resumeReader_ends ih resuming (lt_of_lt_of_le fewer (Nat.le_of_lt_succ few))

theorem relayMsg_relays (cell : Cell) (bound : Nat) : Relays cells cell bound (relayMsg cell) :=
  fun s msg call done relaying _ =>
    .get (relayMsgWithin_relays cell (s.calls + 1) s msg call done relaying (blockedCalls_bound s))

end Relay

section Runs

variable {cells : Cell → Option V} {s : State V} {call : Call} {cell : Cell}

theorem Inv.setCellPriority (inv : Inv cells s) (cell : Cell) (priority : Nat) :
    Inv cells (s.setMaildrop cell ((s.maildrop cell).withPriority priority)) := by
  have ok := inv.cell cell
  have plays : CellPlays (cells cell) [] (s.maildrop cell).value
      (s.setMaildrop cell ((s.maildrop cell).withPriority priority)) cell := ok.toCellPlays.set rfl
  refine inv.touched (inv.toSound.setCell fun _ => id) (.setMaildrop _)
    (plays.ok (by simp) fun full => ?_)
  rw [State.setMaildrop_maildrop, Function.update_self]
  exact ok.idle full

theorem putInCell_ends (begun : Begun cells s call) (plain : s.mailops call = none) (value : V)
    (empty : (s.maildrop cell).value = none) : Ends cells (putInCell call cell value) s := by
  refine .enter (.get ?_)
  have begun := begun.withMutex 1
  have tellable := begun.tellable plain
  have empty : ((s.withMutex 1).maildrop cell).value = none := empty
  generalize s.withMutex 1 = s at begun tellable empty
  rw [empty]
  refine .modify ?_
  have plays := (begun.cell cell).toCellPlays
  rw [empty] at plays
  have relaying : Relaying cells cell
      (s.setMaildrop cell ((s.maildrop cell).withValue (some value))) value call
      (.putInCell cell value) := by
    refine ⟨begun.toSound.withValue cell _, begun.toInv.others.within (.setMaildrop _),
      SameCalls.setMaildrop.tellable tellable, ?_, by simp, rfl⟩
    exact (plays.act call .put fun _ _ => .put).set rfl
  generalize s.setMaildrop cell ((s.maildrop cell).withValue (some value)) = u at relaying
  rcases result : cleanAndRemove (fun e => u.blocked e.call) (u.maildrop cell).readQ with
    ⟨_ | reader, readQ⟩
  · exact .bind (cleanAndRemoveReadQ_outcome result) (.leave (relaying.leave result))
  · refine .bind (cleanAndRemoveReadQ_outcome result) ?_
    obtain ⟨next, subset⟩ := waiting_removed result
    refine relaying.handOver subset next fun t resuming fewer => .modify ?_
    refine resumeReader_ends (relayMsg_relays cell (t.blockedCalls.card + 1))
      ⟨resuming.sound.setCell fun _ => id, resuming.others.within (.setMaildrop _),
        resuming.taken.same .setMaildrop, ?_, ?_, resuming.peeks⟩ (Nat.lt_succ_self _)
    · exact resuming.plays.set rfl
    · simpa using resuming.value

theorem putInCell_full {v : V} (value : V) (full : (s.maildrop cell).value = some v) :
    outcome (putInCell call cell value) s =
      (.error (.mayNotFillAlreadyFull cell), (s.withMutex 1).withMutex 0) := by
  simp [putInCell, enterScope, exitScope, outcome_bind, full]

theorem readNow_ends (inv : Inv cells s) (tellable : Tellable s call) {v : V}
    (full : (s.maildrop cell).value = some v) {reader : Reader V}
    (peeks : ∀ oneshot, cell = .oneshot oneshot → reader = .peek) :
    Ends cells (readNow cell reader >>= fun _ =>
      exitScope >>= fun _ => returnTo call (reader.done cell v)) s := by
  have ok := inv.cell cell
  have idle := ok.idle (by simp [full])
  have plays := ok.toCellPlays
  rw [full] at plays
  have steady : reader ≠ .peek → ∀ {done : Done V} oneshot, cell = .oneshot oneshot →
      done.Keeps := fun different _ oneshot same => absurd (peeks oneshot same) different
  have left : ∀ {value : Option V} {done : Done V}, done.object = some (.cell cell) →
      CellPlays (cells cell) [(call, done)] value s cell →
      Inv cells ((s.setMaildrop cell ((s.maildrop cell).withValue value)).tell call done) := by
    intro value done here plays
    have set : CellPlays (cells cell) [(call, done)] value
        (s.setMaildrop cell ((s.maildrop cell).withValue value)) cell := plays.set rfl
    refine inv.touched ((inv.toSound.withValue cell value).tell
      (SameCalls.setMaildrop.tellable tellable) done)
      ((Within.setMaildrop _).trans (.tell (by simp [here])))
      ((set.tell here).ok (by simp) fun _ => ?_)
    rw [State.tell_maildrop, State.setMaildrop_maildrop, Function.update_self]
    exact idle
  cases reader with
  | take => exact .modify (.leave (left rfl (plays.act call .take (steady nofun))))
  | peek =>
    have same : s.setMaildrop cell ((s.maildrop cell).withValue (some v)) = s := by
      have kept : (s.maildrop cell).withValue (some v) = s.maildrop cell := by
        rw [← full]
        rfl
      rw [kept, State.setMaildrop, Function.update_eq_self]
    refine .bind (outcome_pure () s) (.leave ?_)
    have peeked := left rfl (plays.act call .peek fun _ _ => .peek)
    rwa [same] at peeked
  | swap newValue => exact .modify (.leave (left rfl (plays.act call .swap (steady nofun))))

theorem Inv.joinReadQ (inv : Inv cells s) (alive : s.blocked call = true)
    (last : s.calls = call + 1) {fate : Fate} (ok : s.FateOf call fate) {reader : Reader V}
    (empty : (s.maildrop cell).value = none)
    (peeks : ∀ oneshot, cell = .oneshot oneshot → reader = .peek) :
    Inv cells ((s.setMaildrop cell ((s.maildrop cell).withReadQ
      ((s.maildrop cell).readQ.putOnBack ⟨call, fate, reader⟩))).await call
        (readMailop reader cell)) := by
  have made : call < s.calls := last ▸ Nat.lt_succ_self call
  have before := (inv.cell cell).toCellPlays
  generalize grown : (s.maildrop cell).readQ.putOnBack ⟨call, fate, reader⟩ = readQ
  have waiting : s.waiting readQ = s.waiting (s.maildrop cell).readQ ++ [⟨call, fate, reader⟩] := by
    rw [← grown]
    exact waiting_putOnBack alive
  have here : ((s.setMaildrop cell ((s.maildrop cell).withReadQ readQ)).await call
      (readMailop reader cell)).maildrop cell = (s.maildrop cell).withReadQ readQ := by simp
  refine inv.touched (o := .cell cell) ?_
    ((Within.setMaildrop _).trans (.await (by simp [readMailop_object]))) ?_
  · refine Sound.await (inv.toSound.setMaildrop cell ((s.maildrop cell).withReadQ readQ)
      fun e member => ?_) made _
    rw [Maildrop.withReadQ_readQ, ← grown, contents_putOnBack, List.mem_append] at member
    rcases member with old | new
    · exact .inl (.readQ old)
    · cases List.mem_singleton.mp new
      exact .inr ⟨made, ok⟩
  · refine CellPlays.ok (?_ : CellPlays _ _ (s.maildrop cell).value _ _) (by simp) (by simp [empty])
    refine ⟨before.plays, ?_, ?_, before.keeps⟩
    · rw [here]
      have joined := before.readers.join (t := (s.setMaildrop cell
        ((s.maildrop cell).withReadQ readQ)).await call (readMailop reader cell))
        inv.toSound alive last fate reader rfl rfl rfl
      rw [← waiting] at joined
      exact joined
    · rw [here]
      intro oneshot same e member
      have member : e ∈ s.waiting readQ := member
      rw [waiting] at member
      rcases List.mem_append.mp member with old | new
      · exact before.peeks oneshot same e old
      · cases List.mem_singleton.mp new
        exact peeks oneshot same

theorem Inv.foundNothing (inv : Inv cells s) (tellable : Tellable s call) :
    Inv cells (s.tell call .foundNothing) :=
  inv.untouched (inv.toSound.tell tellable _) (.tell (by simp [Done.object]))

variable (begun : Begun cells s call) (plain : s.mailops call = none)
include begun plain

theorem readCell_ends {reader : Reader V}
    (peeks : ∀ oneshot, cell = .oneshot oneshot → reader = .peek) :
    Ends cells (readCell call cell reader) s := by
  refine .enter (.get ?_)
  have begun := begun.withMutex 1
  cases value : ((s.withMutex 1).maildrop cell).value with
  | none =>
    obtain ⟨inv, alive, last⟩ := begun.blocks
    refine .modify (.modify (.modify (.dispatch ?_ rfl)))
    exact inv.joinReadQ alive last (fateOf_direct plain) value peeks
  | some v => exact readNow_ends begun.toInv (begun.tellable plain) value peeks

theorem takeFromMaildrop_ends (drop : Nat) : Ends cells (takeFromMaildrop call drop) s :=
  readCell_ends begun plain nofun

theorem peekInMaildrop_ends (drop : Nat) : Ends cells (peekInMaildrop call drop) s :=
  readCell_ends begun plain nofun

theorem maildropSwap_ends (drop : Nat) (newValue : V) :
    Ends cells (maildropSwap call drop newValue) s := readCell_ends begun plain nofun

theorem takeFromOneshot_ends (oneshot : Nat) : Ends cells (takeFromOneshot call oneshot) s :=
  readCell_ends begun plain fun _ _ => rfl

theorem nonblockingPeekInMaildrop_ends (drop : Nat) :
    Ends cells (nonblockingPeekInMaildrop call drop) s := by
  refine .enters begun plain fun s begun tellable mutex => .get ?_
  cases value : (s.maildrop (.maildrop drop)).value with
  | none => exact .leave (begun.toInv.foundNothing tellable)
  | some v => exact @readNow_ends V cells s call _ begun.toInv tellable v value .peek nofun

theorem nonblockingTakeFromMaildrop_ends {drop : Nat} {v : V}
    (full : (s.maildrop (.maildrop drop)).value = some v) :
    Ends cells (nonblockingTakeFromMaildrop call drop) s := by
  refine .enter (.get ?_)
  have full : ((s.withMutex 1).maildrop (.maildrop drop)).value = some v := full
  rw [full]
  exact @readNow_ends V cells _ call _ begun.toInv (begun.tellable plain) v full .take nofun

theorem nonblockingTakeFromOneshot_ends {oneshot : Nat} {v : V}
    (full : (s.maildrop (.oneshot oneshot)).value = some v) :
    Ends cells (nonblockingTakeFromOneshot call oneshot) s := by
  refine .enter (.get ?_)
  have full : ((s.withMutex 1).maildrop (.oneshot oneshot)).value = some v := full
  rw [full]
  exact @readNow_ends V cells _ call _ begun.toInv (begun.tellable plain) v full .peek
    fun _ _ => rfl

end Runs

end Threadkit
