import Mythryl.Threadkit.Invariant

/-! # What holds of the objects in every state -/

namespace Threadkit

open RaisingState LazyQueue

variable {V : Type}

inductive Object
  | mailqueue (q : Nat)
  | mailslot (slot : Nat)
  | cell (cell : Cell)
  deriving DecidableEq

def Done.object : Done V → Option Object
  | putInMailqueue q _ => some (.mailqueue q)
  | tookFromMailqueue q _ => some (.mailqueue q)
  | putInMailslot slot _ => some (.mailslot slot)
  | tookFromMailslot slot _ => some (.mailslot slot)
  | putInCell cell _ => some (.cell cell)
  | tookFromCell cell _ => some (.cell cell)
  | peekedInCell cell _ => some (.cell cell)
  | swappedInCell cell _ _ => some (.cell cell)
  | foundNothing => none
  | event _ => none

def BaseMailop.object : BaseMailop V → Option Object
  | takeFromMailqueue q => some (.mailqueue q)
  | putInMailslot slot _ => some (.mailslot slot)
  | takeFromMailslot slot => some (.mailslot slot)
  | readMaildrop drop _ => some (.cell (.maildrop drop))
  | takeFromOneshot oneshot => some (.cell (.oneshot oneshot))
  | waitOnCondvar _ => none
  | timeoutIn _ => none
  | timeoutAt _ => none
  | always _ => none

namespace State

def eventsOf (s : State V) (o : Object) : List (Call × Done V) :=
  s.trace.filter fun entry => entry.2.object = some o

def waiting {α : Type} (s : State V) (queue : Queue (Entry α)) : List (Entry α) :=
  queue.pending fun e => s.blocked e.call

end State

section Events

variable {s s' : State V} {o : Object}

theorem eventsOf_tell (call : Call) (done : Done V) : (s.tell call done).eventsOf o =
      if done.object = some o then s.eventsOf o ++ [(call, done)] else s.eventsOf o := by
  by_cases here : done.object = some o <;> simp [State.eventsOf, List.filter_append, here]

theorem eventsOf_tell_here {call : Call} {done : Done V} (here : done.object = some o) :
    (s.tell call done).eventsOf o = s.eventsOf o ++ [(call, done)] := by
  rw [eventsOf_tell, if_pos here]

theorem eventsOf_eq (trace : s'.trace = s.trace) : s'.eventsOf o = s.eventsOf o := by
  simp only [State.eventsOf, trace]

theorem mem_eventsOf {entry : Call × Done V} :
    entry ∈ s.eventsOf o ↔ entry ∈ s.trace ∧ entry.2.object = some o := by
  simp [State.eventsOf]

end Events

structure Within (o : Option Object) (s s' : State V) : Prop where
  mailqueue : ∀ q, o ≠ some (.mailqueue q) → s'.mailqueue q = s.mailqueue q
  mailslot : ∀ slot, o ≠ some (.mailslot slot) → s'.mailslot slot = s.mailslot slot
  maildrop : ∀ cell, o ≠ some (.cell cell) → s'.maildrop cell = s.maildrop cell
  events : ∀ o', o ≠ some o' → s'.eventsOf o' = s.eventsOf o'
  fewer : ∀ call, s'.blocked call = true → s.blocked call = true
  awaits : ∀ call mailop o', mailop.object = some o' → o ≠ some o' →
    (mailop ∈ s'.awaits call ↔ mailop ∈ s.awaits call)

namespace Within

variable {s s' s'' : State V} {o : Option Object} {call : Call}

theorem trans (first : Within o s s') (second : Within o s' s'') : Within o s s'' where
  mailqueue := fun q other => (second.mailqueue q other).trans (first.mailqueue q other)
  mailslot := fun slot other => (second.mailslot slot other).trans (first.mailslot slot other)
  maildrop := fun cell other => (second.maildrop cell other).trans (first.maildrop cell other)
  events := fun o' other => (second.events o' other).trans (first.events o' other)
  fewer := fun call alive => first.fewer call (second.fewer call alive)
  awaits := fun call mailop o' here other =>
    (second.awaits call mailop o' here other).trans (first.awaits call mailop o' here other)

theorem of_eq (mailqueue : s'.mailqueue = s.mailqueue) (mailslot : s'.mailslot = s.mailslot)
    (maildrop : s'.maildrop = s.maildrop) (trace : s'.trace = s.trace)
    (status : s'.status = s.status) (awaits : s'.awaits = s.awaits) : Within o s s' where
  mailqueue := fun _ _ => by rw [mailqueue]
  mailslot := fun _ _ => by rw [mailslot]
  maildrop := fun _ _ => by rw [maildrop]
  events := fun _ _ => eventsOf_eq trace
  fewer := fun call alive => by simpa only [State.blocked, status] using alive
  awaits := fun _ _ _ _ _ => by rw [awaits]

theorem of_aside (aside : Aside s s') : Within o s s' :=
  .of_eq aside.mailqueue aside.mailslot aside.maildrop aside.trace aside.status aside.awaits

theorem of_none (within : Within none s s') : Within o s s' where
  mailqueue := fun q _ => within.mailqueue q nofun
  mailslot := fun slot _ => within.mailslot slot nofun
  maildrop := fun cell _ => within.maildrop cell nofun
  events := fun o' _ => within.events o' nofun
  fewer := within.fewer
  awaits := fun call mailop o' here _ => within.awaits call mailop o' here nofun

theorem of_quiet (quiet : Quiet s s') : Within o s s' where
  mailqueue := fun _ _ => by rw [quiet.mailqueue]
  mailslot := fun _ _ => by rw [quiet.mailslot]
  maildrop := fun _ _ => by rw [quiet.maildrop]
  events := by
    obtain ⟨events, trace, told⟩ := quiet.told
    intro o' _
    have none : events.filter (fun entry => entry.2.object = some o') = [] := by
      rw [List.filter_eq_nil_iff]
      intro entry member
      obtain ⟨_, event, done⟩ := told entry member
      simp [done, Done.object]
    simp [State.eventsOf, trace, List.filter_append, none]
  fewer := quiet.fewer
  awaits := fun _ _ _ _ _ => by rw [quiet.awaits]

theorem refl (o : Option Object) (s : State V) : Within o s s := .of_quiet (.refl s)

theorem complete : Within o s (s.complete call) := .of_quiet (.complete s call)

theorem tell {done : Done V} (here : ∀ o', done.object = some o' → o = some o') :
    Within o s (s.tell call done) where
  __ := refl o s
  events := by
    intro o' other
    rw [eventsOf_tell, if_neg fun same => other (here o' same)]

theorem await {mailop : BaseMailop V} (here : ∀ o', mailop.object = some o' → o = some o') :
    Within o s (s.await call mailop) where
  __ := refl o s
  awaits := by
    intro other mailop' o' object elsewhere
    have different : mailop' ≠ mailop := by
      rintro rfl
      exact elsewhere (here o' object)
    by_cases same : other = call
    · subst same
      simp [different]
    · simp [same]

theorem setMailqueue {q : Nat} (state : MailqueueState V) :
    Within (some (.mailqueue q)) s (s.setMailqueue q state) where
  mailqueue := fun q' other => by
    have different : q' ≠ q := fun same => other (by rw [same])
    simp [different]
  __ := refl (some (.mailqueue q)) s

theorem setMailslot {slot : Nat} (mailslot : Mailslot V) :
    Within (some (.mailslot slot)) s (s.setMailslot slot mailslot) where
  __ := refl (some (.mailslot slot)) s
  mailslot := fun slot' other => by
    have different : slot' ≠ slot := fun same => other (by rw [same])
    simp [different]

theorem setMaildrop {cell : Cell} (maildrop : Maildrop V) :
    Within (some (.cell cell)) s (s.setMaildrop cell maildrop) where
  __ := refl (some (.cell cell)) s
  maildrop := fun cell' other => by
    have different : cell' ≠ cell := fun same => other (by rw [same])
    simp [different]

end Within

/-! Calls that wait at an object. -/

section Waiting

variable {α : Type} {s t : State V} {e : Entry α} {queue queue' : Queue (Entry α)}

theorem mem_waiting :
    e ∈ s.waiting queue ↔ e ∈ queue.contents ∧ s.blocked e.call = true := mem_pending

theorem waiting_frame
    (fewer : ∀ e ∈ queue.contents, t.blocked e.call = true → s.blocked e.call = true) :
    t.waiting queue = (s.waiting queue).filter fun e => t.blocked e.call :=
  pending_of_fewer fewer

theorem waiting_of_fewer (fewer : ∀ call, t.blocked call = true → s.blocked call = true)
    (member : e ∈ t.waiting queue) : e ∈ s.waiting queue := by
  rw [mem_waiting] at member ⊢
  exact ⟨member.1, fewer e.call member.2⟩

theorem waiting_block {call : Call} (idle : s.waiting queue = []) :
    ∀ e ∈ (s.block call).waiting queue, e.call = call := by
  intro e member
  rw [mem_waiting, blocked_block] at member
  by_cases same : e.call = call
  · exact same
  · rw [if_neg same, ← mem_waiting, idle] at member
    cases member

theorem waiting_putOnBack (alive : s.blocked e.call = true) :
    s.waiting (queue.putOnBack e) = s.waiting queue ++ [e] := pending_putOnBack alive

theorem waiting_cleanAndEnqueue
    (alive : s.blocked e.call = true) :
    s.waiting (cleanAndEnqueue (fun e => s.blocked e.call) queue e) = s.waiting queue ++ [e] ∧
      ∀ e' ∈ (cleanAndEnqueue (fun e => s.blocked e.call) queue e).contents,
        e' ∈ queue.contents ∨ e' = e := by
  refine ⟨pending_cleanAndEnqueue alive, fun e' member => ?_⟩
  rw [contents_cleanAndEnqueue, List.mem_append] at member
  exact member.imp (fun old => (mem_pending.mp old).1) List.mem_singleton.mp

theorem waiting_of_status (status : t.status = s.status) (queue : Queue (Entry α)) :
    t.waiting queue = s.waiting queue := by
  simp only [State.waiting, State.blocked, status]

theorem waiting_removed
    (removed : cleanAndRemove (fun e => s.blocked e.call) queue = (some e, queue')) :
    s.waiting queue = e :: s.waiting queue' ∧ queue'.contents ⊆ queue.contents := by
  have first := cleanAndRemove_some (congrArg Prod.fst removed)
  have subset := @cleanAndRemove_subset _ (fun e => s.blocked e.call) queue
  rw [removed] at first subset
  exact ⟨first, subset⟩

theorem waiting_removed_none
    (removed : cleanAndRemove (fun e => s.blocked e.call) queue = (none, queue')) :
    s.waiting queue = [] ∧ s.waiting queue' = [] ∧ queue'.contents ⊆ queue.contents := by
  have idle := pending_cleanAndRemove_none (congrArg Prod.fst removed)
  have subset := @cleanAndRemove_subset _ (fun e => s.blocked e.call) queue
  rw [removed] at idle subset
  exact ⟨cleanAndRemove_none (congrArg Prod.fst removed), idle, subset⟩

theorem waiting_checked {ready : Bool}
    (checked : cleanAndCheck (fun e => s.blocked e.call) queue = (ready, queue')) :
    s.waiting queue' = s.waiting queue ∧ queue'.contents ⊆ queue.contents ∧
      ∀ first rest, queue.front = first :: rest → s.blocked first.call = true →
        queue' = queue := by
  have same := @pending_cleanAndCheck _ (fun e => s.blocked e.call) queue
  have subset := @cleanAndCheck_subset _ (fun e => s.blocked e.call) queue
  rw [checked] at same subset
  refine ⟨same, subset, fun first rest front alive => ?_⟩
  have kept := @cleanAndCheck_keeps_front _ (fun e => s.blocked e.call) queue rest first front alive
  rwa [checked] at kept

theorem waiting_ready
    (checked : cleanAndCheck (fun e => s.blocked e.call) queue = (true, queue')) :
    ∃ first rest, queue'.front = first :: rest ∧ s.blocked first.call = true := by
  have front := cleanAndCheck_front (congrArg Prod.fst checked)
  rwa [checked] at front

theorem waiting_not_ready
    (checked : cleanAndCheck (fun e => s.blocked e.call) queue = (false, queue')) :
    s.waiting queue = [] := by
  have idle := @cleanAndCheck_eq _ (fun e => s.blocked e.call) queue
  rw [checked] at idle
  simpa [State.waiting] using idle

@[simp] theorem waiting_empty : s.waiting (Queue.empty : Queue (Entry α)) = [] := rfl

structure Line (s : State V) (o : Object) (mailop : α → BaseMailop V) (ends : Done V → Prop)
    (entries : List (Entry α)) : Prop where
  alive : ∀ e ∈ entries, s.blocked e.call = true
  sorted : entries.Pairwise fun e e' => e.call ≤ e'.call
  awaited : ∀ e ∈ entries, mailop e.what ∈ s.awaits e.call
  registered : ∀ call what, s.blocked call = true → mailop what ∈ s.awaits call →
    ∃ e ∈ entries, e.call = call ∧ mailop e.what = mailop what
  fifo : ∀ entry ∈ s.eventsOf o, ends entry.2 → ∀ e ∈ entries, entry.1 < e.call

namespace Line

variable {o : Object} {mailop : α → BaseMailop V} {ends : Done V → Prop}
  {entries : List (Entry α)} {first : Entry α} {call : Call}

theorem frame (line : Line s o mailop ends entries)
    (fewer : ∀ call, t.blocked call = true → s.blocked call = true ∨
      ∀ what, mailop what ∉ t.awaits call)
    (awaits : ∀ call what, mailop what ∈ t.awaits call ↔ mailop what ∈ s.awaits call)
    (events : t.eventsOf o = s.eventsOf o) :
    Line t o mailop ends (entries.filter fun e => t.blocked e.call) where
  alive := fun e member => (List.mem_filter.mp member).2
  sorted := line.sorted.filter _
  awaited := fun e member => (awaits _ _).mpr (line.awaited e (List.mem_filter.mp member).1)
  registered := by
    intro call what alive waits
    rcases fewer call alive with before | idle
    · obtain ⟨e, member, rfl, same⟩ := line.registered call what before ((awaits _ _).mp waits)
      exact ⟨e, List.mem_filter.mpr ⟨member, alive⟩, rfl, same⟩
    · exact absurd waits (idle what)
  fifo := by
    rw [events]
    exact fun entry told ended e member =>
      line.fifo entry told ended e (List.mem_filter.mp member).1

theorem filter_alive (line : Line s o mailop ends entries) :
    (entries.filter fun e => s.blocked e.call) = entries :=
  List.filter_eq_self.mpr line.alive

theorem same (line : Line s o mailop ends entries) (status : t.status = s.status)
    (awaits : ∀ call what, mailop what ∈ t.awaits call ↔ mailop what ∈ s.awaits call)
    (events : t.eventsOf o = s.eventsOf o) : Line t o mailop ends entries := by
  have blocked : ∀ call, t.blocked call = s.blocked call := by simp [State.blocked, status]
  have framed := line.frame (t := t) (fun call alive => .inl (blocked call ▸ alive)) awaits events
  simpa only [blocked, line.filter_alive] using framed

theorem nil (idle : ∀ call what, s.blocked call = true → mailop what ∉ s.awaits call) :
    Line s o mailop ends ([] : List (Entry α)) where
  alive := by simp
  sorted := .nil
  awaited := by simp
  registered := fun call what alive waits => absurd waits (idle call what alive)
  fifo := by simp

theorem idle (line : Line s o mailop ends ([] : List (Entry α))) (alive : s.blocked call = true)
    (what : α) : mailop what ∉ s.awaits call := by
  intro waits
  obtain ⟨e, member, _⟩ := line.registered call what alive waits
  cases member

theorem ended (line : Line s o mailop ends (first :: entries)) :
    Line (s.complete first.call) o mailop ends
        (entries.filter fun e => (s.complete first.call).blocked e.call) ∧
      ∀ e ∈ entries.filter (fun e => (s.complete first.call).blocked e.call),
        first.call < e.call := by
  have framed := line.frame (t := s.complete first.call)
    (fun call alive => .inl (blocked_of_complete alive).2) (fun _ _ => .rfl) rfl
  rw [List.filter_cons_of_neg (by simp)] at framed
  refine ⟨framed, fun e member => ?_⟩
  have before := List.rel_of_pairwise_cons line.sorted (List.mem_filter.mp member).1
  have different := (blocked_of_complete (List.mem_filter.mp member).2).1
  exact Nat.lt_of_le_of_ne before (Ne.symm different)

theorem fewer (line : Line s o mailop ends (s.waiting queue))
    (fewer : ∀ call, t.blocked call = true → s.blocked call = true)
    (awaits : ∀ call what, mailop what ∈ t.awaits call ↔ mailop what ∈ s.awaits call)
    (events : t.eventsOf o = s.eventsOf o) : Line t o mailop ends (t.waiting queue) := by
  rw [waiting_frame fun e _ => fewer e.call]
  exact line.frame (fun call alive => .inl (fewer call alive)) awaits events

theorem within {o' : Option Object} (line : Line s o mailop ends (s.waiting queue))
    (within : Within o' s t) (object : ∀ what, (mailop what).object = some o)
    (other : o' ≠ some o) : Line t o mailop ends (t.waiting queue) :=
  line.fewer within.fewer (fun call what => within.awaits call _ _ (object what) other)
    (within.events _ other)

theorem served (line : Line s o mailop ends (s.waiting queue))
    (next : s.waiting queue = first :: s.waiting queue')
    (status : t.status = (s.complete first.call).status)
    (awaits : ∀ call what, mailop what ∈ t.awaits call ↔ mailop what ∈ s.awaits call)
    (events : t.eventsOf o = s.eventsOf o) :
    Line t o mailop ends (t.waiting queue') ∧ ∀ e ∈ t.waiting queue', first.call < e.call := by
  rw [next] at line
  obtain ⟨line, ahead⟩ := line.ended
  rw [← waiting_frame fun e _ => (Within.complete (o := none)).fewer e.call,
    ← waiting_of_status status] at line ahead
  exact ⟨line.same status awaits events, ahead⟩

theorem tell (line : Line s o mailop ends entries) {done : Done V}
    (status : t.status = s.status) (awaits : t.awaits = s.awaits)
    (events : t.eventsOf o = s.eventsOf o ++ [(call, done)])
    (ahead : ends done → ∀ e ∈ entries, call < e.call) : Line t o mailop ends entries where
  alive := fun e member => by simpa [State.blocked, status] using line.alive e member
  sorted := line.sorted
  awaited := fun e member => awaits ▸ line.awaited e member
  registered := by
    intro call what alive waits
    rw [awaits] at waits
    exact line.registered call what (by simpa [State.blocked, status] using alive) waits
  fifo := by
    rw [events]
    intro entry member ended e waiting
    rcases List.mem_append.mp member with old | new
    · exact line.fifo entry old ended e waiting
    · cases List.mem_singleton.mp new
      exact ahead ended e waiting

theorem join (line : Line s o mailop ends entries) (sound : Sound s)
    (alive : s.blocked call = true) (last : s.calls = call + 1) (fate : Fate) (what : α)
    (status : t.status = s.status) (awaits : t.awaits = (s.await call (mailop what)).awaits)
    (events : t.eventsOf o = s.eventsOf o) :
    Line t o mailop ends (entries ++ [⟨call, fate, what⟩]) where
  alive := by
    simp only [State.blocked, status]
    intro e member
    rcases List.mem_append.mp member with old | new
    · exact line.alive e old
    · cases List.mem_singleton.mp new
      exact alive
  sorted := by
    rw [List.pairwise_append]
    refine ⟨line.sorted, by simp, fun e member e' new => ?_⟩
    cases List.mem_singleton.mp new
    have made := (sound.blocked (line.alive e member)).1
    rw [last] at made
    exact Nat.le_of_lt_succ made
  awaited := by
    rw [awaits]
    intro e member
    rcases List.mem_append.mp member with old | new
    · by_cases same : e.call = call
      · simp [← same, line.awaited e old]
      · simpa [same] using line.awaited e old
    · cases List.mem_singleton.mp new
      simp
  registered := by
    rw [awaits]
    intro other what' alive' waits
    simp only [State.blocked, status] at alive'
    by_cases same : other = call
    · subst same
      simp only [State.await_awaits, Function.update_self, List.mem_append,
        List.mem_singleton] at waits
      rcases waits with old | new
      · obtain ⟨e, member, found⟩ := line.registered other what' alive' old
        exact ⟨e, List.mem_append_left _ member, found⟩
      · exact ⟨⟨other, fate, what⟩, by simp, rfl, new.symm⟩
    · obtain ⟨e, member, found⟩ :=
        line.registered other what' alive' (by simpa [same] using waits)
      exact ⟨e, List.mem_append_left _ member, found⟩
  fifo := by
    rw [events]
    intro entry member ended e waiting
    rcases List.mem_append.mp waiting with old | new
    · exact line.fifo entry member ended e old
    · cases List.mem_singleton.mp new
      obtain ⟨made, running⟩ := sound.traced (mem_eventsOf.mp member).1
      rw [last] at made
      refine Nat.lt_of_le_of_ne (Nat.le_of_lt_succ made) fun same => ?_
      rw [same, alive] at running
      cases running

end Line

end Waiting

/-! Mailqueues. -/

def Done.msgPut : Done V → Option V
  | putInMailqueue _ msg => some msg
  | _ => none

def Done.msgTaken : Done V → Option V
  | tookFromMailqueue _ msg => some msg
  | _ => none

namespace MailqueueState

def readers : MailqueueState V → Queue (Entry Unit)
  | empty readers => readers
  | nonempty _ _ => .empty

def queued : MailqueueState V → List V
  | empty _ => []
  | nonempty _ messages => messages.contents

end MailqueueState

namespace State

def msgsPut (s : State V) (q : Nat) : List V :=
  (s.eventsOf (.mailqueue q)).filterMap fun entry => entry.2.msgPut

def msgsTaken (s : State V) (q : Nat) : List V :=
  (s.eventsOf (.mailqueue q)).filterMap fun entry => entry.2.msgTaken

end State

variable {q : Nat} {o : Option Object} {s s' : State V}

theorem msgsPut_tell (s : State V) (call : Call) {done : Done V}
    (here : done.object = some (.mailqueue q)) :
    (s.tell call done).msgsPut q = s.msgsPut q ++ done.msgPut.toList := by
  rw [State.msgsPut, eventsOf_tell_here here, List.filterMap_append]
  cases put : done.msgPut <;> simp [State.msgsPut, put]

theorem msgsTaken_tell (s : State V) (call : Call) {done : Done V}
    (here : done.object = some (.mailqueue q)) :
    (s.tell call done).msgsTaken q = s.msgsTaken q ++ done.msgTaken.toList := by
  rw [State.msgsTaken, eventsOf_tell_here here, List.filterMap_append]
  cases taken : done.msgTaken <;> simp [State.msgsTaken, taken]

structure QueueOk (held : List V) (s : State V) (q : Nat) : Prop where
  lossless : s.msgsPut q = s.msgsTaken q ++ held
  nonempty : ∀ priority messages, s.mailqueue q = .nonempty priority messages →
    messages.contents ≠ []
  readers : Line s (.mailqueue q) (fun _ : Unit => .takeFromMailqueue q)
    (fun done => ∃ msg, done = .tookFromMailqueue q msg) (s.waiting (s.mailqueue q).readers)

theorem QueueOk.within {held : List V}
    (ok : QueueOk held s q) (within : Within o s s') (other : o ≠ some (.mailqueue q)) :
    QueueOk held s' q where
  lossless := by
    simpa only [State.msgsPut, State.msgsTaken, within.events _ other] using ok.lossless
  nonempty := by
    rw [within.mailqueue q other]
    exact ok.nonempty
  readers := by
    rw [within.mailqueue q other]
    exact ok.readers.within within (fun _ => rfl) other

/-! Mailslots. -/

inductive Meetings (slot : Nat) : List (Call × Done V) → Prop
  | none : Meetings slot []
  | give {l : List (Call × Done V)} {giver taker : Call} {msg : V} :
      Meetings slot l → giver ≠ taker →
      Meetings slot (l ++ [(giver, .putInMailslot slot msg), (taker, .tookFromMailslot slot msg)])
  | take {l : List (Call × Done V)} {giver taker : Call} {msg : V} :
      Meetings slot l → giver ≠ taker →
      Meetings slot (l ++ [(taker, .tookFromMailslot slot msg), (giver, .putInMailslot slot msg)])

structure SlotOk (half : List (Call × Done V)) (s : State V) (slot : Nat) : Prop where
  priority : 1 ≤ (s.mailslot slot).priority
  meetings : ∃ l, Meetings slot l ∧ s.eventsOf (.mailslot slot) = l ++ half
  takers : Line s (.mailslot slot) (fun _ : Unit => .takeFromMailslot slot)
    (fun done => ∃ msg, done = .tookFromMailslot slot msg) (s.waiting (s.mailslot slot).inQ)
  givers : Line s (.mailslot slot) (fun msg => .putInMailslot slot msg)
    (fun done => ∃ msg, done = .putInMailslot slot msg) (s.waiting (s.mailslot slot).outQ)
  apart : ∀ e ∈ s.waiting (s.mailslot slot).inQ, ∀ e' ∈ s.waiting (s.mailslot slot).outQ,
    e.call = e'.call

theorem SlotOk.within {half : List (Call × Done V)} {slot : Nat}
    (ok : SlotOk half s slot) (within : Within o s s')
    (other : o ≠ some (.mailslot slot)) : SlotOk half s' slot where
  priority := by
    rw [within.mailslot slot other]
    exact ok.priority
  meetings := by
    rw [within.events _ other]
    exact ok.meetings
  takers := by
    rw [within.mailslot slot other]
    exact ok.takers.within within (fun _ => rfl) other
  givers := by
    rw [within.mailslot slot other]
    exact ok.givers.within within (fun _ => rfl) other
  apart := by
    rw [within.mailslot slot other]
    exact fun e member e' member' => ok.apart e (waiting_of_fewer within.fewer member) e'
      (waiting_of_fewer within.fewer member')

/-! Maildrops and oneshot maildrops. -/

inductive Buffer : Option V → Done V → Option V → Prop
  | put {cell : Cell} {v : V} : Buffer none (.putInCell cell v) (some v)
  | take {cell : Cell} {v : V} : Buffer (some v) (.tookFromCell cell v) none
  | peek {cell : Cell} {v : V} : Buffer (some v) (.peekedInCell cell v) (some v)
  | swap {cell : Cell} {v w : V} : Buffer (some v) (.swappedInCell cell v w) (some w)

inductive Plays (first : Option V) : List (Call × Done V) → Option V → Prop
  | made : Plays first [] first
  | step {l : List (Call × Done V)} {value value' : Option V} {call : Call} {done : Done V} :
      Plays first l value → Buffer value done value' → Plays first (l ++ [(call, done)]) value'

inductive Done.Keeps : Done V → Prop
  | put {cell : Cell} {v : V} : Keeps (.putInCell cell v)
  | peek {cell : Cell} {v : V} : Keeps (.peekedInCell cell v)

structure CellPlays (first : Option V) (late : List (Call × Done V)) (value : Option V)
    (s : State V) (cell : Cell) : Prop where
  plays : Plays first (s.eventsOf (.cell cell) ++ late) value
  readers : Line s (.cell cell) (fun reader => readMailop reader cell) (fun _ => False)
    (s.waiting (s.maildrop cell).readQ)
  peeks : ∀ oneshot, cell = .oneshot oneshot →
    ∀ e ∈ s.waiting (s.maildrop cell).readQ, e.what = .peek
  keeps : ∀ oneshot, cell = .oneshot oneshot →
    ∀ entry ∈ s.eventsOf (.cell cell) ++ late, entry.2.Keeps

structure CellOk (first : Option V) (s : State V) (cell : Cell) : Prop
    extends CellPlays first [] (s.maildrop cell).value s cell where
  idle : (s.maildrop cell).value ≠ none → s.waiting (s.maildrop cell).readQ = []

theorem readMailop_object (reader : Reader V) (cell : Cell) :
    (readMailop reader cell).object = some (.cell cell) := by
  cases cell <;> rfl

theorem CellPlays.within {first value : Option V} {late : List (Call × Done V)}
    {cell : Cell} (ok : CellPlays first late value s cell)
    (within : Within o s s') (other : o ≠ some (.cell cell)) :
    CellPlays first late value s' cell where
  plays := by
    rw [within.events _ other]
    exact ok.plays
  readers := by
    rw [within.maildrop cell other]
    exact ok.readers.within within (fun reader => readMailop_object reader cell) other
  peeks := by
    rw [within.maildrop cell other, waiting_frame fun e _ => within.fewer e.call]
    exact fun oneshot same e member => ok.peeks oneshot same e (List.mem_filter.mp member).1
  keeps := by
    rw [within.events _ other]
    exact ok.keeps

theorem CellOk.within {first : Option V} {cell : Cell}
    (ok : CellOk first s cell) (within : Within o s s') (other : o ≠ some (.cell cell)) :
    CellOk first s' cell where
  toCellPlays := by
    rw [within.maildrop cell other]
    exact ok.toCellPlays.within within other
  idle := by
    rw [within.maildrop cell other, waiting_frame fun e _ => within.fewer e.call]
    intro full
    rw [ok.idle full]
    rfl

/-! All objects. -/

def ObjectOk (cells : Cell → Option V) (s : State V) : Object → Prop
  | .mailqueue q => QueueOk (s.mailqueue q).queued s q
  | .mailslot slot => SlotOk [] s slot
  | .cell cell => CellOk (cells cell) s cell

theorem ObjectOk.within {cells : Cell → Option V}
    {o' : Object} (ok : ObjectOk cells s o') (within : Within o s s') (other : o ≠ some o') :
    ObjectOk cells s' o' := by
  cases o' with
  | mailqueue q =>
    show QueueOk (s'.mailqueue q).queued s' q
    rw [within.mailqueue q other]
    exact QueueOk.within ok within other
  | mailslot slot => exact SlotOk.within ok within other
  | cell cell => exact CellOk.within ok within other

structure Inv (cells : Cell → Option V) (s : State V) : Prop extends Sound s where
  object : ∀ o, ObjectOk cells s o

namespace Inv

variable {cells : Cell → Option V} {s s' : State V} {call : Call}

theorem touched (inv : Inv cells s) {o : Object} (sound : Sound s') (within : Within (some o) s s')
    (ok : ObjectOk cells s' o) : Inv cells s' where
  toSound := sound
  object := by
    intro o'
    by_cases same : o' = o
    · exact same ▸ ok
    · exact (inv.object o').within within fun other => same (Option.some.inj other).symm

theorem untouched (inv : Inv cells s) (sound : Sound s') (within : Within none s s') :
    Inv cells s' where
  toSound := sound
  object := fun o => (inv.object o).within within nofun

theorem aside (inv : Inv cells s) (aside : Aside s s') : Inv cells s' :=
  inv.untouched (inv.toSound.aside aside) (.of_aside aside)

theorem queue (inv : Inv cells s) (q : Nat) : QueueOk (s.mailqueue q).queued s q :=
  inv.object (.mailqueue q)

theorem slot (inv : Inv cells s) (slot : Nat) : SlotOk [] s slot := inv.object (.mailslot slot)

theorem cell (inv : Inv cells s) (cell : Cell) : CellOk (cells cell) s cell :=
  inv.object (.cell cell)

theorem block (inv : Inv cells s) (starting : Starting s call) : Inv cells (s.block call) where
  toSound := inv.toSound.block starting.toInFlight starting.unspent
  object := by
    have fewer : ∀ other, (s.block call).blocked other = true →
        s.blocked other = true ∨ other = call := by
      intro other alive
      rw [blocked_block] at alive
      split at alive
      · exact .inr ‹_›
      · exact .inl alive
    have still : ∀ {fate other}, Waits s other fate → (s.block call).blocked other = true →
        s.blocked other = true := by
      intro fate other waits alive
      rcases fewer other alive with before | rfl
      · exact before
      · exact absurd waits (starting.idle fate)
    have line : ∀ {α : Type} {queue : Queue (Entry α)} {o : Object} {mailop : α → BaseMailop V}
        {ends : Done V → Prop}, (∀ e ∈ queue.contents, Waits s e.call e.fate) →
        Line s o mailop ends (s.waiting queue) →
        Line (s.block call) o mailop ends ((s.block call).waiting queue) := by
      intro α queue o mailop ends kept line
      rw [waiting_frame fun e member => still (kept e member)]
      refine line.frame (fun other alive => ?_) (fun _ _ => .rfl) rfl
      rcases fewer other alive with before | rfl
      · exact .inl before
      · exact .inr (by simp [starting.awaits])
    intro o
    cases o with
    | mailqueue q =>
      have ok := inv.queue q
      refine ⟨ok.lossless, ok.nonempty, line ?_ ok.readers⟩
      intro e member
      rw [State.block_mailqueue] at member
      cases state : s.mailqueue q with
      | empty readers =>
        rw [state] at member
        exact .mailqueue state member
      | nonempty priority messages =>
        rw [state] at member
        cases member
    | mailslot slot =>
      have ok := inv.slot slot
      refine ⟨ok.priority, ok.meetings, line (fun e => Waits.inQ (s := s)) ok.takers,
        line (fun e => Waits.outQ (s := s)) ok.givers, ?_⟩
      intro e member e' member'
      rw [mem_waiting] at member member'
      exact ok.apart e (mem_waiting.mpr ⟨member.1, still (.inQ member.1) member.2⟩) e'
        (mem_waiting.mpr ⟨member'.1, still (.outQ member'.1) member'.2⟩)
    | cell cell =>
      have ok := inv.cell cell
      have same : (s.block call).waiting (s.maildrop cell).readQ =
          (s.waiting (s.maildrop cell).readQ).filter fun e => (s.block call).blocked e.call :=
        waiting_frame fun e member => still (.readQ member)
      refine ⟨⟨ok.plays, line (fun e => Waits.readQ (s := s)) ok.readers, ?_, ok.keeps⟩, ?_⟩
      · intro oneshot oneshot' e member
        exact ok.peeks oneshot oneshot' e
          (List.mem_filter.mp (same ▸ member : e ∈ List.filter _ _)).1
      · intro full
        rw [show (s.block call).maildrop = s.maildrop from rfl, same, ok.idle full]
        rfl

end Inv

end Threadkit
